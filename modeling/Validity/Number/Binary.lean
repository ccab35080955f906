/-!
Binary floating-point numbers of 53 bits, as exact rationals with a sign. Reading rounds to the
nearest such number, ties to the even one; writing uses the exact value.
-/
namespace Validity

inductive Binary where
  | finite (negative : Bool) (magnitude : Rat)
  | infinite (negative : Bool)
  | undefined
  deriving DecidableEq, Repr

namespace Binary

def zero : Binary := .finite false 0

def pow2 (e : Int) : Rat :=
  if 0 ≤ e then (Nat.pow 2 e.toNat : Rat) else mkRat 1 (Nat.pow 2 (-e).toNat)

def pow10 (e : Int) : Rat :=
  if 0 ≤ e then (Nat.pow 10 e.toNat : Rat) else mkRat 1 (Nat.pow 10 (-e).toNat)

/-- The nearest natural number to `q ≥ 0`, of two the even one. -/
def roundHalfEven (q : Rat) : Nat :=
  let n := q.floor.toNat
  let rest := q - n
  let half := mkRat 1 2
  if rest < half then n
  else if half < rest then n + 1
  else if n % 2 = 0 then n else n + 1

/-- The exponent of the last bit of the number nearest to `q > 0`. -/
def lastBit (q : Rat) : Int :=
  let guess : Int := (Nat.log2 q.num.natAbs : Int) - (Nat.log2 q.den : Int) - 52
  let e := if q < pow2 (guess + 52) then guess - 1 else guess
  -- below the least normal number the last bit stays where it is
  max e (-1074)

def round (negative : Bool) (q : Rat) : Binary :=
  if q = 0 then .finite negative 0
  else
    let e := lastBit q
    let v := (roundHalfEven (q / pow2 e) : Rat) * pow2 e
    if pow2 1024 ≤ v then .infinite negative else .finite negative v

def ofInt (n : Int) : Binary :=
  round (n < 0) n.natAbs

def padded (width n : Nat) : List Char :=
  let ds := Nat.toDigits 10 n
  List.replicate (width - ds.length) '0' ++ ds

def signText (negative : Bool) : List Char :=
  if negative then ['-'] else []

def fixed (places : Nat) : Binary → String
  | .undefined => "nan"
  | .infinite s => String.ofList (signText s) ++ "inf"
  | .finite s q =>
    let n := roundHalfEven (q * pow10 places)
    let ds := padded (places + 1) n
    String.ofList (signText s ++ ds.take (ds.length - places) ++ '.' ::
      ds.drop (ds.length - places))

/-- The decimal `(n, p)`, meaning `n * 10 ^ p`, nearest to `q > 0` with `digits` digits. The digit
count of `q` before the point is guessed from below and corrected once. -/
def nearestDecimal (digits : Nat) (q : Rat) : Nat × Int :=
  let size : Int := (Nat.toDigits 10 q.num.natAbs).length - (Nat.toDigits 10 q.den).length
  let top := if pow10 size ≤ q then size + 1 else size
  let p := top - digits
  (roundHalfEven (q / pow10 p), p)

/-- The shortest decimal that reads back as the number `q > 0`; seventeen digits always do. -/
def shortest (q : Rat) : Nat × Int :=
  let candidates := (List.range 17).map fun k => nearestDecimal (k + 1) q
  (candidates.find? fun (n, p) => round false (n * pow10 p) == .finite false q).getD
    (nearestDecimal 17 q)

def exponentText (e : Int) : List Char :=
  'e' :: (if e < 0 then '-' else '+') :: padded 2 e.natAbs

def positional (ds : List Char) (point : Int) : List Char :=
  if point ≤ 0 then '0' :: '.' :: List.replicate (-point).toNat '0' ++ ds
  else if ds.length ≤ point.toNat then
    ds ++ List.replicate (point.toNat - ds.length) '0' ++ ['.', '0']
  else ds.take point.toNat ++ '.' :: ds.drop point.toNat

/-- The fewest digits that read back. Numbers from 0.0001 below 10 ^ 16 are written positionally,
with at least one decimal; others in scientific notation. -/
def text : Binary → String
  | .undefined => "nan"
  | .infinite s => String.ofList (signText s) ++ "inf"
  | .finite s q =>
    if q = 0 then String.ofList (signText s) ++ "0.0"
    else
      let (n, p) := shortest q
      let all := Nat.toDigits 10 n
      let ds := (all.reverse.dropWhile (· == '0')).reverse
      let e : Int := p + all.length - 1
      let body :=
        if -4 ≤ e && e < 16 then positional ds (e + 1)
        else
          match ds with
          | [] => []
          | [d] => d :: exponentText e
          | d :: rest => d :: '.' :: rest ++ exponentText e
      String.ofList (signText s ++ body)

end Binary
end Validity
