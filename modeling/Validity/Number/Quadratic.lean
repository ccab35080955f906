/-!
Real values: the rationals, and the irrational numbers `a + √m` and `a - √m` for rational `a` and
`m`. Arithmetic is exact; it is partial, since the sum of two square roots can leave this set.
-/
namespace Validity

/-- A rational or a quadratic irrational. In `surd a s m` the root of `m` is added if `s` holds
and subtracted otherwise; `m` is positive and not the square of a rational. -/
inductive Quadratic where
  | rat (q : Rat)
  | surd (shift : Rat) (plus : Bool) (square : Rat)
  deriving DecidableEq, Repr, Hashable

namespace Quadratic

def ratSqrt? (q : Rat) : Option Rat :=
  let a := Nat.sqrt q.num.toNat
  let b := Nat.sqrt q.den
  if 0 ≤ q.num ∧ a * a = q.num.toNat ∧ b * b = q.den then some (mkRat a b) else none

def sign (plus : Bool) : Rat := if plus then 1 else -1

def make (a c m : Rat) : Quadratic :=
  if c = 0 then .rat a else .surd a (0 < c) (c * c * m)

def root (n : Int) : Quadratic :=
  match ratSqrt? n with
  | some r => .rat r
  | none => .surd 0 true n

def neg : Quadratic → Quadratic
  | .rat q => .rat (-q)
  | .surd a s m => .surd (-a) (!s) m

def add? : Quadratic → Quadratic → Option Quadratic
  | .rat p, .rat q => some (.rat (p + q))
  | .rat p, .surd a s m => some (.surd (p + a) s m)
  | .surd a s m, .rat p => some (.surd (a + p) s m)
  | .surd a s m, .surd b t n =>
    (ratSqrt? (m / n)).map fun k => make (a + b) (sign s * k + sign t) n

def mul? : Quadratic → Quadratic → Option Quadratic
  | .rat p, .rat q => some (.rat (p * q))
  | .rat p, .surd a s m => some (make (p * a) (p * sign s) m)
  | .surd a s m, .rat p => some (make (a * p) (sign s * p) m)
  | .surd a s m, .surd b t n =>
    match ratSqrt? (m / n) with
    | some k => some (make (a * b + sign s * sign t * k * n) (a * sign t + b * sign s * k) n)
    | none => if a = 0 ∧ b = 0 then some (.surd 0 (s == t) (m * n)) else none

def inv : Quadratic → Quadratic
  | .rat q => .rat q.inv
  | .surd a s m => make (a / (a * a - m)) (-(sign s) / (a * a - m)) m

def isNegative : Quadratic → Bool
  | .rat q => q < 0
  | .surd a s m => if s then a < 0 && m < a * a else a ≤ 0 || a * a < m

/-- `x < y`. For roots of different kinds the two sides of `a ± √m < ±√n` are compared by sign,
then by square. -/
def lt (x y : Quadratic) : Bool :=
  match add? x (neg y), x, y with
  | some d, _, _ => d.isNegative
  | none, .surd a s m, .surd b t n =>
    let left := Quadratic.surd (a - b) s m
    let c := a - b
    let squares := make (c * c + m - n) (2 * c * sign s) m
    if left.isNegative then !(t == false && squares.isNegative)
    else t && squares.isNegative
  | none, _, _ => false

def le (x y : Quadratic) : Bool := !lt y x

/-- The greatest integer that is not above the number. The guess from the integer root of `m` is
wrong by two at most. -/
def floor : Quadratic → Int
  | .rat q => q.floor
  | .surd a s m =>
    let r : Int := Nat.sqrt m.floor.toNat
    let guess := if s then a.floor + r else a.floor - r
    let x := Quadratic.surd a s m
    let near : List Int := [guess + 2, guess + 1, guess, guess - 1, guess - 2]
    (near.find? fun n : Int => le (.rat n) x).getD guess

def polynomial (a m : Rat) : Int × Int × Int :=
  let b := -2 * a
  let c := a * a - m
  let l := Nat.lcm b.den c.den
  (l, (b * l).num, (c * l).num)

def decimals (places : Nat) (x : Quadratic) : String :=
  let y := if x.isNegative then neg x else x
  let scaled := ((mul? y (.rat (Nat.pow 10 places))).getD y).floor.toNat
  let ds := Nat.toDigits 10 scaled
  let full := List.replicate (places + 1 - ds.length) '0' ++ ds
  (if x.isNegative then "-" else "") ++ String.ofList (full.take (full.length - places)) ++ "." ++
    String.ofList (full.drop (full.length - places))

end Quadratic
end Validity
