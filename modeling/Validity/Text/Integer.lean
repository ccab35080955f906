import Validity.Text.Blank
import Validity.Text.Quoted

/-!
Integers in decimal text: padding, a sign, then digits of any script, with single underscores
between them. A run of more than 4300 digits is refused, whatever stands behind it. The digits are
those of the general category Nd of Unicode 14; the ten of a script are consecutive code points, so
a table of the zeros is enough.
-/
namespace Validity.Text

def decimalZeros : List Nat :=
  [0x30, 0x660, 0x6F0, 0x7C0, 0x966, 0x9E6, 0xA66, 0xAE6, 0xB66, 0xBE6, 0xC66, 0xCE6, 0xD66,
    0xDE6, 0xE50, 0xED0, 0xF20, 0x1040, 0x1090, 0x17E0, 0x1810, 0x1946, 0x19D0, 0x1A80, 0x1A90,
    0x1B50, 0x1BB0, 0x1C40, 0x1C50, 0xA620, 0xA8D0, 0xA900, 0xA9D0, 0xA9F0, 0xAA50, 0xABF0,
    0xFF10, 0x104A0, 0x10D30, 0x11066, 0x110F0, 0x11136, 0x111D0, 0x112F0, 0x11450, 0x114D0,
    0x11650, 0x116C0, 0x11730, 0x118E0, 0x11950, 0x11C50, 0x11D50, 0x11DA0, 0x16A60, 0x16AC0,
    0x16B50, 0x1D7CE, 0x1D7D8, 0x1D7E2, 0x1D7EC, 0x1D7F6, 0x1E140, 0x1E2F0, 0x1E950, 0x1FBF0]

def digitValue? (c : Char) : Option Nat :=
  (decimalZeros.find? fun z => z ≤ c.toNat && c.toNat < z + 10).map (c.toNat - ·)

def isDigit (c : Char) : Bool :=
  (digitValue? c).isSome

/-- The number that a run of digits spells; other characters count as zero. -/
def digitsValue (s : List Char) : Nat :=
  s.foldl (fun v c => 10 * v + (digitValue? c).getD 0) 0

/-- The most digits that are read; leading zeros count, the sign and underscores do not. -/
def digitLimit : Nat := 4300

inductive IntegerFault where
  | tooLong (digits : Nat)
  | malformed (text : String)
  deriving DecidableEq, Repr

def IntegerFault.message : IntegerFault → String
  | .tooLong n => "Exceeds the limit (" ++ toString digitLimit ++
      " digits) for integer string conversion: value has " ++ toString n ++
      " digits; use sys.set_int_max_str_digits() to increase the limit"
  | .malformed s => "invalid literal for int() with base 10: " ++
      String.ofList ((quote s.toList).take 200)

/-- What may stand around an integer: a blank other than the information separators. -/
def isPadding (c : Char) : Bool :=
  isBlank c && !(0x1C ≤ c.toNat && c.toNat ≤ 0x1F)

def isNumeric (c : Char) : Bool :=
  isDigit c || c == '_'

def isDigitRun : List Char → Bool
  | [] => false
  | [c] => isDigit c
  | c :: '_' :: cs => isDigit c && isDigitRun cs
  | c :: cs => isDigit c && isDigitRun cs

def splitSign : List Char → Bool × List Char
  | '-' :: cs => (true, cs)
  | '+' :: cs => (false, cs)
  | cs => (false, cs)

def limitedInteger (negative : Bool) (digits : List Char) : Except IntegerFault Int :=
  if digitLimit < digits.length then .error (.tooLong digits.length)
  else
    let v : Int := digitsValue digits
    .ok (if negative then -v else v)

def readInteger (text : String) : Except IntegerFault Int :=
  let (negative, body) := splitSign (text.toList.dropWhile isPadding)
  let run := body.takeWhile isNumeric
  if !isDigitRun run then .error (.malformed text)
  else
    -- too many digits are reported before anything that stands behind them
    match limitedInteger negative (run.filter isDigit) with
    | .error e => .error e
    | .ok n => if (body.dropWhile isNumeric).all isPadding then .ok n else .error (.malformed text)

def limitedDecimal (n : Int) : Except IntegerFault Int :=
  limitedInteger (n < 0) (Nat.toDigits 10 n.natAbs)

end Validity.Text
