import Validity.Error

/-!
Exact values of terms. Nothing is approximated: a term that has not the expected shape is an
error. Numerals pass through decimal text, so the limit on digits holds for them.
-/
namespace Validity

def after? : List Char → List Char → Option (List Char)
  | [], s => some s
  | _ :: _, [] => none
  | a :: front, c :: cs => if a = c then after? front cs else none

def digitRun? (s : List Char) : Option (List Char × List Char) :=
  if (s.takeWhile Text.isDigit).isEmpty then none
  else some (s.takeWhile Text.isDigit, s.dropWhile Text.isDigit)

structure Quotient where
  negative : Bool
  numerator : List Char
  denominator : List Char

def Quotient.parse? (s : List Char) : Option Quotient := do
  let s ← after? "(/ ".toList s
  -- a minus sign stands right before the digits, not in parentheses of its own
  let (negative, s) := match s with
    | '-' :: cs => (true, cs)
    | cs => (false, cs)
  let (n, s) ← digitRun? s
  let s ← after? ".0 ".toList s
  let (d, s) ← digitRun? s
  let s ← after? ".0)".toList s
  if s.isEmpty then some ⟨negative, n, d⟩ else none

def readQuotient (text : String) (term : Option Term) : Except Error Rat :=
  match Quotient.parse? (Text.trim text.toList) with
  | none => .error (.unreadable (.notQuotient text) term)
  | some q => do
    let n ← (Text.limitedInteger q.negative q.numerator).mapError .numeral
    let d ← (Text.limitedInteger false q.denominator).mapError .numeral
    if d = 0 then .error (.unreadable (.zeroDenominator text) term)
    else .ok (mkRat n d.toNat)

namespace Term

def readBool : Term → Except Error Bool
  | .lit (.bool b) => .ok b
  | t => .error (.unreadable (.notBool t) (some t))

def readInt : Term → Except Error Int
  | .lit (.int n) => (Text.limitedDecimal n).mapError .numeral
  | t => .error (.unreadable (.notInt t) (some t))

def readRational : Term → Except Error Rat
  | .lit (.real (.rat q)) => do
    let n ← (Text.limitedDecimal q.num).mapError .numeral
    let d ← (Text.limitedDecimal q.den).mapError .numeral
    return mkRat n d.toNat
  | .lit (.int n) => do
    let n ← (Text.limitedDecimal n).mapError .numeral
    return n
  | t => readQuotient t.smtlib (some t)

end Term
end Validity
