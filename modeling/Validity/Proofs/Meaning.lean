import Mathlib.Analysis.Real.Sqrt
import Validity.Model.Eval

/-!
What terms mean. An interpretation gives every symbol a function on values and says what a quotient
by zero is; a quantifier ranges over the interpretations that differ in its constants only. A model
can be read as the interpretation that has the default value wherever the model says nothing.
-/
namespace Validity

open scoped Classical

inductive Value where
  | bool (b : Bool)
  | int (n : Int)
  | real (x : ℝ)
  | bits (width : Nat) (v : BitVec width)

namespace Value

def ty : Value → Ty
  | .bool _ => .bool
  | .int _ => .int
  | .real _ => .real
  | .bits w _ => .bits w

def Holds (v : Value) : Prop := v = .bool true

noncomputable def ofProp (p : Prop) : Value := .bool (decide p)

@[simp]
theorem holds_ofProp (p : Prop) : (ofProp p).Holds ↔ p := by
  simp [Holds, ofProp]

def Less : Value → Value → Prop
  | .int m, .int n => m < n
  | .real x, .real y => x < y
  | _, _ => False

noncomputable def add : Value → Value → Value
  | .int m, .int n => .int (m + n)
  | .real x, .real y => .real (x + y)
  | v, _ => v

noncomputable def mul : Value → Value → Value
  | .int m, .int n => .int (m * n)
  | .real x, .real y => .real (x * y)
  | v, _ => v

noncomputable def neg : Value → Value
  | .int n => .int (-n)
  | .real x => .real (-x)
  | v => v

end Value

noncomputable def Quadratic.toReal : Quadratic → ℝ
  | .rat q => q
  | .surd a plus m => if plus then a + √m else a - √m

noncomputable def Literal.value : Literal → Value
  | .bool b => .bool b
  | .int n => .int n
  | .real x => .real x.toReal
  | .bits v w => .bits w (BitVec.ofNat w v)

/-- Literals stand for values of their sorts. -/
theorem Literal.value_ty (l : Literal) : l.value.ty = l.ty := by
  cases l <;> rfl

/-- The quotients and remainders by zero, which may be any numbers. -/
structure Quotients where
  realOverZero : ℝ → ℝ
  intOverZero : Op → Int → Int

namespace Quotients

def overInt (Q : Quotients) (o : Op) (f : Int → Int → Int) (m n : Int) : Value :=
  .int (if n = 0 then Q.intOverZero o m else f m n)

noncomputable def operate (Q : Quotients) : Op → List Value → Value
  | .and, vs => .ofProp (∀ v ∈ vs, v.Holds)
  | .or, vs => .ofProp (∃ v ∈ vs, v.Holds)
  | .not, [a] => .ofProp (¬ a.Holds)
  | .implies, [a, b] => .ofProp (a.Holds → b.Holds)
  | .xor, [a, b] => .ofProp (¬ (a.Holds ↔ b.Holds))
  | .eq, [a, b] => .ofProp (a = b)
  | .distinct, vs => .ofProp vs.Nodup
  | .ite, [c, a, b] => if c.Holds then a else b
  | .lt, [a, b] => .ofProp (a.Less b)
  | .gt, [a, b] => .ofProp (b.Less a)
  | .le, [a, b] => .ofProp (a.Less b ∨ a = b)
  | .ge, [a, b] => .ofProp (b.Less a ∨ a = b)
  | .add, a :: vs => vs.foldl Value.add a
  | .mul, a :: vs => vs.foldl Value.mul a
  | .sub, [a, b] | .neg, [a, b] => a.add b.neg
  | .sub, [a] | .neg, [a] => a.neg
  | .idiv, [.int m, .int n] => Q.overInt .idiv quotient m n
  | .mod, [.int m, .int n] => Q.overInt .mod modulo m n
  | .rem, [.int m, .int n] => Q.overInt .rem remainder m n
  | .div, [.real x, .real y] => .real (if y = 0 then Q.realOverZero x else x / y)
  | .toReal, [.int n] => .real n
  | .toInt, [.real x] => .int ⌊x⌋
  | .isInt, [.real x] => .ofProp (∃ n : Int, x = n)
  | _, _ => .bool false

end Quotients

structure Interp extends Quotients where
  apply : Symbol → List Value → Value
  ranged : ∀ f vs, (apply f vs).ty = f.range

/-- The other interpretation differs in the listed constants at most. -/
structure Interp.AgreesOff (vars : List Symbol) (I J : Interp) : Prop where
  apply : ∀ f vs, f ∉ vars ∨ vs ≠ [] → J.apply f vs = I.apply f vs
  quotients : J.toQuotients = I.toQuotients

mutual

noncomputable def Term.value : Term → Interp → Value
  | .lit l, _ => l.value
  | .app f args, I => I.apply f (Term.values args I)
  | .op o args, I => I.operate o (Term.values args I)
  | .quant .all vars body, I => .ofProp (∀ J, I.AgreesOff vars J → (Term.value body J).Holds)
  | .quant .ex vars body, I => .ofProp (∃ J, I.AgreesOff vars J ∧ (Term.value body J).Holds)

noncomputable def Term.values : List Term → Interp → List Value
  | [], _ => []
  | t :: ts, I => Term.value t I :: Term.values ts I

end

theorem Interp.values_eq_map (I : Interp) (ts : List Term) :
    Term.values ts I = ts.map (·.value I) := by
  induction ts with
  | nil => rfl
  | cons t ts ih => rw [Term.values, ih, List.map_cons]

def Interp.Satisfies (I : Interp) (t : Term) : Prop := (t.value I).Holds

def Satisfiable (ts : List Term) : Prop := ∃ I : Interp, ∀ t ∈ ts, I.Satisfies t

/-- A formula holds or its negation does, and not both. -/
theorem Interp.satisfies_not (I : Interp) (t : Term) : I.Satisfies t.not ↔ ¬ I.Satisfies t := by
  simp [Interp.Satisfies, Term.not, Term.value, Term.values, Quotients.operate]

noncomputable def Table.meaning (t : Table) (vs : List Value) : Value :=
  match t.entries.find? fun e => decide (e.1.map Literal.value = vs) with
  | some e => e.2.value
  | none => t.otherwise.value

noncomputable def Model.meaning? (m : Model) (f : Symbol) (vs : List Value) : Option Value :=
  match m.interpretation? f with
  | some (.constant l) => some l.value
  | some (.function t) => some (t.meaning vs)
  | none => none

/-- A model as an interpretation. Where it has no value of the right sort, the default one counts,
and quotients by zero are zero. -/
noncomputable def Model.interp (m : Model) : Interp where
  apply f vs := ((m.meaning? f vs).filter fun v => v.ty = f.range).getD f.range.default.value
  ranged f vs := by
    rcases Option.eq_none_or_eq_some ((m.meaning? f vs).filter fun v => v.ty = f.range)
      with hn | ⟨v, hv⟩
    · rw [hn, Option.getD_none, Literal.value_ty]
      cases f.range <;> rfl
    · rw [hv]
      exact of_decide_eq_true (Option.filter_eq_some_iff.mp hv).2
  realOverZero _ := 0
  intOverZero _ _ := 0

end Validity
