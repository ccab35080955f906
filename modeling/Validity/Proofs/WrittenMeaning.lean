import Mathlib.Analysis.Real.Sqrt
import Mathlib.Data.Set.Card
import Validity.Proofs.Expressions
import Validity.Proofs.Meaning
import Validity.Proofs.Numerals

/-!
What a written problem means. A solver knows names and no symbols: a naming gives every name a
function on values, and a problem is satisfied by a naming that keeps to its declarations and makes
its assertions true. A name may stand between bars or not; the words of the language, such as those
of the operators, are no names.
-/
namespace Validity

open scoped Classical

def unescaped : List Char → List Char
  | '\\' :: c :: cs => c :: unescaped cs
  | c :: cs => c :: unescaped cs
  | [] => []

/-- The name that a word stands for: bars around it do not belong to it. -/
def wordName (w : List Char) : List Char :=
  if isBarredName w then unescaped w.tail.dropLast else w

def Op.every : List Op :=
  [.and, .or, .not, .implies, .xor, .eq, .distinct, .ite, .lt, .le, .gt, .ge, .add, .sub, .mul,
    .neg, .idiv, .mod, .rem, .div, .toReal, .toInt, .isInt]

def Op.ofName? (n : List Char) : Option Op := Op.every.find? fun o => o.text.toList = n

def Quantifier.ofName? (n : List Char) : Option Quantifier :=
  if n = "forall".toList then some .all else if n = "exists".toList then some .ex else none

def rootName : List Char := "root-obj".toList

def reservedNames : List (List Char) :=
  ["true".toList, "false".toList, "forall".toList, "exists".toList, rootName] ++
    Op.every.map fun o => o.text.toList

def spelled (base : Nat) (ds : List Char) : Nat :=
  ds.foldl (fun n c => base * n + if c.isDigit then c.toNat - 48 else c.toNat - 87) 0

noncomputable def number? (whole : List Char) : List Char → Option Value
  | [] => some (.int (Text.digitsValue whole))
  | '.' :: ds => some (.real (Text.digitsValue (whole ++ ds) / 10 ^ ds.length))
  | _ => none

noncomputable def constant? (w : List Char) : Option Value :=
  match w with
  | '#' :: 'x' :: ds => some (.bits (4 * ds.length) (.ofNat _ (spelled 16 ds)))
  | '#' :: 'b' :: ds => some (.bits ds.length (.ofNat _ (spelled 2 ds)))
  | _ =>
    let whole := w.takeWhile Char.isDigit
    if wordName w = "true".toList then some (.bool true)
    else if wordName w = "false".toList then some (.bool false)
    else if whole = [] then none
    else number? whole (w.dropWhile Char.isDigit)

/-- Names as functions on values. The sort of a result depends on those of the arguments only. -/
structure Naming extends Quotients where
  apply : List Char → List Value → Value
  sorted : ∀ n us vs, us.map Value.ty = vs.map Value.ty → (apply n us).ty = (apply n vs).ty

namespace Expression

def sort? : Expression → Option Ty
  | .word w =>
    if w = "Bool".toList then some .bool
    else if w = "Int".toList then some .int
    else if w = "Real".toList then some .real
    else none
  | .node [.word u, .word b, .word n] =>
    if u = "_".toList ∧ b = "BitVec".toList then some (.bits (Text.digitsValue n)) else none
  | .node _ => none

def binder? : Expression → Option (List Char × Ty)
  | .node [.word w, s] => s.sort?.map fun ty => (wordName w, ty)
  | _ => none

def binders : Expression → List (List Char × Ty)
  | .node bs => bs.filterMap binder?
  | .word _ => []

mutual

noncomputable def eval (r : ℝ) : Expression → ℝ
  | .word w => if w = ['x'] then r else Text.digitsValue w
  | .node [.word ['-'], e] => -eval r e
  | .node [.word ['^'], e, .word k] => eval r e ^ Text.digitsValue k
  | .node (.word ['+'] :: es) => (evalAll r es).sum
  | .node (.word ['*'] :: es) => (evalAll r es).prod
  | .node _ => 0

noncomputable def evalAll (r : ℝ) : List Expression → List ℝ
  | [] => []
  | e :: es => eval r e :: evalAll r es

end

/-- The number is the root of the polynomial below which there are `k - 1` others. -/
def IsRoot (p : Expression) (k : Nat) (r : ℝ) : Prop :=
  p.eval r = 0 ∧ {s | p.eval s = 0 ∧ s < r}.ncard + 1 = k

noncomputable def root (p : Expression) (k : Nat) : ℝ :=
  if h : ∃ r, p.IsRoot k r then h.choose else 0

end Expression

namespace Naming

structure Rebinds (bs : List (List Char × Ty)) (N M : Naming) : Prop where
  apply : ∀ n vs, n ∉ bs.map (·.1) ∨ vs ≠ [] → M.apply n vs = N.apply n vs
  sorted : ∀ b ∈ bs, (M.apply b.1 []).ty = b.2
  quotients : M.toQuotients = N.toQuotients

noncomputable def applied (N : Naming) (w : List Char) (vs : List Value) : Value :=
  match Op.ofName? (wordName w) with
  | some o => N.operate o vs
  | none => N.apply (wordName w) vs

end Naming

namespace Expression

def applied (w : List Char) (es : List Expression) : Expression :=
  if es.isEmpty then .word w else .node (.word w :: es)

end Expression

mutual

noncomputable def Expression.value : Expression → Naming → Value
  | .word w, N => (constant? w).getD (N.applied w [])
  | .node [.word w, d, e], N =>
    match Quantifier.ofName? (wordName w) with
    | some .all => .ofProp (∀ M, N.Rebinds d.binders M → (Expression.value e M).Holds)
    | some .ex => .ofProp (∃ M, N.Rebinds d.binders M ∧ (Expression.value e M).Holds)
    | none =>
      if wordName w = rootName then .real (d.root (Text.digitsValue e.text))
      else N.applied w [Expression.value d N, Expression.value e N]
  | .node (.word w :: es), N => N.applied w (Expression.values es N)
  | .node _, _ => .bool false

noncomputable def Expression.values : List Expression → Naming → List Value
  | [], _ => []
  | e :: es, N => Expression.value e N :: Expression.values es N

end

theorem Expression.values_eq_map (es : List Expression) (N : Naming) :
    Expression.values es N = es.map (·.value N) := by
  induction es with
  | nil => rfl
  | cons e es ih => rw [Expression.values, ih, List.map_cons]

/-- A word that starts with no digit and no number sign is no constant, unless it is a truth
value. -/
theorem constant?_eq_none (w : List Char) (hdigit : w.head?.any Char.isDigit = false)
    (hsign : w.head? ≠ some '#') (ht : wordName w ≠ "true".toList)
    (hf : wordName w ≠ "false".toList) : constant? w = none := by
  have hwhole : w.takeWhile Char.isDigit = [] := by
    cases w with
    | nil => rfl
    | cons c cs => simpa using hdigit
  unfold constant?
  split
  · exact absurd rfl hsign
  · exact absurd rfl hsign
  · rw [if_neg ht, if_neg hf, if_pos hwhole]

/-- A word that neither binds nor makes a root has the value of an application. -/
theorem Expression.value_node (w : List Char) (es : List Expression) (N : Naming)
    (hq : Quantifier.ofName? (wordName w) = none) (hr : wordName w ≠ rootName) :
    (Expression.node (.word w :: es)).value N = N.applied w (es.map (·.value N)) := by
  match es with
  | [] => rw [Expression.value, Expression.values_eq_map]; simp
  | [e] => rw [Expression.value, Expression.values_eq_map]; simp
  | [d, e] => simp [Expression.value, hq, hr]
  | d :: e :: e' :: es => rw [Expression.value, Expression.values_eq_map]; simp

theorem Expression.value_applied (w : List Char) (es : List Expression) (N : Naming)
    (hc : constant? w = none) (hq : Quantifier.ofName? (wordName w) = none)
    (hr : wordName w ≠ rootName) :
    (Expression.applied w es).value N = N.applied w (es.map (·.value N)) := by
  unfold Expression.applied
  cases es with
  | nil => simp [Expression.value, hc]
  | cons e es => exact Expression.value_node w (e :: es) N hq hr

/-- The naming keeps to a declaration, or makes an assertion true. Other commands ask nothing. -/
def Naming.Obeys (N : Naming) : Expression → Prop
  | .node [.word c, .word f, .node domain, range] => c = "declare-fun".toList →
    ∀ vs, domain.mapM Expression.sort? = some (vs.map Value.ty) →
      range.sort? = some (N.apply (wordName f) vs).ty
  | .node [.word c, e] => c = "assert".toList → (e.value N).Holds
  | _ => True

/-- An assertion asks that its expression be true, whatever the expression is. -/
theorem Naming.obeys_assert_iff (N : Naming) (e : Expression) :
    N.Obeys (.node [.word "assert".toList, e]) ↔ (e.value N).Holds := by
  have hobeys : N.Obeys (.node [.word "assert".toList, e]) =
      ("assert".toList = "assert".toList → (e.value N).Holds) := by
    cases e <;> rfl
  rw [hobeys]
  exact ⟨fun h => h rfl, fun h _ => h⟩

/-- No naming obeys all the commands that are read from the text. -/
def Unsatisfiable (text : String) : Prop :=
  ∀ commands, readExpressions text.toList = some commands →
    ¬ ∃ N : Naming, ∀ c ∈ commands, N.Obeys c

end Validity
