import Mathlib
import Validity.Proofs.Wording
import Validity.Proofs.WrittenLiterals

/-!
Legible problems. A solver reads a problem as it was meant if every word in it that stands for a
symbol is a name of its own: no word of the language, and no two symbols with the same name. Then
the problem is read as the commands that were written, and every interpretation of the symbols is
one of the names, under which the assertions have the values of the formulas.
-/
namespace Validity

def Ty.expression : Ty → Expression
  | .bits w => .node [.word ['_'], .word "BitVec".toList, .decimal w]
  | ty => .word ty.text.toList

namespace Term

mutual

def expression (scope : Scope) : Term → Expression
  | .lit l => .literal l
  | .app f [] => .word (scope.text f).toList
  | .app f args => .applied (symbolText f.name).toList (expressions scope args)
  | .op o args => .applied o.text.toList (expressions scope args)
  | .quant q vars body =>
    let inner := vars.foldl Scope.bind scope
    .node [.word q.text.toList,
      .node ((inner.take vars.length).reverse.map fun p =>
        .node [.word p.2.toList, p.1.range.expression]),
      expression inner body]

def expressions (scope : Scope) : List Term → List Expression
  | [] => []
  | t :: ts => expression scope t :: expressions scope ts

end

mutual

/-- The words that stand for symbols in a term, each with its symbol. -/
def words (scope : Scope) : Term → List (Symbol × List Char)
  | .lit _ => []
  | .app f [] => [(f, (scope.text f).toList)]
  | .app f args => (f, (symbolText f.name).toList) :: wordsIn scope args
  | .op _ args => wordsIn scope args
  | .quant _ vars body =>
    let inner := vars.foldl Scope.bind scope
    (inner.take vars.length).map (fun p => (p.1, p.2.toList)) ++ words inner body

def wordsIn (scope : Scope) : List Term → List (Symbol × List Char)
  | [] => []
  | t :: ts => words scope t ++ wordsIn scope ts

end

mutual

def literals : Term → List Literal
  | .lit l => [l]
  | .app _ args | .op _ args => literalsIn args
  | .quant _ _ body => literals body

def literalsIn : List Term → List Literal
  | [] => []
  | t :: ts => literals t ++ literalsIn ts

end

theorem expressions_eq_map (scope : Scope) (ts : List Term) :
    expressions scope ts = ts.map (expression scope) := by
  induction ts with
  | nil => rfl
  | cons t ts ih => rw [expressions, ih, List.map_cons]

theorem words_subset_wordsIn (scope : Scope) (ts : List Term) (t : Term) (ht : t ∈ ts) :
    t.words scope ⊆ wordsIn scope ts := by
  induction ts with
  | nil => exact absurd ht List.not_mem_nil
  | cons u ts ih =>
    rw [wordsIn]
    rcases List.mem_cons.mp ht with rfl | ht
    · exact List.subset_append_left _ _
    · exact List.subset_append_of_subset_right _ (ih ht)

theorem literals_subset_literalsIn (ts : List Term) (t : Term) (ht : t ∈ ts) :
    t.literals ⊆ literalsIn ts := by
  induction ts with
  | nil => exact absurd ht List.not_mem_nil
  | cons u ts ih =>
    rw [literalsIn]
    rcases List.mem_cons.mp ht with rfl | ht
    · exact List.subset_append_left _ _
    · exact List.subset_append_of_subset_right _ (ih ht)

end Term

/-- Words for symbols that can be told apart from each other and from the words of the language. -/
structure Distinct (ws : List (Symbol × List Char)) : Prop where
  named : ∀ p ∈ ws, (isPlainName p.2 || isBarredName p.2) = true
  free : ∀ p ∈ ws, wordName p.2 ∉ reservedNames
  apart : ∀ p ∈ ws, ∀ q ∈ ws, wordName p.2 = wordName q.2 → p.1 = q.1

instance (ws : List (Symbol × List Char)) : Decidable (Distinct ws) :=
  decidable_of_iff ((∀ p ∈ ws, (isPlainName p.2 || isBarredName p.2) = true) ∧
    (∀ p ∈ ws, wordName p.2 ∉ reservedNames) ∧
    ∀ p ∈ ws, ∀ q ∈ ws, wordName p.2 = wordName q.2 → p.1 = q.1)
    ⟨fun h => ⟨h.1, h.2.1, h.2.2⟩, fun h => ⟨h.named, h.free, h.apart⟩⟩

/-- Among words that can be told apart, a name finds its symbol. -/
theorem Distinct.find?_name {ws : List (Symbol × List Char)} (hws : Distinct ws) {α : Type}
    (l : List α) (word : α → Symbol × List Char) (hl : ∀ y ∈ l, word y ∈ ws) (x : α)
    (hx : x ∈ l) :
    (l.find? fun y => wordName (word y).2 = wordName (word x).2).map (fun y => (word y).1) =
      some (word x).1 := by
  cases hfind : l.find? fun y => wordName (word y).2 = wordName (word x).2 with
  | none => exact absurd (List.find?_eq_none.mp hfind x hx) (by simp)
  | some y =>
    have hname : wordName (word y).2 = wordName (word x).2 := by simpa using List.find?_some hfind
    have hy := hl y (List.mem_of_find?_eq_some hfind)
    exact congrArg some (hws.apart _ hy _ (hl x hx) hname)

section Texts

theorem Ty.text_expression (ty : Ty) : ty.expression.text = ty.text.toList := by
  cases ty with
  | bits w =>
    rw [Ty.expression, Expression.text_node_triple]
    simp [Ty.text, Expression.decimal]
  | bool | int | real => rfl

theorem Expression.text_applied (head : String) (es : List Expression) (args : List String)
    (h : es.map Expression.text = args.map String.toList) :
    (Expression.applied head.toList es).text = (Validity.applied head args).toList := by
  unfold Expression.applied Validity.applied
  have hempty : es.isEmpty = args.isEmpty := by
    have hlength := congrArg List.length h
    rw [List.length_map, List.length_map] at hlength
    cases es <;> cases args <;> simp_all
  rw [hempty]
  split_ifs
  · rfl
  · rw [Expression.text, Expression.texts_eq_map, List.map_cons, Expression.text_word, h]
    simp [String.toList_intercalate]

/-- The expression of a term is written as the term is. -/
theorem Term.text_expression (t : Term) (scope : Scope) :
    (t.expression scope).text = (t.smtlibIn scope).toList := by
  induction t using Term.induction generalizing scope with
  | lit l => exact Expression.text_literal l
  | app f args ih =>
    cases args with
    | nil => rfl
    | cons a args =>
      apply Expression.text_applied
      rw [Term.expressions_eq_map, Term.smtlibAll_eq_map, List.map_map, List.map_map]
      exact List.map_congr_left fun b hb => ih b hb scope
  | op o args ih =>
    apply Expression.text_applied
    rw [Term.expressions_eq_map, Term.smtlibAll_eq_map, List.map_map, List.map_map]
    exact List.map_congr_left fun b hb => ih b hb scope
  | quant q vars body ih =>
    rw [Term.expression, Term.smtlibIn, Expression.text_node_triple, ih]
    have hbinders (l : List (Symbol × String)) :
        (Expression.node (l.map fun p => .node [.word p.2.toList, p.1.range.expression])).text =
          ("(" ++ " ".intercalate (l.map fun p => "(" ++ p.2 ++ " " ++ p.1.range.text ++ ")") ++
            ")").toList := by
      rw [Expression.text, Expression.texts_eq_map, List.map_map]
      simp [String.toList_intercalate, Function.comp_def, Expression.text_node_pair,
        Ty.text_expression]
    rw [hbinders]
    simp

/-- What is written for a name can be read as one word. -/
theorem isToken_of_named (w : List Char) (h : (isPlainName w || isBarredName w) = true) :
    isToken w = true := by
  rcases Bool.or_eq_true _ _ |>.mp h with hplain | hbarred
  · simp only [isPlainName, Bool.and_eq_true] at hplain
    have hall : w.all isWordChar = true := by
      rw [List.all_eq_true]
      intro c hc
      rw [isWordChar, List.all_eq_true.mp hplain.1.2 c hc, Bool.true_or]
    rw [isToken, hplain.1.1, hall]
    rfl
  · rw [isToken, hbarred, Bool.or_true]

theorem Expression.proper_applied (w : List Char) (hw : isToken w = true) (es : List Expression)
    (hes : ∀ e ∈ es, e.Proper) : (Expression.applied w es).Proper := by
  unfold Expression.applied
  split_ifs
  · exact .word w hw
  · exact .node _ (List.forall_mem_cons.mpr ⟨.word w hw, hes⟩)

theorem Ty.proper_expression (ty : Ty) : ty.expression.Proper := by
  cases ty with
  | bits w =>
    exact Expression.proper_triple _ _ _ (.word _ rfl)
      (Expression.proper_decimal w) rfl
  | bool | int | real => exact .word _ rfl

/-- What is written for a term can be read, if the words in it can. -/
theorem Term.proper_expression (t : Term) (scope : Scope)
    (h : ∀ p ∈ t.words scope, isToken p.2 = true) : (t.expression scope).Proper := by
  induction t using Term.induction generalizing scope with
  | lit l => exact Expression.proper_literal l
  | app f args ih =>
    cases args with
    | nil => exact .word _ (h (f, (scope.text f).toList) List.mem_cons_self)
    | cons a args =>
      apply Expression.proper_applied _ (h (f, (symbolText f.name).toList) List.mem_cons_self)
      rw [Term.expressions_eq_map]
      intro e he
      obtain ⟨b, hb, rfl⟩ := List.mem_map.mp he
      refine ih b hb scope fun p hp => h p ?_
      exact List.mem_cons_of_mem _ (Term.words_subset_wordsIn scope _ b hb hp)
  | op o args ih =>
    have hop : isToken o.text.toList = true := by cases o <;> decide
    apply Expression.proper_applied _ hop
    rw [Term.expressions_eq_map]
    intro e he
    obtain ⟨b, hb, rfl⟩ := List.mem_map.mp he
    exact ih b hb scope fun p hp => h p (Term.words_subset_wordsIn scope args b hb hp)
  | quant q vars body ih =>
    have hq : isToken q.text.toList = true := by cases q <;> decide
    simp only [Term.words, List.forall_mem_append] at h
    refine Expression.proper_triple _ _ _ (.node _ fun e he => ?_) (ih _ h.2) hq
    obtain ⟨p, hp, rfl⟩ := List.mem_map.mp he
    have hword := h.1 (p.1, p.2.toList) (List.mem_map.mpr ⟨p, List.mem_reverse.mp hp, rfl⟩)
    exact Expression.proper_pair _ _ p.1.range.proper_expression hword

end Texts

section Values

theorem Quotients.operate_neg (Q : Quotients) (vs : List Value) :
    Q.operate .neg vs = Q.operate .sub vs := by
  match vs with
  | [] | [_] | [_, _] | _ :: _ :: _ :: _ => rfl

/-- Operators that are written alike mean the same. -/
theorem Naming.applied_op (N : Naming) (o : Op) (vs : List Value) :
    N.applied o.text.toList vs = N.operate o vs := by
  unfold Naming.applied
  cases o with
  | neg =>
    have hname : Op.ofName? (wordName Op.neg.text.toList) = some .sub := by decide
    rw [hname, N.operate_neg]
  | _ => rfl

/-- Operators are read as such, in front of whatever they stand. -/
theorem Expression.value_op (o : Op) (es : List Expression) (N : Naming) :
    (Expression.applied o.text.toList es).value N = N.operate o (es.map (·.value N)) := by
  have hhead : o.text.toList.head?.any Char.isDigit = false ∧ o.text.toList.head? ≠ some '#' ∧
      wordName o.text.toList ≠ "true".toList ∧ wordName o.text.toList ≠ "false".toList ∧
      Quantifier.ofName? (wordName o.text.toList) = none ∧
      wordName o.text.toList ≠ rootName := by
    cases o <;> decide
  obtain ⟨hdigit, hsign, ht, hf, hq, hr⟩ := hhead
  rw [Expression.value_applied _ _ _ (constant?_eq_none _ hdigit hsign ht hf) hq hr, N.applied_op]

/-- A word that stands for a symbol is taken for its name. -/
theorem Expression.value_name (w : List Char) (es : List Expression) (N : Naming)
    (hw : (isPlainName w || isBarredName w) = true) (hfree : wordName w ∉ reservedNames) :
    (Expression.applied w es).value N = N.apply (wordName w) (es.map (·.value N)) := by
  have hne (n : List Char) (hn : n ∈ reservedNames) : wordName w ≠ n := by
    rintro rfl
    exact hfree hn
  have hhead : w.head?.any Char.isDigit = false ∧ w.head? ≠ some '#' := by
    rcases Bool.or_eq_true _ _ |>.mp hw with hplain | hbarred
    · simp only [isPlainName, Bool.and_eq_true, Bool.not_eq_true'] at hplain
      refine ⟨hplain.2, fun hsign => ?_⟩
      have hchar := List.all_eq_true.mp hplain.1.2 '#' (List.mem_of_mem_head? hsign)
      exact absurd hchar (by decide)
    · obtain ⟨cs, rfl, -⟩ := (isBarredName_iff w).mp hbarred
      exact ⟨rfl, by simp⟩
  have hq : Quantifier.ofName? (wordName w) = none := by
    rw [Quantifier.ofName?, if_neg (hne _ (by decide)), if_neg (hne _ (by decide))]
  have hop : Op.ofName? (wordName w) = none := by
    rw [Op.ofName?, List.find?_eq_none]
    intro o ho heq
    refine hne _ (List.mem_append_right _ ?_) (of_decide_eq_true heq).symm
    exact List.mem_map.mpr ⟨o, ho, rfl⟩
  rw [Expression.value_applied _ _ _ (constant?_eq_none _ hhead.1 hhead.2 (hne _ (by decide))
    (hne _ (by decide))) hq (hne _ (by decide)), Naming.applied, hop]

theorem Ty.sort?_expression (ty : Ty) : ty.expression.sort? = some ty := by
  cases ty with
  | bits w =>
    have hsort : (Ty.bits w).expression.sort? =
      some (.bits (Text.digitsValue (toString w).toList)) := rfl
    rw [hsort, digitsValue_toString]
  | bool | int | real => rfl

end Values

section Binding

/-- The constants of a quantifier are bound in front of those around it. -/
theorem Scope.foldl_bind_eq (vars : List Symbol) (scope : Scope) :
    ∃ new : Scope, vars.foldl Scope.bind scope = new ++ scope ∧
      new.map (·.1) = vars.reverse := by
  induction vars generalizing scope with
  | nil => exact ⟨[], rfl, rfl⟩
  | cons v vars ih =>
    obtain ⟨new, hnew, hsymbols⟩ := ih (scope.bind v)
    refine ⟨new ++ [(v, scope.pick v)], ?_, by simp [hsymbols]⟩
    rw [List.foldl_cons, hnew, Scope.bind, List.append_assoc, List.singleton_append]

/-- A symbol that is not bound here is written as it is outside. -/
theorem Scope.text_append_of_not_mem (new scope : Scope) (f : Symbol)
    (hf : f ∉ new.map (·.1)) : Scope.text (new ++ scope) f = scope.text f := by
  have hnone : new.lookup f = none := by
    rw [List.lookup_eq_none_iff]
    intro p hp
    have hne : f ≠ p.1 := by
      rintro rfl
      exact hf (List.mem_map.mpr ⟨p, hp, rfl⟩)
    simpa using hne
  rw [Scope.text, Scope.text, List.lookup_append, hnone, Option.none_or]

/-- A symbol that is bound here is written as one of the names that were picked. -/
theorem Scope.text_append_of_mem (new scope : Scope) (f : Symbol) (hf : f ∈ new.map (·.1)) :
    (f, Scope.text (new ++ scope) f) ∈ new := by
  cases hlookup : new.lookup f with
  | none =>
    obtain ⟨p, hp, rfl⟩ := List.mem_map.mp hf
    exact absurd (List.lookup_eq_none_iff.mp hlookup p hp) (by simp)
  | some n =>
    obtain ⟨before, after, rfl, -⟩ := List.lookup_eq_some_iff.mp hlookup
    rw [Scope.text, List.lookup_append, hlookup]
    simp

/-- The order in which names are bound does not matter. -/
theorem Naming.rebinds_reverse_iff (N : Naming) (bs : List (List Char × Ty)) (M : Naming) :
    N.Rebinds bs.reverse M ↔ N.Rebinds bs M := by
  constructor
  · rintro ⟨happly, hsorted, hquotients⟩
    exact ⟨by simpa using happly, by simpa using hsorted, hquotients⟩
  · rintro ⟨happly, hsorted, hquotients⟩
    exact ⟨by simpa using happly, by simpa using hsorted, hquotients⟩

theorem bound_names (new : Scope) : (new.map fun p => (wordName p.2.toList, p.1.range)).map (·.1) =
    new.map fun p => wordName p.2.toList := by
  rw [List.map_map]
  rfl

theorem binders_written (new : Scope) :
    (Expression.node (new.map fun p => .node [.word p.2.toList, p.1.range.expression])).binders =
      new.map fun p => (wordName p.2.toList, p.1.range) := by
  rw [Expression.binders, List.filterMap_map]
  have hbinder : (Expression.binder? ∘ fun p : Symbol × String =>
      Expression.node [.word p.2.toList, p.1.range.expression]) =
        fun p => some (wordName p.2.toList, p.1.range) := by
    funext p
    simp only [Function.comp_apply, Expression.binder?, Ty.sort?_expression, Option.map_some]
  rw [hbinder]
  simp

structure Naming.Matches (ws : List (Symbol × List Char)) (scope : Scope) (I : Interp)
    (N : Naming) : Prop where
  functions : ∀ f, (f, (symbolText f.name).toList) ∈ ws → ∀ vs, vs ≠ [] →
    N.apply (wordName (symbolText f.name).toList) vs = I.apply f vs
  constants : ∀ f, (f, (scope.text f).toList) ∈ ws →
    N.apply (wordName (scope.text f).toList) [] = I.apply f []
  quotients : N.toQuotients = I.toQuotients

variable {ws : List (Symbol × List Char)} (hws : Distinct ws) {new scope : Scope}
  (hnew : ∀ p ∈ new, (p.1, p.2.toList) ∈ ws) {vars : List Symbol}
  (hvars : ∀ f, f ∈ vars ↔ f ∈ new.map (·.1))
include hws hnew hvars

/-- A word for a symbol that is not bound here has no name that is. -/
theorem Distinct.name_not_bound (f : Symbol) (hf : f ∉ vars) (w : List Char) (hw : (f, w) ∈ ws) :
    wordName w ∉ new.map fun p => wordName p.2.toList := by
  intro hmem
  obtain ⟨p, hp, hname⟩ := List.mem_map.mp hmem
  have hsame := hws.apart _ (hnew p hp) _ hw hname
  exact hf ((hvars f).mpr (List.mem_map.mpr ⟨p, hp, hsame⟩))

/-- Where names are bound and the values fit, the matching goes on inside. -/
theorem Naming.Matches.inside {I J : Interp} {N M : Naming} (h : N.Matches ws scope I)
    (hJ : I.AgreesOff vars J) (happly : ∀ n vs, (n ∉ new.map fun p => wordName p.2.toList) ∨
      vs ≠ [] → M.apply n vs = N.apply n vs) (hquotients : M.toQuotients = N.toQuotients)
    (hbound : ∀ f ∈ vars, M.apply (wordName (Scope.text (new ++ scope) f).toList) [] =
      J.apply f []) : M.Matches ws (new ++ scope) J := by
  refine ⟨fun f hf vs hvs => ?_, fun f hf => ?_, ?_⟩
  · rw [happly _ vs (.inr hvs), hJ.apply f vs (.inr hvs), h.functions f hf vs hvs]
  · by_cases hmem : f ∈ vars
    · exact hbound f hmem
    · have htext := Scope.text_append_of_not_mem new scope f (mt (hvars f).mpr hmem)
      rw [htext] at hf ⊢
      have hname := hws.name_not_bound hnew hvars f hmem _ hf
      rw [happly _ [] (.inl hname), hJ.apply f [] (.inl hmem), h.constants f hf]
  · rw [hquotients, hJ.quotients, h.quotients]

/-- Every choice for the bound names is one for the bound constants. -/
theorem Naming.Matches.exists_interp {I : Interp} {N M : Naming} (h : N.Matches ws scope I)
    (hM : N.Rebinds (new.map fun p => (wordName p.2.toList, p.1.range)) M) :
    ∃ J, I.AgreesOff vars J ∧ M.Matches ws (new ++ scope) J := by
  classical
  let J : Interp :=
    { I with
      apply f vs := if f ∈ vars ∧ vs = [] then
        M.apply (wordName (Scope.text (new ++ scope) f).toList) [] else I.apply f vs
      ranged f vs := by
        split_ifs with hf
        · have hmem := Scope.text_append_of_mem new scope f ((hvars f).mp hf.1)
          exact hM.sorted (_, f.range) (List.mem_map.mpr ⟨_, hmem, rfl⟩)
        · exact I.ranged f vs }
  have hJ : I.AgreesOff vars J := by
    refine ⟨fun f vs hf => if_neg ?_, rfl⟩
    rintro ⟨hmem, hvs⟩
    exact hf.elim (fun hnot => hnot hmem) fun hne => hne hvs
  refine ⟨J, hJ, h.inside hws hnew hvars hJ ?_ hM.quotients fun f hf => ?_⟩
  · rw [← bound_names]
    exact hM.apply
  · exact (if_pos ⟨hf, rfl⟩).symm

/-- Every choice for the bound constants is one for the bound names. -/
theorem Naming.Matches.exists_naming {I J : Interp} {N : Naming} (h : N.Matches ws scope I)
    (hJ : I.AgreesOff vars J) :
    ∃ M, N.Rebinds (new.map fun p => (wordName p.2.toList, p.1.range)) M ∧
      M.Matches ws (new ++ scope) J := by
  classical
  -- a bound name gets the value of the symbol that is written so
  let bound (n : List Char) : Option Symbol :=
    (new.find? fun p => wordName p.2.toList = n).map (·.1)
  have hbound (p : Symbol × String) (hp : p ∈ new) : bound (wordName p.2.toList) = some p.1 :=
    hws.find?_name new (fun q => (q.1, q.2.toList)) hnew p hp
  let M : Naming :=
    { N with
      apply n vs := if vs = [] then
        ((bound n).map fun f => J.apply f []).getD (N.apply n []) else N.apply n vs
      sorted n us vs huv := by
        cases us with
        | nil =>
          cases vs with
          | nil => rfl
          | cons v vs => simp at huv
        | cons u us =>
          cases vs with
          | nil => simp at huv
          | cons v vs => exact N.sorted n _ _ huv }
  have hMbound (p : Symbol × String) (hp : p ∈ new) :
      M.apply (wordName p.2.toList) [] = J.apply p.1 [] := by
    change (((bound (wordName p.2.toList)).map fun f => J.apply f []).getD _) = _
    rw [hbound p hp]
    rfl
  have happly (n : List Char) (vs : List Value)
      (hn : (n ∉ new.map fun p => wordName p.2.toList) ∨ vs ≠ []) :
      M.apply n vs = N.apply n vs := by
    change (if vs = [] then _ else _) = _
    split_ifs with hvs
    · have hnot := hn.resolve_right (not_not.mpr hvs)
      have hnone : bound n = none := by
        simp only [bound, Option.map_eq_none_iff, List.find?_eq_none]
        intro p hp hname
        exact hnot (List.mem_map.mpr ⟨p, hp, of_decide_eq_true hname⟩)
      rw [hnone, hvs]
      rfl
    · rfl
  refine ⟨M, ⟨?_, ?_, rfl⟩, h.inside hws hnew hvars hJ happly rfl fun f hf => ?_⟩
  · rw [bound_names]
    exact happly
  · intro b hb
    obtain ⟨p, hp, rfl⟩ := List.mem_map.mp hb
    rw [hMbound p hp]
    exact J.ranged p.1 []
  · have hmem := Scope.text_append_of_mem new scope f ((hvars f).mp hf)
    exact hMbound (f, Scope.text (new ++ scope) f) hmem

/-- Bound names go through the values that the bound constants go through. -/
theorem Naming.Matches.value_quant {I : Interp} {N : Naming} (h : N.Matches ws scope I)
    (q : Quantifier) (body : Term) (e : Expression)
    (hbody : ∀ M J, M.Matches ws (new ++ scope) J → e.value M = body.value J) :
    (Expression.node [.word q.text.toList,
      .node (new.reverse.map fun p => .node [.word p.2.toList, p.1.range.expression]), e]).value N =
        (Term.quant q vars body).value I := by
  have hbinders (M : Naming) : N.Rebinds (new.reverse.map fun p =>
      (wordName p.2.toList, p.1.range)) M ↔
        N.Rebinds (new.map fun p => (wordName p.2.toList, p.1.range)) M := by
    rw [List.map_reverse]
    exact N.rebinds_reverse_iff _ M
  cases q with
  | all =>
    have hname : Quantifier.ofName? (wordName Quantifier.all.text.toList) = some .all := by decide
    rw [Expression.value, hname, Term.value, binders_written]
    refine congrArg Value.ofProp (propext ⟨fun hall J hJ => ?_, fun hall M hM => ?_⟩)
    · obtain ⟨M, hM, hm⟩ := h.exists_naming hws hnew hvars hJ
      rw [← hbody M J hm]
      exact hall M ((hbinders M).mpr hM)
    · obtain ⟨J, hJ, hm⟩ := h.exists_interp hws hnew hvars ((hbinders M).mp hM)
      rw [hbody M J hm]
      exact hall J hJ
  | ex =>
    have hname : Quantifier.ofName? (wordName Quantifier.ex.text.toList) = some .ex := by decide
    rw [Expression.value, hname, Term.value, binders_written]
    refine congrArg Value.ofProp (propext ⟨?_, ?_⟩)
    · rintro ⟨M, hM, hholds⟩
      obtain ⟨J, hJ, hm⟩ := h.exists_interp hws hnew hvars ((hbinders M).mp hM)
      rw [hbody M J hm] at hholds
      exact ⟨J, hJ, hholds⟩
    · rintro ⟨J, hJ, hholds⟩
      obtain ⟨M, hM, hm⟩ := h.exists_naming hws hnew hvars hJ
      rw [← hbody M J hm] at hholds
      exact ⟨M, (hbinders M).mpr hM, hholds⟩

end Binding

/-- What is written for a term has the value of the term. -/
theorem Term.value_expression (t : Term) {ws : List (Symbol × List Char)} (hws : Distinct ws)
    (scope : Scope) (ht : t.words scope ⊆ ws) (hl : ∀ l ∈ t.literals, l.IsProper) (I : Interp)
    (N : Naming) (h : N.Matches ws scope I) : (t.expression scope).value N = t.value I := by
  induction t using Term.induction generalizing scope I N with
  | lit l => exact value_literal l (hl l List.mem_cons_self) N
  | app f args ih =>
    cases args with
    | nil =>
      have hf : (f, (scope.text f).toList) ∈ ws := ht List.mem_cons_self
      have hvalue := Expression.value_name _ [] N (hws.named _ hf) (hws.free _ hf)
      exact hvalue.trans (h.constants f hf)
    | cons a args =>
      have hf : (f, (symbolText f.name).toList) ∈ ws := ht List.mem_cons_self
      have hargs : (a :: args).map (fun b => (b.expression scope).value N) =
          (a :: args).map (·.value I) := by
        apply List.map_congr_left
        intro b hb
        refine ih b hb scope (fun p hp => ht ?_) (fun l hlit => hl l ?_) I N h
        · exact List.mem_cons_of_mem _ (Term.words_subset_wordsIn scope _ b hb hp)
        · exact Term.literals_subset_literalsIn _ b hb hlit
      have hvalue := Expression.value_name _ ((a :: args).map (Term.expression scope)) N
        (hws.named _ hf) (hws.free _ hf)
      rw [Term.expression, Term.expressions_eq_map, hvalue, List.map_map,
        h.functions f hf _ (by simp), Term.value, I.values_eq_map, ← hargs]
      · rfl
      · simp
  | op o args ih =>
    have hargs : args.map (fun b => (b.expression scope).value N) = args.map (·.value I) := by
      apply List.map_congr_left
      intro b hb
      refine ih b hb scope (fun p hp => ht ?_) (fun l hlit => hl l ?_) I N h
      · exact Term.words_subset_wordsIn scope _ b hb hp
      · exact Term.literals_subset_literalsIn _ b hb hlit
    rw [Term.expression, Term.expressions_eq_map, Expression.value_op, List.map_map, Term.value,
      I.values_eq_map, ← hargs, h.quotients]
    rfl
  | quant q vars body ih =>
    obtain ⟨new, hinner, hsymbols⟩ := Scope.foldl_bind_eq vars scope
    have htake : (new ++ scope).take vars.length = new := by
      have hlength : new.length = vars.length := by
        rw [← List.length_map (f := (·.1)), hsymbols, List.length_reverse]
      rw [← hlength, List.take_left]
    rw [Term.words, hinner, htake] at ht
    have hnew (p : Symbol × String) (hp : p ∈ new) : (p.1, p.2.toList) ∈ ws :=
      ht (List.mem_append_left _ (List.mem_map.mpr ⟨p, hp, rfl⟩))
    have hvars (f : Symbol) : f ∈ vars ↔ f ∈ new.map (·.1) := by
      rw [hsymbols, List.mem_reverse]
    rw [Term.expression, hinner, htake]
    exact h.value_quant hws hnew hvars q body _ fun M J hm =>
      ih (new ++ scope) (fun p hp => ht (List.mem_append_right _ hp)) hl J M hm

namespace Instruction

def parts : Instruction → List Expression
  | .declare f => [.word "declare-fun".toList, .word (symbolText f.name).toList,
      .node (f.domain.map Ty.expression), f.range.expression]
  | .assert t => [.word "assert".toList, t.expression []]
  | .check => [.word "check-sat".toList]

def words : Instruction → List (Symbol × List Char)
  | .declare f => [(f, (symbolText f.name).toList)]
  | .assert t => t.words []
  | .check => []

def literals : Instruction → List Literal
  | .assert t => t.literals
  | _ => []

structure Legible (is : List Instruction) : Prop where
  distinct : Distinct (is.flatMap words)
  literals : ∀ l ∈ is.flatMap literals, l.IsProper

theorem text_parts (i : Instruction) : (Expression.node i.parts).text = i.text.toList := by
  cases i with
  | declare f =>
    have hdomain : (Expression.node (f.domain.map Ty.expression)).text =
        ("(" ++ " ".intercalate (f.domain.map Ty.text) ++ ")").toList := by
      rw [Expression.text, Expression.texts_eq_map, List.map_map]
      simp [String.toList_intercalate, Function.comp_def, Ty.text_expression]
    change (Expression.applied "declare-fun".toList [.word (symbolText f.name).toList,
      .node (f.domain.map Ty.expression), f.range.expression]).text = f.declaration.toList
    rw [f.declaration_eq]
    apply Expression.text_applied
    simp only [List.map_cons, List.map_nil, Expression.text_word, hdomain, Ty.text_expression]
  | assert t =>
    change (Expression.applied "assert".toList [t.expression []]).text = t.assertion.toList
    rw [t.assertion_eq]
    apply Expression.text_applied
    rw [List.map_singleton, List.map_singleton, t.text_expression, Term.smtlib]
  | check => decide

theorem proper_parts (i : Instruction) (h : ∀ p ∈ i.words, isToken p.2 = true) :
    (Expression.node i.parts).Proper := by
  cases i with
  | declare f =>
    have hdomain : (Expression.node (f.domain.map Ty.expression)).Proper := by
      refine .node _ fun e he => ?_
      obtain ⟨ty, -, rfl⟩ := List.mem_map.mp he
      exact ty.proper_expression
    have hname : (Expression.word (symbolText f.name).toList).Proper :=
      .word _ (h (f, (symbolText f.name).toList) List.mem_cons_self)
    refine .node _ ?_
    simp only [parts, List.forall_mem_cons]
    exact ⟨.word _ rfl, hname, hdomain, f.range.proper_expression, by simp⟩
  | assert t => exact Expression.proper_pair _ _ (t.proper_expression [] h) rfl
  | check => exact .node _ (List.forall_mem_singleton.mpr (.word _ rfl))

end Instruction

noncomputable def Interp.naming (I : Interp) (ws : List (Symbol × List Char)) : Naming where
  toQuotients := I.toQuotients
  apply n vs :=
    ((ws.find? fun p => wordName p.2 = n).map fun p => I.apply p.1 vs).getD (.bool false)
  sorted n us vs _ := by
    cases ws.find? fun p => wordName p.2 = n with
    | none => rfl
    | some p => exact (I.ranged p.1 us).trans (I.ranged p.1 vs).symm

/-- As the names are distinct, each one finds its symbol. -/
theorem Interp.naming_apply (I : Interp) {ws : List (Symbol × List Char)} (hws : Distinct ws)
    (p : Symbol × List Char) (hp : p ∈ ws) (vs : List Value) :
    (I.naming ws).apply (wordName p.2) vs = I.apply p.1 vs := by
  obtain ⟨q, hq, hsame⟩ := Option.map_eq_some_iff.mp (hws.find?_name ws id (fun _ h => h) p hp)
  have hfind : ws.find? (fun q => wordName q.2 = wordName p.2) = some q := hq
  have hsymbol : q.1 = p.1 := hsame
  simp only [Interp.naming, hfind, Option.map_some, Option.getD_some, hsymbol]

theorem Interp.naming_matches (I : Interp) {ws : List (Symbol × List Char)} (hws : Distinct ws) :
    (I.naming ws).Matches ws [] I :=
  ⟨fun f hf vs _ => I.naming_apply hws (f, _) hf vs,
    fun f hf => I.naming_apply hws (f, _) hf [], rfl⟩

/-- The names obey a legible command if the interpretation satisfies what it asserts. -/
theorem Interp.naming_obeys (I : Interp) {is : List Instruction} (his : Instruction.Legible is)
    (i : Instruction) (hi : i ∈ is) (hI : ∀ t, i.asserted? = some t → I.Satisfies t) :
    (I.naming (is.flatMap Instruction.words)).Obeys (.node i.parts) := by
  have hwords : i.words ⊆ is.flatMap Instruction.words := fun p hp =>
    List.mem_flatMap.mpr ⟨i, hi, hp⟩
  cases i with
  | declare f =>
    intro _ vs hvs
    have hf := hwords (List.mem_cons_self : (f, (symbolText f.name).toList) ∈ _)
    rw [Ty.sort?_expression, I.naming_apply his.distinct _ hf, I.ranged]
  | assert t =>
    apply (Naming.obeys_assert_iff _ _).mpr
    have hproper : ∀ l ∈ t.literals, l.IsProper := fun l hl =>
      his.literals l (List.mem_flatMap.mpr ⟨_, hi, hl⟩)
    rw [t.value_expression his.distinct [] hwords hproper I _ (I.naming_matches his.distinct)]
    exact hI t rfl
  | check => trivial

def Command.Filter.instructions (f : Command.Filter) (ts : List Term) : List Instruction :=
  ((Instruction.written ts).filter fun p => f.keeps (Instruction.spaced p)).map (·.2)

theorem Command.Filter.instructions_of_all (f : Command.Filter) (ts : List Term)
    (h : ((Instruction.written ts).all fun p => f.keeps (Instruction.spaced p)) = true) :
    f.instructions ts = Instruction.listing ts ++ [.check] := by
  rw [instructions, List.filter_eq_self.mpr (List.all_eq_true.mp h), Instruction.written_snd]

namespace Command.Filter

variable (f : Command.Filter) (ts : List Term) (hts : ∀ g ∈ Term.symbolsIn ts, g.IsPlain)
include hts

/-- A problem is read as the commands that were written into it, whatever the names in it are. -/
theorem read_problem (h : ∀ p ∈ (f.instructions ts).flatMap Instruction.words,
    (isPlainName p.2 || isBarredName p.2) = true) :
    readExpressions (f.problem ts).toList =
      some ((f.instructions ts).map fun i => .node i.parts) := by
  let pieces := (Instruction.written ts).filter fun p => f.keeps (Instruction.spaced p)
  have htext : (f.problem ts).toList =
      (pieces.map fun p => p.1 ++ (Expression.node p.2.parts).text).flatten := by
    rw [f.problem_eq ts fun g hg => (hts g hg).balanced, String.toList_ofList, List.filter_map]
    congr 2
    funext p
    rw [Instruction.spaced, Instruction.text_parts]
  have hproper (p : List Char × Instruction) (hp : p ∈ pieces) :
      (∀ c ∈ p.1, isGap c = true) ∧ (Expression.node p.2.parts).Proper := by
    constructor
    · rcases Instruction.written_gap ts p (List.mem_of_mem_filter hp) with hg | hg
      · simp [hg]
      · rw [hg]
        exact List.forall_mem_singleton.mpr (by decide)
    · refine p.2.proper_parts fun w hw => isToken_of_named _ (h w ?_)
      exact List.mem_flatMap.mpr ⟨p.2, List.mem_map.mpr ⟨p, hp, rfl⟩, hw⟩
  have hread := readExpressions_pieces (pieces.map fun p => (p.1, p.2.parts)) (by
    intro q hq
    obtain ⟨p, hp, rfl⟩ := List.mem_map.mp hq
    exact hproper p hp)
  rw [List.map_map, List.map_map] at hread
  rw [htext, instructions, List.map_map]
  exact hread

/-- If a legible problem has no model for its names, the formulas have none for their symbols. -/
theorem not_satisfiable_of_unsatisfiable (h : Instruction.Legible (f.instructions ts))
    (hu : Unsatisfiable (f.problem ts)) : ¬ Satisfiable ts := by
  rintro ⟨I, hI⟩
  refine hu _ (f.read_problem ts hts h.distinct.named)
    ⟨I.naming ((f.instructions ts).flatMap Instruction.words), ?_⟩
  intro c hc
  obtain ⟨i, hi, rfl⟩ := List.mem_map.mp hc
  refine I.naming_obeys h i hi fun t ht => hI t ?_
  -- what the problem asserts are formulas that were written into it
  obtain ⟨p, hp, rfl⟩ := List.mem_map.mp hi
  have hmem : p.2 ∈ (Instruction.written ts).map (·.2) :=
    List.mem_map.mpr ⟨p, List.mem_of_mem_filter hp, rfl⟩
  rw [Instruction.written_snd] at hmem
  rcases List.mem_append.mp hmem with hlisted | hcheck
  · rw [← Instruction.listing_asserted ts]
    exact List.mem_filterMap.mpr ⟨p.2, hlisted, ht⟩
  · rw [List.mem_singleton.mp hcheck] at ht
    cases ht

end Command.Filter
end Validity
