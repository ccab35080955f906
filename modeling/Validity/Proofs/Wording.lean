import Validity.Proofs.Occurrence
import Validity.Proofs.Rendering
import Validity.Proofs.Visited

/-!
What the text of a term tells of the term. A word of letters that no operator and no numeral has
stands in the text of a term without quantifiers only inside a name. The start of a declaration
stands in it only where a function of that very name is applied.
-/
namespace Validity

open Command Text

def Term.QuantifierFree (t : Term) : Prop := ∀ q vars body, ¬ t.Reaches (.quant q vars body)

/-- Arguments have no quantifier that the application has not. -/
theorem Term.QuantifierFree.child {t a : Term} (h : t.QuantifierFree) (ha : a ∈ t.children) :
    a.QuantifierFree :=
  fun q vars body hreach => h q vars body (Relation.ReflTransGen.head ha hreach)

theorem Term.smtlib_app (f : Symbol) (args : List Term) :
    (Term.app f args).smtlib = applied (symbolText f.name) (args.map Term.smtlib) := by
  cases args with
  | nil => rfl
  | cons a args =>
    rw [Term.smtlib, Term.smtlibIn, smtlibAll_eq_map]
    · rfl
    · exact List.cons_ne_nil a args

theorem Term.smtlib_op (o : Op) (args : List Term) :
    (Term.op o args).smtlib = applied o.text (args.map Term.smtlib) := by
  rw [Term.smtlib, Term.smtlibIn, smtlibAll_eq_map]
  rfl

theorem Term.assertion_eq (t : Term) : t.assertion = applied "assert" [t.smtlib] := by
  apply String.toList_inj.mp
  simp [Term.assertion, applied]

theorem Symbol.declaration_eq (f : Symbol) : f.declaration = applied "declare-fun"
    [symbolText f.name, "(" ++ " ".intercalate (f.domain.map Ty.text) ++ ")", f.range.text] := by
  apply String.toList_inj.mp
  unfold Symbol.declaration applied
  simp

theorem applied_cons (head a : String) (args : List String) :
    (applied head (a :: args)).toList =
      '(' :: ([' '].intercalate ((head :: a :: args).map String.toList) ++ [')']) := by
  simp [applied, String.toList_intercalate]

theorem applied_toList (head a : String) (args : List String) :
    (applied head (a :: args)).toList =
      '(' :: (head.toList ++ ' ' :: a.toList ++
        (args.map fun s => ' ' :: s.toList).flatten ++ [')']) := by
  rw [applied_cons, List.map_cons, intercalate_cons_eq]
  simp [Function.comp_def]

section Words

structure IsWord (k : List Char) : Prop where
  ne_nil : k ≠ []
  letters : k.all Char.isAlpha = true

variable {k : List Char} (hk : IsWord k)
include hk

theorem IsWord.not_mem {c : Char} (hc : c.isAlpha = false) : c ∉ k := by
  intro hm
  rw [List.all_eq_true.mp hk.letters c hm] at hc
  cases hc

theorem IsWord.barred_eq : k.flatMap barred = k := by
  have hchar (c : Char) (hc : c ∈ k) : barred c = [c] := by
    have hslash : c ≠ '\\' := ne_of_mem_of_not_mem hc (hk.not_mem rfl)
    have hbar : c ≠ '|' := ne_of_mem_of_not_mem hc (hk.not_mem rfl)
    simp [barred, hslash, hbar]
  rw [List.flatMap_congr hchar]
  simp

omit hk in
/-- Without backslashes, what a name between bars starts with the name starts with. -/
theorem starts_of_barred (u s : List Char) (hu : '\\' ∉ u) (h : u <+: s.flatMap barred) :
    u <+: s := by
  induction s generalizing u with
  | nil => exact h
  | cons c s ih =>
    rw [List.flatMap_cons] at h
    cases u with
    | nil => exact List.nil_prefix
    | cons d u =>
      unfold barred at h
      split_ifs at h
      · -- an escaped character starts with a backslash, which is not in the part
        obtain ⟨rfl, _⟩ := List.cons_prefix_cons.mp h
        exact absurd List.mem_cons_self hu
      · obtain ⟨rfl, htail⟩ := List.cons_prefix_cons.mp h
        have hnot : '\\' ∉ u := fun hm => hu (List.mem_cons_of_mem _ hm)
        exact List.cons_prefix_cons.mpr ⟨rfl, ih u hnot htail⟩

theorem IsWord.infix_of_barred (s : List Char) (h : k <:+: s.flatMap barred) : k <:+: s := by
  induction s with
  | nil => exact h
  | cons c s ih =>
    rw [List.flatMap_cons] at h
    by_cases hc : c = '\\' ∨ c = '|'
    · -- neither the backslash nor the character behind it is a letter
      have hesc : barred c = ['\\', c] := by simp [barred, hc]
      rw [hesc] at h
      have hletter : c ∉ k := by
        rcases hc with rfl | rfl
        · exact hk.not_mem rfl
        · exact hk.not_mem rfl
      exact List.infix_cons (ih (infix_of_cons hletter (infix_of_cons (hk.not_mem rfl) h)))
    · have hesc : barred c = [c] := by simp [barred, hc]
      rw [hesc, List.singleton_append] at h
      rcases List.infix_cons_iff.mp h with hp | hi
      · have hall : c :: s.flatMap barred = (c :: s).flatMap barred := by
          rw [List.flatMap_cons, hesc, List.singleton_append]
        rw [hall] at hp
        exact (starts_of_barred k (c :: s) (hk.not_mem rfl) hp).isInfix
      · exact List.infix_cons (ih hi)

/-- A word of letters stands in the text of a name iff it stands in the name. -/
theorem IsWord.infix_symbolText (name : String) :
    k <:+: (symbolText name).toList ↔ k <:+: name.toList := by
  rcases symbolText_cases name with ⟨_, he⟩ | ⟨_, he⟩ | he
  · rw [he]
  · rw [he]
  · rw [he]
    constructor
    · intro h
      have hinside := infix_of_concat (hk.not_mem rfl) (infix_of_cons (hk.not_mem rfl) h)
      exact hk.infix_of_barred _ hinside
    · -- escaping leaves a word as it is, so it is still found
      intro h
      have hesc := h.flatMap barred
      rw [hk.barred_eq] at hesc
      exact List.infix_cons (hesc.trans (List.prefix_append _ _).isInfix)

theorem IsWord.infix_wrap (s : String) :
    k <:+: ("(" ++ s ++ ")").toList ↔ k <:+: s.toList := by
  have he : ("(" ++ s ++ ")").toList = '(' :: (s.toList ++ [')']) := by simp
  rw [he]
  constructor
  · intro h
    exact infix_of_concat (hk.not_mem rfl) (infix_of_cons (hk.not_mem rfl) h)
  · intro h
    exact List.infix_cons (h.trans (List.prefix_append _ _).isInfix)

/-- Between blanks a word stands in one of the texts. -/
theorem IsWord.infix_spaced (l : List String) :
    k <:+: (" ".intercalate l).toList ↔ ∃ s ∈ l, k <:+: s.toList := by
  rw [String.toList_intercalate]
  constructor
  · intro h
    obtain ⟨r, hr, hkr⟩ := infix_of_intercalate hk.ne_nil (hk.not_mem rfl) _ h
    obtain ⟨s, hs, rfl⟩ := List.mem_map.mp hr
    exact ⟨s, hs, hkr⟩
  · rintro ⟨s, hs, hks⟩
    exact hks.trans (infix_intercalate_of_mem _ _ (List.mem_map_of_mem hs))

/-- In an application a word stands in the head or in an argument. -/
theorem IsWord.infix_applied (head : String) (args : List String) :
    k <:+: (applied head args).toList ↔
      k <:+: head.toList ∨ ∃ a ∈ args, k <:+: a.toList := by
  cases args with
  | nil => simp [applied]
  | cons a args =>
    have happ : applied head (a :: args) = "(" ++ " ".intercalate (head :: a :: args) ++ ")" := rfl
    rw [happ, hk.infix_wrap, hk.infix_spaced]
    simp only [List.mem_cons, exists_eq_or_imp]

end Words

section Keywords

variable {k : String} (hk : k ∈ ({} : Filter).keywords)
include hk

theorem keyword_cases : k = "forall" ∨ k = "exists" := by
  simpa using hk

theorem keyword_isWord : IsWord k.toList := by
  rcases keyword_cases hk with rfl | rfl
  · exact ⟨by decide, by decide⟩
  · exact ⟨by decide, by decide⟩

/-- No operator is written with a keyword in it. -/
theorem keyword_not_op (o : Op) : ¬ k.toList <:+: o.text.toList := by
  rcases keyword_cases hk with rfl | rfl
  · cases o <;> decide
  · cases o <;> decide

/-- Each keyword has a letter that is in no numeral. -/
theorem keyword_letter : ∃ c ∈ k.toList, Compositional (c ∉ ·) ∧ c ∉ "_ BitVec ".toList := by
  rcases keyword_cases hk with rfl | rfl
  · exact ⟨'l', by decide, compositional_avoids 'l' rfl (by decide) (by decide), by decide⟩
  · exact ⟨'s', by decide, compositional_avoids 's' rfl (by decide) (by decide), by decide⟩

/-- No literal is written with a keyword in it. -/
theorem keyword_not_literal (l : Literal) : ¬ k.toList <:+: l.smtlib.toList := by
  rcases l.eq_bool_or with ⟨b, rfl⟩ | hl
  · rcases keyword_cases hk with rfl | rfl
    · cases b <;> decide
    · cases b <;> decide
  · obtain ⟨c, hc, havoid, _⟩ := keyword_letter hk
    exact fun h => havoid.literal l hl (h.mem hc)

/-- No sort is written with a keyword in it. -/
theorem keyword_not_sort (ty : Ty) : ¬ k.toList <:+: ty.text.toList := by
  cases ty with
  | bits w =>
    obtain ⟨c, hc, havoid, hsort⟩ := keyword_letter hk
    have hw := havoid.wrap_text _ (havoid.append_text _ _ hsort (havoid.decimal w))
    have htext : c ∉ (Ty.bits w).text.toList := by simpa [Ty.text] using hw
    exact fun h => htext (h.mem hc)
  | bool | int | real =>
    rcases keyword_cases hk with rfl | rfl
    · decide
    · decide

/-- In the text of a term without quantifiers a keyword stands inside the name of a symbol. -/
theorem Term.keyword_smtlib_iff (t : Term) (hfree : t.QuantifierFree) :
    k.toList <:+: t.smtlib.toList ↔ ∃ f ∈ t.symbols, k.toList <:+: f.name.toList := by
  have hword := keyword_isWord hk
  -- a keyword has no space, so it stands in the text of one argument
  have hargs (args : List Term) (ih : ∀ a ∈ args,
      (k.toList <:+: a.smtlib.toList ↔ ∃ f ∈ a.symbols, k.toList <:+: f.name.toList)) :
      (∃ s ∈ args.map Term.smtlib, k.toList <:+: s.toList) ↔
        ∃ f ∈ Term.symbolsIn args, k.toList <:+: f.name.toList := by
    constructor
    · rintro ⟨_, hs, h⟩
      obtain ⟨a, ha, rfl⟩ := List.mem_map.mp hs
      obtain ⟨f, hf, hname⟩ := (ih a ha).mp h
      exact ⟨f, (Term.mem_symbolsIn f args).mpr ⟨a, ha, hf⟩, hname⟩
    · rintro ⟨f, hf, hname⟩
      obtain ⟨a, ha, hfa⟩ := (Term.mem_symbolsIn f args).mp hf
      exact ⟨a.smtlib, List.mem_map_of_mem ha, (ih a ha).mpr ⟨f, hfa, hname⟩⟩
  induction t using Term.induction with
  | lit l =>
    constructor
    · exact fun h => absurd h (keyword_not_literal hk l)
    · rintro ⟨f, hf, _⟩
      exact absurd hf List.not_mem_nil
  | app f args ih =>
    rw [Term.smtlib_app, hword.infix_applied, hword.infix_symbolText,
      hargs args fun a ha => ih a ha (hfree.child ha)]
    simp [Term.symbols]
  | op o args ih =>
    rw [Term.smtlib_op, hword.infix_applied, hargs args fun a ha => ih a ha (hfree.child ha),
      or_iff_right (keyword_not_op hk o)]
    rfl
  | quant q vars body => exact absurd .refl (hfree q vars body)

/-- A keyword stands in a declaration iff it stands in the name. -/
theorem Symbol.keyword_declaration_iff (f : Symbol) :
    k.toList <:+: f.declaration.toList ↔ k.toList <:+: f.name.toList := by
  have hword := keyword_isWord hk
  have hhead : ¬ k.toList <:+: "declare-fun".toList := by
    rcases keyword_cases hk with rfl | rfl
    · decide
    · decide
  -- of the three parts of a declaration only the name is free to choose
  have hdomain : ¬ ∃ s ∈ f.domain.map Ty.text, k.toList <:+: s.toList := by
    rintro ⟨_, hs, h⟩
    obtain ⟨ty, _, rfl⟩ := List.mem_map.mp hs
    exact keyword_not_sort hk ty h
  rw [f.declaration_eq, hword.infix_applied]
  simp only [List.mem_cons, List.not_mem_nil, or_false, exists_eq_or_imp, exists_eq_left,
    hword.infix_symbolText, hword.infix_wrap, hword.infix_spaced, hhead, hdomain,
    keyword_not_sort hk, false_or]

end Keywords

theorem infix_applied_of_mem (head : String) (args : List String) (a : String) (ha : a ∈ args) :
    a.toList <:+: (applied head args).toList := by
  cases args with
  | nil => exact absurd ha List.not_mem_nil
  | cons b args =>
    have hmem : a.toList ∈ (head :: b :: args).map String.toList :=
      List.mem_map_of_mem (List.mem_cons_of_mem head ha)
    rw [applied_cons]
    have hin := infix_intercalate_of_mem [' '] _ hmem
    exact List.infix_cons (hin.trans (List.prefix_append _ _).isInfix)

/-- The text of an argument stands in that of the application. -/
theorem Term.child_infix (t a : Term) (ha : a ∈ t.children) :
    a.smtlib.toList <:+: t.smtlib.toList := by
  cases t with
  | lit l => exact absurd ha List.not_mem_nil
  | app f args =>
    rw [Term.smtlib_app]
    exact infix_applied_of_mem _ _ _ (List.mem_map_of_mem ha)
  | op o args =>
    rw [Term.smtlib_op]
    exact infix_applied_of_mem _ _ _ (List.mem_map_of_mem ha)
  | quant q vars body => exact absurd ha List.not_mem_nil

/-- The text of a term that is reached stands in the text of the term. -/
theorem Term.Reaches.smtlib_infix {t u : Term} (h : t.Reaches u) :
    u.smtlib.toList <:+: t.smtlib.toList := by
  induction h with
  | refl => exact List.infix_rfl
  | tail _ hchild ih => exact (Term.child_infix _ _ hchild).trans ih

/-- The text of a quantified term has the word of its quantifier. -/
theorem Term.quantifier_text_infix (q : Quantifier) (vars : List Symbol) (body : Term) :
    q.text.toList <:+: (Term.quant q vars body).smtlib.toList := by
  rw [Term.smtlib, Term.smtlibIn]
  simp only [String.toList_append, List.append_assoc]
  exact List.infix_append' _ _ _

/-- Exactly the assertions with a quantifier or a keyword in a name have a keyword in them. -/
theorem Term.keyword_assertion_iff (t : Term) :
    (∃ k ∈ ({} : Filter).keywords, k.toList <:+: t.assertion.toList) ↔
      (∃ q vars body, t.Reaches (.quant q vars body)) ∨
        ∃ f ∈ t.symbols, ∃ k ∈ ({} : Filter).keywords, k.toList <:+: f.name.toList := by
  have hassert (k : String) (hk : k ∈ ({} : Filter).keywords) :
      k.toList <:+: t.assertion.toList ↔ k.toList <:+: t.smtlib.toList := by
    have hhead : ¬ k.toList <:+: "assert".toList := by
      rcases keyword_cases hk with rfl | rfl
      · decide
      · decide
    rw [t.assertion_eq, (keyword_isWord hk).infix_applied, or_iff_right hhead]
    simp
  by_cases hfree : t.QuantifierFree
  · constructor
    · rintro ⟨k, hk, h⟩
      obtain ⟨f, hf, hname⟩ := (t.keyword_smtlib_iff hk hfree).mp ((hassert k hk).mp h)
      exact .inr ⟨f, hf, k, hk, hname⟩
    · rintro (⟨q, vars, body, hreach⟩ | ⟨f, hf, k, hk, hname⟩)
      · exact absurd hreach (hfree q vars body)
      · exact ⟨k, hk, (hassert k hk).mpr ((t.keyword_smtlib_iff hk hfree).mpr ⟨f, hf, hname⟩)⟩
  · -- a quantifier brings its keyword with it
    simp only [Term.QuantifierFree, not_forall, not_not] at hfree
    obtain ⟨q, vars, body, hreach⟩ := hfree
    have hkey : q.text ∈ ({} : Filter).keywords := by cases q <;> decide
    have htext := Term.quantifier_text_infix q vars body
    refine iff_of_true ⟨q.text, hkey, (hassert _ hkey).mpr (htext.trans hreach.smtlib_infix)⟩ ?_
    exact .inl ⟨q, vars, body, hreach⟩

end Validity
