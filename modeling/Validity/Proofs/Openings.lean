import Validity.Proofs.Expressions
import Validity.Proofs.Wording

/-!
Where the text of a term or of a declaration has the start of a declaration in it. A symbol is read
up to its end, so what stands behind a parenthesis tells which function is applied there. With names
without parentheses the start of a declaration of `exp` stands in its own declaration, and where a
function named like the command to declare is applied to `exp` and to more.
-/
namespace Validity

open Command Text

theorem isSymbolChar_bounds {c : Char} (h : isSymbolChar c = true) :
    0x21 ≤ c.toNat ∧ c.toNat ≤ 0x7E := by
  rcases Bool.or_eq_true _ _ |>.mp h with halnum | hmark
  · simp only [Char.isAlphanum, Char.isAlpha, Char.isUpper, Char.isLower, Char.isDigit,
      Bool.or_eq_true, Bool.and_eq_true, decide_eq_true_eq, ge_iff_le, UInt32.le_iff_toNat_le]
      at halnum
    change ((65 ≤ c.toNat ∧ c.toNat ≤ 90) ∨ (97 ≤ c.toNat ∧ c.toNat ≤ 122)) ∨
      (48 ≤ c.toNat ∧ c.toNat ≤ 57) at halnum
    omega
  · have hall : ("~!@$%^&*_-+=<>.?/".toList.all fun d => 0x21 ≤ d.toNat ∧ d.toNat ≤ 0x7E) := by
      decide
    simpa using List.all_eq_true.mp hall c (by simpa using hmark)

theorem not_isSymbolChar_of_isBlank {c : Char} (h : isBlank c = true) : isSymbolChar c = false := by
  -- blanks lie below and above the printable characters
  by_contra hne
  have hbounds := isSymbolChar_bounds (Bool.not_eq_false _ |>.mp hne)
  simp only [isBlank, Bool.or_eq_true, Bool.and_eq_true, decide_eq_true_eq, beq_iff_eq] at h
  omega

theorem not_isSymbolChar_of_end {d : Char} (h : isBlank d = true ∨ d = '(') :
    isSymbolChar d = false := by
  rcases h with hblank | rfl
  · exact not_isSymbolChar_of_isBlank hblank
  · decide

inductive IsAtom : List Char → Prop where
  | run (s : List Char) : s ≠ [] → s.all isSymbolChar = true → IsAtom s
  | bars (s : List Char) : IsAtom ('|' :: s)

/-- Every name is written as one symbol. -/
theorem symbolText_isAtom (name : String) : IsAtom (symbolText name).toList := by
  rcases symbolText_cases name with ⟨h, he⟩ | ⟨h, he⟩ | he
  · rw [he]
    simp only [isPlainName, Bool.and_eq_true, Bool.not_eq_true', List.isEmpty_eq_false_iff] at h
    exact .run _ h.1.1 h.1.2
  · obtain ⟨s, hs, -⟩ := (isBarredName_iff _).mp h
    rw [he, hs]
    exact .bars s
  · rw [he]
    exact .bars _

theorem op_isAtom (o : Op) : IsAtom o.text.toList := by
  apply IsAtom.run
  · cases o <;> decide
  · cases o <;> decide

namespace IsAtom

variable {a : List Char}

theorem start (ha : IsAtom a) : ∃ c r, a = c :: r ∧ isBlank c = false := by
  cases ha with
  | run _ hne hrun =>
    obtain ⟨c, r, rfl⟩ := List.exists_cons_of_ne_nil hne
    refine ⟨c, r, rfl, ?_⟩
    by_contra hblank
    have hno := not_isSymbolChar_of_isBlank (Bool.not_eq_false _ |>.mp hblank)
    rw [List.all_eq_true.mp hrun c List.mem_cons_self] at hno
    cases hno
  | bars s => exact ⟨'|', s, rfl, by decide⟩

/-- A run of symbol characters in front of another character is the atom that stands there. -/
theorem eq_of_run (ha : IsAtom a) {w u z : List Char} {x y : Char} (hw : w ≠ [])
    (hrun : w.all isSymbolChar = true) (hx : isSymbolChar x = false)
    (hy : isSymbolChar y = false) (h : w ++ x :: u = a ++ y :: z) : a = w ∧ x = y ∧ u = z := by
  cases ha with
  | run _ _ hatom =>
    obtain ⟨rfl, hxy, huz⟩ := run_unique hrun hatom hx hy h
    exact ⟨rfl, hxy, huz⟩
  | bars s =>
    -- a run does not start with a bar
    obtain ⟨c, r, rfl⟩ := List.exists_cons_of_ne_nil hw
    obtain ⟨rfl, _⟩ := List.cons.inj h
    exact absurd (List.all_eq_true.mp hrun '|' List.mem_cons_self) (by decide)

end IsAtom

/-- Only the name itself is written like a plain name. -/
theorem symbolText_eq_plain {name w : String} (hw : isPlainName w.toList = true)
    (h : (symbolText name).toList = w.toList) : name = w := by
  have hbar (r : List Char) : w.toList ≠ '|' :: r := by
    intro hr
    rw [hr] at hw
    simp only [isPlainName, List.all_cons, Bool.and_eq_true] at hw
    exact absurd hw.1.2.1 (by decide)
  rcases symbolText_cases name with ⟨_, he⟩ | ⟨_, he⟩ | he
  · rw [he] at h
    exact String.toList_inj.mp h
  · rw [he] at h
    exact String.toList_inj.mp h
  · rw [he] at h
    exact absurd h.symm (hbar _)

theorem symbolText_of_plain {w : String} (hw : isPlainName w.toList = true) : symbolText w = w := by
  simp [symbolText, hw]

theorem Literal.isAtom_of_bool (b : Bool) : IsAtom (Literal.bool b).smtlib.toList := by
  apply IsAtom.run
  · cases b <;> decide
  · cases b <;> decide

/-- The text of a term is an atom for constants, operators without arguments and truth values, and
starts with a digit, a parenthesis or a number sign else. -/
theorem Term.smtlib_cases (t : Term) :
    (∃ f, t = .app f [] ∧ t.smtlib = symbolText f.name) ∨ (∃ o, t = .op o [] ∧ t.smtlib = o.text) ∨
    (∃ b, t = .bool b ∧ t.smtlib = (Literal.bool b).smtlib) ∨
      ∃ c, t.smtlib.toList.head? = some c ∧ (c.isDigit = true ∨ c = '(' ∨ c = '#') := by
  have happlied (head a : String) (args : List String) :
      (applied head (a :: args)).toList.head? = some '(' := by rw [applied_toList, List.head?_cons]
  cases t with
  | lit l =>
    rcases l.eq_bool_or with ⟨b, rfl⟩ | hl
    · exact .inr (.inr (.inl ⟨b, rfl, rfl⟩))
    · exact .inr (.inr (.inr (literal_start l hl)))
  | app f args =>
    cases args with
    | nil => exact .inl ⟨f, rfl, rfl⟩
    | cons a args =>
      refine .inr (.inr (.inr ⟨'(', ?_, .inr (.inl rfl)⟩))
      rw [Term.smtlib_app]
      exact happlied _ _ _
  | op o args =>
    cases args with
    | nil => exact .inr (.inl ⟨o, rfl, rfl⟩)
    | cons a args =>
      refine .inr (.inr (.inr ⟨'(', ?_, .inr (.inl rfl)⟩))
      rw [Term.smtlib_op]
      exact happlied _ _ _
  | quant q vars body =>
    refine .inr (.inr (.inr ⟨'(', ?_, .inr (.inl rfl)⟩))
    rw [Term.smtlib, Term.smtlibIn]
    simp

theorem Term.smtlib_start (t : Term) : ∃ c r, t.smtlib.toList = c :: r ∧ isBlank c = false := by
  rcases t.smtlib_cases with ⟨f, _, he⟩ | ⟨o, _, he⟩ | ⟨b, _, he⟩ | ⟨c, hc, hstart⟩
  · rw [he]
    exact (symbolText_isAtom f.name).start
  · rw [he]
    exact (op_isAtom o).start
  · rw [he]
    exact (Literal.isAtom_of_bool b).start
  · obtain ⟨r, hr⟩ := List.head?_eq_some_iff.mp hc
    refine ⟨c, r, hr, ?_⟩
    rcases hstart with hdigit | rfl | rfl
    · by_contra hblank
      have hno := not_isSymbolChar_of_isBlank (Bool.not_eq_false _ |>.mp hblank)
      simp [isSymbolChar, Char.isAlphanum, hdigit] at hno
    · decide
    · decide

/-- A term whose text starts like the constant `exp` is that constant. -/
theorem Term.eq_exp_of_start (t : Term) {d y : Char} {u z : List Char}
    (hd : isSymbolChar d = false) (hy : isSymbolChar y = false)
    (h : "exp".toList ++ d :: u = t.smtlib.toList ++ y :: z) :
    (∃ g : Symbol, t = .app g [] ∧ g.name = "exp") ∧ d = y := by
  have hatom {a : List Char} (ha : IsAtom a) (he : "exp".toList ++ d :: u = a ++ y :: z) :
      a = "exp".toList ∧ d = y ∧ u = z :=
    ha.eq_of_run (by decide) (by decide) hd hy he
  rcases t.smtlib_cases with ⟨f, ht, he⟩ | ⟨o, _, he⟩ | ⟨b, _, he⟩ | ⟨c, hc, hstart⟩
  · rw [he] at h
    obtain ⟨hname, hdy, _⟩ := hatom (symbolText_isAtom f.name) h
    exact ⟨⟨f, ht, symbolText_eq_plain (by decide) hname⟩, hdy⟩
  · rw [he] at h
    obtain ⟨hname, _⟩ := hatom (op_isAtom o) h
    cases o <;> exact absurd hname (by decide)
  · rw [he] at h
    obtain ⟨hname, _⟩ := hatom (Literal.isAtom_of_bool b) h
    cases b <;> exact absurd hname (by decide)
  · -- any other text starts with no letter
    obtain ⟨r, hr⟩ := List.head?_eq_some_iff.mp hc
    rw [hr] at h
    have hce : 'e' = c := (List.cons.inj h).1
    subst hce
    rcases hstart with hdigit | hparen | hsign
    · exact absurd hdigit (by decide)
    · exact absurd hparen (by decide)
    · exact absurd hsign (by decide)

/-- Where a declaration starts at the start of an application, a function of that name is applied,
and its first argument starts with the declared name. -/
theorem Command.Opening.applied_start {name p : List Char} (hp : Opening name p)
    {head a : String} (args : List String) (hhead : IsAtom head.toList)
    (ha : ∃ c r, a.toList = c :: r ∧ isBlank c = false)
    (h : p <+: (applied head (a :: args)).toList) :
    head = "declare-fun" ∧ ∃ d u, (isBlank d = true ∨ d = '(') ∧
      name ++ d :: u = a.toList ++ ((args.map fun s => ' ' :: s.toList).flatten ++ [')']) := by
  obtain ⟨gap, d, hne, hgap, hd⟩ := hp
  obtain ⟨q, hq⟩ := h
  obtain ⟨b, gap, rfl⟩ := List.exists_cons_of_ne_nil hne
  obtain ⟨hb, hgap⟩ := List.forall_mem_cons.mp hgap
  -- behind the parenthesis stand the word, the first blank and the rest, and the head and a space
  have hparts : "declare-fun".toList ++ b :: (gap ++ (name ++ d :: q)) = head.toList ++
      ' ' :: (a.toList ++ ((args.map fun s => ' ' :: s.toList).flatten ++ [')'])) := by
    rw [applied_toList] at hq
    have hdeclare : declareFun = '(' :: "declare-fun".toList := rfl
    rw [hdeclare] at hq
    simpa only [List.cons_append, List.append_assoc, List.cons.injEq, true_and,
      List.nil_append] using hq
  obtain ⟨hname, _, hrest⟩ := hhead.eq_of_run (by decide) (by decide)
    (not_isSymbolChar_of_isBlank hb) (by decide) hparts
  refine ⟨String.toList_inj.mp hname, d, q, hd, ?_⟩
  -- the argument starts with no blank, so there is just one before it
  cases gap with
  | nil => exact hrest
  | cons e gap =>
    obtain ⟨c, r, har, hc⟩ := ha
    rw [har] at hrest
    have hec : e = c := (List.cons.inj hrest).1
    rw [← hec, hgap e List.mem_cons_self] at hc
    cases hc

/-- An opening stands at the front of an application, or inside one of its arguments. -/
theorem Command.Opening.infix_applied {name p : List Char} (hp : Opening name p)
    (hclose : ')' ∉ name) (head : String) (args : List String) (hhead : IsPlain head.toList)
    (hargs : ∀ a ∈ args, Balanced a.toList) (h : p <:+: (applied head args).toList) :
    (args ≠ [] ∧ p <+: (applied head args).toList) ∨ ∃ a ∈ args, p <:+: a.toList := by
  have hfree := hp.close_not_mem hclose
  obtain ⟨q, rfl⟩ := hp.cons_open
  have hhead' : ¬ '(' :: q <:+: head.toList := fun hin => (hhead '(' (hin.mem (by simp))).1 rfl
  cases args with
  | nil => exact absurd h hhead'
  | cons a args =>
    have htexts : ∀ s ∈ (head :: a :: args).map String.toList, Balanced s := by
      intro s hs
      obtain ⟨r, hr, rfl⟩ := List.mem_map.mp hs
      rcases List.mem_cons.mp hr with rfl | hr
      · exact .of_plain hhead
      · exact hargs r hr
    rw [applied_cons] at h ⊢
    rcases List.infix_cons_iff.mp h with hstarts | hinner
    · exact .inl ⟨by simp, hstarts⟩
    · -- further in, it stands inside one of the parts, for it closes no parenthesis
      have hclose' : ')' ∉ q := fun hm => hfree (List.mem_cons_of_mem _ hm)
      obtain ⟨s, hs, hin⟩ :=
        infix_of_intercalate_balanced hclose' _ htexts (infix_of_concat hfree hinner)
      obtain ⟨r, hr, rfl⟩ := List.mem_map.mp hs
      rcases List.mem_cons.mp hr with rfl | hr
      · exact absurd hin hhead'
      · exact .inr ⟨r, hr, hin⟩

/-- A function named like the command to declare is applied to the constant `exp` and to more. -/
def Term.MimicsDeclaration (t : Term) : Prop :=
  ∃ f g a args, t.Reaches (.app f (.app g [] :: a :: args)) ∧
    f.name = "declare-fun" ∧ g.name = "exp"

/-- An application of `declare-fun` to `exp` and more looks like a declaration. -/
theorem declares_applied (a : String) (args : List String) :
    Declares "exp".toList (applied "declare-fun" ("exp" :: a :: args)).toList := by
  have hopen : declareFun = '(' :: "declare-fun".toList := rfl
  have hblank : ∀ c ∈ [' '], Text.isBlank c = true := List.forall_mem_singleton.mpr (by decide)
  refine ⟨_, .mk [' '] ' ' (by simp) hblank (.inl (by decide)), List.IsPrefix.isInfix ?_⟩
  rw [applied_toList, hopen]
  refine ⟨a.toList ++ (args.map fun s => ' ' :: s.toList).flatten ++ [')'], ?_⟩
  simp only [List.map_cons, List.flatten_cons, List.cons_append, List.append_assoc, List.nil_append]

/-- A term with such an application in it looks like a declaration too. -/
theorem Term.MimicsDeclaration.declares {t : Term} (h : t.MimicsDeclaration) :
    Declares "exp".toList t.smtlib.toList := by
  obtain ⟨f, g, a, args, hreach, hf, hg⟩ := h
  have hdeclare : symbolText f.name = "declare-fun" := by
    rw [hf]
    exact symbolText_of_plain (by decide)
  have hexp : (Term.app g []).smtlib = "exp" := by
    change symbolText g.name = "exp"
    rw [hg]
    exact symbolText_of_plain (by decide)
  refine Declares.mono ?_ hreach.smtlib_infix
  rw [Term.smtlib_app, hdeclare, List.map_cons, hexp, List.map_cons]
  exact declares_applied _ _

theorem Term.MimicsDeclaration.of_child {t a : Term} (h : a.MimicsDeclaration)
    (ha : a ∈ t.children) : t.MimicsDeclaration := by
  obtain ⟨f, g, b, args, hreach, hnames⟩ := h
  exact ⟨f, g, b, args, Relation.ReflTransGen.head ha hreach, hnames⟩

theorem Term.smtlib_balanced (t : Term) (hn : ∀ f ∈ t.symbols, f.IsPlain) :
    Balanced t.smtlib.toList :=
  t.smtlibIn_balanced (fun f hf => (hn f hf).balanced) [] fun _ hp => absurd hp List.not_mem_nil

theorem Command.Opening.declareFun_infix {name p : List Char} (hp : Opening name p) :
    declareFun <:+: p := by
  obtain ⟨gap, d, _, _, _⟩ := hp
  exact ⟨[], gap ++ name ++ [d], by simp⟩

/-- No declaration starts inside a literal. -/
theorem Command.Opening.not_infix_literal {name p : List Char} (hp : Opening name p)
    (l : Literal) : ¬ p <:+: l.smtlib.toList := by
  intro h
  have hin := hp.declareFun_infix.trans h
  rcases l.eq_bool_or with ⟨b, rfl⟩ | hl
  · cases b <;> exact absurd hin (by decide)
  · exact (compositional_avoids 'l' rfl (by decide) (by decide)).literal l hl (hin.mem (by decide))

/-- An application in whose text a declaration of `exp` starts has the look of one itself, or has an
argument in whose text one starts. -/
theorem Command.Opening.exp_cases {p : List Char} (hp : Opening "exp".toList p) {head : String}
    {args : List Term} (hatom : IsAtom head.toList) (hplain : IsPlain head.toList)
    (hn : ∀ f ∈ Term.symbolsIn args, f.IsPlain)
    (h : p <:+: (applied head (args.map Term.smtlib)).toList) :
    (head = "declare-fun" ∧ ∃ g b bs, args = .app g [] :: b :: bs ∧ g.name = "exp") ∨
      ∃ a ∈ args, p <:+: a.smtlib.toList := by
  have hbalanced : ∀ s ∈ args.map Term.smtlib, Balanced s.toList := by
    intro s hs
    obtain ⟨a, ha, rfl⟩ := List.mem_map.mp hs
    exact a.smtlib_balanced fun f hf => hn f ((Term.mem_symbolsIn f args).mpr ⟨a, ha, hf⟩)
  rcases hp.infix_applied (by decide) head _ hplain hbalanced h with ⟨hne, hstarts⟩ | ⟨s, hs, hin⟩
  · left
    cases args with
    | nil => exact absurd rfl hne
    | cons a args =>
      obtain ⟨hhead, d, u, hd, htext⟩ := hp.applied_start _ hatom a.smtlib_start hstarts
      have hsym := not_isSymbolChar_of_end hd
      -- what ends the name must be a blank, so one more argument follows
      cases args with
      | nil =>
        obtain ⟨_, hdy⟩ := a.eq_exp_of_start hsym (by decide) htext
        rcases hd with hblank | hopen
        · rw [hdy] at hblank
          exact absurd hblank (by decide)
        · rw [hdy] at hopen
          exact absurd hopen (by decide)
      | cons b bs =>
        obtain ⟨⟨g, rfl, hg⟩, _⟩ := a.eq_exp_of_start hsym (by decide) htext
        exact ⟨hhead, g, b, bs, rfl, hg⟩
  · obtain ⟨a, ha, rfl⟩ := List.mem_map.mp hs
    exact .inr ⟨a, ha, hin⟩

/-- Nothing else in a term looks like a declaration of `exp`. -/
theorem Term.mimics_of_declares (t : Term) (hfree : t.QuantifierFree)
    (hn : ∀ f ∈ t.symbols, f.IsPlain) (h : Declares "exp".toList t.smtlib.toList) :
    t.MimicsDeclaration := by
  obtain ⟨p, hp, hin⟩ := h
  -- over the term: what is found starts at an application, or stands within one of its arguments
  induction t using Term.induction with
  | lit l => exact absurd hin (hp.not_infix_literal l)
  | app f args ih =>
    have hf : f.IsPlain := hn f (by simp [Term.symbols])
    have hargs : ∀ g ∈ Term.symbolsIn args, g.IsPlain :=
      fun g hg => hn g (List.mem_cons_of_mem f hg)
    rw [Term.smtlib_app] at hin
    rcases hp.exp_cases (symbolText_isAtom f.name) (symbolText_plain f.name hf) hargs hin with
      ⟨hhead, g, b, bs, rfl, hg⟩ | ⟨a, ha, hina⟩
    · have hname := symbolText_eq_plain (w := "declare-fun") (by decide) (by rw [hhead])
      exact ⟨f, g, b, bs, .refl, hname, hg⟩
    · have hsub : ∀ g ∈ a.symbols, g.IsPlain :=
        fun g hg => hargs g ((Term.mem_symbolsIn g args).mpr ⟨a, ha, hg⟩)
      exact (ih a ha (hfree.child ha) hsub hina).of_child ha
  | op o args ih =>
    rw [Term.smtlib_op] at hin
    rcases hp.exp_cases (op_isAtom o) (op_text_plain o) hn hin with ⟨hhead, _⟩ | ⟨a, ha, hina⟩
    · cases o <;> exact absurd hhead (by decide)
    · have hsub : ∀ g ∈ a.symbols, g.IsPlain :=
        fun g hg => hn g ((Term.mem_symbolsIn g args).mpr ⟨a, ha, hg⟩)
      exact (ih a ha (hfree.child ha) hsub hina).of_child ha
  | quant q vars body => exact absurd .refl (hfree q vars body)

/-- The assertion looks like a declaration iff its formula does. -/
theorem Term.declares_assertion_iff (t : Term) (hfree : t.QuantifierFree)
    (hn : ∀ f ∈ t.symbols, f.IsPlain) :
    Declares "exp".toList t.assertion.toList ↔ t.MimicsDeclaration := by
  have hatom : IsAtom "assert".toList := .run _ (by decide) (by decide)
  have htext : t.assertion = applied "assert" ([t].map Term.smtlib) := t.assertion_eq
  rw [htext]
  constructor
  · rintro ⟨p, hp, hin⟩
    have hargs : ∀ f ∈ Term.symbolsIn [t], f.IsPlain := by simpa [Term.symbolsIn] using hn
    rcases hp.exp_cases hatom (by decide) hargs hin with ⟨hhead, _⟩ | ⟨a, ha, hina⟩
    · exact absurd hhead (by decide)
    · obtain rfl := List.mem_singleton.mp ha
      exact a.mimics_of_declares hfree hn ⟨p, hp, hina⟩
  · intro h
    exact h.declares.mono (infix_applied_of_mem _ _ _ (by simp))

theorem letter_not_mem_sort (ty : Ty) : 'u' ∉ ty.text.toList := by
  have havoid := compositional_avoids 'u' rfl (by decide) (by decide)
  cases ty with
  | bits w =>
    have hw := havoid.wrap_text _ (havoid.append_text "_ BitVec " _ (by decide) (havoid.decimal w))
    simpa [Ty.text] using hw
  | bool | int | real => decide

/-- No declaration starts inside the sorts of a declaration. -/
theorem Command.Opening.not_infix_domain {name p : List Char} (hp : Opening name p) (f : Symbol) :
    ¬ p <:+: ("(" ++ " ".intercalate (f.domain.map Ty.text) ++ ")").toList := by
  intro h
  have hword : IsWord ['u'] := ⟨by decide, by decide⟩
  have hletter := (hp.declareFun_infix.trans h).mem (by decide : 'u' ∈ declareFun)
  rw [← List.singleton_infix_iff, hword.infix_wrap, hword.infix_spaced] at hletter
  obtain ⟨_, hs, hin⟩ := hletter
  obtain ⟨ty, _, rfl⟩ := List.mem_map.mp hs
  exact letter_not_mem_sort ty ((List.singleton_infix_iff _ _).mp hin)

/-- Of the declarations only that of a symbol named `exp` has the start of one for `exp` in it. -/
theorem Symbol.declares_declaration_iff (f : Symbol) (hf : f.IsPlain) :
    Declares "exp".toList f.declaration.toList ↔ f.name = "exp" := by
  have hatom : IsAtom "declare-fun".toList := .run _ (by decide) (by decide)
  have hplain := symbolText_plain f.name hf
  rw [f.declaration_eq]
  constructor
  · rintro ⟨p, hp, hin⟩
    have hbalanced : ∀ s ∈ [symbolText f.name,
        "(" ++ " ".intercalate (f.domain.map Ty.text) ++ ")", f.range.text], Balanced s.toList := by
      intro s hs
      simp only [List.mem_cons, List.not_mem_nil, or_false] at hs
      rcases hs with rfl | rfl | rfl
      · exact .of_plain hplain
      · exact domain_balanced f
      · exact tyText_balanced f.range
    rcases hp.infix_applied (by decide) _ _ (by decide) hbalanced hin with
      ⟨_, hstarts⟩ | ⟨s, hs, hins⟩
    · -- the name that is declared ends where the one that is looked for ends
      obtain ⟨_, d, u, hd, htext⟩ :=
        hp.applied_start _ hatom (symbolText_isAtom f.name).start hstarts
      have hname := (symbolText_isAtom f.name).eq_of_run (by decide) (by decide)
        (not_isSymbolChar_of_end hd) (by decide : isSymbolChar ' ' = false) htext
      exact symbolText_eq_plain (by decide) hname.1
    · simp only [List.mem_cons, List.not_mem_nil, or_false] at hs
      rcases hs with rfl | rfl | rfl
      · obtain ⟨q, rfl⟩ := hp.cons_open
        exact absurd rfl (hplain '(' (hins.mem List.mem_cons_self)).1
      · exact absurd hins (hp.not_infix_domain f)
      · have hletter := (hp.declareFun_infix.trans hins).mem (by decide : 'u' ∈ declareFun)
        exact absurd hletter (letter_not_mem_sort f.range)
  · intro hname
    have hexp : symbolText f.name = "exp" := by
      rw [hname]
      exact symbolText_of_plain (by decide)
    rw [hexp]
    exact declares_applied _ _

end Validity
