import Validity.Proofs.Filtering
import Validity.Proofs.Openings

/-!
Problems and their symbols. With names without parentheses it can be told from the formulas which
of them a filtered problem still has, and every symbol of these is declared once, ahead of all
formulas, unless its declaration is one that the filter drops.
-/
namespace Validity

open Command

theorem Term.mem_symbolsAll_of_free (f : Symbol) (ts : List Term)
    (ih : ∀ t ∈ ts, ∀ seen, f ∈ t.symbols → f ∈ t.symbolsFrom [] seen) (seen : List Symbol)
    (h : f ∈ Term.symbolsIn ts) : f ∈ Term.symbolsAll [] seen ts := by
  induction ts with
  | nil => exact absurd h List.not_mem_nil
  | cons t ts ihs =>
    rcases List.mem_append.mp h with ht | hts
    · exact ih t List.mem_cons_self _ ht
    · have hrest := ihs (fun u hu => ih u (List.mem_cons_of_mem t hu)) hts
      exact (t.symbolsFrom_collects [] _).subset hrest

/-- Without quantifiers all symbols of a term are free. -/
theorem Term.mem_symbolsFrom_of_free (t : Term) (hfree : t.QuantifierFree) (f : Symbol)
    (hf : f ∈ t.symbols) (seen : List Symbol) : f ∈ t.symbolsFrom [] seen := by
  induction t using Term.induction generalizing seen with
  | lit l => exact absurd hf List.not_mem_nil
  | app g args ih =>
    rw [Term.symbolsFrom]
    rcases List.mem_cons.mp hf with rfl | hargs
    · -- the head goes in before the arguments are walked, and nothing is taken out
      apply (Term.symbolsAll_collects [] args (fun a _ => a.symbolsFrom_collects []) _).subset
      split_ifs with hknown
      · simpa using hknown
      · simp
    · exact Term.mem_symbolsAll_of_free f args
        (fun a ha seen hfa => ih a ha (hfree.child ha) hfa seen) _ hargs
  | op o args ih =>
    exact Term.mem_symbolsAll_of_free f args
      (fun a ha seen hfa => ih a ha (hfree.child ha) hfa seen) seen hf
  | quant q vars body => exact absurd .refl (hfree q vars body)

/-- The symbols of a formula without quantifiers are declared. -/
theorem mem_freeSymbols_of_free (ts : List Term) (t : Term) (ht : t ∈ ts)
    (hfree : t.QuantifierFree) (f : Symbol) (hf : f ∈ t.symbols) : f ∈ freeSymbols ts := by
  obtain ⟨before, after, rfl⟩ := List.append_of_mem ht
  rw [freeSymbols, List.foldl_append, List.foldl_cons]
  apply (Collects.foldl after _ (fun u _ seen => u.symbolsFrom_collects [] seen) _).subset
  exact t.mem_symbolsFrom_of_free hfree f hf _

/-- A formula that does not get through: it has a quantifier, or a symbol with a keyword in its
name, or looks like a declaration of `exp` somewhere. -/
def Term.Unsupported (t : Term) : Prop :=
  (∃ q vars body, t.Reaches (.quant q vars body)) ∨
    (∃ f ∈ t.symbols, "forall".toList <:+: f.name.toList ∨ "exists".toList <:+: f.name.toList) ∨
    t.MimicsDeclaration

theorem keyword_exists_iff (s : List Char) : (∃ k ∈ ({} : Filter).keywords, k.toList <:+: s) ↔
    "forall".toList <:+: s ∨ "exists".toList <:+: s := by
  simp only [List.mem_cons, List.not_mem_nil, or_false, exists_eq_or_imp, exists_eq_left]

theorem function_exists_iff (s : List Char) :
    (∃ g ∈ ({} : Filter).functions, Declares g.toList s) ↔ Declares "exp".toList s := by
  simp only [List.mem_singleton, exists_eq_left]

/-- What the filter finds in the text of an assertion can be told from the formula. -/
theorem Term.drops_assertion_iff (t : Term) (hn : ∀ f ∈ t.symbols, f.IsPlain) :
    ({} : Filter).Drops t.assertion.toList ↔ t.Unsupported := by
  rw [Filter.Drops, t.keyword_assertion_iff, function_exists_iff, or_assoc]
  simp only [keyword_exists_iff]
  by_cases hfree : t.QuantifierFree
  · rw [t.declares_assertion_iff hfree hn, Term.Unsupported]
  · -- with a quantifier both sides hold, whatever else the text has
    simp only [Term.QuantifierFree, not_forall, not_not] at hfree
    exact iff_of_true (.inl hfree) (.inl hfree)

theorem Symbol.drops_declaration_iff (f : Symbol) (hf : f.IsPlain) :
    ({} : Filter).Drops f.declaration.toList ↔
      ("forall".toList <:+: f.name.toList ∨ "exists".toList <:+: f.name.toList) ∨
        f.name = "exp" := by
  rw [Filter.Drops, function_exists_iff, f.declares_declaration_iff hf, ← keyword_exists_iff]
  simp only [and_congr_right_iff.mpr fun hk => f.keyword_declaration_iff hk]

theorem plain_of_mem (ts : List Term) (hn : ∀ f ∈ Term.symbolsIn ts, f.IsPlain) (t : Term)
    (ht : t ∈ ts) (f : Symbol) (hf : f ∈ t.symbols) : f.IsPlain :=
  hn f ((Term.mem_symbolsIn f ts).mpr ⟨t, ht, hf⟩)

/-- The symbols of a supported formula are declared once each, those named `exp` not at all. -/
theorem count_declared (ts : List Term) (hn : ∀ f ∈ Term.symbolsIn ts, f.IsPlain) (t : Term)
    (ht : t ∈ ts) (hsupported : ¬ t.Unsupported) (f : Symbol) (hf : f ∈ t.symbols) :
    ((freeSymbols ts).filter fun g => ¬ ({} : Filter).Drops g.declaration.toList).count f =
      if f.name = "exp" then 0 else 1 := by
  have hplain := plain_of_mem ts hn t ht f hf
  have hfree : t.QuantifierFree :=
    fun q vars body hreach => hsupported (.inl ⟨q, vars, body, hreach⟩)
  have hmem := mem_freeSymbols_of_free ts t ht hfree f hf
  -- a keyword in the name would have dropped the formula as well
  have hdrops : ({} : Filter).Drops f.declaration.toList ↔ f.name = "exp" := by
    rw [f.drops_declaration_iff hplain]
    exact or_iff_right fun hkey => hsupported (.inr (.inl ⟨f, hf, hkey⟩))
  have hkept : f ∈ (freeSymbols ts).filter (fun g => ¬ ({} : Filter).Drops g.declaration.toList) ↔
      f.name ≠ "exp" := by
    rw [List.mem_filter, decide_eq_true_iff, hdrops, and_iff_right hmem]
  rw [List.Nodup.count ((freeSymbols_nodup ts).filter _)]
  simp only [hkept, ne_eq, ite_not]

/-- The declaration of a symbol stands as often among the declarations as the symbol among the
declared ones, if no other of these is declared alike. -/
theorem Symbol.count_declaration (f : Symbol) (decls : List Symbol)
    (h : ∀ g ∈ decls, g.declaration = f.declaration → g = f) :
    (decls.map Symbol.declaration).count f.declaration = decls.count f := by
  rw [List.count, List.count, List.countP_map]
  refine List.countP_congr fun g hg => ?_
  simp only [Function.comp_apply, beq_iff_eq]
  exact ⟨h g hg, congrArg Symbol.declaration⟩

/-- An assertion stands in the filtered problem iff the filter does not drop it. -/
theorem assertion_infix_iff (ts : List Term) (hn : ∀ f ∈ Term.symbolsIn ts, f.IsPlain) (t : Term)
    (ht : t ∈ ts) : t.assertion.toList <:+: (({} : Filter).problem ts).toList ↔
      ¬ ({} : Filter).Drops t.assertion.toList := by
  have hbalanced (f : Symbol) (hf : f ∈ Term.symbolsIn ts) : f.IsBalanced := (hn f hf).balanced
  constructor
  · -- a dropped assertion cannot stand in the text by chance, for the text would be dropped too
    intro hin hdrops
    exact Filter.problem_not_dropped Filter.withinCommands_default.confined ts (hdrops.mono hin)
  · intro hkeeps
    have hwritten : t.assertion ∈ commands ts :=
      List.mem_append_right _ (List.mem_map_of_mem ht)
    rw [Filter.problem_eq_lines Filter.withinCommands_default checkCommand_not_dropped ts hbalanced,
      String.toList_append, String.toList_intercalate]
    refine List.IsInfix.trans ?_ (List.suffix_append _ _).isInfix
    apply Text.infix_intercalate_of_mem
    apply List.mem_map_of_mem
    exact List.mem_append_left _ (List.mem_filter.mpr ⟨hwritten, by simpa using hkeeps⟩)

/-- Without parentheses in names, the problem of a session under assumptions lacks exactly the
unsupported assertions and assumptions. Its declarations stand ahead of the assertions that are
left. Each symbol of these is declared once, unless it is named `exp`; if no two symbols are
declared alike, the text has its declaration once. -/
theorem problem_well_scoped (s : Session) (us : List Term) (hb : ∀ u ∈ us, u.ty = .bool)
    (hn : ∀ f ∈ Term.symbolsIn (s.assertions ++ us), f.IsPlain) :
    ∃ (text lead : String) (decls : List Symbol) (kept : List Term),
      s.problem ({} : Config).unsupported us = .ok text ∧
      text = lead ++ "\n".intercalate
        (decls.map Symbol.declaration ++ kept.map Term.assertion ++ [checkCommand]) ∧
      (lead = "" ∨ lead = "\n") ∧ kept.Sublist (s.assertions ++ us) ∧
      (∀ t ∈ s.assertions ++ us, ¬ t.assertion.toList <:+: text.toList ↔ t.Unsupported) ∧
      (∀ t ∈ s.assertions ++ us, t ∈ kept ↔ ¬ t.Unsupported) ∧
      (∀ t ∈ kept, ∀ f ∈ t.symbols, decls.count f = if f.name = "exp" then 0 else 1) ∧
      ((∀ f ∈ Term.symbolsIn (s.assertions ++ us), ∀ g ∈ Term.symbolsIn (s.assertions ++ us),
          f.declaration = g.declaration → f = g) →
        ∀ t ∈ kept, ∀ f ∈ t.symbols, (decls.map Symbol.declaration).count f.declaration =
          if f.name = "exp" then 0 else 1) := by
  let filter : Filter := ({} : Config).unsupported
  let ts := s.assertions ++ us
  let decls := (freeSymbols ts).filter fun f => ¬ filter.Drops f.declaration.toList
  let kept := ts.filter fun t => ¬ filter.Drops t.assertion.toList
  have hdrops (t : Term) (ht : t ∈ ts) : filter.Drops t.assertion.toList ↔ t.Unsupported :=
    t.drops_assertion_iff (plain_of_mem ts hn t ht)
  have hmem (t : Term) (ht : t ∈ ts) : t ∈ kept ↔ ¬ t.Unsupported := by
    rw [← hdrops t ht]
    simp [kept, ht]
  have hcommands : (commands ts).filter (fun c => ¬ filter.Drops c.toList) =
      decls.map Symbol.declaration ++ kept.map Term.assertion := by
    simp only [commands, decls, kept, List.filter_append, List.filter_map, Function.comp_def]
  let lead := if (commands ts).head?.all fun c => filter.Drops c.toList then "\n" else ""
  have hlead : lead = "" ∨ lead = "\n" := by
    simp only [lead]
    split_ifs
    · exact .inr rfl
    · exact .inl rfl
  have hcount : ∀ t ∈ kept, ∀ f ∈ t.symbols, decls.count f = if f.name = "exp" then 0 else 1 := by
    intro t ht
    have hts := List.mem_of_mem_filter ht
    exact count_declared ts hn t hts ((hmem t hts).mp ht)
  refine ⟨filter.problem ts, lead, decls, kept, s.problem_of_bool filter us hb, ?_, hlead,
    List.filter_sublist, ?_, hmem, hcount, fun halike t ht f hf => ?_⟩
  · rw [← hcommands]
    exact Filter.problem_eq_lines Filter.withinCommands_default checkCommand_not_dropped ts
      fun f hf => (hn f hf).balanced
  · intro t ht
    rw [← hdrops t ht]
    exact (not_congr (assertion_infix_iff ts hn t ht)).trans not_not
  · have hsymbol : f ∈ Term.symbolsIn ts :=
      (Term.mem_symbolsIn f ts).mpr ⟨t, List.mem_of_mem_filter ht, hf⟩
    rw [f.count_declaration decls fun g hg => ?_, hcount t ht f hf]
    exact halike g (mem_symbolsIn_of_mem_freeSymbols g ts (List.mem_of_mem_filter hg)) f hsymbol

/-- A quantifier and a name that starts like one get lost; the equation with `exp` stays, and of its
symbols the text declares `x` only. -/
theorem problem_well_scoped_mixed :
    let x : Symbol := ⟨"x", [], .int⟩
    let named : Symbol := ⟨"existsX", [], .bool⟩
    let exp : Symbol := ⟨"exp", [.int], .int⟩
    let all : Term := .quant .all [x] (.op .eq [.const x, .const x])
    let s : Session := { base := [all, .const named] }
    let u : Term := .op .eq [.app exp [.const x], .const x]
    ∃ (text lead : String) (decls : List Symbol) (kept : List Term),
      s.problem ({} : Config).unsupported [u] = .ok text ∧
      text = lead ++ "\n".intercalate
        (decls.map Symbol.declaration ++ kept.map Term.assertion ++ [checkCommand]) ∧
      ¬ all.assertion.toList <:+: text.toList ∧
      ¬ (Term.const named).assertion.toList <:+: text.toList ∧
      u.assertion.toList <:+: text.toList ∧
      (decls.map Symbol.declaration).count x.declaration = 1 ∧
      (decls.map Symbol.declaration).count exp.declaration = 0 := by
  intro x named exp all s u
  have hplain : ∀ f ∈ Term.symbolsIn (s.assertions ++ [u]), f.IsPlain := by decide +kernel
  have hapart : ∀ f ∈ Term.symbolsIn (s.assertions ++ [u]),
      ∀ g ∈ Term.symbolsIn (s.assertions ++ [u]), f.declaration = g.declaration → f = g := by
    decide +kernel
  obtain ⟨text, lead, decls, kept, hproblem, htext, _, _, habsent, hkept, _, hcount⟩ :=
    problem_well_scoped s [u] (by decide) hplain
  have hmem : u ∈ s.assertions ++ [u] := by simp
  have hu : ¬ u.Unsupported := by
    rw [← u.drops_assertion_iff fun f hf => hplain f (by simp [Term.mem_symbolsIn, hf])]
    decide +kernel
  have hdeclared := hcount hapart u ((hkept u hmem).mpr hu)
  refine ⟨text, lead, decls, kept, hproblem, htext, ?_, ?_, ?_, ?_, ?_⟩
  · exact (habsent all (by simp [s, Session.assertions])).mpr (.inl ⟨_, _, _, .refl⟩)
  · apply (habsent (.const named) (by simp [s, Session.assertions])).mpr
    exact .inr (.inl ⟨named, by simp [Term.const, Term.symbols], .inr (by decide)⟩)
  · by_contra hno
    exact hu ((habsent u hmem).mp hno)
  · exact hdeclared x (by decide)
  · exact hdeclared exp (by decide)

/-- A function named like the command to declare, applied to `exp`: the assertion is dropped, though
it has no quantifier and no keyword in a name. Constants `a b` and `|a b|`, which are declared
alike: the text has one declaration twice. -/
theorem application_dropped_and_declaration_repeated :
    (let declare : Symbol := ⟨"declare-fun", [.int, .int], .bool⟩
    let exp : Symbol := ⟨"exp", [], .int⟩
    let x : Symbol := ⟨"x", [], .int⟩
    let t : Term := .app declare [.const exp, .const x]
    let s : Session := { base := [t] }
    t.QuantifierFree ∧ (∀ f ∈ t.symbols, f.IsPlain ∧
        ¬ ("forall".toList <:+: f.name.toList ∨ "exists".toList <:+: f.name.toList)) ∧
      s.problem ({} : Config).unsupported [] =
        .ok "(declare-fun declare-fun (Int Int) Bool)\n(declare-fun x () Int)\n(check-sat)") ∧
    (let s : Session := { base := [.const ⟨"a b", [], .bool⟩, .const ⟨"|a b|", [], .bool⟩] }
    (∀ f ∈ Term.symbolsIn s.assertions, f.IsPlain) ∧
      s.problem ({} : Config).unsupported [] =
        .ok ("(declare-fun |a b| () Bool)\n(declare-fun |a b| () Bool)\n" ++
          "(assert |a b|)\n(assert |a b|)\n(check-sat)")) := by
  have hproblem (s : Session) (text : String)
      (h : ({} : Config).unsupported.problem (s.assertions ++ []) = text) :
      s.problem ({} : Config).unsupported [] = .ok text := by
    rw [s.problem_of_bool _ [] fun u hu => absurd hu List.not_mem_nil, h]
  refine ⟨⟨?_, by decide +kernel, hproblem _ _ (by decide +kernel)⟩, by decide +kernel,
    hproblem _ _ (by decide +kernel)⟩
  intro q vars body hreach
  have hin := (Term.quantifier_text_infix q vars body).trans hreach.smtlib_infix
  rw [← Text.occursIn_iff] at hin
  cases q
  · exact absurd hin (by decide +kernel)
  · exact absurd hin (by decide +kernel)

end Validity
