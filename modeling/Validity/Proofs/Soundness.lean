import Mathlib
import Validity.Proofs.Legibility
import Validity.Proofs.Scopes

/-!
Verdicts are right if the engines are. A proof means that no interpretation satisfies the live
assumptions and falsifies all live obligations, and a counterexample is such an interpretation. An
external solver is right about the text it reads; the text may lack assertions, and tells about the
session only if it is legible.
-/
namespace Validity

/-- The answer about assertions and assumptions is right: if unsatisfiable, they have no common
interpretation, and if satisfiable, the model stands for one. -/
structure Decider.CorrectOn (d : Decider) (reading : Model → Interp) (ts us : List Term) :
    Prop where
  unsat : (d ts us).result = .unsat → ¬ Satisfiable (ts ++ us)
  sat : ∀ m, (d ts us).result = .sat → (d ts us).model = some m →
    ∀ t ∈ ts ++ us, (reading m).Satisfies t

/-- A solver that was launched on a text ends with `unsat` in its output only if the text has no
model. -/
def Submission.RightAbout (s : Submission) (text : String) : Prop :=
  ∀ out err status words, s.report = .ok (.ended out err status) → decodeOutput out = .ok words →
    Text.occursIn "unsat".toList words.toList = true → Unsatisfiable text

/-- A run is unsatisfiable only if the program ended and `unsat` stands in its output. -/
theorem Launch.ended_of_unsat (launch : Launch) (executable : String) (run : Run)
    (h : launch.run executable = .ok run) (ht : run.timedOut = false)
    (hr : run.result = .unsat) :
    ∃ out err status s, (.ok launch : Except Error Launch) = .ok (.ended out err status) ∧
      decodeOutput out = .ok s ∧ Text.occursIn "unsat".toList s.toList = true := by
  cases launch with
  | malformed => cases h
  | refused f => cases h
  | stopped out err =>
    cases h
    cases ht
  | ended out err status =>
    cases hout : decodeOutput out with
    | error f => simp [Launch.run, hout, bind, Except.bind] at h
    | ok s =>
      refine ⟨out, err, status, s, rfl, hout, ?_⟩
      cases herr : decodeOutput err with
      | error f => simp [Launch.run, hout, herr, bind, Except.bind] at h
      | ok s' =>
        simp only [Launch.run, hout, herr, bind, Except.bind] at h
        cases h
        unfold Result.ofOutput at hr
        dsimp only at hr
        split_ifs at hr with hs
        exact hs

namespace Prover

/-- A proof in the session rests on an answer, and so does a counterexample, with its model. -/
theorem internal_verdict (s : Session) (d : Decider) (us : List Term) (v : Verdict)
    (h : (s.check d us).1.bind Outcome.verdict = .ok v) :
    (v = .proof → (d s.assertions us).result = .unsat) ∧
      ∀ i, v = .counterexample i →
        (d s.assertions us).result = .sat ∧ (d s.assertions us).model = some i.model := by
  by_cases hb : ∀ u ∈ us, u.ty = .bool
  · rw [s.check_of_bool d us hb] at h
    generalize d s.assertions us = r at h ⊢
    change (Session.outcome r).bind Outcome.verdict = .ok v at h
    unfold Session.outcome at h
    split at h
    · rename_i m hresult hmodel
      obtain rfl : Verdict.counterexample (.ofModel m) = v := Except.ok.inj h
      refine ⟨fun hv => (by cases hv), fun i hi => ⟨hresult, ?_⟩⟩
      cases hi
      exact hmodel
    · cases h
    · rename_i hresult
      obtain rfl : Verdict.proof = v := Except.ok.inj h
      exact ⟨fun _ => hresult, fun i hi => (by cases hi)⟩
    · obtain rfl : Verdict.unknown _ = v := Except.ok.inj h
      exact ⟨fun hv => (by cases hv), fun i hi => (by cases hi)⟩
  · rw [s.check_of_not_bool d us hb] at h
    cases h

theorem run_verdict (r : Run) (name : String) (v : Verdict)
    (h : (r.outcome name).verdict = .ok v) :
    (v = .proof → r.timedOut = false ∧ r.result = .unsat) ∧ ∀ i, v ≠ .counterexample i := by
  have hunknown (why : Reason) (hv : Verdict.unknown why = v) :
      (v = .proof → r.timedOut = false ∧ r.result = .unsat) ∧ ∀ i, v ≠ .counterexample i := by
    subst hv
    exact ⟨fun h => (by cases h), fun i h => (by cases h)⟩
  unfold Run.outcome at h
  dsimp only at h
  split_ifs at h with ht
  · exact hunknown _ (Except.ok.inj h)
  · cases hr : r.result with
    | unsat =>
      rw [hr] at h
      obtain rfl : Verdict.proof = v := Except.ok.inj h
      exact ⟨fun _ => ⟨by simpa using ht, rfl⟩, fun i hi => (by cases hi)⟩
    | sat =>
      rw [hr] at h
      rw [hr] at hunknown
      exact hunknown _ (Except.ok.inj h)
    | unknown =>
      rw [hr] at h
      rw [hr] at hunknown
      exact hunknown _ (Except.ok.inj h)

/-- A proof by the external solver rests on its output, and it gives no counterexample. -/
theorem external_verdict (p : Prover) (e : Engines) (us : List Term) (v : Verdict)
    (h : (p.checkExternal e us).answer.bind Outcome.verdict = .ok v) :
    (v = .proof → ∃ out err status s,
      (e.submit p.solver.argv p.config.runSeconds
        (p.config.unsupported.problem (p.session.assertions ++ us))).report =
          .ok (.ended out err status) ∧
      decodeOutput out = .ok s ∧ Text.occursIn "unsat".toList s.toList = true) ∧
    ∀ i, v ≠ .counterexample i := by
  unfold checkExternal Session.problem at h
  split_ifs at h
  · dsimp only at h
    -- from here on only what was reported counts, not what was asked
    generalize (e.submit p.solver.argv p.config.runSeconds
      (p.config.unsupported.problem (p.session.assertions ++ us))).report = report at h ⊢
    cases hrun : report.bind (Launch.run (p.solver.argv.headD "")) with
    | error err =>
      rw [hrun] at h
      cases h
    | ok run =>
      rw [hrun] at h
      obtain ⟨hproof, hnone⟩ := run_verdict run _ v h
      refine ⟨fun hv => ?_, hnone⟩
      obtain ⟨htime, hresult⟩ := hproof hv
      cases report with
      | error err => cases hrun
      | ok launch => exact launch.ended_of_unsat _ run hrun htime hresult
  · cases h

end Prover

namespace History

theorem mem_assumptions (h : List Event) (t : Term) :
    t ∈ assumptions h ↔ ∃ l, (l, Statement.assumption t) ∈ live h := by
  simp only [assumptions, List.mem_filterMap, Prod.exists]
  constructor
  · rintro ⟨l, s, hs, ht⟩
    cases s <;> cases ht
    exact ⟨l, hs⟩
  · rintro ⟨l, hl⟩
    exact ⟨l, _, hl, rfl⟩

theorem mem_obligations (h : List Event) (t : Term) :
    t ∈ obligations h ↔ ∃ l, (l, Statement.obligation t) ∈ live h := by
  simp only [obligations, List.mem_filterMap, Prod.exists]
  constructor
  · rintro ⟨l, s, hs, ht⟩
    cases s <;> cases ht
    exact ⟨l, hs⟩
  · rintro ⟨l, hl⟩
    exact ⟨l, _, hl, rfl⟩

/-- An interpretation of what is asserted satisfies the assumptions and falsifies all
obligations. -/
theorem satisfies_assertions_iff (h : List Event) (I : Interp) :
    (∀ t ∈ (live h).map fun x => x.2.assertion, I.Satisfies t) ↔
      (∀ t ∈ assumptions h, I.Satisfies t) ∧ ∀ t ∈ obligations h, ¬ I.Satisfies t := by
  simp only [List.mem_map, Prod.exists, mem_assumptions, mem_obligations]
  constructor
  · intro hall
    refine ⟨fun t ⟨l, hl⟩ => hall t ⟨l, _, hl, rfl⟩, fun t ⟨l, hl⟩ => ?_⟩
    rw [← I.satisfies_not]
    exact hall t.not ⟨l, _, hl, rfl⟩
  · rintro ⟨hassumed, hrequired⟩ t ⟨l, s, hl, rfl⟩
    cases s with
    | assumption t => exact hassumed t ⟨l, hl⟩
    | obligation t => exact (I.satisfies_not t).mpr (hrequired t ⟨l, hl⟩)

end History

open History

/-- A conclusive verdict of a backend is right about what is asserted. -/
theorem Prover.outcome_sound (p : Prover) (e : Engines) (us : List Term) (v : Verdict)
    (reading : Model → Interp)
    (hd : p.backend = .internal → e.decide.CorrectOn reading p.session.assertions us)
    (hs : p.backend = .external →
      (e.submit p.solver.argv p.config.runSeconds
        (p.config.unsupported.problem (p.session.assertions ++ us))).RightAbout
          (p.config.unsupported.problem (p.session.assertions ++ us)))
    (hn : p.backend = .external →
      (∀ f ∈ Term.symbolsIn (p.session.assertions ++ us), f.IsPlain) ∧
        Instruction.Legible (p.config.unsupported.instructions (p.session.assertions ++ us)))
    (h : (p.outcome e us).1.answer.bind Outcome.verdict = .ok v) :
    (v = .proof → ¬ Satisfiable (p.session.assertions ++ us)) ∧
      ∀ i, v = .counterexample i →
        ∀ t ∈ p.session.assertions ++ us, (reading i.model).Satisfies t := by
  unfold Prover.outcome at h
  cases hb : p.backend with
  | internal =>
    rw [hb] at h
    obtain ⟨hproof, hcounter⟩ := internal_verdict p.session e.decide us v h
    have hright := hd hb
    refine ⟨fun hv => hright.unsat (hproof hv), fun i hi => ?_⟩
    obtain ⟨hresult, hmodel⟩ := hcounter i hi
    exact hright.sat _ hresult hmodel
  | external =>
    rw [hb] at h
    obtain ⟨hproof, hnone⟩ := external_verdict p e us v h
    refine ⟨fun hv => ?_, fun i hi => absurd hi (hnone i)⟩
    obtain ⟨out, err, status, words, hreport, hout, hunsat⟩ := hproof hv
    obtain ⟨hplain, hlegible⟩ := hn hb
    -- what the solver has refuted is the text, and this says enough about the formulas
    exact p.config.unsupported.not_satisfiable_of_unsatisfiable _ hplain hlegible
      (hs hb out err status words hreport hout hunsat)

/-- After every run from a new prover that leaves an obligation live: if the check of the
obligations under further assumptions gives a proof, then whatever satisfies the assumptions
satisfies one of the obligations, and if it gives a counterexample, then its model satisfies the
assumptions and none of the obligations. The decider is taken to be right, whatever its models stand
for, and an external solver to be right about the text that it reads; the names in the text have no
parentheses, no two symbols are written with one name or with a word of the language, and what stands
under the root of an irrational literal is positive. -/
theorem check_verdict_sound (backend : Backend) (config : Config) (p : Prover)
    (hp : Prover.create backend config = .ok p) (steps : List (Engines × Operation))
    (hlive : obligations (p.history steps) ≠ []) (e : Engines) (us : List Term)
    (reading : Model → Interp)
    (hdecider : backend = .internal →
      e.decide.CorrectOn reading (p.performAll steps).session.assertions us)
    (hsolver : backend = .external →
      (e.submit p.solver.argv config.runSeconds
        (config.unsupported.problem ((p.performAll steps).session.assertions ++ us))).RightAbout
          (config.unsupported.problem ((p.performAll steps).session.assertions ++ us)))
    (hnames : backend = .external →
      (∀ f ∈ Term.symbolsIn ((p.performAll steps).session.assertions ++ us), f.IsPlain) ∧
        Instruction.Legible
          (config.unsupported.instructions ((p.performAll steps).session.assertions ++ us))) :
    (((p.performAll steps).check e us).1.answer = .ok .proof →
      ∀ I : Interp, (∀ t ∈ assumptions (p.history steps) ++ us, I.Satisfies t) →
        ∃ t ∈ obligations (p.history steps), I.Satisfies t) ∧
    ∀ i, ((p.performAll steps).check e us).1.answer = .ok (.counterexample i) →
      (∀ t ∈ assumptions (p.history steps) ++ us, (reading i.model).Satisfies t) ∧
      ∀ t ∈ obligations (p.history steps), ¬ (reading i.model).Satisfies t := by
  have ht : Tracks (p.history steps) (p.performAll steps) :=
    (Tracks.create backend config hp).performAll steps
  have hp' := Prover.create_eq backend config p hp
  have hbackend : (p.performAll steps).backend = backend := by
    rw [p.performAll_backend, hp']
  have hconfig : (p.performAll steps).config = config := by
    rw [p.performAll_config, hp']
  have hargv : (p.performAll steps).solver = p.solver := by
    rw [Prover.solver, Prover.solver, p.performAll_config]
  -- an obligation is live, so the marker is set and the backend is asked
  obtain ⟨n, hmarker⟩ : ∃ n, (p.performAll steps).marker = some n := by
    obtain ⟨t, hmem⟩ := List.exists_mem_of_ne_nil _ hlive
    obtain ⟨l, hl⟩ := (mem_obligations _ t).mp hmem
    rcases Option.eq_none_or_eq_some (p.performAll steps).marker with hm | hm
    · exact absurd hl (ht.marker_none_iff.mp hm l t)
    · exact hm
  have hsound (v : Verdict) := (p.performAll steps).outcome_sound e us v reading
  rw [hbackend, hconfig, hargv] at hsound
  have hassertions (I : Interp) : (∀ t ∈ (p.performAll steps).session.assertions ++ us,
      I.Satisfies t) ↔ (∀ t ∈ assumptions (p.history steps) ++ us, I.Satisfies t) ∧
        ∀ t ∈ obligations (p.history steps), ¬ I.Satisfies t := by
    rw [List.forall_mem_append, List.forall_mem_append, ht.assertions, satisfies_assertions_iff]
    tauto
  rw [Prover.check_of_some _ e us n hmarker]
  refine ⟨fun hv I hI => ?_, fun i hi => ?_⟩
  · by_contra hno
    have hfalse : ∀ t ∈ obligations (p.history steps), ¬ I.Satisfies t :=
      fun t ht hs => hno ⟨t, ht, hs⟩
    exact (hsound .proof hdecider hsolver hnames hv).1 rfl ⟨I, (hassertions I).mpr ⟨hI, hfalse⟩⟩
  · exact (hassertions _).mp ((hsound _ hdecider hsolver hnames hi).2 i rfl)

/-- A problem has no model if it asserts a term and the negation of one that is written alike. -/
theorem unsatisfiable_of_opposite (f : Command.Filter) (ts : List Term)
    (hts : ∀ g ∈ Term.symbolsIn ts, g.IsPlain)
    (hnamed : ∀ p ∈ (f.instructions ts).flatMap Instruction.words,
      (isPlainName p.2 || isBarredName p.2) = true)
    (t u : Term) (htu : t.expression [] = u.expression [])
    (ht : .assert t ∈ f.instructions ts) (hu : .assert u.not ∈ f.instructions ts) :
    Unsatisfiable (f.problem ts) := by
  rintro commands hcommands ⟨N, hN⟩
  obtain rfl := Option.some.inj ((f.read_problem ts hts hnamed).symm.trans hcommands)
  have hmem {i : Instruction} (hi : i ∈ f.instructions ts) : N.Obeys (.node i.parts) :=
    hN _ (List.mem_map.mpr ⟨i, hi, rfl⟩)
  have htrue : (t.expression []).value N = .bool true := (N.obeys_assert_iff _).mp (hmem ht)
  have hfalse : (u.not.expression []).value N = .bool true := (N.obeys_assert_iff _).mp (hmem hu)
  have hnot : u.not.expression [] = .applied Op.not.text.toList [u.expression []] := rfl
  rw [hnot, Expression.value_op, List.map_singleton, ← htu, htrue] at hfalse
  simp [Quotients.operate, Value.Holds, Value.ofProp] at hfalse

/-- A truth constant holds in a model that says so. -/
theorem Model.satisfies_const_iff (m : Model) (a : Symbol) (ha : a.domain = [])
    (hr : a.range = .bool) :
    m.interp.Satisfies (.const a) ↔ m.constants.lookup a = some (.bool true) := by
  have hvalue : (Term.const a).value m.interp =
      ((m.meaning? a []).filter fun v => v.ty = a.range).getD a.range.default.value := rfl
  have hmeaning : m.meaning? a [] = (m.constants.lookup a).map Literal.value := by
    rw [Model.meaning?, Model.interpretation?, if_pos (List.isEmpty_iff.mpr ha)]
    cases m.constants.lookup a <;> rfl
  rw [Interp.Satisfies, hvalue, hmeaning, hr]
  cases m.constants.lookup a with
  | none => simp [Value.Holds, Ty.default, Literal.value]
  | some l => cases l <;> simp [Value.Holds, Ty.default, Literal.value, Value.ty, Option.filter]

def sureEngines (a : Symbol) : Engines where
  decide _ _ := { result := .sat, model := some { constants := [(a, .bool false)] } }
  submit _ _ _ := { report := .ok (.ended [117, 110, 115, 97, 116, 10] [] 0) }

theorem sureEngines_rightAbout (a : Symbol) (argv : List String) (limit : Option Binary)
    (text : String) (h : Unsatisfiable text) :
    ((sureEngines a).submit argv limit text).RightAbout text :=
  fun _ _ _ _ _ _ _ => h

theorem sureEngines_proves (p : Prover) (n : Nat) (text : String) (a : Symbol)
    (hb : p.backend = .external) (hm : p.marker = some n)
    (htext : p.session.problem p.config.unsupported [] = .ok text) :
    (p.check (sureEngines a) []).1.answer = .ok .proof := by
  have hrun (x : String) : Launch.run x (.ended [117, 110, 115, 97, 116, 10] [] 0) =
      .ok { stdout := "unsat\n", stderr := "", result := .unsat, status := 0 } := by
    cbv
  rw [Prover.check_of_some p _ [] n hm]
  simp [Prover.outcome, hb, Prover.checkExternal, htext, sureEngines, Except.bind, hrun,
    Run.outcome, Outcome.verdict]

theorem check_verdict_sound_constant :
    let a : Symbol := ⟨"a", [], .bool⟩
    let steps := [Operation.assume (.const a), .require (.const a)].map (Prover.idleEngines, ·)
    let others := [Operation.require (.const a)].map (Prover.idleEngines, ·)
    let p : Prover := { backend := .external }
    let q : Prover := { backend := .internal }
    (((p.performAll steps).check (sureEngines a) []).1.answer = .ok .proof ∧
      ∀ I : Interp, (∀ t ∈ [Term.const a], I.Satisfies t) →
        ∃ t ∈ [Term.const a], I.Satisfies t) ∧
    ∃ i, ((q.performAll others).check (sureEngines a) []).1.answer = .ok (.counterexample i) ∧
      ¬ i.model.interp.Satisfies (.const a) := by
  intro a steps others p q
  have hproof : ((p.performAll steps).check (sureEngines a) []).1.answer = .ok .proof :=
    sureEngines_proves (p.performAll steps) 0 _ a rfl rfl rfl
  have hplain : ∀ f ∈ Term.symbolsIn [.const a, (Term.const a).not], f.IsPlain := by
    decide
  have hinstructions : p.config.unsupported.instructions [.const a, (Term.const a).not] =
      [.declare a, .assert (.const a), .assert (Term.const a).not, .check] :=
    Command.Filter.instructions_of_all _ _ (by decide +kernel)
  have hlegible : Instruction.Legible
      (p.config.unsupported.instructions [.const a, (Term.const a).not]) := by
    rw [hinstructions]
    exact ⟨by decide +kernel, by decide⟩
  have hunsat : Unsatisfiable (p.config.unsupported.problem [.const a, (Term.const a).not]) :=
    unsatisfiable_of_opposite _ _ hplain hlegible.distinct.named (.const a) (.const a) rfl
      (by simp [hinstructions]) (by simp [hinstructions])
  have hsound := check_verdict_sound .external {} p rfl steps (by decide) (sureEngines a) []
    Model.interp (fun h => by cases h) (fun _ => sureEngines_rightAbout a _ _ _ hunsat)
    (fun _ => ⟨hplain, hlegible⟩)
  have hmodel : (sureEngines a).decide.CorrectOn Model.interp [(Term.const a).not] [] := by
    refine ⟨fun h => (by cases h), fun m _ hm t ht => ?_⟩
    obtain rfl := Option.some.inj hm
    rw [List.mem_singleton.mp ht, Interp.satisfies_not]
    rw [Model.satisfies_const_iff _ a rfl rfl]
    decide
  have hcounter := check_verdict_sound .internal {} q rfl others (by decide) (sureEngines a) []
    Model.interp (fun _ => hmodel) (fun h => by cases h) (fun h => by cases h)
  refine ⟨⟨hproof, hsound.1 hproof⟩, _, rfl, ?_⟩
  exact (hcounter.2 _ rfl).2 (.const a) (by decide)

/-- Constants `a b` and `|a b|` are written alike. With one assumed and the other required, no name
has a parenthesis and a solver that refutes the text is right about it, so that the check gives a
proof; but the one constant may be true and the other false. -/
theorem clashing_names_give_false_proof :
    let a : Symbol := ⟨"a b", [], .bool⟩
    let b : Symbol := ⟨"|a b|", [], .bool⟩
    let p : Prover := { backend := .external }
    let q := p.performAll
      ([Operation.assume (.const a), .require (.const b)].map (Prover.idleEngines, ·))
    let text := q.config.unsupported.problem q.session.assertions
    (∀ f ∈ Term.symbolsIn q.session.assertions, f.IsPlain) ∧
      ((sureEngines a).submit q.solver.argv q.config.runSeconds text).RightAbout text ∧
      (q.check (sureEngines a) []).1.answer = .ok .proof ∧
      ∃ I : Interp, I.Satisfies (.const a) ∧ ¬ I.Satisfies (.const b) := by
  intro a b p q text
  have hplain : ∀ f ∈ Term.symbolsIn q.session.assertions, f.IsPlain := by
    decide
  have hinstructions : q.config.unsupported.instructions q.session.assertions =
      [.declare a, .declare b, .assert (.const a), .assert (Term.const b).not, .check] :=
    Command.Filter.instructions_of_all _ _ (by decide +kernel)
  have hunsat : Unsatisfiable text :=
    unsatisfiable_of_opposite _ _ hplain (by rw [hinstructions]; decide +kernel) (.const a)
      (.const b) (congrArg Expression.word (by decide +kernel)) (by simp [hinstructions])
      (by simp [hinstructions])
  have hproof : (q.check (sureEngines a) []).1.answer = .ok .proof :=
    sureEngines_proves q 0 _ a rfl rfl rfl
  refine ⟨hplain, sureEngines_rightAbout a _ _ _ hunsat, hproof,
    Model.interp { constants := [(a, .bool true)] }, ?_, ?_⟩
  · exact (Model.satisfies_const_iff _ a rfl rfl).mpr (by decide)
  · exact mt (Model.satisfies_const_iff _ b rfl rfl).mp (by decide)

end Validity
