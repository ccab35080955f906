import Mathlib.Data.List.TakeWhile
import Validity.Proofs.Occurrence
import Validity.Proofs.Scopes

/-!
The shapes of verdicts. Every verdict is a proof, a counterexample with its model, or a reason that
says something: its text is not empty and starts with no blank. A reason out of the output of an
external solver is one line. It is not empty since the output is trimmed before its first line is
taken, and every line break is a blank.
-/
namespace Validity

namespace Text

/-- Line breaks count as blanks. -/
theorem isBlank_of_isLineBreak (c : Char) (h : isLineBreak c = true) : isBlank c = true := by
  simp only [isLineBreak, isBlank, Bool.or_eq_true, Bool.and_eq_true, decide_eq_true_eq,
    beq_iff_eq] at h ⊢
  omega

theorem trimLeft_head {s cs : List Char} {c : Char} (h : trimLeft s = c :: cs) :
    isBlank c = false := by
  have hhead := List.head?_dropWhile_not isBlank s
  have hs : s.dropWhile isBlank = c :: cs := h
  rw [hs] at hhead
  exact hhead

theorem trimRight_prefix (s : List Char) : trimRight s <+: s := by
  have hsuffix : trimLeft s.reverse <:+ s.reverse := List.dropWhile_suffix isBlank
  simpa [trimRight] using List.reverse_prefix.mpr hsuffix

def Telling (s : List Char) : Prop := ∃ c cs, s = c :: cs ∧ isBlank c = false

/-- What is left after trimming says something, if anything is left. -/
theorem trim_telling (s : List Char) (h : trim s ≠ []) : Telling (trim s) := by
  obtain ⟨c, cs, hc⟩ := List.exists_cons_of_ne_nil h
  obtain ⟨rest, hrest⟩ := trimRight_prefix (trimLeft s)
  -- trimming at the back leaves the first character, at which trimming at the front has stopped
  change trim s ++ rest = trimLeft s at hrest
  rw [hc] at hrest
  exact ⟨c, cs, hc, trimLeft_head hrest.symm⟩

/-- A text that starts with no blank has something in its first line. -/
theorem Telling.firstLine {s : List Char} (h : Telling s) : Telling (firstLine s) := by
  obtain ⟨c, cs, rfl, hc⟩ := h
  have hbreak : isLineBreak c = false := by
    by_contra hne
    rw [isBlank_of_isLineBreak c (by simpa using hne)] at hc
    cases hc
  refine ⟨c, Text.firstLine cs, ?_, hc⟩
  simp [Text.firstLine, hbreak]

theorem telling_word (w : String) (h : w.toList.head?.map isBlank = some false) :
    Telling w.toList := by
  cases hw : w.toList with
  | nil => simp [hw] at h
  | cons c cs => exact ⟨c, cs, rfl, by simpa [hw] using h⟩

def OneLine (s : List Char) : Prop := ∀ c ∈ s, isLineBreak c = false

theorem oneLine_word (w : String) (h : w.toList.all (fun c => !isLineBreak c) = true) :
    OneLine w.toList := by
  intro c hc
  simpa using List.all_eq_true.mp h c hc

theorem firstLine_oneLine (s : List Char) : OneLine (firstLine s) := by
  intro c hc
  simpa using List.mem_takeWhile_imp hc

end Text

namespace Reason

/-- Every reason that is read says something. -/
theorem parse_telling (text : Option String) : Text.Telling (parse text).text.toList := by
  unfold parse
  dsimp only
  split_ifs with htimeout hstopped hempty
  · exact Text.telling_word "timeout" (by decide)
  · exact Text.telling_word "interrupted" (by decide)
  · exact Text.telling_word "unknown" (by decide)
  · have hlist : (Text.trimmed (text.getD "")).toList = Text.trim (text.getD "").toList :=
      String.toList_ofList
    change Text.Telling (Text.trimmed (text.getD "")).toList
    rw [hlist]
    apply Text.trim_telling
    intro hnil
    exact hempty (String.toList_inj.mp (hlist.trans hnil))

end Reason

namespace Run

/-- The run was stopped at its time limit, or its result is what its output says. -/
def Genuine (r : Run) : Prop := r.timedOut = true ∨ r.result = .ofOutput r.stdout

/-- A run always has something to complain of, if only that the result is unknown. -/
theorem complaint_telling (r : Run) : Text.Telling r.complaint.toList := by
  unfold complaint
  dsimp only
  split_ifs with hout herr
  · rw [String.toList_ofList]
    exact (Text.trim_telling _ (by simpa using hout)).firstLine
  · rw [String.toList_ofList]
    exact (Text.trim_telling _ (by simpa using herr)).firstLine
  · exact Text.telling_word "unknown" (by decide)

theorem complaint_oneLine (r : Run) : Text.OneLine r.complaint.toList := by
  unfold complaint
  dsimp only
  split_ifs
  · rw [String.toList_ofList]
    exact Text.firstLine_oneLine _
  · rw [String.toList_ofList]
    exact Text.firstLine_oneLine _
  · exact Text.oneLine_word "unknown" (by decide)

end Run

/-- The result of a run is read from its output, and from nothing else. -/
theorem Launch.run_genuine (launch : Launch) (executable : String) (r : Run)
    (h : launch.run executable = .ok r) : r.Genuine := by
  cases launch with
  | malformed => cases h
  | refused f => cases h
  | stopped out err =>
    cases h
    exact .inl rfl
  | ended out err status =>
    unfold Launch.run at h
    cases hout : decodeOutput out with
    | error f => simp [hout, bind, Except.bind] at h
    | ok stdout =>
      cases herr : decodeOutput err with
      | error f => simp [hout, herr, bind, Except.bind] at h
      | ok stderr =>
        simp only [hout, herr, bind, Except.bind] at h
        cases h
        exact .inr rfl

namespace Verdict

def WellFormed (v : Verdict) : Prop :=
  (v.status = .proof ∧ v.model = none ∧ v.reason = none) ∨
  (v.status = .counterexample ∧ (∃ i, v.model = some i) ∧ v.reason = none) ∨
  (v.status = .unknown ∧ v.model = none ∧
    ∃ why, v.reason = some why ∧ Text.Telling why.text.toList)

theorem WellFormed.proof : WellFormed .proof := .inl ⟨rfl, rfl, rfl⟩

theorem WellFormed.counterexample (i : Inspection) : WellFormed (.counterexample i) :=
  .inr (.inl ⟨rfl, ⟨i, rfl⟩, rfl⟩)

theorem WellFormed.unknown (why : Reason) (h : Text.Telling why.text.toList) :
    WellFormed (.unknown why) :=
  .inr (.inr ⟨rfl, rfl, why, rfl, h⟩)

end Verdict

/-- A reply gives a verdict, unless it is satisfiable without a model. -/
theorem Reply.verdict_wellFormed (r : Reply) (h : r.result = .sat → r.model.isSome = true) :
    ∃ v, (Session.outcome r).bind Outcome.verdict = .ok v ∧ v.WellFormed := by
  unfold Session.outcome
  cases hr : r.result with
  | sat =>
    obtain ⟨m, hm⟩ := Option.isSome_iff_exists.mp (h hr)
    rw [hm]
    exact ⟨_, rfl, .counterexample _⟩
  | unsat => exact ⟨_, rfl, .proof⟩
  | unknown =>
    refine ⟨.unknown (.parse r.reason), ?_, .unknown _ (Reason.parse_telling r.reason)⟩
    simp only [Except.bind, Outcome.verdict, Option.getD_some]

structure Verdict.Tells (v : Verdict) (r : Run) : Prop where
  wellFormed : v.WellFormed
  proof_iff : v = .proof ↔ r.timedOut = false ∧ "unsat".toList <:+: r.stdout.toList
  no_counterexample : ∀ i, v ≠ .counterexample i
  one_line : ∀ why, v = .unknown why → Text.OneLine why.text.toList

/-- There is a verdict for every run, and it fits the run. -/
theorem Run.verdict_tells (r : Run) (name : String) (h : r.Genuine) :
    ∃ v, (r.outcome name).verdict = .ok v ∧ v.Tells r := by
  have hunknown (why : Reason) (htelling : Text.Telling why.text.toList)
      (hline : Text.OneLine why.text.toList)
      (hno : ¬ (r.timedOut = false ∧ "unsat".toList <:+: r.stdout.toList)) :
      Verdict.Tells (.unknown why) r := by
    refine ⟨.unknown why htelling, iff_of_false ?_ hno, fun i hi => ?_, fun why' hwhy => ?_⟩
    · intro hproof
      cases hproof
    · cases hi
    · cases hwhy
      exact hline
  unfold Run.outcome
  dsimp only
  split_ifs with ht
  · refine ⟨_, rfl, hunknown .timeout (Text.telling_word "timeout" (by decide))
      (Text.oneLine_word "timeout" (by decide)) ?_⟩
    rintro ⟨hnot, -⟩
    rw [ht] at hnot
    cases hnot
  · have hresult : r.result = .ofOutput r.stdout := h.resolve_left ht
    have hoccurs := Text.occursIn_iff "unsat".toList r.stdout.toList
    rw [hresult, Result.ofOutput]
    split_ifs with hunsat hsat
    · have hproof : r.timedOut = false ∧ "unsat".toList <:+: r.stdout.toList :=
        ⟨by simpa using ht, hoccurs.mp hunsat⟩
      refine ⟨_, rfl, .proof, iff_of_true rfl hproof, fun i hi => ?_, fun why hwhy => ?_⟩
      · cases hi
      · cases hwhy
    · refine ⟨_, rfl, hunknown (.other "sat-without-model")
        (Text.telling_word "sat-without-model" (by decide))
        (Text.oneLine_word "sat-without-model" (by decide)) ?_⟩
      exact fun hboth => hunsat (hoccurs.mpr hboth.2)
    · refine ⟨_, rfl, hunknown (.other r.complaint) r.complaint_telling r.complaint_oneLine ?_⟩
      exact fun hboth => hunsat (hoccurs.mpr hboth.2)

namespace Prover

def externalRun (p : Prover) (e : Engines) (us : List Term) : Except Error Run :=
  (p.session.problem p.config.unsupported us).bind fun text =>
    (e.submit p.solver.argv p.config.runSeconds text).report.bind
      (Launch.run (p.solver.argv.headD ""))

theorem externalRun_genuine (p : Prover) (e : Engines) (us : List Term) (r : Run)
    (h : p.externalRun e us = .ok r) : r.Genuine := by
  unfold externalRun at h
  cases hproblem : p.session.problem p.config.unsupported us with
  | error err =>
    rw [hproblem] at h
    cases h
  | ok text =>
    rw [hproblem] at h
    change (e.submit p.solver.argv p.config.runSeconds text).report.bind _ = .ok r at h
    cases hreport : (e.submit p.solver.argv p.config.runSeconds text).report with
    | error err =>
      rw [hreport] at h
      cases h
    | ok launch =>
      rw [hreport] at h
      exact launch.run_genuine _ r h

/-- A check by the external solver is as its run, with the outcome of the run. -/
theorem checkExternal_answer (p : Prover) (e : Engines) (us : List Term) :
    (p.checkExternal e us).answer = (p.externalRun e us).map (·.outcome p.solver.name) := by
  unfold checkExternal externalRun
  cases hproblem : p.session.problem p.config.unsupported us with
  | error err => rfl
  | ok text =>
    change _ = Except.map _ ((e.submit p.solver.argv p.config.runSeconds text).report.bind _)
    dsimp only
    cases (e.submit p.solver.argv p.config.runSeconds text).report.bind
      (Launch.run (p.solver.argv.headD "")) <;> rfl

/-- Where the answer of a check comes from. -/
theorem check_answer (p : Prover) (e : Engines) (us : List Term) :
    (p.check e us).1.answer =
      match p.marker, p.backend with
      | none, _ => .ok .proof
      | some _, .internal => (p.session.check e.decide us).1.bind Outcome.verdict
      | some _, .external =>
        (p.externalRun e us).bind fun r => (r.outcome p.solver.name).verdict := by
  rcases Option.eq_none_or_eq_some p.marker with hm | ⟨n, hm⟩
  · rw [check_of_none p e us hm, hm]
  · rw [check_of_some p e us n hm, hm]
    unfold outcome
    cases hb : p.backend with
    | internal => rfl
    | external =>
      change (p.checkExternal e us).answer.bind Outcome.verdict = _
      rw [checkExternal_answer]
      cases p.externalRun e us <;> rfl

end Prover

/-- A check in the session gives a verdict, and a well formed one, iff its assumptions are Boolean
and the reply has a model when it is satisfiable. -/
theorem Session.check_verdict_cases (s : Session) (d : Decider) (us : List Term) :
    (∃ v, (s.check d us).1.bind Outcome.verdict = .ok v ∧ v.WellFormed ∧
      (∀ u ∈ us, u.ty = .bool) ∧
      ((d s.assertions us).result = .sat → (d s.assertions us).model.isSome = true)) ∨
    ∃ err, (s.check d us).1.bind Outcome.verdict = .error err ∧
      ¬ ((∀ u ∈ us, u.ty = .bool) ∧
        ((d s.assertions us).result = .sat → (d s.assertions us).model.isSome = true)) := by
  by_cases hb : ∀ u ∈ us, u.ty = .bool
  · rw [s.check_of_bool d us hb]
    by_cases hr : (d s.assertions us).result = .sat → (d s.assertions us).model.isSome = true
    · obtain ⟨v, hv, hwell⟩ := Reply.verdict_wellFormed _ hr
      exact .inl ⟨v, hv, hwell, hb, hr⟩
    · refine .inr ⟨.solver .noModel, ?_, fun h => hr h.2⟩
      obtain ⟨hsat, hnone⟩ := Classical.not_imp.mp hr
      have hmodel : (d s.assertions us).model = none := by simpa using hnone
      simp [Session.outcome, hsat, hmodel, Except.bind]
  · rw [s.check_of_not_bool d us hb]
    exact .inr ⟨_, rfl, fun h => hb h.1⟩

/-- Every verdict has one of the three shapes. In the session a reply with any reason gives one,
unless an assumption is not Boolean or a satisfiable reply has no model. Every genuine run of an
external solver gives one that is no counterexample, is a proof iff the run was not stopped and has
`unsat` in its output, and else gives its reason in one line; and the runs in checks are genuine. -/
theorem verdicts_wellFormed :
    (∀ (r : Run) (name : String), r.Genuine → ∃ v, (r.outcome name).verdict = .ok v ∧ v.Tells r) ∧
    ∀ (p : Prover) (e : Engines) (us : List Term),
      (∀ v, (p.check e us).1.answer = .ok v → v.WellFormed) ∧
      (p.backend = .internal → ((∃ v, (p.check e us).1.answer = .ok v) ↔ p.marker = none ∨
        (∀ u ∈ us, u.ty = .bool) ∧
          ((e.decide p.session.assertions us).result = .sat →
            (e.decide p.session.assertions us).model.isSome = true))) ∧
      (p.backend = .external → p.marker.isSome = true → ∀ r, p.externalRun e us = .ok r →
        r.Genuine ∧ ∃ v, (p.check e us).1.answer = .ok v ∧ v.Tells r) := by
  refine ⟨fun r name h => r.verdict_tells name h, fun p e us => ?_⟩
  rw [p.check_answer e us]
  rcases Option.eq_none_or_eq_some p.marker with hm | ⟨n, hm⟩
  · -- without a marker the verdict is a proof
    rw [hm]
    refine ⟨fun v hv => ?_, fun _ => iff_of_true ⟨.proof, rfl⟩ (.inl rfl), fun _ hsome => ?_⟩
    · cases hv
      exact .proof
    · cases hsome
  · rw [hm]
    cases hb : p.backend with
    | internal =>
      dsimp only
      have hnone : some n ≠ none := Option.some_ne_none n
      rcases p.session.check_verdict_cases e.decide us with ⟨v, hv, hwell, hreply⟩ | ⟨err, he, hno⟩
      · rw [hv]
        refine ⟨fun w hw => ?_, fun _ => iff_of_true ⟨v, rfl⟩ (.inr hreply), fun hother => ?_⟩
        · obtain rfl := Except.ok.inj hw
          exact hwell
        · cases hother
      · rw [he]
        refine ⟨fun w hw => ?_, fun _ => iff_of_false ?_ (not_or.mpr ⟨hnone, hno⟩),
          fun hother => ?_⟩
        · cases hw
        · rintro ⟨w, hw⟩
          cases hw
        · cases hother
    | external =>
      have hrun (r : Run) (hr : p.externalRun e us = .ok r) :
          r.Genuine ∧ ∃ v, (p.externalRun e us).bind (fun r => (r.outcome p.solver.name).verdict) =
            .ok v ∧ v.Tells r := by
        have hgenuine := p.externalRun_genuine e us r hr
        rw [hr]
        exact ⟨hgenuine, r.verdict_tells p.solver.name hgenuine⟩
      refine ⟨fun v hv => ?_, fun hother => ?_, fun _ _ r hr => hrun r hr⟩
      · cases hr : p.externalRun e us with
        | error err =>
          rw [hr] at hv
          cases hv
        | ok r =>
          obtain ⟨-, w, hw, htells⟩ := hrun r hr
          obtain rfl : w = v := Except.ok.inj (hw.symm.trans hv)
          exact htells.wellFormed
      · cases hother

/-- The solver complains after blanks that are line breaks as well, and goes on in another line; its
other channel is not read. -/
theorem verdicts_wellFormed_complaint :
    let r : Run := { result := .unknown, stdout := "\x1c\x0b bad input\x1emore", stderr := "unsat",
                     status := 1 }
    r.Genuine ∧ (r.outcome "swine").verdict = .ok (.unknown (.other "bad input")) ∧
      Verdict.Tells (.unknown (.other "bad input")) r := by
  intro r
  have hgenuine : r.Genuine := .inr (by decide +kernel)
  have hcomplaint : r.complaint = "bad input" := by decide +kernel
  have hverdict : (r.outcome "swine").verdict = .ok (.unknown (.other "bad input")) := by
    rw [← hcomplaint]
    rfl
  obtain ⟨v, hv, htells⟩ := verdicts_wellFormed.1 r "swine" hgenuine
  rw [hverdict] at hv
  obtain rfl := Except.ok.inj hv
  exact ⟨hgenuine, hverdict, htells⟩

end Validity
