import Mathlib
import Validity.Proofs.Encoding
import Validity.Proofs.Filtering
import Validity.Proofs.Verdicts

/-!
Failures of external solvers. A launch comes to a run if the program was stopped, whatever it had
written, or if it ended and wrote two texts. A launch that was refused is an error of the backend.
All other launches end in errors that are none of the backend: those of a malformed command line,
and those of programs that ended and wrote anything else than the octets of a text.
-/
namespace Validity

def IsText (bs : List UInt8) : Prop := ∃ s : String, Host.octets s = bs

def Surfaces {α : Type} (a : Except Error α) : Prop :=
  ∀ err, a = .error err → err.isBackend = true

section Surfaces

variable {α β : Type}

@[simp] theorem surfaces_ok (x : α) : Surfaces (.ok x) := by
  intro err h
  cases h

@[simp] theorem surfaces_error_iff (err : Error) :
    Surfaces (.error err : Except Error α) ↔ err.isBackend = true := by
  constructor
  · intro h
    exact h err rfl
  · rintro h err' ⟨⟩
    exact h

/-- Of two computations in a row, the second matters where the first succeeds. -/
theorem surfaces_bind_iff (a : Except Error α) (f : α → Except Error β) :
    Surfaces (a.bind f) ↔ Surfaces a ∧ ∀ x, a = .ok x → Surfaces (f x) := by
  cases a with
  | error err => simp [Except.bind]
  | ok x => simp [Except.bind]

theorem surfaces_map_iff (a : Except Error α) (f : α → β) : Surfaces (a.map f) ↔ Surfaces a := by
  cases a with
  | error err => simp [Except.map]
  | ok x => simp [Except.map]

end Surfaces

theorem decodeOutput_octets (s : String) :
    decodeOutput (Host.octets s) = .ok (String.ofList (Text.unifyNewlines s.toList)) := by
  have hdecode : Text.Utf8.decode (Host.octets s) = .ok s.toList := by
    rw [Host.decode_eq_ok_iff, String.ofList_toList]
  rw [decodeOutput, hdecode]

/-- Only the octets of a text are decoded. -/
theorem decodeOutput_cases (bs : List UInt8) :
    (∃ text, decodeOutput bs = .ok text ∧ IsText bs) ∨
      ∃ f, decodeOutput bs = .error (.encoding f) ∧ ¬ IsText bs := by
  by_cases htext : IsText bs
  · obtain ⟨s, rfl⟩ := htext
    exact .inl ⟨_, decodeOutput_octets s, s, rfl⟩
  · cases hdecode : Text.Utf8.decode bs with
    | ok cs => exact absurd ⟨String.ofList cs, (Host.decode_eq_ok_iff bs cs).mp hdecode⟩ htext
    | error f => exact .inr ⟨f, by rw [decodeOutput, hdecode], htext⟩

namespace Launch

/-- The program was stopped, or it ended and wrote texts. -/
def Completes : Launch → Prop
  | .stopped .. => True
  | .ended out err _ => IsText out ∧ IsText err
  | _ => False

def Unreadable : Launch → Prop
  | .malformed => True
  | .ended out err _ => ¬ (IsText out ∧ IsText err)
  | _ => False

/-- A finished program comes to a run, or to an error about its encoding. -/
theorem run_ended_cases (executable : String) (out err : List UInt8) (status : Int) :
    (∃ r, (ended out err status).run executable = .ok r ∧ IsText out ∧ IsText err) ∨
      ∃ f, (ended out err status).run executable = .error (.encoding f) ∧
        ¬ (IsText out ∧ IsText err) := by
  rw [run]
  rcases decodeOutput_cases out with ⟨stdout, hout, htext⟩ | ⟨f, hout, hno⟩
  · rcases decodeOutput_cases err with ⟨stderr, herr, htext'⟩ | ⟨f, herr, hno⟩
    · rw [hout, herr]
      exact .inl ⟨_, rfl, htext, htext'⟩
    · rw [hout, herr]
      exact .inr ⟨f, rfl, fun h => hno h.2⟩
  · rw [hout]
    exact .inr ⟨f, rfl, fun h => hno h.1⟩

/-- A program that cannot be started is an error of the backend, found or not. -/
theorem run_refused_isBackend (executable : String) (f : OsFault) :
    ∃ err, (refused f).run executable = .error err ∧ err.isBackend = true := by
  rw [run]
  split_ifs
  · exact ⟨_, rfl, rfl⟩
  · exact ⟨_, rfl, rfl⟩

/-- There is a run iff the program was stopped or ended with texts. -/
theorem run_isOk_iff (l : Launch) (executable : String) :
    (∃ r, l.run executable = .ok r) ↔ l.Completes := by
  cases l with
  | malformed => simp [run, Completes]
  | refused f =>
    obtain ⟨err, herr, -⟩ := run_refused_isBackend executable f
    simp [herr, Completes]
  | stopped out err => simp [run, Completes]
  | ended out err status =>
    rcases run_ended_cases executable out err status with ⟨r, hr, htext⟩ | ⟨f, hf, hno⟩
    · exact iff_of_true ⟨r, hr⟩ htext
    · simp [hf, Completes, hno]

/-- No other errors come out of a launch than those of the backend, unless it is unreadable. -/
theorem run_surfaces_iff (l : Launch) (executable : String) :
    Surfaces (l.run executable) ↔ ¬ l.Unreadable := by
  cases l with
  | malformed => simp [run, Unreadable, Error.isBackend]
  | refused f =>
    obtain ⟨err, herr, hbackend⟩ := run_refused_isBackend executable f
    simp [herr, Unreadable, hbackend]
  | stopped out err => simp [run, Unreadable]
  | ended out err status =>
    rcases run_ended_cases executable out err status with ⟨r, hr, htext⟩ | ⟨f, hf, hno⟩
    · simp [hr, Unreadable, htext]
    · simp [hf, Unreadable, hno, Error.isBackend]

end Launch

/-- A problem that cannot be handed over is reported as an error of the backend. -/
def Engines.Prepares (e : Engines) : Prop :=
  ∀ argv limit text, Surfaces (e.submit argv limit text).report

/-- The machine reports a problem that it cannot store as an error of the backend. -/
theorem Host.prepares (h : Host) (decide : Decider) : Engines.Prepares ⟨decide, h.submit⟩ := by
  intro argv limit text
  change Surfaces (h.submit argv limit text).report
  unfold submit
  cases h.find h.temporary with
  | error f => simp [Error.isBackend]
  | ok file => simp

namespace Prover

def launched (p : Prover) (e : Engines) (us : List Term) : Except Error Launch :=
  (e.submit p.solver.argv p.config.runSeconds
    (p.config.unsupported.problem (p.session.assertions ++ us))).report

section

variable (p : Prover) (e : Engines) (us : List Term)

theorem externalRun_eq (hb : ∀ u ∈ us, u.ty = .bool) : p.externalRun e us =
    (p.launched e us).bind (Launch.run (p.solver.argv.headD "")) := by
  rw [externalRun, p.session.problem_of_bool _ us hb]
  rfl

theorem externalRun_isOk_iff (hb : ∀ u ∈ us, u.ty = .bool) :
    (∃ r, p.externalRun e us = .ok r) ↔ ∃ l, p.launched e us = .ok l ∧ l.Completes := by
  rw [p.externalRun_eq e us hb]
  cases p.launched e us with
  | error err => simp [Except.bind]
  | ok l => simpa [Except.bind] using l.run_isOk_iff (p.solver.argv.headD "")

/-- Only an unreadable report brings up an error that is not the backend's. -/
theorem externalRun_surfaces_iff (he : e.Prepares) (hb : ∀ u ∈ us, u.ty = .bool) :
    Surfaces (p.externalRun e us) ↔ ∀ l, p.launched e us = .ok l → ¬ l.Unreadable := by
  have hreport : Surfaces (p.launched e us) := he _ _ _
  rw [p.externalRun_eq e us hb, surfaces_bind_iff, and_iff_right hreport]
  simp only [Launch.run_surfaces_iff]

/-- The verdict of an external check fails only with its run. -/
theorem check_external (hp : p.backend = .external) (hm : p.marker.isSome = true) :
    (∃ r v, p.externalRun e us = .ok r ∧ (p.check e us).1.answer = .ok v) ∨
      ∃ err, p.externalRun e us = .error err ∧ (p.check e us).1.answer = .error err := by
  obtain ⟨n, hn⟩ := Option.isSome_iff_exists.mp hm
  rw [p.check_answer e us, hn, hp]
  dsimp only
  cases hr : p.externalRun e us with
  | error err => exact .inr ⟨err, rfl, rfl⟩
  | ok r =>
    obtain ⟨v, hv, -⟩ := r.verdict_tells p.solver.name (p.externalRun_genuine e us r hr)
    exact .inl ⟨r, v, rfl, hv⟩

/-- A check by the external solver fails just as its run does. -/
theorem check_surfaces_iff (hp : p.backend = .external) (hm : p.marker.isSome = true) :
    Surfaces (p.check e us).1.answer ↔ Surfaces (p.externalRun e us) := by
  rcases p.check_external e us hp hm with ⟨r, v, hr, hv⟩ | ⟨err, hr, hv⟩
  · simp [hr, hv]
  · simp [hr, hv]

theorem check_isOk_iff (hp : p.backend = .external) (hm : p.marker.isSome = true) :
    (∃ v, (p.check e us).1.answer = .ok v) ↔ ∃ r, p.externalRun e us = .ok r := by
  rcases p.check_external e us hp hm with ⟨r, v, hr, hv⟩ | ⟨err, hr, hv⟩
  · simp [hr, hv]
  · simp [hr, hv]

end
end Prover

/-- A launch comes to a run iff it completes, and lets out no other errors than those of the backend
iff it is not unreadable. The same holds of a check with the external solver, and of the verdict as
soon as there is an obligation, if failures to hand over a problem are errors of the backend; on
every machine they are. -/
theorem external_failures_surface (l : Launch) (executable : String) (p : Prover) (e : Engines)
    (us : List Term) (h : Host) :
    (((∃ r, l.run executable = .ok r) ↔ l.Completes) ∧
      (Surfaces (l.run executable) ↔ ¬ l.Unreadable)) ∧
    (p.backend = .external → e.Prepares → (∀ u ∈ us, u.ty = .bool) →
      ((∃ o, (p.checkExternal e us).answer = .ok o) ↔
        ∃ l, p.launched e us = .ok l ∧ l.Completes) ∧
      (Surfaces (p.checkExternal e us).answer ↔
        ∀ l, p.launched e us = .ok l → ¬ l.Unreadable) ∧
      ((∃ v, (p.check e us).1.answer = .ok v) ↔
        p.marker = none ∨ ∃ l, p.launched e us = .ok l ∧ l.Completes) ∧
      (Surfaces (p.check e us).1.answer ↔
        p.marker = none ∨ ∀ l, p.launched e us = .ok l → ¬ l.Unreadable)) ∧
    Engines.Prepares { e with submit := h.submit } := by
  refine ⟨⟨l.run_isOk_iff executable, l.run_surfaces_iff executable⟩, fun hp he hb => ?_,
    h.prepares e.decide⟩
  have hok := p.externalRun_isOk_iff e us hb
  have hsurfaces := p.externalRun_surfaces_iff e us he hb
  refine ⟨?_, ?_, ?_⟩
  · -- the answer is what the run comes to
    rw [p.checkExternal_answer e us, ← hok]
    cases p.externalRun e us <;> simp [Except.map]
  · rw [p.checkExternal_answer e us, surfaces_map_iff, hsurfaces]
  · rcases Option.eq_none_or_eq_some p.marker with hm | ⟨n, hm⟩
    · -- without an obligation no solver is launched
      have hproof : (p.check e us).1.answer = .ok .proof := by rw [p.check_answer e us, hm]
      simp [hproof, hm]
    · have hsome : p.marker.isSome = true := by rw [hm, Option.isSome_some]
      rw [p.check_isOk_iff e us hp hsome, p.check_surfaces_iff e us hp hsome, hok, hsurfaces, hm]
      simp

/-- A solver that says in another alphabet that it gave up. -/
theorem external_failures_surface_accented :
    let p : Prover := { backend := .external, marker := some 0 }
    let e : Engines := ⟨fun _ _ => { result := .unknown },
      fun _ _ _ => { report := .ok (.ended [0xC3, 0xA9] [] 1) }⟩
    p.backend = .external ∧ e.Prepares ∧ (∀ u ∈ [Term.bool true], u.ty = .bool) ∧
      ∃ v, (p.check e [.bool true]).1.answer = .ok v := by
  intro p e
  have he : e.Prepares := fun _ _ _ => surfaces_ok _
  have hb : ∀ u ∈ [Term.bool true], u.ty = .bool := List.forall_mem_singleton.mpr rfl
  have hout : IsText [0xC3, 0xA9] := ⟨.ofList ['é'], (Host.octets_ofList _).trans (by decide)⟩
  have herr : IsText [] := ⟨.ofList [], (Host.octets_ofList _).trans (by decide)⟩
  obtain ⟨-, hprover, -⟩ := external_failures_surface .malformed "" p e [.bool true] {}
  obtain ⟨-, -, hcheck, -⟩ := hprover rfl he hb
  exact ⟨rfl, he, hb, hcheck.mpr (.inr ⟨_, rfl, hout, herr⟩)⟩

/-- One octet that begins no character, written by a program that ended well, lets out an error
that is none of the backend. -/
theorem foreign_octet_escapes :
    let fault : Error := .encoding ⟨0xFF, 0, 1, .start⟩
    let p : Prover := { backend := .external, marker := some 0 }
    let e : Engines := ⟨fun _ _ => { result := .unknown },
      fun _ _ _ => { report := .ok (.ended [0xFF] [] 0) }⟩
    (Launch.ended [0xFF] [] 0).run "swine" = .error fault ∧
      (p.check e []).1.answer = .error fault ∧ fault.isBackend = false := by
  intro fault p e
  have hdecode : Text.Utf8.decode [0xFF] = .error ⟨0xFF, 0, 1, .start⟩ := by
    rw [Text.Utf8.decode, Text.Utf8.decodeFrom]
    rfl
  have hrun (executable : String) :
      (Launch.ended [0xFF] [] 0).run executable = .error fault := by
    rw [Launch.run, decodeOutput, hdecode]
    rfl
  refine ⟨hrun _, ?_, rfl⟩
  have hb : ∀ u ∈ ([] : List Term), u.ty = .bool := by simp
  rw [p.check_answer e [], show p.marker = some 0 from rfl, show p.backend = .external from rfl]
  change (p.externalRun e []).bind _ = _
  rw [p.externalRun_eq e [] hb, show p.launched e [] = .ok (.ended [0xFF] [] 0) from rfl]
  change (Launch.run (p.solver.argv.headD "") (.ended [0xFF] [] 0)).bind _ = _
  rw [hrun]
  rfl

end Validity
