import Validity.Proofs.Visited

/-!
How many regions are open. A block opens one region and closes one, but a reset inside it starts the
count anew at zero, and the blocks around the reset are still closed one by one. So after every run
the count is as before, or below zero by the number of blocks around the last reset. Where it is one
below zero, the next block is not noted on the trail, and its marks stay even if it fails.
-/
namespace Validity

open Tracker

namespace Step

mutual

/-- How many blocks, of those in the step, are around the last reset that was run. -/
def lastReset? : Step → Trace → Option Nat
  | .reset, _ => some 0
  | .block body, .mk _ _ inner => (lastResetIn? body (inner.getD [])).map (· + 1)
  | _, _ => none

def lastResetIn? : List (Bool × Step) → List Trace → Option Nat
  | (_, s) :: rest, t :: ts => (lastResetIn? rest ts).or (lastReset? s t)
  | _, _ => none

end

/-- The count of regions: as before, or counted down from zero since the last reset. -/
def regionsAfter (before : Int) : Option Nat → Int
  | none => before
  | some blocks => -blocks

/-- Of two resets in a row the later one counts. -/
theorem regionsAfter_or (before : Int) (first second : Option Nat) :
    regionsAfter (regionsAfter before first) second = regionsAfter before (second.or first) := by
  cases second <;> rfl

/-- Around a block, one more block is around each reset inside it. -/
theorem regionsAfter_closed (before : Int) (inside : Option Nat) :
    regionsAfter (before + 1) inside - 1 = regionsAfter before (inside.map (· + 1)) := by
  cases inside with
  | none => exact Int.add_sub_cancel before 1
  | some blocks =>
    change -(blocks : Int) - 1 = -((blocks + 1 : Nat) : Int)
    omega

end Step

theorem Inspection.closeBlock_regions (i : Inspection) (mark : Nat) (succeeded : Bool) :
    (i.closeBlock mark succeeded).tracker.openRegions = i.tracker.openRegions - 1 := by
  cases succeeded with
  | true => rfl
  | false =>
    have hundo := i.tracker.undo_regions (i.tracker.trail.length - mark)
    change (i.tracker.undo (i.tracker.trail.length - mark)).openRegions - 1 = _
    rw [hundo]

namespace Reading

/-- Reading a value leaves the count as it was, whether it fails or not. -/
theorem value_regions {α : Type} (t : Term) (decode : Term → Except Error α) (i : Inspection) :
    (ExceptT.run (atomically (decoded t decode)) i).2.tracker.openRegions =
      i.tracker.openRegions := by
  have hvisit : (ExceptT.run (eval t) i.openBlock.2).2.tracker.openRegions =
      i.tracker.openRegions + 1 := by
    rw [eval_tracker]
    exact (Extends.visit i.tracker.begin t).regions
  rw [run_atomically, run_decoded]
  dsimp only
  rw [Inspection.closeBlock_regions, hvisit]
  exact Int.add_sub_cancel _ _

/-- A value that could not be read leaves no marks, unless the count of regions is one short of
zero: then all marks of its term stay. -/
theorem value_failed {α : Type} (t : Term) (decode : Term → Except Error α) (i : Inspection)
    (h : (ExceptT.run (atomically (decoded t decode)) i).1.isOk = false) :
    SameMarks (ExceptT.run (atomically (decoded t decode)) i).2.tracker
      (if i.tracker.openRegions = -1 then i.tracker.visit t else i.tracker) := by
  rw [run_atomically] at h ⊢
  dsimp only at h ⊢
  rw [h, run_decoded]
  change SameMarks ((ExceptT.run (eval t) i.openBlock.2).2.tracker.rollback
    i.tracker.begin.trail.length) _
  rw [eval_tracker]
  have hback := (Extends.visit i.tracker.begin t).rollback_marks
  have hcount : i.tracker.begin.openRegions = i.tracker.openRegions + 1 := rfl
  by_cases hshort : i.tracker.openRegions = -1
  · -- the region that was opened counts as none, so nothing was noted
    rw [if_pos (by omega)] at hback
    rw [if_pos hshort]
    exact hback.trans ((SameMarks.begin i.tracker).visit t)
  · rw [if_neg (by omega)] at hback
    rw [if_neg hshort]
    exact hback.trans (.begin i.tracker)

end Reading

namespace Step

theorem runAll_regions (body : List (Bool × Step))
    (ih : ∀ p ∈ body, ∀ m : Reader, (p.2.run m).2.inspection.tracker.openRegions =
      regionsAfter m.inspection.tracker.openRegions (p.2.lastReset? (p.2.run m).1))
    (m : Reader) : (runAll m body).2.2.inspection.tracker.openRegions =
      regionsAfter m.inspection.tracker.openRegions (lastResetIn? body (runAll m body).1) := by
  induction body generalizing m with
  | nil =>
    rw [runAll]
    rfl
  | cons p rest ihs =>
    obtain ⟨g, s⟩ := p
    have hs := ih (g, s) List.mem_cons_self m
    have hrest := ihs (fun p hp => ih p (List.mem_cons_of_mem _ hp)) (s.run m).2
    rw [hs, regionsAfter_or] at hrest
    rw [runAll_cons]
    rcases follow_cases g (s.run m) (runAll · rest) with ⟨e, _, _, hrun⟩ | ⟨_, hrun⟩
    · -- the list ends with this step, and the steps that were not run have no traces
      have hnone : lastResetIn? rest [] = none := by
        cases rest <;> rfl
      rw [hrun, lastResetIn?, hnone]
      exact hs
    · rw [hrun, lastResetIn?]
      exact hrest

/-- The count of regions after a step, in whatever state it was run. -/
theorem run_regions (s : Step) (m : Reader) : (s.run m).2.inspection.tracker.openRegions =
    regionsAfter m.inspection.tracker.openRegions (s.lastReset? (s.run m).1) := by
  induction s using Step.induction generalizing m with
  | block body ih =>
    have hinside := runAll_regions body ih { m with inspection := m.inspection.openBlock.2 }
    rw [run_block]
    dsimp only
    rw [Inspection.closeBlock_regions, hinside]
    exact regionsAfter_closed _ _
  | single s hs =>
    cases s with
    | read kind t =>
      cases kind with
      | bool => exact Reading.value_regions t Term.readBool m.inspection
      | int => exact Reading.value_regions t Term.readInt m.inspection
      | rational => exact Reading.value_regions t Term.readRational m.inspection
    | eval t complete =>
      change (ExceptT.run (Reading.eval t complete) m.inspection).2.tracker.openRegions = _
      rw [Reading.eval_tracker]
      exact (Extends.visit _ t).regions
    | look f =>
      change (ExceptT.run (Reading.interpretation f) m.inspection).2.tracker.openRegions = _
      rw [Reading.run_interpretation]
      exact (Extends.addName _ f.name).regions
    | visit t => exact (Extends.visit _ t).regions
    | addName x => exact (Extends.addName _ x).regions
    | block body => exact absurd rfl (hs body)
    | _ => rfl

theorem runAll_extends (body : List (Bool × Step))
    (ih : ∀ p ∈ body, ∀ m : Reader, m.inspection.tracker.WellFormed →
      p.2.lastReset? (p.2.run m).1 = none →
      Extends m.inspection.tracker (p.2.run m).2.inspection.tracker)
    (m : Reader) (hm : m.inspection.tracker.WellFormed)
    (h : lastResetIn? body (runAll m body).1 = none) :
    Extends m.inspection.tracker (runAll m body).2.2.inspection.tracker := by
  induction body generalizing m with
  | nil =>
    rw [runAll]
    exact .refl _
  | cons p rest ihs =>
    obtain ⟨g, s⟩ := p
    rw [runAll_cons] at h ⊢
    rcases follow_cases g (s.run m) (runAll · rest) with ⟨e, _, _, hrun⟩ | ⟨_, hrun⟩
    · rw [hrun] at h ⊢
      exact ih (g, s) List.mem_cons_self m hm (Option.or_eq_none_iff.mp h).2
    · rw [hrun] at h ⊢
      obtain ⟨hrest, hfirst⟩ := Option.or_eq_none_iff.mp h
      have hs := ih (g, s) List.mem_cons_self m hm hfirst
      exact hs.trans
        (ihs (fun p hp => ih p (List.mem_cons_of_mem _ hp)) _ (hm.extends hs) hrest)

/-- Where no reset was run, a step only adds marks. -/
theorem run_extends (s : Step) (m : Reader) (hm : m.inspection.tracker.WellFormed)
    (h : s.lastReset? (s.run m).1 = none) :
    Extends m.inspection.tracker (s.run m).2.inspection.tracker := by
  induction s using Step.induction generalizing m with
  | block body ih =>
    rw [run_block] at h ⊢
    have hinside := runAll_extends body ih { m with inspection := m.inspection.openBlock.2 }
      hm.begin.1 (Option.map_eq_none_iff.mp h)
    dsimp only
    cases (runAll { m with inspection := m.inspection.openBlock.2 } body).2.1 with
    | none => exact hinside.commit hm
    | some e => exact (hinside.rollback hm).1
  | single s hs =>
    have hreset : s ≠ .reset := by
      rintro rfl
      cases h
    have houtside : s.resetsOutside = true := by
      cases s with
      | block body => exact absurd rfl (hs body)
      | _ => rfl
    have hfree := s.resetFree_of_resetsOutside houtside hreset
    exact (matches_single s hs hfree m m hm ⟨.refl _, rfl⟩).extended

structure Settled (r : Tracker) : Prop where
  regions : r.openRegions ≤ 0
  trail : r.openRegions = 0 → r.trail = []

theorem Settled.run (s : Step) (m : Reader) (hm : Settled m.inspection.tracker) :
    Settled (s.run m).2.inspection.tracker := by
  have hcount := s.run_regions m
  cases hlast : s.lastReset? (s.run m).1 with
  | none =>
    rw [hlast] at hcount
    change _ = m.inspection.tracker.openRegions at hcount
    refine ⟨hcount ▸ hm.regions, fun hz => ?_⟩
    have hidle : m.inspection.tracker.Idle := ⟨hcount ▸ hz, hm.trail (hcount ▸ hz)⟩
    exact (hidle.extends (s.run_extends m hidle.wellFormed hlast)).trail
  | some blocks =>
    rw [hlast] at hcount
    change _ = -(blocks : Int) at hcount
    refine ⟨by omega, fun hz => ?_⟩
    -- a reset that no block is around is the step itself
    cases s with
    | reset => rfl
    | block body =>
      rw [run_block, lastReset?, Option.map_eq_some_iff] at hlast
      obtain ⟨inside, _, rfl⟩ := hlast
      omega
    | _ => cases hlast

/-- What holds outside blocks holds after a whole script. -/
theorem Settled.runAll (script : List (Bool × Step)) (m : Reader)
    (hm : Settled m.inspection.tracker) :
    Settled (runAll m script).2.2.inspection.tracker :=
  runAll_keeps (fun k => Settled k.inspection.tracker) script (fun p _ => Settled.run p.2) m hm

end Step

/-- Regions after a run on a model, with resets anywhere. The count is zero less the number of
blocks around the last reset, and at zero the trail is empty. In whatever state a block is run, it
leaves the count as it was, unless a reset was run in it: then the count is below zero by the blocks
around the last one. A value that cannot be read leaves the count and the marks as they were, unless
the count was one below zero: then the marks of its term stay. -/
theorem regions_after_run (model : Model) (c : Consistency) (script : List (Bool × Step)) :
    let m : Reader := { inspection := .ofModel model c }
    let i := (Step.runAll m script).2.2.inspection
    i.tracker.openRegions =
      Step.regionsAfter 0 (Step.lastResetIn? script (Step.runAll m script).1) ∧
    (i.tracker.openRegions = 0 → i.tracker.trail = []) ∧
    ∀ k : Reader,
      (∀ body, ((Step.block body).run k).2.inspection.tracker.openRegions =
        Step.regionsAfter k.inspection.tracker.openRegions
          ((Step.block body).lastReset? ((Step.block body).run k).1)) ∧
      ∀ kind t, ((Step.read kind t).run k).1.result.isOk = false →
        ((Step.read kind t).run k).2.inspection.tracker.openRegions =
          k.inspection.tracker.openRegions ∧
        SameMarks ((Step.read kind t).run k).2.inspection.tracker
          (if k.inspection.tracker.openRegions = -1 then k.inspection.tracker.visit t
            else k.inspection.tracker) := by
  intro m i
  have hsettled : Step.Settled i.tracker :=
    Step.Settled.runAll script m ⟨Int.le_refl 0, fun _ => rfl⟩
  refine ⟨Step.runAll_regions script (fun p _ => p.2.run_regions) m, hsettled.trail, fun k => ?_⟩
  refine ⟨fun body => (Step.block body).run_regions k, fun kind t hfail => ?_⟩
  refine ⟨(Step.read kind t).run_regions k, ?_⟩
  cases kind with
  | bool =>
    apply Reading.value_failed t Term.readBool k.inspection
    rw [← hfail]
    exact (isOk_map _ Answer.bool).symm
  | int =>
    apply Reading.value_failed t Term.readInt k.inspection
    rw [← hfail]
    exact (isOk_map _ Answer.int).symm
  | rational =>
    apply Reading.value_failed t Term.readRational k.inspection
    rw [← hfail]
    exact (isOk_map _ Answer.rational).symm

/-- A reset two blocks deep leaves the count at two below zero. A truth value that an integer cannot
be read as then leaves no marks. -/
theorem regions_after_run_nested :
    let x := Term.const ⟨"x", [], .int⟩
    let script : List (Bool × Step) := [(true, .block [(false, .block [(false, .reset)])])]
    let k := (Step.runAll { inspection := .ofModel {} .consistent } script).2.2
    let later := (Step.read .bool x).run k
    k.inspection.tracker.openRegions = -2 ∧ later.1.result.isOk = false ∧
      SameMarks later.2.inspection.tracker k.inspection.tracker := by
  intro x script k later
  obtain ⟨hcount, _, hall⟩ := regions_after_run {} .consistent script
  have hreset : Step.lastResetIn? script
      (Step.runAll { inspection := .ofModel {} .consistent } script).1 = some 2 := by
    cbv
  rw [hreset] at hcount
  have htwo : k.inspection.tracker.openRegions = -2 := hcount
  have hfail : later.1.result.isOk = false := by
    cbv
  have hmarks := ((hall k).2 .bool x hfail).2
  rw [htwo, if_neg (by decide)] at hmarks
  exact ⟨htwo, hfail, hmarks⟩

/-- A reset one block deep leaves the count at one below zero, and then the marks of a value that
cannot be read stay. -/
theorem reset_in_block_unbalances :
    let x := Term.const ⟨"x", [], .int⟩
    let k := (Step.run { inspection := .ofModel {} .consistent } (.block [(false, .reset)])).2
    let later := (Step.read .bool x).run k
    k.inspection.tracker.openRegions = -1 ∧ k.inspection.tracker.names = [] ∧
      later.1.result.isOk = false ∧ later.2.inspection.tracker.names = ["x"] := by
  refine ⟨?_, ?_, ?_, ?_⟩
  · cbv
  · cbv
  · cbv
  · cbv

end Validity
