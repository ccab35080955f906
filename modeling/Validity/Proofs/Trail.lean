import Mathlib.Tactic.Common
import Validity.Proofs.Terms
import Validity.Tracker

/-!
The trail of a tracker. While a region is open, whatever is added can be taken back by the entries
that were put on the trail since: this is kept by every addition and by every walk, so that closing
a region either keeps its additions for the regions around it or restores what was there before.
-/
namespace Validity.Tracker

structure SameMarks (r s : Tracker) : Prop where
  names : r.names = s.names
  nodes : ∀ t, t ∈ r.nodes ↔ t ∈ s.nodes

namespace SameMarks

variable {r s u : Tracker}

theorem refl (r : Tracker) : SameMarks r r := ⟨rfl, fun _ => Iff.rfl⟩

theorem symm (h : SameMarks r s) : SameMarks s r := ⟨h.names.symm, fun t => (h.nodes t).symm⟩

theorem trans (h : SameMarks r s) (h' : SameMarks s u) : SameMarks r u :=
  ⟨h.names.trans h'.names, fun t => (h.nodes t).trans (h'.nodes t)⟩

theorem contains_nodes (h : SameMarks r s) (t : Term) :
    r.nodes.contains t = s.nodes.contains t := by
  rw [Bool.eq_iff_iff, Std.HashSet.contains_iff_mem, Std.HashSet.contains_iff_mem]
  exact h.nodes t

/-- Taking back an addition has the same effect on the same marks. -/
theorem discard (h : SameMarks r s) (e : Entry) : SameMarks (r.discard e) (s.discard e) := by
  cases e with
  | name x =>
    refine ⟨?_, h.nodes⟩
    change r.names.erase x = s.names.erase x
    rw [h.names]
  | node x =>
    refine ⟨h.names, fun t => ?_⟩
    change t ∈ r.nodes.erase x ↔ t ∈ s.nodes.erase x
    rw [Std.HashSet.mem_erase, Std.HashSet.mem_erase, h.nodes t]

theorem foldl_discard (h : SameMarks r s) (es : List Entry) :
    SameMarks (es.foldl Tracker.discard r) (es.foldl Tracker.discard s) := by
  induction es generalizing r s with
  | nil => exact h
  | cons e es ih => exact ih (h.discard e)

/-- Noting an addition on the trail changes no mark. -/
theorem record (r : Tracker) (e : Entry) : SameMarks (r.record e) r := by
  unfold Tracker.record
  split_ifs
  · exact refl r
  · exact ⟨rfl, fun _ => Iff.rfl⟩

theorem addName (h : SameMarks r s) (x : String) : SameMarks (r.addName x) (s.addName x) := by
  unfold Tracker.addName
  rw [h.names]
  split_ifs
  · exact h
  · refine (record _ _).trans (.trans ?_ (record _ _).symm)
    exact ⟨rfl, h.nodes⟩

theorem addNode (h : SameMarks r s) (x : Term) : SameMarks (r.addNode x) (s.addNode x) := by
  unfold Tracker.addNode
  rw [h.contains_nodes x]
  split_ifs
  · exact h
  · refine (record _ _).trans (.trans ?_ (record _ _).symm)
    refine ⟨h.names, fun t => ?_⟩
    change t ∈ r.nodes.insert x ↔ t ∈ s.nodes.insert x
    rw [Std.HashSet.mem_insert, Std.HashSet.mem_insert, h.nodes t]

/-- Which terms are new depends on the marks only. -/
theorem addNodes (h : SameMarks r s) (ts : List Term) :
    SameMarks (r.addNodes ts).1 (s.addNodes ts).1 ∧ (r.addNodes ts).2 = (s.addNodes ts).2 := by
  induction ts generalizing r s with
  | nil => exact ⟨h, rfl⟩
  | cons t ts ih =>
    obtain ⟨hrest, hflags⟩ := ih (h.addNode t)
    refine ⟨hrest, ?_⟩
    change (!r.nodes.contains t) :: _ = (!s.nodes.contains t) :: _
    rw [h.contains_nodes t, hflags]

theorem begin (r : Tracker) : SameMarks r.begin r := ⟨rfl, fun _ => Iff.rfl⟩

theorem commit (r : Tracker) : SameMarks r.commit r := ⟨rfl, fun _ => Iff.rfl⟩

end SameMarks

/-- The second tracker comes from the first by additions: no region was closed, and the entries
added to the trail take back what was added. Without a region nothing is noted. -/
structure Extends (r s : Tracker) : Prop where
  regions : s.openRegions = r.openRegions
  trail : ∃ added, s.trail = added ++ r.trail ∧ (r.openRegions = 0 → added = []) ∧
    (r.openRegions ≠ 0 → SameMarks (added.foldl discard s) r)

namespace Extends

variable {r s u : Tracker}

theorem refl (r : Tracker) : Extends r r :=
  ⟨rfl, [], rfl, fun _ => rfl, fun _ => .refl r⟩

/-- Additions after additions are taken back together. -/
theorem trans (h : Extends r s) (h' : Extends s u) : Extends r u := by
  obtain ⟨first, htrail, hnone, hback⟩ := h.trail
  obtain ⟨second, htrail', hnone', hback'⟩ := h'.trail
  refine ⟨h'.regions.trans h.regions, second ++ first, ?_, fun hz => ?_, fun hz => ?_⟩
  · rw [htrail', htrail, List.append_assoc]
  · rw [hnone' (h.regions.trans hz), hnone hz, List.append_nil]
  · -- the newest entries go first: they lead back to the tracker in the middle
    rw [List.foldl_append]
    have hmiddle := hback' (by rw [h.regions]; exact hz)
    exact (hmiddle.foldl_discard first).trans (hback hz)

/-- One addition that its entry takes back. -/
theorem record (e : Entry) (hregions : s.openRegions = r.openRegions) (htrail : s.trail = r.trail)
    (hback : SameMarks (s.discard e) r) : Extends r (s.record e) := by
  unfold Tracker.record
  split_ifs with hz
  · rw [hregions] at hz
    exact ⟨hregions, [], htrail, fun _ => rfl, fun hn => absurd hz hn⟩
  · rw [hregions] at hz
    refine ⟨hregions, [e], by rw [List.singleton_append, ← htrail], fun hn => absurd hn hz, ?_⟩
    intro _
    have hsame : SameMarks { s with trail := e :: s.trail } s := ⟨rfl, fun _ => Iff.rfl⟩
    exact (hsame.discard e).trans hback

/-- A name that was there already needs no entry on the trail. -/
theorem addName (r : Tracker) (x : String) : Extends r (r.addName x) := by
  unfold Tracker.addName
  split_ifs with hx
  · exact refl r
  · have hnot : x ∉ r.names := by simpa using hx
    -- only a first mark is noted, so taking it back never takes an older one
    refine record (.name x) rfl rfl ⟨?_, fun _ => Iff.rfl⟩
    change (r.names ++ [x]).erase x = r.names
    rw [List.erase_append_right _ hnot, List.erase_cons_head, List.append_nil]

theorem addNode (r : Tracker) (x : Term) : Extends r (r.addNode x) := by
  unfold Tracker.addNode
  split_ifs with hx
  · exact refl r
  · have hnot : x ∉ r.nodes := by simpa using hx
    refine record (.node x) rfl rfl ⟨rfl, fun t => ?_⟩
    change t ∈ (r.nodes.insert x).erase x ↔ t ∈ r.nodes
    rw [Std.HashSet.mem_erase, Std.HashSet.mem_insert]
    simp only [beq_iff_eq, beq_eq_false_iff_ne]
    constructor
    · rintro ⟨hne, rfl | hmem⟩
      · exact absurd rfl hne
      · exact hmem
    · intro hmem
      exact ⟨fun heq => hnot (heq ▸ hmem), .inr hmem⟩

theorem addNodes (r : Tracker) (ts : List Term) : Extends r (r.addNodes ts).1 := by
  induction ts generalizing r with
  | nil => exact refl r
  | cons t ts ih => exact (addNode r t).trans (ih (r.addNode t))

end Extends

structure Walk.Related (r : Tracker) (w v : Walk) : Prop where
  extended : Extends r w.tracker
  same : SameMarks w.tracker v.tracker

namespace Walk.Related

variable {r : Tracker} {w v : Walk}

theorem take (h : Related r w v) (t : Term) : Related r (w.take t) (v.take t) := by
  cases t with
  | app f args => exact ⟨h.extended.trans (.addName _ f.name), h.same.addName f.name⟩
  | lit l => exact ⟨h.extended, h.same⟩
  | op o args => exact ⟨h.extended, h.same⟩
  | quant q vars body => exact ⟨h.extended, h.same⟩

/-- Walks side by side go through the same terms. -/
theorem visitNew (h : Related r w v) (ts : List Term) (flags : List Bool)
    (ih : ∀ t ∈ ts, ∀ {w v : Walk}, Related r w v → Related r (w.visit t) (v.visit t)) :
    Related r (w.visitNew ts flags) (v.visitNew ts flags) := by
  induction ts generalizing flags with
  | nil =>
    rw [Walk.visitNew, Walk.visitNew]
    · exact h
    all_goals exact nofun
  | cons t ts ihs =>
    cases flags with
    | nil =>
      rw [Walk.visitNew, Walk.visitNew]
      · exact h
      all_goals exact nofun
    | cons new flags =>
      have hrest := ihs flags fun u hu => ih u (List.mem_cons_of_mem t hu)
      rw [Walk.visitNew, Walk.visitNew]
      cases new with
      | false => exact hrest
      | true => exact ih t List.mem_cons_self hrest

/-- The part of a walk that `app` and `op` share: the arguments are added, and the new ones are
walked through. -/
theorem arguments (h : Related r w v) (args : List Term)
    (ih : ∀ t ∈ args, ∀ {w v : Walk}, Related r w v → Related r (w.visit t) (v.visit t)) :
    Related r (Walk.visitNew { w with tracker := (w.tracker.addNodes args).1 } args
        (w.tracker.addNodes args).2)
      (Walk.visitNew { v with tracker := (v.tracker.addNodes args).1 } args
        (v.tracker.addNodes args).2) := by
  obtain ⟨hsame, hflags⟩ := h.same.addNodes args
  rw [hflags]
  have hadded : Related r { w with tracker := (w.tracker.addNodes args).1 }
      { v with tracker := (v.tracker.addNodes args).1 } :=
    ⟨h.extended.trans (.addNodes _ args), hsame⟩
  exact hadded.visitNew args _ ih

/-- A walk extends the tracker, and what it marks does not depend on the trail. -/
theorem visit (t : Term) (h : Related r w v) : Related r (w.visit t) (v.visit t) := by
  induction t using Term.induction generalizing w v with
  | lit l => exact h.take (.lit l)
  | app f args ih => exact (h.take (.app f args)).arguments args ih
  | op o args ih => exact (h.take (.op o args)).arguments args ih
  | quant q vars body => exact h.take (.quant q vars body)

end Walk.Related

/-- Visiting a term is an addition. -/
theorem Extends.visit (r : Tracker) (t : Term) : Extends r (r.visit t) := by
  have h : Walk.Related r { tracker := r.addNode t } { tracker := r.addNode t } :=
    ⟨.addNode r t, .refl _⟩
  exact (h.visit t).extended

/-- What a visit marks depends on the marks only. -/
theorem SameMarks.visit {r s : Tracker} (h : SameMarks r s) (t : Term) :
    SameMarks (r.visit t) (s.visit t) := by
  have h : Walk.Related r { tracker := r.addNode t } { tracker := s.addNode t } :=
    ⟨.addNode r t, h.addNode t⟩
  exact (h.visit t).same

theorem foldl_discard_trail (r : Tracker) (es l : List Entry) :
    es.foldl discard { r with trail := l } = { es.foldl discard r with trail := l } := by
  induction es generalizing r with
  | nil => rfl
  | cons e es ih =>
    have he : { r with trail := l }.discard e = { r.discard e with trail := l } := by
      cases e <;> rfl
    rw [List.foldl_cons, List.foldl_cons, he, ih]

theorem discard_trail (r : Tracker) (e : Entry) : (r.discard e).trail = r.trail := by
  cases e <;> rfl

theorem foldl_discard_regions (r : Tracker) (es : List Entry) :
    (es.foldl discard r).openRegions = r.openRegions := by
  induction es generalizing r with
  | nil => rfl
  | cons e es ih =>
    have he : (r.discard e).openRegions = r.openRegions := by cases e <;> rfl
    exact (ih _).trans he

/-- Undoing as many additions as there are entries in front takes back just those entries. -/
theorem undo_append (r : Tracker) (added rest : List Entry) (h : r.trail = added ++ rest) :
    r.undo added.length = { added.foldl discard r with trail := rest } := by
  induction added generalizing r with
  | nil =>
    rw [List.nil_append] at h
    rw [← h]
    rfl
  | cons e added ih =>
    rw [List.length_cons, undo, h, List.cons_append]
    have hrest : ({ r with trail := added ++ rest }.discard e).trail = added ++ rest :=
      discard_trail _ e
    have he : { r with trail := added ++ rest }.discard e =
        { r.discard e with trail := added ++ rest } := by
      cases e <;> rfl
    dsimp only
    rw [ih _ hrest, he, foldl_discard_trail]
    rfl

structure WellFormed (r : Tracker) : Prop where
  regions : 0 ≤ r.openRegions
  trail : r.openRegions = 0 → r.trail = []

/-- Additions keep a tracker well formed. -/
theorem WellFormed.extends {r s : Tracker} (hr : r.WellFormed) (h : Extends r s) :
    s.WellFormed := by
  obtain ⟨added, htrail, hnone, _⟩ := h.trail
  refine ⟨h.regions ▸ hr.regions, fun hz => ?_⟩
  have hz' : r.openRegions = 0 := h.regions.symm.trans hz
  rw [htrail, hnone hz', hr.trail hz', List.append_nil]

structure Idle (r : Tracker) : Prop where
  regions : r.openRegions = 0
  trail : r.trail = []

theorem Idle.wellFormed {r : Tracker} (h : r.Idle) : r.WellFormed :=
  ⟨Int.le_of_eq h.regions.symm, fun _ => h.trail⟩

/-- Without a region, additions leave nothing to undo. -/
theorem Idle.extends {r s : Tracker} (hr : r.Idle) (h : Extends r s) : s.Idle := by
  have hregions := h.regions.trans hr.regions
  exact ⟨hregions, (hr.wellFormed.extends h).trail hregions⟩

/-- In a new region additions are noted. -/
theorem WellFormed.begin {r : Tracker} (hr : r.WellFormed) :
    r.begin.WellFormed ∧ r.begin.openRegions ≠ 0 := by
  have hpos : r.begin.openRegions = r.openRegions + 1 := rfl
  have hge := hr.regions
  refine ⟨⟨by omega, fun hz => ?_⟩, by omega⟩
  omega

/-- A region that is closed and kept: its additions are additions of the regions around it. -/
theorem Extends.commit {r s : Tracker} (hr : r.WellFormed) (h : Extends r.begin s) :
    Extends r s.commit := by
  have hregions : s.openRegions - 1 = r.openRegions := by
    rw [h.regions]
    exact Int.add_sub_cancel _ _
  obtain ⟨added, htrail, _, hback⟩ := h.trail
  refine ⟨hregions, ?_⟩
  by_cases hz : r.openRegions = 0
  · -- the outermost region: its additions stay for good, and the trail is cleared
    refine ⟨[], ?_, fun _ => rfl, fun hn => absurd hz hn⟩
    change (if s.openRegions - 1 = 0 then [] else s.trail) = [] ++ r.trail
    rw [if_pos (hregions.trans hz), hr.trail hz]
    rfl
  · -- a region around it is open, and its trail takes back these additions as well
    refine ⟨added, ?_, fun hn => absurd hn hz, fun _ => ?_⟩
    · change (if s.openRegions - 1 = 0 then [] else s.trail) = added ++ r.trail
      rw [if_neg (by rw [hregions]; exact hz), htrail]
      rfl
    · have hbegin := (hback hr.begin.2).trans (.begin r)
      exact ((SameMarks.commit s).foldl_discard added).trans hbegin

/-- Undoing down to the length of before takes back the entries that were added. -/
theorem Extends.undo {r s : Tracker} (h : Extends r s) :
    ∃ added, s.undo (s.trail.length - r.trail.length) =
        { added.foldl discard s with trail := r.trail } ∧
      (r.openRegions = 0 → added = []) ∧
      (r.openRegions ≠ 0 → SameMarks (added.foldl discard s) r) := by
  obtain ⟨added, htrail, hnone, hback⟩ := h.trail
  have hcount : s.trail.length - r.trail.length = added.length := by
    rw [htrail, List.length_append]
    exact Nat.add_sub_cancel _ _
  refine ⟨added, ?_, hnone, hback⟩
  rw [hcount]
  exact s.undo_append added r.trail htrail

/-- A region that is undone: all is as it was when it was opened. -/
theorem Extends.rollback {r s : Tracker} (hr : r.WellFormed) (h : Extends r.begin s) :
    Extends r (s.rollback r.trail.length) ∧ SameMarks (s.rollback r.trail.length) r := by
  obtain ⟨added, hundo, _, hback⟩ := h.undo
  change s.undo (s.trail.length - r.trail.length) =
    { added.foldl discard s with trail := r.trail } at hundo
  have hsame : SameMarks (s.undo (s.trail.length - r.trail.length)) r.begin := by
    rw [hundo]
    exact ⟨(hback hr.begin.2).names, (hback hr.begin.2).nodes⟩
  -- once undone, the region is closed like one that has added nothing
  have hmiddle : Extends r.begin (s.undo (s.trail.length - r.trail.length)) := by
    refine ⟨?_, [], ?_, fun _ => rfl, fun _ => hsame⟩
    · rw [hundo]
      exact (foldl_discard_regions s added).trans h.regions
    · rw [hundo]
      rfl
  exact ⟨hmiddle.commit hr, (SameMarks.commit _).trans (hsame.trans (.begin r))⟩

/-- What undoing a region leaves, whatever the count of regions is. Where the count is zero,
nothing was noted, so that nothing is taken back. -/
theorem Extends.rollback_marks {r s : Tracker} (h : Extends r s) :
    SameMarks (s.rollback r.trail.length) (if r.openRegions = 0 then s else r) := by
  obtain ⟨added, hundo, hnone, hback⟩ := h.undo
  have hsame : SameMarks (s.rollback r.trail.length) (added.foldl discard s) := by
    apply (SameMarks.commit _).trans
    rw [hundo]
    exact ⟨rfl, fun _ => Iff.rfl⟩
  split_ifs with hz
  · rw [hnone hz] at hsame
    exact hsame
  · exact hsame.trans (hback hz)

/-- Taking back additions opens and closes no region. -/
theorem undo_regions (r : Tracker) (count : Nat) :
    (r.undo count).openRegions = r.openRegions := by
  induction count generalizing r with
  | zero => rfl
  | succ count ih =>
    rw [undo]
    split
    · rfl
    · rename_i e rest _
      rw [ih]
      cases e <;> rfl

end Validity.Tracker
