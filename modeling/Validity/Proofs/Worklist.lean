import Validity.Proofs.Visited

/-!
A walk as a loop. The terms that wait are kept in a list, the next one first: in each round one is
taken up, and those of its arguments that are new are put in front. The loop comes to an end and
does what the recursion over the term does. Only the first term waits whether or not it was there
before; every other one waits because it was just added, and nothing is added twice. So no term is
taken up twice, and the rounds are counted by what was added, not by the paths through the term.
-/
namespace Validity

namespace Tracker

structure Worklist where
  walk : Walk
  waiting : List Term

namespace Worklist

def push (r : Tracker) (waiting : List Term) : List Term → Tracker × List Term
  | [] => (r, waiting)
  | a :: args =>
    if r.nodes.contains a then push r waiting args
    else push (r.addNode a) (a :: waiting) args

def round (l : Worklist) : Option Worklist :=
  match l.waiting with
  | [] => none
  | t :: rest =>
    let w := l.walk.take t
    let (r, waiting) := push w.tracker rest t.children
    some ⟨{ w with tracker := r }, waiting⟩

def rounds : Nat → Worklist → Option Worklist
  | 0, l => some l
  | n + 1, l => l.round.bind (rounds n)

def start (r : Tracker) (t : Term) : Worklist := ⟨{ tracker := r.addNode t }, [t]⟩

/-- Rounds after rounds are that many rounds together. -/
theorem rounds_add (m n : Nat) (l : Worklist) :
    rounds (m + n) l = (rounds m l).bind (rounds n) := by
  induction m generalizing l with
  | zero => rw [Nat.zero_add, rounds, Option.bind_some]
  | succ m ih =>
    rw [Nat.succ_add, rounds, rounds, Option.bind_assoc]
    exact congrArg l.round.bind (funext ih)

def Leads (l k : Worklist) : Prop := ∃ n, rounds n l = some k

namespace Leads

variable {l k j : Worklist}

theorem refl (l : Worklist) : Leads l l := ⟨0, rfl⟩

theorem trans (h : Leads l k) (h' : Leads k j) : Leads l j := by
  obtain ⟨m, hm⟩ := h
  obtain ⟨n, hn⟩ := h'
  refine ⟨m + n, ?_⟩
  rw [rounds_add, hm, Option.bind_some, hn]

theorem single (h : l.round = some k) : Leads l k := by
  refine ⟨1, ?_⟩
  rw [rounds, h, Option.bind_some, rounds]

end Leads

def flagged : List Term → List Bool → List Term
  | t :: ts, new :: flags => if new then t :: flagged ts flags else flagged ts flags
  | _, _ => []

/-- The terms that wait are the new ones, the last one first. -/
theorem push_eq (r : Tracker) (waiting args : List Term) :
    push r waiting args =
      ((r.addNodes args).1, (flagged args (r.addNodes args).2).reverse ++ waiting) := by
  induction args generalizing r waiting with
  | nil => rfl
  | cons a args ih =>
    have hcons : r.addNodes (a :: args) = (((r.addNode a).addNodes args).1,
        (!r.nodes.contains a) :: ((r.addNode a).addNodes args).2) := rfl
    rw [push, hcons]
    by_cases ha : r.nodes.contains a = true
    · -- a term that was there before is not added again, and does not wait
      have hold : r.addNode a = r := if_pos ha
      rw [if_pos ha, ih, hold, ha, Bool.not_true, flagged, if_neg Bool.false_ne_true]
    · rw [if_neg ha, ih, Bool.not_eq_true _ |>.mp ha, Bool.not_false, flagged, if_pos rfl,
        List.reverse_cons, List.append_assoc, List.singleton_append]

end Worklist

/-- The recursion at any term, not only at one of a given form. -/
theorem Walk.visit_eq (w : Walk) (t : Term) : w.visit t =
    visitNew { w.take t with tracker := ((w.take t).tracker.addNodes t.children).1 } t.children
      ((w.take t).tracker.addNodes t.children).2 := by
  cases t <;> rfl

namespace Worklist

def Follows (t : Term) : Prop :=
  ∀ (w : Walk) (rest : List Term), Leads ⟨w, t :: rest⟩ ⟨w.visit t, rest⟩

/-- The loop takes up new terms as the recursion does, one walk after the other. -/
theorem follows_new (ts : List Term) (ih : ∀ t ∈ ts, Follows t) (flags : List Bool) (w : Walk)
    (rest : List Term) :
    Leads ⟨w, (flagged ts flags).reverse ++ rest⟩ ⟨w.visitNew ts flags, rest⟩ := by
  induction ts generalizing flags rest with
  | nil =>
    rw [Walk.visitNew]
    · exact .refl _
    · intro _ _ _ _ h
      cases h
  | cons t ts ihs =>
    cases flags with
    | nil =>
      rw [Walk.visitNew]
      · exact .refl _
      · intro _ _ _ _ _ h
        cases h
    | cons new flags =>
      have hrest := ihs fun a ha => ih a (List.mem_cons_of_mem t ha)
      rw [Walk.visitNew, flagged]
      cases new with
      | false => exact hrest flags rest
      | true =>
        -- the first term is below the others, so they are taken up before it
        have hlater := hrest flags (t :: rest)
        rw [if_pos rfl, List.reverse_cons, List.append_assoc, List.singleton_append]
        exact hlater.trans (ih t List.mem_cons_self _ rest)

theorem follows_of_children (t : Term) (ih : ∀ a ∈ t.children, Follows a) : Follows t := by
  intro w rest
  rw [Walk.visit_eq]
  refine .trans (.single rfl) ?_
  rw [push_eq]
  exact follows_new t.children ih _ _ rest

/-- The loop and the recursion do the same. -/
theorem follows (t : Term) : Follows t := by
  induction t using Term.induction with
  | app f args ih => exact follows_of_children (.app f args) ih
  | op o args ih => exact follows_of_children (.op o args) ih
  | lit l =>
    apply follows_of_children
    intro a ha
    exact absurd ha List.not_mem_nil
  | quant q vars body =>
    apply follows_of_children
    intro a ha
    exact absurd ha List.not_mem_nil

/-- What is known of the terms met on a walk through `t` that began at the tracker `r`: they are
different from each other, with the terms of before they are all that is there now, and only `t`
itself may be one of before. -/
structure Gathers (r : Tracker) (t : Term) (s : Tracker) (met : List Term) : Prop where
  distinct : met.Nodup
  nodes : ∀ u, u ∈ s.nodes ↔ u ∈ r.nodes ∨ u ∈ met
  fresh : ∀ u ∈ met, u = t ∨ u ∉ r.nodes
  size : s.nodes.size + (if t ∈ r.nodes then 1 else 0) = r.nodes.size + met.length

end Worklist

theorem record_size (r : Tracker) (e : Entry) : (r.record e).nodes.size = r.nodes.size := by
  unfold record
  split_ifs <;> rfl

theorem addName_size (r : Tracker) (x : String) : (r.addName x).nodes.size = r.nodes.size := by
  unfold addName
  split_ifs
  · rfl
  · rw [record_size]

theorem addNode_size (r : Tracker) (a : Term) :
    (r.addNode a).nodes.size = r.nodes.size + if a ∈ r.nodes then 0 else 1 := by
  unfold addNode
  by_cases ha : a ∈ r.nodes
  · rw [if_pos ha, if_pos (Std.HashSet.contains_iff_mem.mpr ha), Nat.add_zero]
  · rw [if_neg ha, if_neg fun hc => ha (Std.HashSet.contains_iff_mem.mp hc), record_size,
      Std.HashSet.size_insert, if_neg ha]

namespace Worklist.Gathers

variable {r s : Tracker} {t a : Term} {met met' : List Term}

theorem start (r : Tracker) (t : Term) : Gathers r t (r.addNode t) [t] := by
  refine ⟨List.nodup_singleton t, fun u => ?_, fun u hu => ?_, ?_⟩
  · rw [mem_addNode, List.mem_singleton]
  · exact .inl (List.mem_singleton.mp hu)
  · rw [addNode_size, List.length_singleton]
    split_ifs <;> omega

/-- The order in which terms are met does not matter. -/
theorem perm (h : Gathers r t s met) (hp : met.Perm met') : Gathers r t s met' := by
  refine ⟨hp.nodup_iff.mp h.distinct, fun u => ?_, fun u hu => h.fresh u (hp.mem_iff.mpr hu), ?_⟩
  · rw [h.nodes u, hp.mem_iff]
  · rw [h.size, hp.length_eq]

theorem addName (h : Gathers r t s met) (x : String) : Gathers r t (s.addName x) met := by
  refine ⟨h.distinct, fun u => ?_, h.fresh, ?_⟩
  · rw [mem_nodes_addName, h.nodes u]
  · rw [addName_size, h.size]

/-- A term that is added was neither there before nor met until now. -/
theorem addNode (h : Gathers r t s met) (ha : a ∉ s.nodes) : Gathers r t (s.addNode a) (a :: met) := by
  have hnew : a ∉ r.nodes ∧ a ∉ met := by
    rw [h.nodes a] at ha
    exact not_or.mp ha
  refine ⟨List.nodup_cons.mpr ⟨hnew.2, h.distinct⟩, fun u => ?_, ?_, ?_⟩
  · rw [mem_addNode, h.nodes u, List.mem_cons, or_assoc, or_comm (a := u ∈ met)]
  · exact List.forall_mem_cons.mpr ⟨.inr hnew.1, h.fresh⟩
  · have hsize := h.size
    rw [addNode_size, if_neg ha, List.length_cons]
    omega

theorem take (w : Walk) (u : Term) (h : Gathers r t w.tracker met) :
    Gathers r t (w.take u).tracker met := by
  cases u with
  | app f args => exact h.addName f.name
  | lit l => exact h
  | op o args => exact h
  | quant q vars body => exact h

/-- Arguments are met when they are put in front of those that wait, unless they were there. -/
theorem push (args waiting taken : List Term) (h : Gathers r t s (waiting ++ taken)) :
    Gathers r t (Worklist.push s waiting args).1 ((Worklist.push s waiting args).2 ++ taken) := by
  induction args generalizing s waiting with
  | nil => exact h
  | cons a args ih =>
    rw [Worklist.push]
    by_cases ha : s.nodes.contains a = true
    · rw [if_pos ha]
      exact ih waiting h
    · rw [if_neg ha]
      apply ih (a :: waiting)
      exact h.addNode fun hmem => ha (Std.HashSet.contains_iff_mem.mpr hmem)

/-- One round keeps what is known: the term that is taken up has waited, and what is put in front is
new. -/
theorem round {l k : Worklist} (h : Gathers r t l.walk.tracker (l.waiting ++ l.walk.taken))
    (hround : l.round = some k) :
    Gathers r t k.walk.tracker (k.waiting ++ k.walk.taken) ∧
      k.walk.taken.length = l.walk.taken.length + 1 := by
  obtain ⟨w, waiting⟩ := l
  cases waiting with
  | nil => cases hround
  | cons u rest =>
    cases hround
    refine ⟨?_, List.length_cons⟩
    have hmoved : Gathers r t (w.take u).tracker (rest ++ u :: w.taken) :=
      (take w u h).perm List.perm_middle.symm
    exact hmoved.push u.children rest (u :: w.taken)

/-- Every number of rounds keeps the account, and takes up a term in each round. -/
theorem rounds {l k : Worklist} (h : Gathers r t l.walk.tracker (l.waiting ++ l.walk.taken)) (n : Nat)
    (hrounds : Worklist.rounds n l = some k) :
    Gathers r t k.walk.tracker (k.waiting ++ k.walk.taken) ∧
      k.walk.taken.length = l.walk.taken.length + n := by
  induction n generalizing l with
  | zero =>
    cases hrounds
    exact ⟨h, rfl⟩
  | succ n ih =>
    obtain ⟨j, hround, hrest⟩ := Option.bind_eq_some_iff.mp hrounds
    obtain ⟨hj, hlength⟩ := h.round hround
    obtain ⟨hk, hlength'⟩ := ih hj hrest
    exact ⟨hk, by omega⟩

end Worklist.Gathers

def Closed (r : Tracker) : Prop := ∀ u ∈ r.nodes, ∀ a ∈ u.children, a ∈ r.nodes

theorem Accounts.nodes_closed {marks : List Mark} {r : Tracker} (h : Accounts marks r) :
    r.Closed :=
  fun u hu => (h.closed u hu id).children

end Tracker

open Tracker

namespace Step

theorem outside_accounts (s : Step) (hs : s.resetsOutside = true) (m : Reader)
    (hm : m.inspection.tracker.WellFormed) (marks : List Mark)
    (h : m.inspection.tracker.Accounts marks) :
    (∃ kept, (s.run m).2.inspection.tracker.Accounts kept) ∧
      (s.run m).2.inspection.tracker.WellFormed := by
  by_cases hreset : s = .reset
  · subst hreset
    exact ⟨⟨[], .empty⟩, Idle.wellFormed ⟨rfl, rfl⟩⟩
  · have hfree := s.resetFree_of_resetsOutside hs hreset
    refine ⟨⟨_, (s.audit_of_resetFree hfree m hm marks h).after⟩, ?_⟩
    exact hm.extends (s.matches_of_resetFree hfree m m hm ⟨.refl _, rfl⟩).extended

/-- Where resets are outside blocks, all that is there at any moment of a run, inside blocks as
well, is brought by marks. -/
theorem meets_accounts {m k : Reader} {script : List (Bool × Step)} (hk : Meets m script k)
    (hscript : ∀ p ∈ script, p.2.resetsOutside = true)
    (hm : m.inspection.tracker.WellFormed) (marks : List Mark)
    (h : m.inspection.tracker.Accounts marks) :
    ∃ kept, k.inspection.tracker.Accounts kept := by
  induction hk generalizing marks with
  | start m script => exact ⟨marks, h⟩
  | inside m n g body rest _ ih =>
    -- inside a block nothing is reset at all, and opening it changes no mark
    have hbody := (resetFreeAll_iff body).mp (hscript _ List.mem_cons_self)
    exact ih (fun p hp => p.2.resetsOutside_of_resetFree (hbody p hp)) hm.begin.1 marks
      (h.sameMarks (.begin _))
  | after m g s rest => exact (s.outside_accounts (hscript _ List.mem_cons_self) m hm marks h).1
  | later m n g s rest _ _ ih =>
    obtain ⟨⟨kept, hkept⟩, hnext⟩ :=
      s.outside_accounts (hscript _ List.mem_cons_self) m hm marks h
    exact ih (fun p hp => hscript p (List.mem_cons_of_mem _ hp)) hnext kept hkept

end Step

/-- The loop through a term comes to an end in every state, having done what the recursion does. It
takes up one term a round, no term twice, and besides the first only terms that were not there
before, so that there is at most one round more than terms were added. Where resets are outside
blocks, what was looked at is closed at every moment of a run. -/
theorem rounds_take_each_once (r : Tracker) (t : Term) :
    (∃ n w, Worklist.rounds n (.start r t) = some ⟨w, []⟩ ∧
      w = Walk.visit { tracker := r.addNode t } t ∧ w.tracker = r.visit t ∧
      w.taken.length = n ∧ w.taken.Nodup ∧ (∀ u ∈ w.taken, u = t ∨ u ∉ r.nodes) ∧
      n + r.nodes.size ≤ 1 + (r.visit t).nodes.size) ∧
    ∀ (model : Model) (c : Consistency) (script : List (Bool × Step)) (k : Reader),
      (∀ p ∈ script, p.2.resetsOutside = true) →
      Step.Meets { inspection := .ofModel model c } script k → k.inspection.tracker.Closed := by
  constructor
  · obtain ⟨n, hn⟩ := Worklist.follows t { tracker := r.addNode t } []
    obtain ⟨hmet, hlength⟩ := (Worklist.Gathers.start r t).rounds (l := .start r t) n hn
    rw [List.nil_append] at hmet
    have hcount : (Walk.visit { tracker := r.addNode t } t).taken.length = n := by
      rw [hlength]
      exact Nat.zero_add n
    refine ⟨n, _, hn, rfl, rfl, hcount, hmet.distinct, hmet.fresh, ?_⟩
    have hsize : (r.visit t).nodes.size + (if t ∈ r.nodes then 1 else 0) = r.nodes.size + n :=
      hcount ▸ hmet.size
    split_ifs at hsize <;> omega
  · intro model c script k hscript hk
    obtain ⟨marks, hmarks⟩ := Step.meets_accounts hk hscript (Idle.wellFormed ⟨rfl, rfl⟩) [] .empty
    exact hmarks.nodes_closed

/-- A sum of a sum with itself: there are four paths to its constant, and no term is taken up twice.
After a run in which a block with this sum fails, what was looked at is closed. -/
theorem rounds_take_each_once_shared :
    let x := Term.const ⟨"x", [], .int⟩
    let sum := Term.op .add [x, x]
    let t := Term.op .add [sum, sum]
    let script : List (Bool × Step) := [(true, .visit sum),
      (true, .block [(false, .visit t), (false, .raise .scope)]), (true, .reset), (true, .visit t)]
    let m : Reader := { inspection := .ofModel {} .consistent }
    (∃ n w, Worklist.rounds n (.start {} t) = some ⟨w, []⟩ ∧ w.taken.Nodup ∧
      n ≤ 1 + ((({} : Tracker).visit t).nodes.size)) ∧
    (∀ p ∈ script, p.2.resetsOutside = true) ∧
    (Step.runAll m script).2.2.inspection.tracker.Closed := by
  intro x sum t script m
  have hscript : ∀ p ∈ script, p.2.resetsOutside = true := by decide
  obtain ⟨⟨n, w, hrounds, _, _, _, hdistinct, _, hcount⟩, hclosed⟩ := rounds_take_each_once {} t
  refine ⟨⟨n, w, hrounds, hdistinct, hcount⟩, hscript, ?_⟩
  exact hclosed {} .consistent script _ hscript (Step.meets_end m script)

/-- A reset in a block, inside another block that fails afterwards. That one was opened when the
trail had two entries, so the first two entries of the new trail are not undone: a term stays whose
argument is taken back. -/
theorem reset_in_block_leaves_unclosed :
    let y := Term.const ⟨"y", [], .int⟩
    let t := Term.app ⟨"f", [.int], .int⟩ [y]
    let script : List (Bool × Step) := [(true, .block [(false, .look ⟨"a", [], .int⟩),
      (false, .look ⟨"b", [], .int⟩), (true, .block [(false, .block [(false, .reset)]),
        (false, .eval t true), (false, .raise .scope)])])]
    let k := (Step.runAll { inspection := .ofModel {} .consistent } script).2.2
    t ∈ k.inspection.tracker.nodes ∧ y ∈ t.children ∧ y ∉ k.inspection.tracker.nodes ∧
      ¬ k.inspection.tracker.Closed := by
  intro y t script k
  let r : Tracker := { openRegions := -1 }
  have hrun : k.inspection.tracker = ((r.visit t).rollback 2).commit := rfl
  -- below zero regions are noted as well: the term and its name first, the argument after them
  have hvisit : r.visit t = {
      names := ["f", "y"]
      nodes := (({} : Std.HashSet Term).insert t).insert y
      trail := [.name "y", .node y, .name "f", .node t]
      openRegions := -1 } := by
    simp [r, t, y, Tracker.visit, Walk.visit, Walk.take, addNode, addName, addNodes, record,
      Walk.visitNew, Term.const]
  have hnodes : k.inspection.tracker.nodes =
      ((({} : Std.HashSet Term).insert t).insert y).erase y := by
    rw [hrun, hvisit]
    rfl
  have hne : t ≠ y := by simp [t, y, Term.const]
  have ht : t ∈ k.inspection.tracker.nodes := by
    rw [hnodes]
    simp [hne.symm]
  have hy : y ∈ t.children := List.mem_singleton.mpr rfl
  have hgone : y ∉ k.inspection.tracker.nodes := by
    rw [hnodes]
    simp
  exact ⟨ht, hy, hgone, fun hclosed => hgone (hclosed t ht y hy)⟩

end Validity
