import Mathlib.Order.WellFounded
import Validity.Proofs.History

/-!
The state of a prover against its history. One operation adds at most one event, and what the
state says about scopes, assertions and obligations stays true to the history; so it is true after
every run.
-/
namespace Validity

namespace Session

def outer (s : Session) (k : Nat) : List Term :=
  s.base ++ (s.scopes.reverse.take k).flatten

theorem outer_eq_assertions (s : Session) (k : Nat) (hk : s.scopes.length ≤ k) :
    s.outer k = s.assertions := by
  rw [outer, assertions, List.take_of_length_le (by simpa using hk)]

/-- A new scope changes nothing in those around it. -/
theorem outer_push (s : Session) (k : Nat) (hk : k ≤ s.scopes.length) :
    s.push.outer k = s.outer k := by
  simp only [outer, push, List.reverse_cons]
  rw [List.take_append_of_le_length (by simpa using hk)]

theorem assertions_push (s : Session) : s.push.assertions = s.assertions := by
  simp [assertions, push]

/-- Closing a scope takes away the innermost scope and nothing else. -/
theorem pop_facts (s s' : Session) (h : s.pop = .ok s') :
    s.scopes.length = s'.scopes.length + 1 ∧
      ∀ k, k ≤ s'.scopes.length → s'.outer k = s.outer k := by
  unfold pop at h
  split at h
  · cases h
  · rename_i scope rest hs
    cases h
    refine ⟨by simp [hs], fun k hk => ?_⟩
    simp only [outer, hs, List.reverse_cons]
    rw [List.take_append_of_le_length (by simpa using hk)]

/-- A scope can be closed if one is open. -/
theorem pop_succeeds (s : Session) (h : s.scopes.length ≠ 0) : ∃ s', s.pop = .ok s' := by
  unfold pop
  split
  · rename_i hs
    exact absurd (by simp [hs]) h
  · exact ⟨_, rfl⟩

/-- Adding puts the formula behind all assertions, in the innermost scope. -/
theorem add_facts (s s' : Session) (t : Term) (h : s.add t = .ok s') :
    s'.scopes.length = s.scopes.length ∧ s'.assertions = s.assertions ++ [t] ∧
      ∀ k, k < s.scopes.length → s'.outer k = s.outer k := by
  unfold add at h
  split_ifs at h with ht
  split at h
  · rename_i hs
    cases h
    refine ⟨by simp [hs], by simp [assertions, hs], ?_⟩
    intro k hk
    simp [hs] at hk
  · rename_i scope rest hs
    cases h
    refine ⟨by simp [hs], by simp [assertions, hs], ?_⟩
    intro k hk
    have hk' : k ≤ rest.length := by
      rw [hs, List.length_cons] at hk
      omega
    simp only [outer, hs, List.reverse_cons]
    rw [List.take_append_of_le_length (by simpa using hk'),
      List.take_append_of_le_length (by simpa using hk')]

/-- Only Boolean terms are accepted. -/
theorem add_succeeds_iff (s : Session) (t : Term) : (∃ s', s.add t = .ok s') ↔ t.ty = .bool := by
  unfold add
  split_ifs with ht
  · refine iff_of_true ?_ ht
    split
    · exact ⟨_, rfl⟩
    · exact ⟨_, rfl⟩
  · refine iff_of_false ?_ ht
    rintro ⟨s', hs⟩
    cases hs

/-- A check asks the decider and keeps its reply. -/
theorem check_of_bool (s : Session) (d : Decider) (us : List Term) (h : ∀ u ∈ us, u.ty = .bool) :
    s.check d us = (outcome (d s.assertions us), { s with last := some (d s.assertions us) }) := by
  have hall : (us.all fun t => t.ty = .bool) = true := by simpa using h
  rw [check, if_pos hall]

/-- Assumptions that are not Boolean are refused before anything is decided. -/
theorem check_of_not_bool (s : Session) (d : Decider) (us : List Term)
    (h : ¬ ∀ u ∈ us, u.ty = .bool) : s.check d us = (.error (.solver .notBoolean), s) := by
  have hall : ¬ (us.all fun t => t.ty = .bool) = true := by simpa using h
  rw [check, if_neg hall]

/-- A check leaves all but the last reply as it was. -/
theorem check_keeps (s : Session) (d : Decider) (us : List Term) :
    ∃ r, (s.check d us).2 = { s with last := r } := by
  by_cases h : ∀ u ∈ us, u.ty = .bool
  · rw [s.check_of_bool d us h]
    exact ⟨_, rfl⟩
  · rw [s.check_of_not_bool d us h]
    exact ⟨s.last, rfl⟩

end Session

namespace Prover

theorem assume_eq (p : Prover) (t : Term) :
    p.assume t = (p.session.add t).map fun s => { p with session := s } := by
  cases h : p.session.add t <;> simp [assume, h] <;> rfl

theorem not_ty (t : Term) : t.not.ty = .bool := rfl

/-- An obligation is asserted as its negation, and the marker stays at the lowest level. -/
theorem require_of_bool (p : Prover) (t : Term) (ht : t.ty = .bool) :
    p.require t = (p.session.add t.not).map
      fun s => { p with session := s, marker := p.marker.or (some p.level) } := by
  cases h : p.session.add t.not <;> simp [require, ht, h] <;> rfl

theorem require_of_not_bool (p : Prover) (t : Term) (ht : t.ty ≠ .bool) :
    p.require t = .error (.solver .notBoolean) := by
  simp [require, ht]
  rfl

/-- With a scope, the marker goes if it was set there. -/
theorem pop_of_level (p : Prover) (hl : p.level ≠ 0) :
    p.pop = p.session.pop.map fun s =>
      { p with
        session := s, level := p.level - 1, marker := p.marker.filter (· ≤ p.level - 1) } := by
  cases h : p.session.pop <;> simp [pop, hl, h] <;> rfl

theorem pop_at_zero (p : Prover) (hl : p.level = 0) : p.pop = .error .scope := by
  simp [pop, hl]
  rfl

/-- A time limit is checked and leaves nothing behind. -/
theorem setTimeLimit_eq (p q : Prover) (limit : Scalar) (h : p.setTimeLimit limit = .ok q) :
    q = p := by
  unfold setTimeLimit Session.setTimeLimit at h
  cases hl : limit.toInteger with
  | ok n =>
    rw [hl] at h
    cases h
    rfl
  | error f =>
    rw [hl] at h
    cases h

/-- Without an obligation nobody is asked. -/
theorem check_of_none (p : Prover) (e : Engines) (assumptions : List Term)
    (h : p.marker = none) : p.check e assumptions = ({ answer := .ok .proof }, p) := by
  simp only [check, h]

theorem check_of_some (p : Prover) (e : Engines) (assumptions : List Term) (n : Nat)
    (h : p.marker = some n) :
    p.check e assumptions =
      ({ (p.outcome e assumptions).1 with
          answer := (p.outcome e assumptions).1.answer.bind Outcome.verdict },
        (p.outcome e assumptions).2) := by
  simp only [check, h]

/-- A check reads the assertions and leaves scopes, level and marker alone. -/
theorem outcome_keeps (p : Prover) (e : Engines) (assumptions : List Term) :
    ∃ r, (p.outcome e assumptions).2 = { p with session := { p.session with last := r } } := by
  unfold outcome
  split
  · obtain ⟨r, hr⟩ := p.session.check_keeps e.decide assumptions
    exact ⟨r, by rw [← hr]⟩
  · exact ⟨p.session.last, rfl⟩

theorem check_keeps (p : Prover) (e : Engines) (assumptions : List Term) :
    ∃ r, (p.check e assumptions).2 = { p with session := { p.session with last := r } } := by
  rcases Option.eq_none_or_eq_some p.marker with hm | ⟨n, hm⟩
  · rw [check_of_none p e assumptions hm]
    exact ⟨p.session.last, rfl⟩
  · rw [check_of_some p e assumptions n hm]
    exact outcome_keeps p e assumptions

/-- A failed operation is not in the history. -/
theorem events_of_error (p : Prover) (e : Engines) (op : Operation) (err : Error)
    (h : (p.perform e op).1.answer = .error err) : p.events e op = [] := by
  simp [events, h, Except.isOk, Except.toBool]

theorem events_of_ok (p : Prover) (e : Engines) (op : Operation) (r : Response)
    (h : (p.perform e op).1.answer = .ok r) : p.events e op = op.event?.toList := by
  simp [events, h, Except.isOk, Except.toBool]

/-- Checks and queries are not in the history. -/
theorem events_of_query (p : Prover) (e : Engines) (op : Operation) (h : op.event? = none) :
    p.events e op = [] := by
  simp [events, h]

inductive Effect (p : Prover) : List Event → Prover → Prop where
  | assumed (t : Term) (s : Session) : p.session.add t = .ok s →
      Effect p [.stated (.assumption t)] { p with session := s }
  | required (t : Term) (s : Session) : p.session.add t.not = .ok s →
      Effect p [.stated (.obligation t)]
        { p with session := s, marker := p.marker.or (some p.level) }
  | opened : Effect p [.opened] p.push
  | closed (s : Session) : p.level ≠ 0 → p.session.pop = .ok s →
      Effect p [.closed]
        { p with
          session := s, level := p.level - 1, marker := p.marker.filter (· ≤ p.level - 1) }
  | kept (r : Option Reply) : Effect p [] { p with session := { p.session with last := r } }

theorem effect_of_error (p : Prover) (e : Engines) (op : Operation) (err : Error)
    (h : p.perform e op = p.changed (.error err)) :
    Effect p (p.events e op) (p.perform e op).2 := by
  rw [events_of_error p e op err (by rw [h]; rfl), h]
  exact .kept p.session.last

/-- Every operation has one of the effects, with the events that it brings. -/
theorem perform_effect (p : Prover) (e : Engines) (op : Operation) :
    Effect p (p.events e op) (p.perform e op).2 := by
  cases op with
  | assume t =>
    have hp : p.perform e (.assume t) = p.changed (p.assume t) := rfl
    rw [assume_eq] at hp
    cases hs : p.session.add t with
    | error err => exact effect_of_error p e _ err (by rw [hp, hs]; rfl)
    | ok s =>
      rw [hs] at hp
      rw [events_of_ok p e _ .done (by rw [hp]; rfl), hp]
      exact .assumed t s hs
  | require t =>
    have hp : p.perform e (.require t) = p.changed (p.require t) := rfl
    by_cases ht : t.ty = .bool
    · rw [require_of_bool p t ht] at hp
      cases hs : p.session.add t.not with
      | error err => exact effect_of_error p e _ err (by rw [hp, hs]; rfl)
      | ok s =>
        rw [hs] at hp
        rw [events_of_ok p e _ .done (by rw [hp]; rfl), hp]
        exact .required t s hs
    · rw [require_of_not_bool p t ht] at hp
      exact effect_of_error p e _ _ hp
  | push =>
    rw [events_of_ok p e .push .done rfl]
    exact .opened
  | pop =>
    have hp : p.perform e .pop = p.changed p.pop := rfl
    by_cases hl : p.level = 0
    · rw [pop_at_zero p hl] at hp
      exact effect_of_error p e _ _ hp
    · rw [pop_of_level p hl] at hp
      cases hs : p.session.pop with
      | error err => exact effect_of_error p e _ err (by rw [hp, hs]; rfl)
      | ok s =>
        rw [hs] at hp
        rw [events_of_ok p e _ .done (by rw [hp]; rfl), hp]
        exact .closed s hl hs
  | setTimeLimit limit =>
    rw [events_of_query p e _ rfl]
    have hp : p.perform e (.setTimeLimit limit) = p.changed (p.setTimeLimit limit) := rfl
    have hq : (p.perform e (.setTimeLimit limit)).2 = p := by
      cases hs : p.setTimeLimit limit with
      | error err => rw [hp, hs]; rfl
      | ok q => rw [hp, hs]; exact setTimeLimit_eq p q limit hs
    rw [hq]
    exact .kept p.session.last
  | check assumptions =>
    rw [events_of_query p e _ rfl]
    obtain ⟨r, hr⟩ := check_keeps p e assumptions
    have hq : (p.perform e (.check assumptions)).2 = (p.check e assumptions).2 := rfl
    rw [hq, hr]
    exact .kept r
  | checkSat =>
    rw [events_of_query p e _ rfl]
    exact .kept _
  | model | core | reason | smtlib =>
    rw [events_of_query p e _ rfl]
    exact .kept p.session.last

/-- A new prover has an empty session. -/
theorem create_eq (backend : Backend) (config : Config) (p : Prover)
    (hp : create backend config = .ok p) : p = { backend, config } := by
  unfold create at hp
  cases hl : config.timeLimit with
  | none =>
    rw [hl] at hp
    cases hp
    rfl
  | some limit =>
    rw [hl] at hp
    unfold Session.setTimeLimit at hp
    cases hn : limit.toInteger with
    | error f => simp [hn] at hp
    | ok n =>
      simp only [hn] at hp
      cases hp
      rfl

theorem Effect.backend {p q : Prover} {es : List Event} (h : p.Effect es q) :
    q.backend = p.backend := by
  cases h <;> rfl

/-- The backend is never changed. -/
theorem performAll_backend (p : Prover) (steps : List (Engines × Operation)) :
    (p.performAll steps).backend = p.backend := by
  induction steps generalizing p with
  | nil => rfl
  | cons step rest ih => exact (ih _).trans (p.perform_effect step.1 step.2).backend

theorem Effect.config {p q : Prover} {es : List Event} (h : p.Effect es q) :
    q.config = p.config := by
  cases h <;> rfl

/-- The settings are never changed. -/
theorem performAll_config (p : Prover) (steps : List (Engines × Operation)) :
    (p.performAll steps).config = p.config := by
  induction steps generalizing p with
  | nil => rfl
  | cons step rest ih => exact (ih _).trans (p.perform_effect step.1 step.2).config

end Prover

namespace History

theorem obligationLevels_append_opened (h : List Event) :
    obligationLevels (h ++ [.opened]) = obligationLevels h := by
  rw [obligationLevels, live_append_opened]
  rfl

theorem obligationLevels_append_assumption (h : List Event) (t : Term) :
    obligationLevels (h ++ [.stated (.assumption t)]) = obligationLevels h := by
  simp only [obligationLevels, live_append_stated, List.mem_append, List.mem_singleton,
    Prod.mk.injEq, reduceCtorEq, and_false, or_false]

theorem obligationLevels_append_obligation (h : List Event) (t : Term) :
    obligationLevels (h ++ [.stated (.obligation t)]) = insert (depth h) (obligationLevels h) := by
  ext l
  simp only [obligationLevels, live_append_stated, List.mem_append, List.mem_singleton,
    Prod.mk.injEq, Statement.obligation.injEq, Set.mem_ofPred_eq, Set.mem_insert_iff]
  constructor
  · rintro ⟨u, hu | ⟨hl, _⟩⟩
    · exact Or.inr ⟨u, hu⟩
    · exact Or.inl hl
  · rintro (hl | ⟨u, hu⟩)
    · exact ⟨t, Or.inr ⟨hl, rfl⟩⟩
    · exact ⟨u, Or.inl hu⟩

/-- With a scope, the obligations of its level go. -/
theorem obligationLevels_append_closed (h : List Event) (hk : keepsOpen h = true) :
    obligationLevels (h ++ [.closed]) = {l | l ∈ obligationLevels h ∧ l < depth h} := by
  ext l
  simp only [obligationLevels, live_append_closed h hk, List.mem_filter, decide_eq_true_eq,
    Set.mem_ofPred_eq, exists_and_right]

theorem obligationLevels_le_depth (h : List Event) (hk : keepsOpen h = true) (l : Nat)
    (hl : l ∈ obligationLevels h) : l ≤ depth h := by
  obtain ⟨t, ht⟩ := hl
  exact live_level_le_depth h hk _ ht

/-- A set of numbers without a least one is empty. -/
theorem eq_empty_of_no_least (S : Set Nat) (h : ∀ n, ¬ IsLeast S n) : S = ∅ := by
  by_contra hne
  obtain ⟨n, hn, hmin⟩ := WellFounded.has_min wellFounded_lt S (Set.nonempty_iff_ne_empty.mpr hne)
  exact h n ⟨hn, fun m hm => not_lt.mp (hmin m hm)⟩

/-- There is no marker iff no level has an obligation. -/
theorem marker_none_iff (S : Set Nat) (marker : Option Nat)
    (h : ∀ n, marker = some n ↔ IsLeast S n) : marker = none ↔ S = ∅ := by
  constructor
  · intro hm
    apply eq_empty_of_no_least
    intro n hn
    have := (h n).mpr hn
    simp [hm] at this
  · rintro rfl
    cases marker with
    | none => rfl
    | some n => exact absurd ((h n).mp rfl).1 (Set.notMem_empty n)

/-- A new member above all others becomes the least one only if there was none. -/
theorem marker_insert (S : Set Nat) (marker : Option Nat) (d : Nat)
    (h : ∀ n, marker = some n ↔ IsLeast S n) (hd : ∀ l ∈ S, l ≤ d) (n : Nat) :
    marker.or (some d) = some n ↔ IsLeast (insert d S) n := by
  cases hm : marker with
  | none =>
    have hS : S = ∅ := (marker_none_iff S marker h).mp hm
    have hleast : IsLeast (insert d S) d := by
      rw [hS]
      simp
    rw [Option.none_or, Option.some.injEq]
    exact ⟨fun he => he ▸ hleast, fun hn => hleast.unique hn⟩
  | some k =>
    have hk := (h k).mp hm
    have hleast : IsLeast (insert d S) k := by
      refine ⟨Set.mem_insert_of_mem d hk.1, ?_⟩
      rintro l (rfl | hl)
      · exact hd k hk.1
      · exact hk.2 hl
    rw [Option.some_or, Option.some.injEq]
    exact ⟨fun he => he ▸ hleast, fun hn => hleast.unique hn⟩

/-- The least member stays the least one if it stays at all, and otherwise none stays. -/
theorem marker_below (S : Set Nat) (marker : Option Nat) (d : Nat) (hd : d ≠ 0)
    (h : ∀ n, marker = some n ↔ IsLeast S n) (n : Nat) :
    marker.filter (· ≤ d - 1) = some n ↔ IsLeast {l | l ∈ S ∧ l < d} n := by
  rw [Option.filter_eq_some_iff, h, decide_eq_true_eq]
  constructor
  · rintro ⟨hn, hle⟩
    exact ⟨⟨hn.1, by omega⟩, fun l hl => hn.2 hl.1⟩
  · rintro ⟨⟨hn, hlt⟩, hmin⟩
    refine ⟨⟨hn, fun l hl => ?_⟩, by omega⟩
    by_cases hld : l < d
    · exact hmin ⟨hl, hld⟩
    · omega

end History

open History

structure Tracks (h : List Event) (p : Prover) : Prop where
  legal : keepsOpen h = true
  level : p.level = depth h
  scopes : p.session.scopes.length = depth h
  -- for all outer scopes and not only for all scopes: closing one must bring the others back
  outer : ∀ k, k ≤ depth h →
    p.session.outer k = ((live h).filter fun x => x.1 ≤ k).map fun x => x.2.assertion
  marker : ∀ n, p.marker = some n ↔ IsLeast (obligationLevels h) n

namespace Tracks

variable {h : List Event} {p : Prover}

/-- What is asserted are the live statements, in order. -/
theorem assertions (ht : Tracks h p) :
    p.session.assertions = (live h).map fun x => x.2.assertion := by
  rw [← Session.outer_eq_assertions p.session (depth h) ht.scopes.le, ht.outer (depth h) le_rfl]
  congr 1
  exact List.filter_eq_self.mpr fun x hx =>
    decide_eq_true (live_level_le_depth h ht.legal x hx)

/-- A new prover is true to the empty history. -/
theorem create (backend : Backend) (config : Config) (hp : Prover.create backend config = .ok p) :
    Tracks [] p := by
  rw [Prover.create_eq backend config p hp]
  have hnone : obligationLevels [] = ∅ := by
    ext l
    simp [obligationLevels, live]
  refine ⟨rfl, rfl, rfl, ?_, ?_⟩
  · intro k _
    simp [Session.outer, live]
  · intro n
    rw [hnone]
    exact iff_of_false (by simp) fun hn => Set.notMem_empty n hn.1

/-- A statement goes behind all others, at the level of the innermost scope. -/
theorem outer_stated (ht : Tracks h p) (s : Statement) (s' : Session)
    (hs : p.session.add s.assertion = .ok s') (k : Nat) (hk : k ≤ depth h) :
    s'.outer k =
      ((live (h ++ [.stated s])).filter fun x => x.1 ≤ k).map fun x => x.2.assertion := by
  obtain ⟨hlength, hassertions, houter⟩ := Session.add_facts _ _ _ hs
  rw [live_append_stated, List.filter_append, List.map_append, ← ht.outer k hk]
  rcases hk.lt_or_eq with hlt | heq
  · rw [houter k (by rw [ht.scopes]; exact hlt)]
    simp [Nat.not_le.mpr hlt]
  · have hle : p.session.scopes.length ≤ k := by rw [ht.scopes, heq]
    rw [Session.outer_eq_assertions s' k (by rw [hlength]; exact hle), hassertions,
      Session.outer_eq_assertions p.session k hle]
    simp [heq]

/-- A statement changes neither the scopes nor the level; the marker depends on what is stated. -/
theorem stated (ht : Tracks h p) (s : Statement) (s' : Session)
    (hs : p.session.add s.assertion = .ok s') (marker : Option Nat)
    (hm : ∀ n, marker = some n ↔ IsLeast (obligationLevels (h ++ [.stated s])) n) :
    Tracks (h ++ [.stated s]) { p with session := s', marker } := by
  refine ⟨?_, ?_, ?_, ?_, hm⟩
  · rw [keepsOpen_append_of_ne h _ (by simp)]
    exact ht.legal
  · rw [depth_append_stated]
    exact ht.level
  · rw [depth_append_stated, ← ht.scopes]
    exact (Session.add_facts _ _ _ hs).1
  · rw [depth_append_stated]
    exact ht.outer_stated s s' hs

theorem assumed (ht : Tracks h p) (t : Term) (s : Session) (hs : p.session.add t = .ok s) :
    Tracks (h ++ [.stated (.assumption t)]) { p with session := s } := by
  apply ht.stated (.assumption t) s hs
  rw [obligationLevels_append_assumption]
  exact ht.marker

theorem required (ht : Tracks h p) (t : Term) (s : Session) (hs : p.session.add t.not = .ok s) :
    Tracks (h ++ [.stated (.obligation t)])
      { p with session := s, marker := p.marker.or (some p.level) } := by
  apply ht.stated (.obligation t) s hs
  -- the level is that of the innermost scope, so no live obligation is above it
  rw [obligationLevels_append_obligation, ht.level]
  exact marker_insert _ _ _ ht.marker (obligationLevels_le_depth h ht.legal)

theorem opened (ht : Tracks h p) : Tracks (h ++ [.opened]) p.push := by
  have hd := depth_append_opened h ht.legal
  refine ⟨?_, ?_, ?_, ?_, ?_⟩
  · rw [keepsOpen_append_of_ne h _ (by simp)]
    exact ht.legal
  · rw [hd, ← ht.level]
    rfl
  · rw [hd, ← ht.scopes]
    rfl
  · intro k hk
    rw [live_append_opened]
    rcases Nat.lt_or_ge (depth h) k with hlt | hle
    · -- the new scope is empty, so the assertions up to it are all there were
      have hall : (live h).filter (fun x => x.1 ≤ k) = live h :=
        List.filter_eq_self.mpr fun x hx =>
          decide_eq_true ((live_level_le_depth h ht.legal x hx).trans hlt.le)
      rw [hall, ← ht.assertions, ← Session.assertions_push]
      apply Session.outer_eq_assertions
      change p.session.scopes.length + 1 ≤ k
      rw [ht.scopes]
      exact hlt
    · rw [← ht.outer k hle]
      exact Session.outer_push _ _ (by rw [ht.scopes]; exact hle)
  · rw [obligationLevels_append_opened]
    exact ht.marker

theorem closed (ht : Tracks h p) (s : Session) (hl : p.level ≠ 0) (hs : p.session.pop = .ok s) :
    Tracks (h ++ [.closed])
      { p with
        session := s, level := p.level - 1, marker := p.marker.filter (· ≤ p.level - 1) } := by
  obtain ⟨hlength, houter⟩ := Session.pop_facts _ _ hs
  have hd := depth_append_closed h
  have hz : depth h ≠ 0 := by rw [← ht.level]; exact hl
  have hscopes := ht.scopes
  refine ⟨?_, ?_, ?_, ?_, ?_⟩
  · exact (keepsOpen_append_closed h).mpr ⟨ht.legal, hz⟩
  · rw [hd, ← ht.level]
  · rw [hd]
    change s.scopes.length = depth h - 1
    omega
  · intro k hk
    rw [hd] at hk
    -- the scopes that are left are below the closed one, where nothing has ended
    have hkeep : ((live h).filter fun x => x.1 < depth h).filter (fun x => x.1 ≤ k) =
        (live h).filter fun x => x.1 ≤ k := by
      rw [List.filter_filter]
      apply List.filter_congr
      intro x _
      rw [Bool.eq_iff_iff, Bool.and_eq_true, decide_eq_true_iff, decide_eq_true_iff]
      omega
    rw [live_append_closed h ht.legal, hkeep, ← ht.outer k (by omega)]
    exact houter k (by omega)
  · rw [obligationLevels_append_closed h ht.legal, ht.level]
    exact marker_below _ _ _ hz ht.marker

/-- Whatever an operation does, the prover stays true to the history with its events. -/
theorem effect (ht : Tracks h p) (es : List Event) (q : Prover) (he : p.Effect es q) :
    Tracks (h ++ es) q := by
  cases he with
  | assumed t s hs => exact ht.assumed t s hs
  | required t s hs => exact ht.required t s hs
  | opened => exact ht.opened
  | closed s hl hs => exact ht.closed s hl hs
  | kept r =>
    rw [List.append_nil]
    exact ⟨ht.legal, ht.level, ht.scopes, ht.outer, ht.marker⟩

/-- After every run the state is true to the history of the run. -/
theorem performAll (ht : Tracks h p) (steps : List (Engines × Operation)) :
    Tracks (h ++ p.history steps) (p.performAll steps) := by
  induction steps generalizing h p with
  | nil =>
    rw [Prover.history, List.append_nil]
    exact ht
  | cons step rest ih =>
    -- the history so far takes up the events of the first operation, and the run goes on from there
    obtain ⟨e, op⟩ := step
    rw [Prover.history, ← List.append_assoc]
    exact ih (ht.effect _ _ (p.perform_effect e op))

end Tracks

namespace Prover

theorem perform_assume_ok_iff (p : Prover) (e : Engines) (t : Term) :
    (p.perform e (.assume t)).1.answer.isOk = true ↔ t.ty = .bool := by
  have hp : p.perform e (.assume t) = p.changed (p.assume t) := rfl
  rw [← Session.add_succeeds_iff p.session, hp, assume_eq]
  cases hs : p.session.add t with
  | ok s => exact iff_of_true rfl ⟨s, rfl⟩
  | error err =>
    exact iff_of_false (by simp [changed, Except.map, Except.isOk, Except.toBool]) (by simp)

theorem perform_require_ok_iff (p : Prover) (e : Engines) (t : Term) :
    (p.perform e (.require t)).1.answer.isOk = true ↔ t.ty = .bool := by
  have hp : p.perform e (.require t) = p.changed (p.require t) := rfl
  rw [hp]
  by_cases ht : t.ty = .bool
  · obtain ⟨s, hs⟩ := (Session.add_succeeds_iff p.session t.not).mpr (not_ty t)
    rw [require_of_bool p t ht, hs]
    exact iff_of_true rfl ht
  · rw [require_of_not_bool p t ht]
    exact iff_of_false (by simp [changed, Except.isOk, Except.toBool]) ht

theorem perform_pop_ok_iff (p : Prover) (e : Engines) (hp : p.session.scopes.length = p.level) :
    (p.perform e .pop).1.answer.isOk = true ↔ p.level ≠ 0 := by
  have hq : p.perform e .pop = p.changed p.pop := rfl
  rw [hq]
  by_cases hl : p.level = 0
  · rw [pop_at_zero p hl]
    exact iff_of_false (by simp [changed, Except.isOk, Except.toBool]) (not_not.mpr hl)
  · obtain ⟨s, hs⟩ := Session.pop_succeeds p.session (by rw [hp]; exact hl)
    rw [pop_of_level p hl, hs]
    exact iff_of_true rfl hl

def idleEngines : Engines where
  decide _ _ := { result := .unknown }
  submit _ _ _ := { report := .ok .malformed }

/-- Idle engines give no proof, so a check that gives one has asked nobody. -/
theorem outcome_idle_ne_proof (p : Prover) (assumptions : List Term) :
    (p.outcome idleEngines assumptions).1.answer.bind Outcome.verdict ≠ .ok .proof := by
  cases hb : p.backend with
  | internal =>
    simp only [outcome, hb]
    by_cases h : ∀ u ∈ assumptions, u.ty = .bool
    · rw [p.session.check_of_bool _ _ h]
      simp [Session.outcome, idleEngines, Except.bind, Outcome.verdict, Verdict.proof,
        Verdict.unknown]
    · rw [p.session.check_of_not_bool _ _ h]
      simp [Except.bind]
  | external =>
    cases hp : p.session.problem p.config.unsupported assumptions with
    | error err => simp [outcome, hb, checkExternal, hp, Except.bind]
    | ok text => simp [outcome, hb, checkExternal, hp, idleEngines, Except.bind, Launch.run]

/-- A check gives a proof unasked, whoever might be asked, exactly if no marker is set. -/
theorem check_vacuous_iff (p : Prover) (assumptions : List Term) :
    (∀ e, p.check e assumptions = ({ answer := .ok .proof }, p)) ↔ p.marker = none := by
  constructor
  · intro hall
    rcases Option.eq_none_or_eq_some p.marker with hm | ⟨n, hm⟩
    · exact hm
    · -- with a marker the verdict is left to the engines, and these would give none
      have hidle := hall idleEngines
      rw [check_of_some p idleEngines assumptions n hm] at hidle
      exact absurd (congrArg (fun x => x.1.answer) hidle) (outcome_idle_ne_proof p assumptions)
  · intro hm e
    exact check_of_none p e assumptions hm

end Prover

structure Reflects (h : List Event) (p : Prover) : Prop where
  /-- The level is the number of scopes that were opened and not closed. -/
  level : p.level + h.count .closed = h.count .opened
  /-- The assertions are the live statements in order, obligations negated. -/
  assertions : p.session.assertions = (live h).map fun x => x.2.assertion
  /-- There is no marker iff no obligation is live. -/
  marker_none : p.marker = none ↔ ∀ l t, (l, Statement.obligation t) ∉ live h
  /-- The marker is the lowest level at which an obligation is live. -/
  marker_some : ∀ n, p.marker = some n ↔ IsLeast {l | ∃ t, (l, Statement.obligation t) ∈ live h} n
  /-- Statements are accepted iff they are Boolean, and scopes are closed iff one is open. -/
  accepts : ∀ e, (∀ t, (p.perform e (.assume t)).1.answer.isOk ↔ t.ty = .bool) ∧
    (∀ t, (p.perform e (.require t)).1.answer.isOk ↔ t.ty = .bool) ∧
    (p.perform e .push).1.answer.isOk ∧ ((p.perform e .pop).1.answer.isOk ↔ p.level ≠ 0)
  /-- A check gives a proof without a question to any engine iff no obligation is live. -/
  vacuous : ∀ assumptions, (∀ e, p.check e assumptions = ({ answer := .ok .proof }, p)) ↔
    ∀ l t, (l, Statement.obligation t) ∉ live h
  /-- If an obligation is live, the backend is asked and its outcome is the verdict. -/
  asks : ∀ l t, (l, Statement.obligation t) ∈ live h → ∀ e assumptions,
    p.check e assumptions =
      ({ (p.outcome e assumptions).1 with
          answer := (p.outcome e assumptions).1.answer.bind Outcome.verdict },
        (p.outcome e assumptions).2)

theorem Tracks.marker_none_iff {h : List Event} {p : Prover} (ht : Tracks h p) :
    p.marker = none ↔ ∀ l t, (l, Statement.obligation t) ∉ live h := by
  rw [History.marker_none_iff _ _ ht.marker, Set.eq_empty_iff_forall_notMem]
  exact forall_congr' fun l => not_exists

/-- After every run from a new prover, the state is true to what the operations that succeeded
have done, whichever of them failed and whatever the engines answered. -/
theorem run_reflects_history (backend : Backend) (config : Config) (p : Prover)
    (hp : Prover.create backend config = .ok p) (steps : List (Engines × Operation)) :
    Reflects (p.history steps) (p.performAll steps) := by
  have ht : Tracks (p.history steps) (p.performAll steps) :=
    (Tracks.create backend config hp).performAll steps
  have hlegal := keepsOpen_count _ ht.legal
  have hlevel := ht.level
  have hscopes : (p.performAll steps).session.scopes.length = (p.performAll steps).level := by
    rw [ht.scopes, ht.level]
  refine ⟨?_, ht.assertions, ht.marker_none_iff, ht.marker, ?_, ?_, ?_⟩
  · simp only [depth] at hlevel
    omega
  · intro e
    exact ⟨Prover.perform_assume_ok_iff _ e, Prover.perform_require_ok_iff _ e, rfl,
      Prover.perform_pop_ok_iff _ e hscopes⟩
  · intro assumptions
    rw [Prover.check_vacuous_iff]
    exact ht.marker_none_iff
  · intro l t hl e assumptions
    rcases Option.eq_none_or_eq_some (p.performAll steps).marker with hm | ⟨n, hm⟩
    · exact absurd hl (ht.marker_none_iff.mp hm l t)
    · exact Prover.check_of_some _ e assumptions n hm

/-- A run with a formula that is not Boolean, a scope that is closed twice and a check without a
result: the obligation of the closed scope is gone, and the marker is that of the later one. -/
theorem run_reflects_history_nested :
    let a := Term.const ⟨"a", [], .bool⟩
    let x := Term.const ⟨"x", [], .int⟩
    let steps := [Operation.push, .require a, .assume x, .pop, .pop, .assume a, .push, .push,
      .require a, .check [x], .pop, .pop, .push, .require a.not].map (Prover.idleEngines, ·)
    let p : Prover := { backend := .external }
    Prover.create .external {} = .ok p ∧ (p.performAll steps).marker = some 1 ∧
      Reflects (p.history steps) (p.performAll steps) :=
  ⟨rfl, rfl, run_reflects_history .external {} _ rfl _⟩

end Validity
