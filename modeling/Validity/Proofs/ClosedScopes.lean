import Validity.Proofs.Scopes

/-!
Closed scopes leave no trace. Inside a scope, operations change this scope and those opened inside
it; a marker that was set before stays, and one that is set inside is above the level of before. So
closing the scope brings the prover back, but for the last reply. What an engine is asked depends on
nothing else, so from then on the same questions are asked as if the scope had never been opened.
-/
namespace Validity

inductive Consultation where
  /-- Nobody needs to be asked, as the operation is no check. -/
  | idle
  /-- A check gives a proof and nobody is asked. -/
  | vacuous
  /-- A check with assumptions that are not Boolean. -/
  | refused
  | decider (assertions assumptions : List Term)
  | solver (argv : List String) (limit : Option Binary) (problem : String)

def Consultation.SameAnswer (e e' : Engines) : Consultation → Prop
  | .decider ts us => e.decide ts us = e'.decide ts us
  | .solver argv limit text => e.submit argv limit text = e'.submit argv limit text
  | _ => True

def Operation.showsReply : Operation → Bool
  | .model | .core | .reason => true
  | _ => false

namespace Prover

/-- What an operation asks in this state. -/
def consults (p : Prover) : Operation → Consultation
  | .check us =>
    match p.marker, p.backend with
    | none, _ => .vacuous
    | some _, .internal =>
      if us.all fun t => t.ty = .bool then .decider p.session.assertions us else .refused
    | some _, .external =>
      match p.session.problem p.config.unsupported us with
      | .ok text => .solver p.solver.argv p.config.runSeconds text
      | .error _ => .refused
  | .checkSat => .decider p.session.assertions []
  | _ => .idle

/-- Nothing is asked beyond the question: engines that answer it alike make no difference. -/
theorem perform_congr (p : Prover) (e e' : Engines) (op : Operation)
    (h : (p.consults op).SameAnswer e e') : p.perform e op = p.perform e' op := by
  cases op with
  | check us =>
    have hcheck : p.check e us = p.check e' us := by
      simp only [consults] at h
      unfold check
      cases hm : p.marker with
      | none => rfl
      | some n =>
        rw [hm] at h
        cases hb : p.backend with
        | internal =>
          rw [hb] at h
          dsimp only at h
          by_cases hus : ∀ u ∈ us, u.ty = .bool
          · rw [if_pos (by simpa using hus)] at h
            change e.decide p.session.assertions us = e'.decide p.session.assertions us at h
            simp only [outcome, hb, Session.check_of_bool _ _ us hus, h]
          · simp only [outcome, hb, Session.check_of_not_bool _ _ us hus]
        | external =>
          rw [hb] at h
          cases hp : p.session.problem p.config.unsupported us with
          | error err => simp only [outcome, hb, checkExternal, hp]
          | ok text =>
            rw [hp] at h
            change e.submit p.solver.argv p.config.runSeconds text =
              e'.submit p.solver.argv p.config.runSeconds text at h
            simp only [outcome, hb, checkExternal, hp, h]
    simp only [perform, hcheck]
  | checkSat =>
    change e.decide p.session.assertions [] = e'.decide p.session.assertions [] at h
    simp only [perform, checkSat, Session.check, h]
  | _ => rfl

def Alike (p q : Prover) : Prop :=
  ∃ r, q = { p with session := { p.session with last := r } }

namespace Alike

variable {p q : Prover}

theorem assertions (h : Alike p q) : q.session.assertions = p.session.assertions := by
  obtain ⟨r, rfl⟩ := h
  rfl

theorem level (h : Alike p q) : q.level = p.level := by
  obtain ⟨r, rfl⟩ := h
  rfl

theorem marker (h : Alike p q) : q.marker = p.marker := by
  obtain ⟨r, rfl⟩ := h
  rfl

/-- What is asked does not depend on the last reply. -/
theorem consults (h : Alike p q) (op : Operation) : q.consults op = p.consults op := by
  obtain ⟨r, rfl⟩ := h
  cases op <;> rfl

/-- A change of the provers that does not look at the reply. -/
theorem changed {f : Prover → Except Error Prover} (h : Alike p q)
    (hf : f q = f p ∨ ∃ p' q', f p = .ok p' ∧ f q = .ok q' ∧ Alike p' q') :
    (q.changed (f q)).1 = (p.changed (f p)).1 ∧
      Alike (p.changed (f p)).2 (q.changed (f q)).2 := by
  rcases hf with hf | ⟨p', q', hp, hq, hpq⟩
  · rw [hf]
    cases f p with
    | ok n => exact ⟨rfl, n.session.last, rfl⟩
    | error err => exact ⟨rfl, h⟩
  · rw [hp, hq]
    exact ⟨rfl, hpq⟩

theorem setTimeLimit (h : Alike p q) (limit : Scalar) :
    q.setTimeLimit limit = p.setTimeLimit limit ∨
      ∃ p' q', p.setTimeLimit limit = .ok p' ∧ q.setTimeLimit limit = .ok q' ∧ Alike p' q' := by
  obtain ⟨r, rfl⟩ := h
  unfold Prover.setTimeLimit Session.setTimeLimit
  cases limit.toInteger with
  | ok n => exact .inr ⟨_, _, rfl, rfl, r, rfl⟩
  | error f => exact .inl rfl

/-- A check gives the same report, whatever the last reply was. -/
theorem check (h : Alike p q) (e : Engines) (us : List Term) :
    (q.check e us).1 = (p.check e us).1 ∧ Alike (p.check e us).2 (q.check e us).2 := by
  obtain ⟨r, rfl⟩ := h
  obtain ⟨session, backend, config, level, marker⟩ := p
  cases marker with
  | none => exact ⟨rfl, r, rfl⟩
  | some n =>
    cases backend with
    | internal =>
      by_cases hus : ∀ u ∈ us, u.ty = .bool
      · simp only [Prover.check, outcome, Session.check_of_bool _ _ us hus]
        exact ⟨rfl, _, rfl⟩
      · simp only [Prover.check, outcome, Session.check_of_not_bool _ _ us hus]
        exact ⟨trivial, r, rfl⟩
    | external => exact ⟨rfl, r, rfl⟩

/-- One operation: the provers stay alike, and only a look at the last reply can tell them apart. -/
theorem perform (h : Alike p q) (e : Engines) (op : Operation) :
    Alike (p.perform e op).2 (q.perform e op).2 ∧
      (op.showsReply = false → (q.perform e op).1 = (p.perform e op).1) := by
  cases op with
  | assume t =>
    have hsame : q.assume t = p.assume t := by
      obtain ⟨r, rfl⟩ := h
      rw [assume_eq, assume_eq]
      rfl
    obtain ⟨hreport, hnext⟩ := h.changed (f := (·.assume t)) (.inl hsame)
    exact ⟨hnext, fun _ => hreport⟩
  | require t =>
    have hsame : q.require t = p.require t := by
      obtain ⟨r, rfl⟩ := h
      rfl
    obtain ⟨hreport, hnext⟩ := h.changed (f := (·.require t)) (.inl hsame)
    exact ⟨hnext, fun _ => hreport⟩
  | push =>
    obtain ⟨r, rfl⟩ := h
    exact ⟨⟨none, rfl⟩, fun _ => rfl⟩
  | pop =>
    have hsame : q.pop = p.pop := by
      obtain ⟨r, rfl⟩ := h
      rfl
    obtain ⟨hreport, hnext⟩ := h.changed (f := (·.pop)) (.inl hsame)
    exact ⟨hnext, fun _ => hreport⟩
  | setTimeLimit limit =>
    obtain ⟨hreport, hnext⟩ := h.changed (f := (·.setTimeLimit limit)) (h.setTimeLimit limit)
    exact ⟨hnext, fun _ => hreport⟩
  | check us =>
    obtain ⟨hreport, hnext⟩ := h.check e us
    refine ⟨hnext, fun _ => ?_⟩
    simp only [Prover.perform, hreport]
  | checkSat =>
    obtain ⟨r, rfl⟩ := h
    exact ⟨⟨_, rfl⟩, fun _ => rfl⟩
  | model | core | reason => exact ⟨h, fun hshows => absurd hshows (by decide)⟩
  | smtlib =>
    refine ⟨h, fun _ => ?_⟩
    simp only [Prover.perform, Session.smtlib, h.assertions]

theorem performAll (h : Alike p q) (later : List (Engines × Operation)) :
    Alike (p.performAll later) (q.performAll later) := by
  induction later generalizing p q with
  | nil => exact h
  | cons step rest ih => exact ih (h.perform step.1 step.2).1

end Alike

theorem performAll_append (p : Prover) (first rest : List (Engines × Operation)) :
    p.performAll (first ++ rest) = (p.performAll first).performAll rest := by
  induction first generalizing p with
  | nil => rfl
  | cons step first ih => exact ih _

structure Within (s n : Prover) (inner : List (List Term)) : Prop where
  base : n.session.base = s.session.base
  scopes : n.session.scopes = inner ++ s.session.scopes
  level : n.level = s.level + inner.length
  backend : n.backend = s.backend
  config : n.config = s.config
  -- a marker of before is never moved, and a new one belongs to one of the further scopes
  marker : ∀ k, s.marker = some k → n.marker = some k
  deeper : s.marker = none → ∀ k, n.marker = some k → s.level < k

namespace Within

variable {s n : Prover} {inner : List (List Term)}

theorem push (s : Prover) : Within s s.push [[]] where
  base := rfl
  scopes := rfl
  level := rfl
  backend := rfl
  config := rfl
  marker _ h := h
  deeper hnone k hk := by
    change s.marker = some k at hk
    rw [hnone] at hk
    cases hk

/-- A formula goes to the innermost scope, and nothing outside it is changed. -/
theorem add {scope : List Term} (h : Within s n (scope :: inner)) (t : Term) (s' : Session)
    (hs : n.session.add t = .ok s') (marker : Option Nat)
    (hmarker : marker = n.marker ∨ marker = n.marker.or (some n.level)) :
    Within s { n with session := s', marker } ((scope ++ [t]) :: inner) := by
  have hadd : s'.base = s.session.base ∧
      s'.scopes = (scope ++ [t]) :: inner ++ s.session.scopes := by
    unfold Session.add at hs
    rw [h.scopes] at hs
    split_ifs at hs with ht
    cases hs
    exact ⟨h.base, rfl⟩
  have hlevel := h.level
  refine ⟨hadd.1, hadd.2, hlevel, h.backend, h.config, fun k hk => ?_, fun hnone k hk => ?_⟩
  · have hset := h.marker k hk
    rcases hmarker with rfl | rfl
    · exact hset
    · change n.marker.or (some n.level) = some k
      rw [hset, Option.some_or]
  · rcases hmarker with rfl | rfl
    · exact h.deeper hnone k hk
    · change n.marker.or (some n.level) = some k at hk
      rcases Option.eq_none_or_eq_some n.marker with hm | ⟨j, hm⟩
      · -- the first obligation inside: its level is that of the innermost scope
        rw [hm, Option.none_or] at hk
        obtain rfl := Option.some.inj hk
        rw [hlevel, List.length_cons]
        omega
      · rw [hm, Option.some_or] at hk
        exact h.deeper hnone k (hm.trans hk)

/-- Closing the innermost scope. The marker goes if it was set in that scope. -/
theorem pop {scope : List Term} (h : Within s n (scope :: inner)) (s' : Session)
    (hs : n.session.pop = .ok s') (hmarker : ∀ k, s.marker = some k → k ≤ s.level) :
    Within s { n with
      session := s', level := n.level - 1, marker := n.marker.filter (· ≤ n.level - 1) } inner := by
  have hpop : s'.base = s.session.base ∧ s'.scopes = inner ++ s.session.scopes := by
    unfold Session.pop at hs
    rw [h.scopes] at hs
    cases hs
    exact ⟨h.base, rfl⟩
  have hlevel : n.level - 1 = s.level + inner.length := by
    rw [h.level, List.length_cons]
    omega
  refine ⟨hpop.1, hpop.2, hlevel, h.backend, h.config, fun k hk => ?_, fun hnone k hk => ?_⟩
  · have hle := hmarker k hk
    change n.marker.filter (· ≤ n.level - 1) = some k
    rw [Option.filter_eq_some_iff, decide_eq_true_eq]
    exact ⟨h.marker k hk, by omega⟩
  · change n.marker.filter (· ≤ n.level - 1) = some k at hk
    exact h.deeper hnone k (Option.filter_eq_some_iff.mp hk).1

/-- One operation that stays above the level of before works in the further scopes only. -/
theorem effect {scope : List Term} (h : Within s n (scope :: inner)) (es : List Event) (q : Prover)
    (he : n.Effect es q) (hq : s.level < q.level) (hmarker : ∀ k, s.marker = some k → k ≤ s.level) :
    ∃ scope' inner', Within s q (scope' :: inner') := by
  cases he with
  | assumed t s' hs => exact ⟨_, _, h.add t s' hs n.marker (.inl rfl)⟩
  | required t s' hs => exact ⟨_, _, h.add t.not s' hs _ (.inr rfl)⟩
  | opened =>
    refine ⟨[], scope :: inner, h.base, ?_, ?_, h.backend, h.config, h.marker, h.deeper⟩
    · change [] :: n.session.scopes = _
      rw [h.scopes]
      rfl
    · change n.level + 1 = _
      rw [h.level, List.length_cons, List.length_cons, List.length_cons]
      omega
  | closed s' hl hs =>
    have hclosed := h.pop s' hs hmarker
    cases inner with
    | nil =>
      -- the scope that is closed would be the one opened at `s`
      have hlevel := hclosed.level
      change n.level - 1 = s.level at hlevel
      change s.level < n.level - 1 at hq
      omega
    | cons scope' inner' => exact ⟨scope', inner', hclosed⟩
  | kept r => exact ⟨scope, inner, h.base, h.scopes, h.level, h.backend, h.config, h.marker, h.deeper⟩

/-- As long as no operation leaves the scope, the prover stays inside it. -/
theorem performAll {scope : List Term} (h : Within s n (scope :: inner))
    (hmarker : ∀ k, s.marker = some k → k ≤ s.level) (inside : List (Engines × Operation))
    (hinside : ∀ part, part <+: inside → s.level < (n.performAll part).level) :
    ∃ scope' inner', Within s (n.performAll inside) (scope' :: inner') := by
  induction inside generalizing n scope inner with
  | nil => exact ⟨scope, inner, h⟩
  | cons step rest ih =>
    obtain ⟨e, op⟩ := step
    have hfirst : s.level < (n.perform e op).2.level := hinside [(e, op)] (by simp)
    obtain ⟨scope', inner', hnext⟩ := h.effect _ _ (n.perform_effect e op) hfirst hmarker
    apply ih hnext
    intro part hpart
    exact hinside ((e, op) :: part) (List.cons_prefix_cons.mpr ⟨rfl, hpart⟩)

/-- With no further scope left, only the last reply can differ. -/
theorem alike (h : Within s n []) (hmarker : ∀ k, n.marker = some k → k ≤ n.level) : Alike s n := by
  have hlevel : n.level = s.level := h.level
  have hsame : n.marker = s.marker := by
    rcases Option.eq_none_or_eq_some s.marker with hs | ⟨k, hs⟩
    · rcases Option.eq_none_or_eq_some n.marker with hn | ⟨k, hn⟩
      · rw [hn, hs]
      · have habove := h.deeper hs k hn
        have hbelow := hmarker k hn
        omega
    · rw [hs, h.marker k hs]
  refine ⟨n.session.last, ?_⟩
  obtain ⟨⟨base, scopes, last⟩, backend, config, level, marker⟩ := n
  obtain ⟨⟨base', scopes', last'⟩, backend', config', level', marker'⟩ := s
  obtain ⟨hbase, hscopes, _, hbackend, hconfig, _, _⟩ := h
  cases hlevel
  cases hsame
  cases hbase
  cases hbackend
  cases hconfig
  rw [List.nil_append] at hscopes
  cases hscopes
  rfl

/-- Closing the one scope that is left leads back, up to the last reply. -/
theorem close {scope : List Term} (h : Within s n [scope]) (e : Engines)
    (hmarker : ∀ k, s.marker = some k → k ≤ s.level) : Alike s (n.perform e .pop).2 := by
  have hl : n.level ≠ 0 := by
    rw [h.level, List.length_singleton]
    omega
  obtain ⟨s', hs⟩ := Session.pop_succeeds n.session (by rw [h.scopes]; simp)
  have hperform : n.perform e .pop = n.changed n.pop := rfl
  rw [hperform, pop_of_level n hl, hs]
  apply (h.pop s' hs hmarker).alike
  intro k hk
  exact of_decide_eq_true (Option.filter_eq_some_iff.mp hk).2

end Within
end Prover

theorem Tracks.marker_le_level {h : List Event} {p : Prover} (ht : Tracks h p) (k : Nat)
    (hk : p.marker = some k) : k ≤ p.level := by
  rw [ht.level]
  exact History.obligationLevels_le_depth h ht.legal k ((ht.marker k).mp hk).1

/-- After every run, opening a scope, working inside it and closing it again gives back the
assertions, the level and the marker. So whatever is done later, every operation asks the same
engine the same question, or gives a proof unasked, as if the scope had never been there; and if the
question is answered alike, the reports are the same, but for those that show the last reply. -/
theorem closed_scope_leaves_no_trace (backend : Backend) (config : Config) (p : Prover)
    (hp : Prover.create backend config = .ok p) (steps inside : List (Engines × Operation))
    (e e' : Engines)
    (hinside : ∀ part, part <+: inside →
      (p.performAll steps).level + 1 ≤ ((p.performAll steps).push.performAll part).level)
    (hend : ((p.performAll steps).push.performAll inside).level = (p.performAll steps).level + 1) :
    let s := p.performAll steps
    let s' := s.performAll ((e, .push) :: inside ++ [(e', .pop)])
    s'.session.assertions = s.session.assertions ∧ s'.level = s.level ∧ s'.marker = s.marker ∧
    ∀ later op,
      (s'.performAll later).consults op = (s.performAll later).consults op ∧
      ∀ e₁ e₂, ((s.performAll later).consults op).SameAnswer e₁ e₂ → op.showsReply = false →
        ((s'.performAll later).perform e₁ op).1 = ((s.performAll later).perform e₂ op).1 := by
  intro s s'
  have ht : Tracks (p.history steps) s := (Tracks.create backend config hp).performAll steps
  obtain ⟨scope, inner, hwithin⟩ :=
    (Prover.Within.push s).performAll ht.marker_le_level inside hinside
  -- the run ends at the level of the scope, so this is the only one that is still open
  have hinner : inner = [] := by
    have hlevel := hwithin.level
    change (s.push.performAll inside).level = s.level + 1 at hend
    rw [hend, List.length_cons] at hlevel
    apply List.eq_nil_of_length_eq_zero
    omega
  subst hinner
  have halike : s.Alike s' := by
    change s.Alike (s.push.performAll (inside ++ [(e', .pop)]))
    rw [Prover.performAll_append]
    exact hwithin.close e' ht.marker_le_level
  refine ⟨halike.assertions, halike.level, halike.marker, fun later op => ?_⟩
  have hlater := halike.performAll later
  refine ⟨hlater.consults op, fun e₁ e₂ hsame hop => ?_⟩
  rw [(hlater.perform e₁ op).2 hop, (s.performAll later).perform_congr e₁ e₂ op hsame]

/-- Inside the scope two obligations are stated, one of them in a scope of its own, a formula is
rejected and a check is made: outside, the checks are as vacuous as before. -/
theorem closed_scope_leaves_no_trace_obligations :
    let a := Term.const ⟨"a", [], .bool⟩
    let x := Term.const ⟨"x", [], .int⟩
    let steps := [Operation.assume a, .pop].map (Prover.idleEngines, ·)
    let inside := [Operation.require a, .push, .assume x, .require a.not, .pop, .check [a]].map
      (Prover.idleEngines, ·)
    let s := Prover.performAll {} steps
    let s' := s.performAll ((Prover.idleEngines, .push) :: inside ++ [(Prover.idleEngines, .pop)])
    (∀ part, part <+: inside → s.level + 1 ≤ (s.push.performAll part).level) ∧
    (s.push.performAll inside).level = s.level + 1 ∧ (s.push.performAll inside).marker = some 1 ∧
    s'.session.assertions = [a] ∧ s'.marker = none ∧ s'.consults (.check [a]) = .vacuous := by
  intro a x steps inside s s'
  have hall : (inside.inits.all fun part => s.level + 1 ≤ (s.push.performAll part).level) = true :=
    rfl
  have hinside (part : List (Engines × Operation)) (hpart : part <+: inside) :
      s.level + 1 ≤ (s.push.performAll part).level :=
    of_decide_eq_true (List.all_eq_true.mp hall part ((List.mem_inits part inside).mpr hpart))
  obtain ⟨hassertions, -, hmarker, hlater⟩ := closed_scope_leaves_no_trace .internal {} {} rfl steps
    inside Prover.idleEngines Prover.idleEngines hinside rfl
  exact ⟨hinside, rfl, rfl, hassertions, hmarker, (hlater [] (.check [a])).1⟩

end Validity
