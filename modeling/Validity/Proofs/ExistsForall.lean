import Validity.Proofs.Soundness

/-!
Refutation for all values of some constants. The formula of an exists-forall prover holds exactly if
the assertions fail together whatever the values of the universal constants are; so a right answer
about it tells whether the other symbols can be interpreted so that they always fail.
-/
namespace Validity

structure Valuation where
  value : Symbol → Value
  sorted : ∀ f, (value f).ty = f.range

namespace Interp

noncomputable def withValues (I : Interp) (vars : List Symbol) (v : Valuation) : Interp where
  apply f vs := if f ∈ vars ∧ vs = [] then v.value f else I.apply f vs
  ranged f vs := by
    split_ifs
    · exact v.sorted f
    · exact I.ranged f vs
  toQuotients := I.toQuotients

theorem ext_of {I J : Interp} (happly : ∀ f vs, J.apply f vs = I.apply f vs)
    (hquotients : J.toQuotients = I.toQuotients) : J = I := by
  obtain ⟨quotients, apply, ranged⟩ := I
  obtain ⟨quotients', apply', ranged'⟩ := J
  obtain rfl : apply' = apply := funext fun f => funext fun vs => happly f vs
  cases hquotients
  rfl

/-- To agree off some constants is to have other values for them and nothing else. -/
theorem agreesOff_iff (I J : Interp) (vars : List Symbol) :
    I.AgreesOff vars J ↔ ∃ v, J = I.withValues vars v := by
  constructor
  · intro h
    refine ⟨⟨fun f => J.apply f [], fun f => J.ranged f []⟩, ?_⟩
    refine ext_of (fun f vs => ?_) h.quotients
    change J.apply f vs = if f ∈ vars ∧ vs = [] then J.apply f [] else I.apply f vs
    split_ifs with hf
    · rw [hf.2]
    · apply h.apply
      by_cases hmem : f ∈ vars
      · exact .inr fun hvs => hf ⟨hmem, hvs⟩
      · exact .inl hmem
  · rintro ⟨v, rfl⟩
    refine ⟨fun f vs hf => ?_, rfl⟩
    change (if f ∈ vars ∧ vs = [] then v.value f else I.apply f vs) = I.apply f vs
    rw [if_neg]
    rintro ⟨hmem, hvs⟩
    exact hf.elim (fun hnot => hnot hmem) fun hne => hne hvs

/-- Off no constants at all, only equal interpretations agree. -/
theorem agreesOff_nil (I J : Interp) : I.AgreesOff [] J ↔ J = I := by
  constructor
  · intro h
    exact ext_of (fun f vs => h.apply f vs (.inl List.not_mem_nil)) h.quotients
  · rintro rfl
    exact ⟨fun _ _ _ => rfl, rfl⟩

theorem satisfies_and (I : Interp) (ts : List Term) :
    I.Satisfies (.and ts) ↔ ∀ t ∈ ts, I.Satisfies t := by
  simp [Satisfies, Term.and, Term.value, Quotients.operate, values_eq_map]

theorem satisfies_true (I : Interp) : I.Satisfies (.bool true) := rfl

theorem satisfies_all (I : Interp) (vars : List Symbol) (body : Term) :
    I.Satisfies (.quant .all vars body) ↔ ∀ J, I.AgreesOff vars J → J.Satisfies body := by
  simp [Satisfies, Term.value]

/-- The assertions as one formula. Without assertions it is true, and no conjunction is needed. -/
theorem satisfies_together (I : Interp) (ts : List Term) :
    I.Satisfies (if ts.isEmpty then .bool true else .and ts) ↔ ∀ t ∈ ts, I.Satisfies t := by
  cases ts with
  | nil => exact iff_of_true I.satisfies_true (by simp)
  | cons t ts => exact I.satisfies_and (t :: ts)

/-- The formula of an exists-forall prover means what it should, whatever is bound inside it. -/
theorem satisfies_refutation (I : Interp) (vars : List Symbol) (ts : List Term) :
    I.Satisfies (Prover.refutation vars ts) ↔
      ∀ J, I.AgreesOff vars J → ∃ t ∈ ts, ¬ J.Satisfies t := by
  have hbody (J : Interp) :
      J.Satisfies (Term.not (if ts.isEmpty then .bool true else .and ts)) ↔
        ∃ t ∈ ts, ¬ J.Satisfies t := by
    rw [satisfies_not, satisfies_together]
    simp only [not_forall, exists_prop]
  unfold Prover.refutation
  cases vars with
  | nil =>
    -- nothing is bound, so only the interpretation itself is left
    change I.Satisfies (Term.not _) ↔ _
    rw [hbody]
    simp only [agreesOff_nil, forall_eq]
  | cons f vars =>
    change I.Satisfies (.quant .all (f :: vars) (Term.not _)) ↔ _
    rw [satisfies_all]
    simp only [hbody]

end Interp

namespace Prover

theorem mapM_bindable (vars : List Symbol) :
    (vars.map Term.const).mapM bindable = .ok vars := by
  induction vars with
  | nil => rfl
  | cons f vars ih =>
    rw [List.map_cons, List.mapM_cons, ih]
    rfl

theorem refutation_ty (vars : List Symbol) (ts : List Term) : (refutation vars ts).ty = .bool := by
  unfold refutation
  cases vars <;> rfl

/-- Whoever could be created has settings with which an exists-forall prover can be created. -/
theorem create_internal (backend : Backend) (config : Config) (p : Prover)
    (hp : create backend config = .ok p) : create .internal config = .ok { config } := by
  cases hq : create .internal config with
  | ok q => rw [create_eq .internal config q hq]
  | error err =>
    -- the backend has no influence on whether the settings are accepted
    unfold create at hp hq
    cases hl : config.timeLimit with
    | none =>
      rw [hl] at hq
      cases hq
    | some limit =>
      cases hs : Session.setTimeLimit {} limit with
      | ok s => simp [hl, hs] at hq
      | error err' => simp [hl, hs] at hp

/-- The universal constants may be any, also none, and some of them several times. -/
theorem existsForall_consts (p : Prover) (vars : List Symbol)
    (hp : create .internal p.config = .ok { config := p.config }) :
    p.existsForall (vars.map Term.const) =
      .ok { session := { base := [refutation vars p.session.assertions] }, config := p.config } := by
  have hconst : (vars.map Term.const).any (fun t => !t.children.isEmpty) = false := by
    simp [Term.const, Term.children]
  unfold existsForall
  rw [hconst, mapM_bindable, hp]
  change Prover.assume { config := p.config } (refutation vars p.session.assertions) = _
  rw [assume_eq, Session.add, if_pos (refutation_ty vars _)]
  rfl

end Prover

/-- The answer about assertions and assumptions is right and not unknown. With a satisfiable answer
there is some model. -/
structure Decider.Settles (d : Decider) (ts us : List Term) : Prop where
  sat_iff : (d ts us).result = .sat ↔ Satisfiable (ts ++ us)
  unsat_iff : (d ts us).result = .unsat ↔ ¬ Satisfiable (ts ++ us)
  modelled : (d ts us).result = .sat → (d ts us).model.isSome = true

/-- Without assumptions the answer is that of the decider, if models come with it. -/
theorem Prover.checkSat_answer (p : Prover) (e : Engines)
    (h : (e.decide p.session.assertions []).result = .sat →
      (e.decide p.session.assertions []).model.isSome = true) :
    (p.checkSat e).1.answer = .ok (e.decide p.session.assertions []).result := by
  change (Session.outcome (e.decide p.session.assertions [])).map Outcome.result = _
  unfold Session.outcome
  generalize e.decide p.session.assertions [] = r at h
  cases hr : r.result with
  | sat =>
    obtain ⟨m, hm⟩ := Option.isSome_iff_exists.mp (h hr)
    rw [hm]
    rfl
  | unsat => rfl
  | unknown => rfl

/-- After every run, an exists-forall prover can be made for any list of constants. It has one
assertion, which an interpretation satisfies iff every interpretation that differs from it in these
constants at most falsifies one of the live assertions. So if the decider answers right, the prover
is satisfiable iff the other symbols can be interpreted so that, whatever the values of the
constants are, some live assertion fails. -/
theorem existsForall_refutes (backend : Backend) (config : Config) (p : Prover)
    (hp : Prover.create backend config = .ok p) (steps : List (Engines × Operation))
    (vars : List Symbol) :
    let live := (History.live (p.history steps)).map fun x => x.2.assertion
    let formula := Prover.refutation vars live
    ∃ q, (p.performAll steps).existsForall (vars.map Term.const) = .ok q ∧
      q.level = 0 ∧ q.marker = none ∧ q.session.assertions = [formula] ∧
      (∀ I : Interp, I.Satisfies formula ↔
        ∀ J, I.AgreesOff vars J → ∃ t ∈ live, ¬ J.Satisfies t) ∧
      ∀ e : Engines, e.decide.Settles [formula] [] →
        ((q.checkSat e).1.answer = .ok .sat ↔
          ∃ I : Interp, ∀ v, ∃ t ∈ live, ¬ (I.withValues vars v).Satisfies t) ∧
        ((q.checkSat e).1.answer = .ok .unsat ↔
          ∀ I : Interp, ∃ v, ∀ t ∈ live, (I.withValues vars v).Satisfies t) := by
  intro live formula
  have ht : Tracks (p.history steps) (p.performAll steps) :=
    (Tracks.create backend config hp).performAll steps
  have hconfig : (p.performAll steps).config = config := by
    rw [p.performAll_config, Prover.create_eq backend config p hp]
  have hmade := (p.performAll steps).existsForall_consts vars
    (by rw [hconfig]; exact Prover.create_internal backend config p hp)
  rw [ht.assertions] at hmade
  -- the formula is satisfiable iff it holds for some interpretation and all values of the constants
  have hvalues : Satisfiable [formula] ↔
      ∃ I : Interp, ∀ v, ∃ t ∈ live, ¬ (I.withValues vars v).Satisfies t := by
    unfold Satisfiable
    apply exists_congr
    intro I
    rw [List.forall_mem_singleton, I.satisfies_refutation]
    constructor
    · intro h v
      exact h _ ((I.agreesOff_iff _ vars).mpr ⟨v, rfl⟩)
    · intro h J hJ
      obtain ⟨v, rfl⟩ := (I.agreesOff_iff J vars).mp hJ
      exact h v
  let q : Prover := { session := { base := [formula] }, config := (p.performAll steps).config }
  have hone : q.session.assertions = [formula] := rfl
  refine ⟨q, hmade, rfl, rfl, hone, fun I => I.satisfies_refutation vars live, fun e he => ?_⟩
  rw [q.checkSat_answer e (by rw [hone]; exact he.modelled), hone, Except.ok.injEq, Except.ok.injEq,
    he.sat_iff, he.unsat_iff, List.append_nil, hvalues]
  refine ⟨Iff.rfl, ?_⟩
  simp only [not_exists, not_forall, not_and, not_not]

noncomputable def Valuation.default : Valuation where
  value f := f.range.default.value
  sorted f := by
    rw [Literal.value_ty]
    cases f.range <;> rfl

/-- The assertion, made in an open scope, binds the same name itself and is always false, so that a
decider that finds it refuted for all values of that constant is right. The constant is listed
twice. -/
theorem existsForall_refutes_bound :
    let a : Symbol := ⟨"a", [], .bool⟩
    let t := Term.quant .all [a] (.const a)
    let steps := [Operation.push, .assume t].map (Prover.idleEngines, ·)
    let e : Engines :=
      { Prover.idleEngines with decide := fun _ _ => { result := .sat, model := some {} } }
    ∃ q, (Prover.performAll {} steps).existsForall [.const a, .const a] = .ok q ∧
      q.session.assertions = [.quant .all [a, a] (.not (.and [t]))] ∧
      (q.checkSat e).1.answer = .ok .sat ∧
      ∃ I : Interp, ∀ v, ¬ (I.withValues [a, a] v).Satisfies t := by
  intro a t steps e
  obtain ⟨q, hq, -, -, hone, hformula, hanswer⟩ :=
    existsForall_refutes .internal {} {} rfl steps [a, a]
  have hlive : (History.live (Prover.history {} steps)).map (fun x => x.2.assertion) = [t] := rfl
  rw [hlive] at hone hformula hanswer
  have hfalse (J : Interp) : ¬ J.Satisfies t := by
    intro h
    have hvalue := (J.satisfies_all [a] (.const a)).mp h (J.withValues [a] .default)
      ((J.agreesOff_iff _ [a]).mpr ⟨_, rfl⟩)
    simp [Interp.Satisfies, Term.const, Term.value, Term.values, Interp.withValues, a,
      Valuation.default, Ty.default, Literal.value, Value.Holds] at hvalue
  have hsatisfiable : Satisfiable [Prover.refutation [a, a] [t]] := by
    refine ⟨Model.interp {}, List.forall_mem_singleton.mpr ((hformula _).mpr fun J _ => ?_)⟩
    exact ⟨t, List.mem_singleton_self t, hfalse J⟩
  have hsettles : e.decide.Settles [Prover.refutation [a, a] [t]] [] :=
    ⟨iff_of_true rfl hsatisfiable, iff_of_false (fun h => (by cases h)) (not_not.mpr hsatisfiable),
      fun _ => rfl⟩
  have hsat := (hanswer e hsettles).1
  have hfails : ∃ I : Interp, ∀ v, ∃ u ∈ [t], ¬ (I.withValues [a, a] v).Satisfies u :=
    ⟨Model.interp {}, fun v => ⟨t, List.mem_singleton_self t, hfalse _⟩⟩
  exact ⟨q, hq, hone, hsat.mpr hfails, Model.interp {}, fun v => hfalse _⟩

end Validity
