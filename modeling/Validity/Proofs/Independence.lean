import Validity.Proofs.Completion
import Validity.Proofs.Visited

/-!
What the values that were read depend on. The value of a term depends on the symbols that are
reached from it, and if the value was kept, the names of all these are among the names looked at. So
a model that differs only in other symbols gives the same values.
-/
namespace Validity

open Tracker

structure Model.AgreesAt (f : Symbol) (m n : Model) : Prop where
  constant : n.constant f = m.constant f
  function : ∀ vs, (n.function f).value vs = (m.function f).value vs

theorem Model.ReadsAs.agreesAt {m n : Model} (h : m.ReadsAs n) (f : Symbol) : m.AgreesAt f n :=
  ⟨(h.constant f).symm, fun vs => by rw [h.function f]⟩

theorem Term.valuesIn_congr (ts : List Term) (m n : Model)
    (ih : ∀ t ∈ ts, t.valueIn n = t.valueIn m) : Term.valuesIn n ts = Term.valuesIn m ts := by
  induction ts with
  | nil => rfl
  | cons t ts ihs =>
    have hrest := ihs fun u hu => ih u (List.mem_cons_of_mem t hu)
    rw [Term.valuesIn, Term.valuesIn, ih t List.mem_cons_self, hrest]

/-- The value of a term depends only on the symbols that head the terms reached from it. -/
theorem Term.valueIn_congr (t : Term) (m n : Model)
    (h : ∀ f args, t.Reaches (.app f args) → m.AgreesAt f n) : t.valueIn n = t.valueIn m := by
  induction t using Term.induction with
  | lit l => rfl
  | app f args ih =>
    have hf : m.AgreesAt f n := h f args .refl
    have hargs (a : Term) (ha : a ∈ args) : a.valueIn n = a.valueIn m :=
      ih a ha fun g bs hreach => h g bs (Relation.ReflTransGen.head ha hreach)
    cases args with
    | nil =>
      change Term.lit (n.constant f) = Term.lit (m.constant f)
      rw [hf.constant]
    | cons a args =>
      change (n.function f).applied f _ = (m.function f).applied f _
      unfold Table.applied
      rw [Term.valuesIn_congr (a :: args) m n hargs, Table.valueAt?_congr hf.function]
  | op o args ih =>
    have hargs (a : Term) (ha : a ∈ args) : a.valueIn n = a.valueIn m :=
      ih a ha fun g bs hreach => h g bs (Relation.ReflTransGen.head ha hreach)
    by_cases hite : ∃ c a b, o = .ite ∧ args = [c, a, b]
    · obtain ⟨c, a, b, rfl, rfl⟩ := hite
      rw [Term.valueIn, Term.valueIn, hargs c (by simp), hargs a (by simp), hargs b (by simp)]
    · have hother (c a b : Term) (ho : o = .ite) (hargs : args = [c, a, b]) : False :=
        hite ⟨c, a, b, ho, hargs⟩
      rw [Term.valueIn, Term.valueIn, Term.valuesIn_congr args m n hargs]
      · exact hother
      · exact hother
  | quant q vars body => rfl

theorem Model.ReadsAs.valueIn {m n : Model} (h : m.ReadsAs n) (t : Term) :
    t.valueIn m = t.valueIn n :=
  (t.valueIn_congr m n fun f _ _ => h.agreesAt f).symm

def ValueKind.answer : ValueKind → Term → Except Error Answer
  | .bool, v => v.readBool.map .bool
  | .int, v => v.readInt.map .int
  | .rational, v => v.readRational.map .rational

namespace Reading

theorem value_result {α : Type} (t : Term) (decode : Term → Except Error α) (i : Inspection) :
    (ExceptT.run (atomically (decoded t decode)) i).1 =
      match i.fault with
      | some cause => .error (.noValue t cause)
      | none => decode (t.valueIn i.model) := by
  rw [run_atomically, run_decoded, run_eval]
  obtain ⟨model, consistency, symbols, tracker, fault⟩ := i
  cases fault with
  | some cause => rfl
  | none =>
    change decode (model.eval true t).1 = decode (t.valueIn model)
    rw [model.eval_value t]

end Reading

namespace Step

/-- What is read is the value in the model of that moment, unless evaluation is broken. -/
theorem read_result (kind : ValueKind) (t : Term) (m : Reader) :
    ((Step.read kind t).run m).1.result =
      match m.inspection.fault with
      | some cause => .error (.noValue t cause)
      | none => kind.answer (t.valueIn m.inspection.model) := by
  have hmap {α : Type} (decode : Term → Except Error α) (f : α → Answer) :
      (ExceptT.run (Reading.atomically (Reading.decoded t decode)) m.inspection).1.map f =
        match m.inspection.fault with
        | some cause => .error (.noValue t cause)
        | none => (decode (t.valueIn m.inspection.model)).map f := by
    rw [Reading.value_result]
    cases m.inspection.fault <;> rfl
  cases kind with
  | bool => exact hmap Term.readBool .bool
  | int => exact hmap Term.readInt .int
  | rational => exact hmap Term.readRational .rational

/-- No step changes how a symbol is read, written down or by default. -/
theorem reads_invariant (model : Model) :
    Invariant (fun _ => True) fun m => m.inspection.model.ReadsAs model := by
  refine ⟨fun _ _ _ _ => trivial, fun s m n _ heffect hm => ?_⟩
  cases heffect with
  | evaluated _ r complete t => exact ((Model.CompletedTo.refl _).eval complete t).reads.trans hm
  | _ => exact hm

/-- A step may complete the model, but it reads the same afterwards. -/
theorem run_reads (s : Step) (model : Model) (m : Reader)
    (hm : m.inspection.model.ReadsAs model) : (s.run m).2.inspection.model.ReadsAs model :=
  (reads_invariant model).run s trivial m hm

mutual

/-- The values that were read in the step and are kept: how, of which term, and the answer. -/
def readings : Step → Trace → List (ValueKind × Term × Answer)
  | .read kind t, .mk (.ok a) _ _ => [(kind, t, a)]
  | .block body, .mk (.ok _) _ (some inner) => readingsIn body inner
  | _, _ => []

def readingsIn : List (Bool × Step) → List Trace → List (ValueKind × Term × Answer)
  | (_, s) :: rest, t :: ts => readings s t ++ readingsIn rest ts
  | _, _ => []

end

theorem readingsIn_answer (body : List (Bool × Step)) (model : Model)
    (ih : ∀ p ∈ body, ∀ m : Reader, m.inspection.model.ReadsAs model →
      ∀ r ∈ p.2.readings (p.2.run m).1, r.1.answer (r.2.1.valueIn model) = .ok r.2.2)
    (m : Reader) (hm : m.inspection.model.ReadsAs model) :
    ∀ r ∈ readingsIn body (runAll m body).1, r.1.answer (r.2.1.valueIn model) = .ok r.2.2 := by
  induction body generalizing m with
  | nil => exact fun r hr => absurd hr List.not_mem_nil
  | cons p rest ihs =>
    obtain ⟨g, s⟩ := p
    have hs := ih (g, s) List.mem_cons_self m hm
    have hrest := ihs (fun p hp => ih p (List.mem_cons_of_mem _ hp)) _ (s.run_reads model m hm)
    rw [runAll_cons]
    rcases follow_cases g (s.run m) (runAll · rest) with ⟨e, _, _, hrun⟩ | ⟨_, hrun⟩
    · rw [hrun]
      have hnil : readingsIn rest [] = [] := by cases rest <;> rfl
      intro r hr
      rw [readingsIn, hnil, List.append_nil] at hr
      exact hs r hr
    · rw [hrun]
      intro r hr
      rw [readingsIn] at hr
      exact (List.mem_append.mp hr).elim (hs r) (hrest r)

/-- Whatever was completed before, an answer is what the model reads as at first. -/
theorem readings_answer (s : Step) (model : Model) (m : Reader)
    (hm : m.inspection.model.ReadsAs model) :
    ∀ r ∈ s.readings (s.run m).1, r.1.answer (r.2.1.valueIn model) = .ok r.2.2 := by
  induction s using Step.induction generalizing m with
  | block body ih =>
    have hinside := readingsIn_answer body model ih
      { m with inspection := m.inspection.openBlock.2 } hm
    rw [run_block]
    dsimp only
    cases (runAll { m with inspection := m.inspection.openBlock.2 } body).2.1 with
    | some e => exact fun r hr => absurd hr List.not_mem_nil
    | none => exact hinside
  | single s hs =>
    cases s with
    | read kind t =>
      intro r hr
      have hresult := read_result kind t m
      cases hrun : ((Step.read kind t).run m).1 with
      | mk result after inner =>
        rw [hrun] at hr hresult
        cases result with
        | error e => cases hr
        | ok a =>
          obtain rfl := List.mem_singleton.mp hr
          change Except.ok a = _ at hresult
          cases hfault : m.inspection.fault with
          | some cause =>
            rw [hfault] at hresult
            cases hresult
          | none =>
            rw [hfault, hm.valueIn t] at hresult
            exact hresult.symm
    | block body => exact absurd rfl (hs body)
    | _ => exact fun r hr => absurd hr List.not_mem_nil

theorem keptAll_readings (body : List (Bool × Step))
    (ih : ∀ p ∈ body, ∀ before trace, (∀ x ∈ before, x ∈ kept before p.2 trace) ∧
      ∀ r ∈ p.2.readings trace, .term r.2.1 ∈ kept before p.2 trace)
    (before : List Mark) (ts : List Trace) :
    (∀ x ∈ before, x ∈ keptAll before body ts) ∧
      ∀ r ∈ readingsIn body ts, .term r.2.1 ∈ keptAll before body ts := by
  induction body generalizing before ts with
  | nil => exact ⟨fun x hx => hx, fun r hr => absurd hr List.not_mem_nil⟩
  | cons p rest ihs =>
    obtain ⟨g, s⟩ := p
    cases ts with
    | nil => exact ⟨fun x hx => hx, fun r hr => absurd hr List.not_mem_nil⟩
    | cons t ts =>
      obtain ⟨hbefore, hfirst⟩ := ih (g, s) List.mem_cons_self before t
      obtain ⟨hkept, hrest⟩ := ihs (fun p hp => ih p (List.mem_cons_of_mem _ hp))
        (kept before s t) ts
      rw [keptAll, readingsIn]
      refine ⟨fun x hx => hkept x (hbefore x hx), fun r hr => ?_⟩
      rcases List.mem_append.mp hr with hr | hr
      · exact hkept _ (hfirst r hr)
      · exact hrest r hr

/-- Without a reset no mark is forgotten, and the term of every value that is kept is marked. -/
theorem kept_readings (s : Step) (hs : s.resetFree = true) (before : List Mark) (trace : Trace) :
    (∀ x ∈ before, x ∈ kept before s trace) ∧
      ∀ r ∈ s.readings trace, .term r.2.1 ∈ kept before s trace := by
  induction s using Step.induction generalizing before trace with
  | block body ih =>
    have hbody := (resetFreeAll_iff body).mp (by rwa [resetFree] at hs)
    obtain ⟨result, after, inner⟩ := trace
    cases result with
    | error e => exact ⟨fun x hx => hx, fun r hr => absurd hr List.not_mem_nil⟩
    | ok a =>
      cases inner with
      | none => exact ⟨fun x hx => hx, fun r hr => absurd hr List.not_mem_nil⟩
      | some inner => exact keptAll_readings body (fun p hp => ih p hp (hbody p hp)) before inner
  | single s hsingle =>
    have hnone : (∀ x ∈ before, x ∈ before) ∧
        ∀ r ∈ ([] : List (ValueKind × Term × Answer)), Mark.term r.2.1 ∈ before :=
      ⟨fun x hx => hx, fun r hr => absurd hr List.not_mem_nil⟩
    have hadded (mark : Mark) : (∀ x ∈ before, x ∈ before ++ [mark]) ∧
        ∀ r ∈ ([] : List (ValueKind × Term × Answer)), Mark.term r.2.1 ∈ before ++ [mark] :=
      ⟨fun x hx => List.mem_append_left _ hx, fun r hr => absurd hr List.not_mem_nil⟩
    cases s with
    | read kind t =>
      obtain ⟨result, after, inner⟩ := trace
      cases result with
      | error e => exact hnone
      | ok a =>
        refine ⟨fun x hx => List.mem_append_left _ hx, fun r hr => ?_⟩
        obtain rfl := List.mem_singleton.mp hr
        exact List.mem_append_right _ List.mem_cons_self
    | eval t complete => exact hadded _
    | look f => exact hadded _
    | visit t => exact hadded _
    | addName x => exact hadded _
    | reset => cases hs
    | block body => exact absurd rfl (hsingle body)
    | _ => exact hnone

end Step

theorem Model.agreesAt_setConstant (m : Model) (f g : Symbol) (v : Literal) (h : g ≠ f) :
    m.AgreesAt g (m.setConstant f v) := by
  refine ⟨?_, fun _ => rfl⟩
  rw [constant_setConstant, if_neg h]

/-- After a run on a model without a reset, every value that was read and kept is the value that the
term has, in the same way of reading, in every model that gives the symbols of the names looked at
the same values. So it does not change if the interpretation of a symbol does that is listed as not
looked at. -/
theorem readings_independent (model : Model) (c : Consistency) (script : List (Bool × Step))
    (hscript : ∀ p ∈ script, p.2.resetFree = true) :
    let m : Reader := { inspection := .ofModel model c }
    let i := (Step.runAll m script).2.2.inspection
    ∀ kind t a, (kind, t, a) ∈ Step.readingsIn script (Step.runAll m script).1 →
      (∀ other c', (∀ f, f.name ∈ i.tracker.names → model.AgreesAt f other) →
        ((Step.read kind t).run { inspection := .ofModel other c' }).1.result = .ok a) ∧
      ∀ f ∈ i.unaccessed, ∀ other c', (∀ g, g ≠ f → model.AgreesAt g other) →
        ((Step.read kind t).run { inspection := .ofModel other c' }).1.result = .ok a := by
  intro m i kind t a hread
  have houtside (p : Bool × Step) (hp : p ∈ script) : p.2.resetsOutside = true :=
    p.2.resetsOutside_of_resetFree (hscript p hp)
  obtain ⟨_, haccounts⟩ := Step.audit_all Tracker.Idle script
    (fun p hp n before hn h => p.2.audit_outside (houtside p hp) n hn before h) m [] ⟨rfl, rfl⟩
    .empty
  have hmark : Mark.term t ∈ Step.keptAll [] script (Step.runAll m script).1 :=
    (Step.keptAll_readings script (fun p hp => p.2.kept_readings (hscript p hp)) [] _).2 _ hread
  -- every symbol that the value depends on has a name that was looked at
  have hnames (f : Symbol) (args : List Term) (hreach : t.Reaches (.app f args)) :
      f.name ∈ i.tracker.names :=
    (haccounts.names f.name).mpr (.inr ⟨t, .app f args, hmark, hreach, rfl⟩)
  have hanswer : kind.answer (t.valueIn model) = .ok a :=
    Step.readingsIn_answer script model (fun p _ n hn => p.2.readings_answer model n hn) m
      (.refl model) (kind, t, a) hread
  have hother (other : Model) (c' : Consistency)
      (h : ∀ f, f.name ∈ i.tracker.names → model.AgreesAt f other) :
      ((Step.read kind t).run { inspection := .ofModel other c' }).1.result = .ok a := by
    have hvalue : t.valueIn other = t.valueIn model :=
      t.valueIn_congr model other fun f args hreach => h f (hnames f args hreach)
    rw [← hanswer, ← hvalue]
    exact Step.read_result kind t { inspection := .ofModel other c' }
  refine ⟨hother, fun f hf other c' h => hother other c' fun g hg => h g ?_⟩
  rintro rfl
  have hlisted := (List.mem_filter.mp hf).2
  simp [hg] at hlisted

/-- A value of a function is kept, a value of a constant is taken back with its block. The constant
may then have another value. -/
theorem readings_independent_nested :
    let x : Symbol := ⟨"x", [], .int⟩
    let y : Symbol := ⟨"y", [], .int⟩
    let f : Symbol := ⟨"f", [.int], .int⟩
    let model : Model := { constants := [(x, .int 5), (y, .int 7)],
                           functions := [(f, ⟨[([.int 5], .int 1)], .int 2⟩)] }
    let script : List (Bool × Step) := [(true, .read .int (.app f [.const x])),
      (true, .block [(false, .read .int (.const y)), (false, .raise .scope)])]
    let run := Step.runAll { inspection := .ofModel model .consistent } script
    (∀ p ∈ script, p.2.resetFree = true) ∧ run.2.2.inspection.unaccessed = [y] ∧
      (Step.run { inspection := .ofModel (model.setConstant y (.int 9)) .unknown }
        (.read .int (.app f [.const x]))).1.result = .ok (.int 1) := by
  intro x y f model script run
  have hscript : ∀ p ∈ script, p.2.resetFree = true := by decide
  have hunaccessed : run.2.2.inspection.unaccessed = [y] := by
    simp only [run, script, model]
    cbv
  have hread : Step.readingsIn script run.1 = [(.int, .app f [.const x], .int 1)] := by
    simp only [run, script, model]
    cbv
  have h := readings_independent model .consistent script hscript .int (.app f [.const x]) (.int 1)
    (hread ▸ List.mem_cons_self)
  have hy : y ∈ run.2.2.inspection.unaccessed := by simp [hunaccessed]
  exact ⟨hscript, hunaccessed, h.2 y hy _ .unknown fun g hg => model.agreesAt_setConstant y g _ hg⟩

end Validity
