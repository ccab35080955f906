import Mathlib
import Validity.Inspection.Script
import Validity.Proofs.Trail

/-!
Scripts without a trail. In the plain semantics of blocks, the marks of before are put back when a
block fails, and nothing else is kept for that. A script runs the same way with the trail as with
copies, at every step and at every depth, as long as nothing is reset inside a block.
-/
namespace Validity

open Tracker

def Reading.decoded {α : Type} (t : Term) (decode : Term → Except Error α) : Reading α := do
  ExceptT.mk (pure (decode (← Reading.eval t)))

/-- Runs a reading, and puts the marks of before back if it fails. -/
def Reading.copying {α : Type} (body : Reading α) : Reading α :=
  ExceptT.mk fun i =>
    let (result, j) := ExceptT.run body i
    (result, if result.isOk then j else { j with tracker := i.tracker })

mutual

def Step.runCopying (m : Reader) : Step → Trace × Reader
  | .read .bool t =>
    Reader.traced (m.perform .bool (Reading.copying (Reading.decoded t Term.readBool)))
  | .read .int t =>
    Reader.traced (m.perform .int (Reading.copying (Reading.decoded t Term.readInt)))
  | .read .rational t =>
    Reader.traced (m.perform .rational (Reading.copying (Reading.decoded t Term.readRational)))
  | .block body =>
    let (traces, failure, n) := Step.runAllCopying m body
    match failure with
    | some e =>
      (.mk (.error e) m.inspection.tracker (some traces),
        { n with inspection := { n.inspection with tracker := m.inspection.tracker } })
    | none => (.mk (.ok .done) n.inspection.tracker (some traces), n)
  | s => s.run m

def Step.runAllCopying (m : Reader) : List (Bool × Step) → List Trace × Option Error × Reader
  | [] => ([], none, m)
  | (guarded, s) :: rest =>
    let (t, n) := Step.runCopying m s
    match t.result, guarded with
    | .error e, false => ([t], some e, n)
    | _, _ =>
      let (ts, e, n) := Step.runAllCopying n rest
      (t :: ts, e, n)

end

def Trace.after : Trace → Tracker
  | .mk _ r _ => r

/-- The same answers and the same marks after every step, inside blocks as well. -/
inductive Trace.Agrees : Trace → Trace → Prop where
  | step (result : Except Error Answer) (r s : Tracker) : SameMarks r s →
      Trace.Agrees (.mk result r none) (.mk result s none)
  | block (result : Except Error Answer) (r s : Tracker) (ts us : List Trace) : SameMarks r s →
      List.Forall₂ Trace.Agrees ts us →
      Trace.Agrees (.mk result r (some ts)) (.mk result s (some us))

namespace Step

mutual

def resetFree : Step → Bool
  | .reset => false
  | .block body => resetFreeAll body
  | _ => true

def resetFreeAll : List (Bool × Step) → Bool
  | [] => true
  | (_, s) :: rest => resetFree s && resetFreeAll rest

end

/-- The step may be a reset, but nothing is reset inside a block. -/
def resetsOutside : Step → Bool
  | .block body => resetFreeAll body
  | _ => true

def isAtomic : Step → Bool
  | .read .. | .block _ => true
  | _ => false

theorem resetFreeAll_iff (body : List (Bool × Step)) :
    resetFreeAll body = true ↔ ∀ p ∈ body, p.2.resetFree = true := by
  induction body with
  | nil => simp [resetFreeAll]
  | cons p body ih => simp [resetFreeAll, ih]

mutual

/-- Induction over steps, through the bodies of blocks. -/
theorem induction {P : Step → Prop} (block : ∀ body, (∀ p ∈ body, P p.2) → P (.block body))
    (single : ∀ s, (∀ body, s ≠ .block body) → P s) : ∀ s, P s
  | .block body => block body (inductionAll block single body)
  | .read .. => single _ nofun
  | .eval .. => single _ nofun
  | .look _ => single _ nofun
  | .visit _ => single _ nofun
  | .addName _ => single _ nofun
  | .unaccessed => single _ nofun
  | .reset => single _ nofun
  | .display => single _ nofun
  | .describe => single _ nofun
  | .info => single _ nofun
  | .iterate _ => single _ nofun
  | .next _ => single _ nofun
  | .break _ => single _ nofun
  | .raise _ => single _ nofun

theorem inductionAll {P : Step → Prop} (block : ∀ body, (∀ p ∈ body, P p.2) → P (.block body))
    (single : ∀ s, (∀ body, s ≠ .block body) → P s) :
    ∀ body : List (Bool × Step), ∀ p ∈ body, P p.2
  | [] => nofun
  | (g, s) :: rest => fun p hp => by
    rcases List.mem_cons.mp hp with rfl | hp
    · exact induction block single s
    · exact inductionAll block single rest p hp

end

end Step

structure Inspection.Similar (i j : Inspection) : Prop where
  model : i.model = j.model
  consistency : i.consistency = j.consistency
  symbols : i.symbols = j.symbols
  fault : i.fault = j.fault
  marks : SameMarks i.tracker j.tracker

namespace Inspection.Similar

variable {i j : Inspection}

theorem refl (i : Inspection) : Similar i i := ⟨rfl, rfl, rfl, rfl, .refl _⟩

/-- Similar inspections stay so with trackers that have the same marks. -/
theorem retrack (h : Similar i j) {r s : Tracker} (hm : SameMarks r s) :
    Similar { i with tracker := r } { j with tracker := s } :=
  ⟨h.model, h.consistency, h.symbols, h.fault, hm⟩

theorem visit (h : Similar i j) (t : Term) :
    Similar (i.track (·.visit t)) (j.track (·.visit t)) :=
  h.retrack (h.marks.visit t)

theorem addName (h : Similar i j) (x : String) :
    Similar (i.track (·.addName x)) (j.track (·.addName x)) :=
  h.retrack (h.marks.addName x)

end Inspection.Similar

/-- A reading that only adds marks: they can be taken back, and nothing that the trail is for has an
influence on it. -/
structure Reading.Marking {α : Type} (body : Reading α) : Prop where
  extended : ∀ i, Extends i.tracker (ExceptT.run body i).2.tracker
  similar : ∀ i j, i.Similar j → (ExceptT.run body i).1 = (ExceptT.run body j).1 ∧
    (ExceptT.run body i).2.Similar (ExceptT.run body j).2

namespace Reading

/-- Evaluation marks the term first, so that the marks are there when it fails. -/
theorem run_eval (t : Term) (complete : Bool) (i : Inspection) :
    ExceptT.run (eval t complete) i =
      match i.fault with
      | some cause => (.error (.noValue t cause), i.track (·.visit t))
      | none => (.ok (i.model.eval complete t).1,
          { i.track (·.visit t) with model := (i.model.eval complete t).2 }) := by
  obtain ⟨model, consistency, symbols, tracker, fault⟩ := i
  cases fault <;> rfl

theorem eval_marking (t : Term) (complete : Bool) : (eval t complete).Marking := by
  constructor
  · intro i
    rw [run_eval]
    cases i.fault <;> exact .visit i.tracker t
  · intro i j h
    rw [run_eval, run_eval, h.fault, h.model]
    have hv := h.visit t
    cases j.fault with
    | some cause => exact ⟨rfl, hv⟩
    | none => exact ⟨rfl, rfl, hv.consistency, hv.symbols, hv.fault, hv.marks⟩

/-- Decoding comes last and changes nothing. -/
theorem run_decoded {α : Type} (t : Term) (decode : Term → Except Error α) (i : Inspection) :
    ExceptT.run (decoded t decode) i =
      ((ExceptT.run (eval t) i).1.bind decode, (ExceptT.run (eval t) i).2) := by
  rw [run_eval]
  obtain ⟨model, consistency, symbols, tracker, fault⟩ := i
  cases fault <;> rfl

theorem decoded_marking {α : Type} (t : Term) (decode : Term → Except Error α) :
    (decoded t decode).Marking := by
  constructor
  · intro i
    rw [run_decoded]
    exact (eval_marking t true).extended i
  · intro i j h
    obtain ⟨hresult, hsimilar⟩ := (eval_marking t true).similar i j h
    rw [run_decoded, run_decoded, hresult]
    exact ⟨rfl, hsimilar⟩

/-- The name is marked, whether there is an interpretation or not. -/
theorem run_interpretation (f : Symbol) (i : Inspection) :
    ExceptT.run (interpretation f) i =
      (match i.model.interpretation? f with
        | some v => .ok (some v)
        | none => if f.domain.isEmpty then .ok none else .error (.solver .noInterpretation),
        i.track (·.addName f.name)) := by
  obtain ⟨model, consistency, symbols, tracker, fault⟩ := i
  change ExceptT.run (match model.interpretation? f with
    | some v => (return some v : Reading (Option Interpretation))
    | none => if f.domain.isEmpty then return none else throw (.solver .noInterpretation)) _ = _
  cases model.interpretation? f with
  | some v => rfl
  | none =>
    dsimp only
    split_ifs <;> rfl

theorem interpretation_marking (f : Symbol) : (interpretation f).Marking := by
  constructor
  · intro i
    rw [run_interpretation]
    exact .addName i.tracker f.name
  · intro i j h
    rw [run_interpretation, run_interpretation, h.model]
    exact ⟨rfl, h.addName f.name⟩

/-- A block is a region of the tracker around its body. -/
theorem run_atomically {α : Type} (body : Reading α) (i : Inspection) :
    ExceptT.run (atomically body) i =
      ((ExceptT.run body i.openBlock.2).1, (ExceptT.run body i.openBlock.2).2.closeBlock
        i.tracker.trail.length (ExceptT.run body i.openBlock.2).1.isOk) := rfl

theorem run_copying {α : Type} (body : Reading α) (i : Inspection) :
    ExceptT.run (copying body) i =
      ((ExceptT.run body i).1, if (ExceptT.run body i).1.isOk then (ExceptT.run body i).2
        else { (ExceptT.run body i).2 with tracker := i.tracker }) := rfl

/-- A block with the trail does what a block with copies does, and can itself be undone. If it
fails, the marks are those of before. -/
theorem Marking.atomically {α : Type} {body : Reading α} (hb : body.Marking) (i j : Inspection)
    (hi : i.tracker.WellFormed) (h : i.Similar j) :
    (ExceptT.run (atomically body) i).1 = (ExceptT.run (copying body) j).1 ∧
    (ExceptT.run (atomically body) i).2.Similar (ExceptT.run (copying body) j).2 ∧
    Extends i.tracker (ExceptT.run (atomically body) i).2.tracker ∧
    ((ExceptT.run (atomically body) i).1.isOk = false →
      SameMarks (ExceptT.run (atomically body) i).2.tracker i.tracker) := by
  have hopen : i.openBlock.2.Similar j := h.retrack ((SameMarks.begin _).trans h.marks)
  obtain ⟨hresult, hsimilar⟩ := hb.similar _ _ hopen
  have hextended : Extends i.tracker.begin _ := hb.extended i.openBlock.2
  rw [run_atomically, run_copying, ← hresult]
  cases hok : (ExceptT.run body i.openBlock.2).1.isOk with
  | true =>
    refine ⟨rfl, ?_, hextended.commit hi, nofun⟩
    exact hsimilar.retrack ((SameMarks.commit _).trans hsimilar.marks)
  | false =>
    obtain ⟨hback, hsame⟩ := hextended.rollback hi
    exact ⟨rfl, hsimilar.retrack (hsame.trans h.marks), hback, fun _ => hsame⟩

end Reading

structure Reader.Similar (m n : Reader) : Prop where
  inspection : m.inspection.Similar n.inspection
  iterators : m.iterators = n.iterators

structure Step.Matches (s : Step) (m n : Reader) : Prop where
  trace : Trace.Agrees (s.run m).1 (s.runCopying n).1
  similar : (s.run m).2.Similar (s.runCopying n).2
  extended : Extends m.inspection.tracker (s.run m).2.inspection.tracker
  restored : s.isAtomic = true → (s.run m).1.result.isOk = false →
    SameMarks (s.run m).2.inspection.tracker m.inspection.tracker

theorem Trace.Agrees.result {t u : Trace} (h : Agrees t u) : t.result = u.result := by
  cases h <;> rfl

theorem isOk_map {α β : Type} (r : Except Error α) (f : α → β) :
    (r.map f).isOk = r.isOk := by
  cases r <;> rfl

/-- A step without steps of its own that only adds marks. -/
theorem Step.Matches.single {m n : Reader} (s : Step) (hm : s.isAtomic = false)
    (out : Reader → Except Error Answer × Reader) (hrun : ∀ k, s.run k = Reader.traced (out k))
    (hcopy : ∀ k, s.runCopying k = Reader.traced (out k))
    (hresult : (out m).1 = (out n).1) (hsimilar : (out m).2.Similar (out n).2)
    (hextended : Extends m.inspection.tracker (out m).2.inspection.tracker) : s.Matches m n := by
  constructor
  · rw [hrun, hcopy, Reader.traced, Reader.traced, hresult]
    exact .step _ _ _ hsimilar.inspection.marks
  · rw [hrun, hcopy]
    exact hsimilar
  · rw [hrun]
    exact hextended
  · intro ha
    rw [hm] at ha
    cases ha

namespace Reader.Similar

variable {m n : Reader}

/-- A reading that only adds marks gives the same answer to similar readers. -/
theorem reading (h : m.Similar n) {α : Type} {body : Reading α} (hb : body.Marking)
    (f : α → Answer) : (m.perform f body).1 = (n.perform f body).1 ∧
      (m.perform f body).2.Similar (n.perform f body).2 ∧
      Extends m.inspection.tracker (m.perform f body).2.inspection.tracker := by
  obtain ⟨hresult, hsimilar⟩ := hb.similar _ _ h.inspection
  exact ⟨congrArg (Except.map f) hresult, ⟨hsimilar, h.iterators⟩, hb.extended m.inspection⟩

/-- Reading a value, with the trail and with copies. -/
theorem value (h : m.Similar n) (hm : m.inspection.tracker.WellFormed) {α : Type}
    {body : Reading α} (hb : body.Marking) (f : α → Answer) (s : Step)
    (hrun : s.run m = traced (m.perform f (Reading.atomically body)))
    (hcopy : s.runCopying n = traced (n.perform f (Reading.copying body))) : s.Matches m n := by
  obtain ⟨hresult, hsimilar, hextended, hback⟩ := hb.atomically _ _ hm h.inspection
  constructor
  · rw [hrun, hcopy]
    have hmap : (m.perform f (Reading.atomically body)).1 =
        (n.perform f (Reading.copying body)).1 := congrArg (Except.map f) hresult
    rw [traced, traced, hmap]
    exact .step _ _ _ hsimilar.marks
  · rw [hrun, hcopy]
    exact ⟨hsimilar, h.iterators⟩
  · rw [hrun]
    exact hextended
  · intro _ hfail
    rw [hrun] at hfail ⊢
    apply hback
    change (Except.map f _).isOk = false at hfail
    rw [isOk_map] at hfail
    exact hfail

end Reader.Similar

namespace Step

/-- Every step without steps of its own behaves alike with a trail and with copies. -/
theorem matches_single (s : Step) (hs : ∀ body, s ≠ .block body) (hfree : s.resetFree = true)
    (m n : Reader) (hm : m.inspection.tracker.WellFormed) (h : m.Similar n) : s.Matches m n := by
  have hsame : Extends m.inspection.tracker m.inspection.tracker := .refl _
  cases s with
  | read kind t =>
    cases kind with
    | bool => exact h.value hm (Reading.decoded_marking t Term.readBool) .bool _ rfl rfl
    | int => exact h.value hm (Reading.decoded_marking t Term.readInt) .int _ rfl rfl
    | rational => exact h.value hm (Reading.decoded_marking t Term.readRational) .rational _ rfl rfl
  | eval t complete =>
    obtain ⟨hresult, hsimilar, hextended⟩ := h.reading (Reading.eval_marking t complete) .term
    exact .single _ rfl (fun k => k.perform .term (Reading.eval t complete)) (fun _ => rfl)
      (fun _ => rfl) hresult hsimilar hextended
  | look f =>
    obtain ⟨hresult, hsimilar, hextended⟩ :=
      h.reading (Reading.interpretation_marking f) .interpretation
    exact .single _ rfl (fun k => k.perform .interpretation (Reading.interpretation f))
      (fun _ => rfl) (fun _ => rfl) hresult hsimilar hextended
  | visit t =>
    exact .single _ rfl
      (fun k => (.ok .done, { k with inspection := k.inspection.track (·.visit t) }))
      (fun _ => rfl) (fun _ => rfl) rfl ⟨h.inspection.visit t, h.iterators⟩ (.visit _ t)
  | addName x =>
    exact .single _ rfl
      (fun k => (.ok .done, { k with inspection := k.inspection.track (·.addName x) }))
      (fun _ => rfl) (fun _ => rfl) rfl ⟨h.inspection.addName x, h.iterators⟩ (.addName _ x)
  | unaccessed =>
    refine .single _ rfl (fun k => (.ok (.symbols k.inspection.unaccessed), k)) (fun _ => rfl)
      (fun _ => rfl) ?_ h hsame
    simp only [Inspection.unaccessed, h.inspection.symbols, h.inspection.marks.names]
  | reset =>
    -- a reset forgets the trail, so that an open region could not be undone
    cases hfree
  | display =>
    refine .single _ rfl (fun k => (.ok (.text k.inspection.model.display), k)) (fun _ => rfl)
      (fun _ => rfl) ?_ h hsame
    simp only [h.inspection.model]
  | describe =>
    have hdescribe : m.inspection.describe = n.inspection.describe := by
      unfold Inspection.describe
      rw [h.inspection.symbols, h.inspection.consistency]
    exact .single _ rfl (fun k => (.ok (.text k.inspection.describe), k)) (fun _ => rfl)
      (fun _ => rfl) (by rw [hdescribe]) h hsame
  | info =>
    refine .single _ rfl (fun k => (.ok (.info k.inspection.consistency
      k.inspection.model.symbols), k)) (fun _ => rfl) (fun _ => rfl) ?_ h hsame
    simp only [h.inspection.model, h.inspection.consistency]
  | iterate x =>
    refine .single _ rfl (fun k => (.ok .done,
      { k with iterators := assign x k.inspection.symbols k.iterators })) (fun _ => rfl)
      (fun _ => rfl) rfl ⟨h.inspection, ?_⟩ hsame
    simp only [h.inspection.symbols, h.iterators]
  | next x =>
    have hnext : m.inspection.next ((m.iterators.lookup x).getD []) =
        n.inspection.next ((n.iterators.lookup x).getD []) := by
      simp only [Inspection.next, h.inspection.marks.names, h.iterators]
    refine .single _ rfl (fun k =>
      let out := k.inspection.next ((k.iterators.lookup x).getD [])
      (.ok (.symbol out.1), { k with iterators := assign x out.2 k.iterators }))
      (fun _ => rfl) (fun _ => rfl) ?_ ⟨h.inspection, ?_⟩ hsame
    · simp only [hnext]
    · dsimp only
      rw [hnext, h.iterators]
  | «break» cause =>
    exact .single _ rfl
      (fun k => (.ok .done, { k with inspection := { k.inspection with fault := cause } }))
      (fun _ => rfl) (fun _ => rfl) rfl
      ⟨⟨h.inspection.model, h.inspection.consistency, h.inspection.symbols, rfl,
        h.inspection.marks⟩, h.iterators⟩ hsame
  | raise e =>
    exact .single _ rfl (fun k => (.error e, k)) (fun _ => rfl) (fun _ => rfl) rfl h hsame
  | block body => exact absurd rfl (hs body)

def follow (guarded : Bool) (out : Trace × Reader)
    (rest : Reader → List Trace × Option Error × Reader) : List Trace × Option Error × Reader :=
  match out.1.result, guarded with
  | .error e, false => ([out.1], some e, out.2)
  | _, _ => (out.1 :: (rest out.2).1, (rest out.2).2)

theorem runAll_cons (m : Reader) (g : Bool) (s : Step) (rest : List (Bool × Step)) :
    runAll m ((g, s) :: rest) = follow g (s.run m) fun k => runAll k rest := by
  rw [runAll]
  rfl

theorem runAllCopying_cons (m : Reader) (g : Bool) (s : Step) (rest : List (Bool × Step)) :
    runAllCopying m ((g, s) :: rest) =
      follow g (s.runCopying m) fun k => runAllCopying k rest := by
  rw [runAllCopying]
  rfl

/-- Either an error of an unguarded step ends the list, or the rest is run. -/
theorem follow_cases (g : Bool) (out : Trace × Reader)
    (rest : Reader → List Trace × Option Error × Reader) :
    (∃ e, out.1.result = .error e ∧ g = false ∧ follow g out rest = ([out.1], some e, out.2)) ∨
      ((g = true ∨ out.1.result.isOk = true) ∧
        follow g out rest = (out.1 :: (rest out.2).1, (rest out.2).2)) := by
  unfold follow
  cases g with
  | true => exact .inr ⟨.inl rfl, by cases out.1.result <;> rfl⟩
  | false =>
    cases hr : out.1.result with
    | error e => exact .inl ⟨e, rfl, rfl, rfl⟩
    | ok a => exact .inr ⟨.inr rfl, rfl⟩

structure MatchesAll (body : List (Bool × Step)) (m n : Reader) : Prop where
  traces : List.Forall₂ Trace.Agrees (runAll m body).1 (runAllCopying n body).1
  failure : (runAll m body).2.1 = (runAllCopying n body).2.1
  similar : (runAll m body).2.2.Similar (runAllCopying n body).2.2

/-- One more step in front of a list. If its error ends the list, the rest does not matter. -/
theorem MatchesAll.cons {m n : Reader} {g : Bool} {s : Step} {rest : List (Bool × Step)}
    (htrace : Trace.Agrees (s.run m).1 (s.runCopying n).1)
    (hsimilar : (s.run m).2.Similar (s.runCopying n).2)
    (hrest : MatchesAll rest (s.run m).2 (s.runCopying n).2) : MatchesAll ((g, s) :: rest) m n := by
  -- the results are equal, so either both lists end here or both go on
  have hresult := htrace.result
  rcases follow_cases g (s.run m) (runAll · rest) with ⟨e, he, hg, hrun⟩ | ⟨hgo, hrun⟩
  · rcases follow_cases g (s.runCopying n) (runAllCopying · rest) with
      ⟨e', he', _, hcopy⟩ | ⟨hgo, _⟩
    · rw [← hresult, he] at he'
      cases he'
      rw [← runAll_cons] at hrun
      rw [← runAllCopying_cons] at hcopy
      refine ⟨?_, ?_, ?_⟩
      · rw [hrun, hcopy]
        exact .cons htrace .nil
      · rw [hrun, hcopy]
      · rw [hrun, hcopy]
        exact hsimilar
    · rw [← hresult, he, hg] at hgo
      rcases hgo with h | h <;> cases h
  · rcases follow_cases g (s.runCopying n) (runAllCopying · rest) with
      ⟨e', he', hg, _⟩ | ⟨_, hcopy⟩
    · rw [hresult, he', hg] at hgo
      rcases hgo with h | h <;> cases h
    · rw [← runAll_cons] at hrun
      rw [← runAllCopying_cons] at hcopy
      refine ⟨?_, ?_, ?_⟩
      · rw [hrun, hcopy]
        exact .cons htrace hrest.traces
      · rw [hrun, hcopy]
        exact hrest.failure
      · rw [hrun, hcopy]
        exact hrest.similar

theorem MatchesAll.nil {m n : Reader} (h : m.Similar n) : MatchesAll [] m n := by
  refine ⟨?_, ?_, ?_⟩
  · rw [runAll, runAllCopying]
    exact .nil
  · rw [runAll, runAllCopying]
  · rw [runAll, runAllCopying]
    exact h

/-- The reader after a list of steps, by what holds after its first step and after its rest. -/
theorem runAll_reader (P : Reader → Prop) (m : Reader) (g : Bool) (s : Step)
    (rest : List (Bool × Step)) (hs : P (s.run m).2) (hrest : P (runAll (s.run m).2 rest).2.2) :
    P (runAll m ((g, s) :: rest)).2.2 := by
  rw [runAll_cons]
  rcases follow_cases g (s.run m) (runAll · rest) with ⟨e, _, _, hrun⟩ | ⟨_, hrun⟩
  · rw [hrun]
    exact hs
  · rw [hrun]
    exact hrest

/-- The steps of a block behave alike one after the other, and together only add marks. -/
theorem matchesAll_body (body : List (Bool × Step))
    (ih : ∀ p ∈ body, ∀ m n : Reader, m.inspection.tracker.WellFormed → m.Similar n →
      p.2.Matches m n) (m n : Reader) (hm : m.inspection.tracker.WellFormed) (h : m.Similar n) :
    MatchesAll body m n ∧
      Extends m.inspection.tracker (runAll m body).2.2.inspection.tracker := by
  induction body generalizing m n with
  | nil =>
    refine ⟨.nil h, ?_⟩
    rw [runAll]
    exact .refl _
  | cons p rest ihs =>
    obtain ⟨g, s⟩ := p
    have hs := ih (g, s) List.mem_cons_self m n hm h
    obtain ⟨hrest, hextended⟩ := ihs (fun p hp => ih p (List.mem_cons_of_mem _ hp)) _ _
      (hm.extends hs.extended) hs.similar
    exact ⟨.cons hs.trace hs.similar hrest, runAll_reader
      (fun k => Extends m.inspection.tracker k.inspection.tracker) m g s rest hs.extended
      (hs.extended.trans hextended)⟩

theorem run_block (m : Reader) (body : List (Bool × Step)) :
    (Step.block body).run m =
      let out := runAll { m with inspection := m.inspection.openBlock.2 } body
      let n := { out.2.2 with inspection :=
        out.2.2.inspection.closeBlock m.inspection.tracker.trail.length out.2.1.isNone }
      (.mk (match out.2.1 with
        | some e => .error e
        | none => .ok .done) n.inspection.tracker (some out.1), n) := by
  rw [run]
  rfl

theorem runCopying_block (m : Reader) (body : List (Bool × Step)) :
    (Step.block body).runCopying m =
      let out := runAllCopying m body
      match out.2.1 with
      | some e => (.mk (.error e) m.inspection.tracker (some out.1),
          { out.2.2 with
            inspection := { out.2.2.inspection with tracker := m.inspection.tracker } })
      | none => (.mk (.ok .done) out.2.2.inspection.tracker (some out.1), out.2.2) := by
  rw [runCopying]

/-- A block with the trail and with copies, if its steps are alike. -/
theorem matches_block (body : List (Bool × Step))
    (ih : ∀ p ∈ body, ∀ m n : Reader, m.inspection.tracker.WellFormed → m.Similar n →
      p.2.Matches m n) (m n : Reader) (hm : m.inspection.tracker.WellFormed) (h : m.Similar n) :
    (Step.block body).Matches m n := by
  have hopen : Reader.Similar { m with inspection := m.inspection.openBlock.2 } n :=
    ⟨h.inspection.retrack ((SameMarks.begin _).trans h.inspection.marks), h.iterators⟩
  obtain ⟨hall, hextended⟩ := matchesAll_body body ih _ n hm.begin.1 hopen
  have hinside := hall.similar.inspection
  have hrun := run_block m body
  have hcopy := runCopying_block n body
  dsimp only at hrun hcopy
  rw [← hall.failure] at hcopy
  cases hf : (runAll { m with inspection := m.inspection.openBlock.2 } body).2.1 with
  | some e =>
    rw [hf] at hrun hcopy
    -- both are back at the marks of the start: one by its trail, the other by its copy
    obtain ⟨hback, hsame⟩ := Extends.rollback hm hextended
    have hmarks := hsame.trans h.inspection.marks
    refine ⟨?_, ?_, ?_, fun _ _ => ?_⟩
    · rw [hrun, hcopy]
      exact .block _ _ _ _ _ hmarks hall.traces
    · rw [hrun, hcopy]
      exact ⟨hinside.retrack hmarks, hall.similar.iterators⟩
    · rw [hrun]
      exact hback
    · rw [hrun]
      exact hsame
  | none =>
    rw [hf] at hrun hcopy
    -- nothing is put back, and the trail of this block is left to the blocks around it
    have hmarks := (SameMarks.commit _).trans hinside.marks
    refine ⟨?_, ?_, ?_, fun _ hfail => ?_⟩
    · rw [hrun, hcopy]
      exact .block _ _ _ _ _ hmarks hall.traces
    · rw [hrun, hcopy]
      exact ⟨hinside.retrack hmarks, hall.similar.iterators⟩
    · rw [hrun]
      exact hextended.commit hm
    · rw [hrun] at hfail
      cases hfail

/-- Every step without a reset does the same with the trail as with copies. -/
theorem matches_of_resetFree (s : Step) (hs : s.resetFree = true) (m n : Reader)
    (hm : m.inspection.tracker.WellFormed) (h : m.Similar n) : s.Matches m n := by
  induction s using Step.induction generalizing m n with
  | block body ih =>
    have hbody := (resetFreeAll_iff body).mp (by rwa [resetFree] at hs)
    exact matches_block body (fun p hp m n => ih p hp (hbody p hp) m n) m n hm h
  | single s hsingle => exact matches_single s hsingle hs m n hm h

theorem resetFree_of_resetsOutside (s : Step) (hs : s.resetsOutside = true) (h : s ≠ .reset) :
    s.resetFree = true := by
  cases s with
  | block body => exact hs
  | reset => exact absurd rfl h
  | _ => rfl

theorem resetsOutside_of_resetFree (s : Step) (hs : s.resetFree = true) :
    s.resetsOutside = true := by
  cases s with
  | block body => exact hs
  | _ => rfl

/-- Outside blocks a step leaves no region open and nothing on the trail, also if it is a reset. -/
theorem outside_step (s : Step) (hs : s.resetsOutside = true) (m n : Reader)
    (hm : m.inspection.tracker.Idle) (h : m.Similar n) :
    Trace.Agrees (s.run m).1 (s.runCopying n).1 ∧ (s.run m).2.Similar (s.runCopying n).2 ∧
      (s.run m).2.inspection.tracker.Idle := by
  by_cases hreset : s = .reset
  · subst hreset
    exact ⟨.step _ _ _ (.refl _), ⟨h.inspection.retrack (.refl _), h.iterators⟩, rfl, rfl⟩
  · have hfree := s.resetFree_of_resetsOutside hs hreset
    have hmatch := s.matches_of_resetFree hfree m n hm.wellFormed h
    exact ⟨hmatch.trace, hmatch.similar, hm.extends hmatch.extended⟩

/-- The trace of a step ends with the marks that the reader then has. -/
theorem run_after (s : Step) (m : Reader) : (s.run m).1.after = (s.run m).2.inspection.tracker := by
  cases s with
  | read kind t => cases kind <;> rfl
  | block body => rw [run_block]; rfl
  | _ => rfl

/-- Outside blocks the trail is idle after every step, so that a reset does no harm. -/
theorem outside_steps (script : List (Bool × Step))
    (hscript : ∀ p ∈ script, p.2.resetsOutside = true) (m n : Reader)
    (hm : m.inspection.tracker.Idle) (h : m.Similar n) :
    MatchesAll script m n ∧ ∀ t ∈ (runAll m script).1, t.after.Idle := by
  induction script generalizing m n with
  | nil =>
    refine ⟨.nil h, ?_⟩
    rw [runAll]
    exact nofun
  | cons p rest ih =>
    obtain ⟨g, s⟩ := p
    obtain ⟨htrace, hsimilar, hidle⟩ := s.outside_step (hscript (g, s) List.mem_cons_self) m n hm h
    obtain ⟨hrest, hafter⟩ := ih (fun p hp => hscript p (List.mem_cons_of_mem _ hp)) _ _ hidle
      hsimilar
    refine ⟨.cons htrace hsimilar hrest, ?_⟩
    have hfirst : (s.run m).1.after.Idle := by
      rw [run_after]
      exact hidle
    rw [runAll_cons]
    rcases follow_cases g (s.run m) (runAll · rest) with ⟨e, _, _, hrun⟩ | ⟨_, hrun⟩
    · rw [hrun]
      exact List.forall_mem_singleton.mpr hfirst
    · rw [hrun]
      exact List.forall_mem_cons.mpr ⟨hfirst, hafter⟩

end Step

/-- A script on a model does the same with the trail as with copies of the marks: after every step,
inside blocks as well, the answers and the marks agree. Outside blocks no region is open and the
trail is empty. Wherever a block or the reading of a value fails, the marks are those of before,
whatever the blocks inside it have kept. -/
theorem run_agrees_with_copying (model : Model) (c : Consistency) (script : List (Bool × Step))
    (hscript : ∀ p ∈ script, p.2.resetsOutside = true) :
    let m : Reader := { inspection := .ofModel model c }
    List.Forall₂ Trace.Agrees (Step.runAll m script).1 (Step.runAllCopying m script).1 ∧
    (Step.runAll m script).2.1 = (Step.runAllCopying m script).2.1 ∧
    (∀ t ∈ (Step.runAll m script).1, t.after.openRegions = 0 ∧ t.after.trail = []) ∧
    ∀ (k : Reader) (s : Step), k.inspection.tracker.WellFormed → s.isAtomic = true →
      s.resetFree = true → (s.run k).1.result.isOk = false →
      SameMarks (s.run k).2.inspection.tracker k.inspection.tracker := by
  intro m
  have hsimilar : m.Similar m := ⟨.refl _, rfl⟩
  obtain ⟨hall, hidle⟩ := Step.outside_steps script hscript m m ⟨rfl, rfl⟩ hsimilar
  refine ⟨hall.traces, hall.failure, fun t ht => ?_, fun k s hk hatomic hfree hfail => ?_⟩
  · exact ⟨(hidle t ht).regions, (hidle t ht).trail⟩
  · have hself : k.Similar k := ⟨.refl _, rfl⟩
    exact (s.matches_of_resetFree hfree k k hk hself).restored hatomic hfail

/-- A block that fails after a block inside it was kept and another one was undone: of its names
none is left, and after a reset none at all. -/
theorem run_agrees_with_copying_nested :
    let script : List (Bool × Step) := [(true, .addName "a"), (true, .block [(false, .addName "b"),
      (false, .block [(false, .addName "c")]),
      (true, .block [(false, .addName "d"), (false, .raise .scope)]), (false, .raise .scope)]),
      (true, .block [(false, .addName "e")]), (true, .reset)]
    let m : Reader := { inspection := .ofModel {} .consistent }
    (∀ p ∈ script, p.2.resetsOutside = true) ∧
    (Step.runAll m script).1.map (fun t => t.after.names) = [["a"], ["a"], ["a", "e"], []] ∧
    List.Forall₂ Trace.Agrees (Step.runAll m script).1 (Step.runAllCopying m script).1 := by
  intro script m
  have hscript : ∀ p ∈ script, p.2.resetsOutside = true := by decide
  exact ⟨hscript, by cbv, (run_agrees_with_copying {} .consistent script hscript).1⟩

end Validity
