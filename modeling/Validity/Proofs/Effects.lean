import Validity.Proofs.Copying

/-!
What a step can do to a reader. A step without steps of its own looks at something, completes the
model, moves an iterator or breaks evaluation, and a block does only what its steps do. So what
these keep is kept by every step and by every run of steps, and holds at each of its moments.
-/
namespace Validity

namespace Step

/-- What one step does, apart from the steps inside it. Every step may look at something. -/
inductive Effect (m : Reader) : Step → Reader → Prop where
  | looked (s : Step) (r : Tracker) :
      Effect m s { m with inspection := { m.inspection with tracker := r } }
  | evaluated (s : Step) (r : Tracker) (complete : Bool) (t : Term) :
      Effect m s { m with inspection := { m.inspection with
        model := (m.inspection.model.eval complete t).2, tracker := r } }
  | iterated (x : String) :
      Effect m (.iterate x) { m with iterators := assign x m.inspection.symbols m.iterators }
  | moved (x : String) :
      Effect m (.next x) { m with
        iterators := assign x (m.inspection.next ((m.iterators.lookup x).getD [])).2 m.iterators }
  | broken (cause : Option String) :
      Effect m (.break cause) { m with inspection := { m.inspection with fault := cause } }

theorem eval_effect (s : Step) (m : Reader) (t : Term) (complete : Bool) :
    Effect m s { m with inspection := (ExceptT.run (Reading.eval t complete) m.inspection).2 } := by
  rw [Reading.run_eval]
  cases m.inspection.fault with
  | some cause => exact .looked s _
  | none => exact .evaluated s _ complete t

/-- Reading a value has no other effect than evaluating the term. -/
theorem value_effect {α : Type} (s : Step) (m : Reader) (t : Term)
    (decode : Term → Except Error α) :
    Effect m s { m with inspection :=
      (ExceptT.run (Reading.atomically (Reading.decoded t decode)) m.inspection).2 } := by
  -- decoding changes nothing, and the region around it changes the tracker only
  rw [Reading.run_atomically, Reading.run_decoded, Reading.run_eval]
  obtain ⟨⟨model, consistency, symbols, tracker, fault⟩, iterators⟩ := m
  cases fault with
  | some cause => exact .looked s _
  | none => exact .evaluated s _ true t

/-- Every step without steps of its own has one of the effects. -/
theorem single_effect (s : Step) (hs : ∀ body, s ≠ .block body) (m : Reader) :
    Effect m s (s.run m).2 := by
  cases s with
  | read kind t =>
    cases kind with
    | bool => exact value_effect _ m t Term.readBool
    | int => exact value_effect _ m t Term.readInt
    | rational => exact value_effect _ m t Term.readRational
  | eval t complete => exact eval_effect _ m t complete
  | look f =>
    change Effect m _ { m with inspection :=
      (ExceptT.run (Reading.interpretation f) m.inspection).2 }
    rw [Reading.run_interpretation]
    exact .looked _ _
  | iterate x => exact .iterated x
  | next x => exact .moved x
  | «break» cause => exact .broken cause
  | block body => exact absurd rfl (hs body)
  | _ => exact .looked _ _

theorem runAll_keeps (P : Reader → Prop) (body : List (Bool × Step))
    (ih : ∀ p ∈ body, ∀ m, P m → P (p.2.run m).2) (m : Reader) (hm : P m) :
    P (runAll m body).2.2 := by
  induction body generalizing m with
  | nil =>
    rw [runAll]
    exact hm
  | cons p rest ihs =>
    obtain ⟨g, s⟩ := p
    have hs := ih (g, s) List.mem_cons_self m hm
    have hrest := ihs (fun p hp => ih p (List.mem_cons_of_mem _ hp)) (s.run m).2 hs
    exact runAll_reader P m g s rest hs hrest

/-- A property of readers that no effect of an allowed step breaks. With a block, the steps inside
it are allowed. -/
structure Invariant (allowed : Step → Prop) (P : Reader → Prop) : Prop where
  inside : ∀ body, allowed (.block body) → ∀ p ∈ body, allowed p.2
  effect : ∀ s m n, allowed s → Effect m s n → P m → P n

/-- The readers that are met when steps are run on a reader: this one, those inside blocks, and the
ones after each step up to the error that ends the run. -/
inductive Meets : Reader → List (Bool × Step) → Reader → Prop where
  | start (m : Reader) (script : List (Bool × Step)) : Meets m script m
  | inside (m n : Reader) (g : Bool) (body rest : List (Bool × Step)) :
      Meets { m with inspection := m.inspection.openBlock.2 } body n →
      Meets m ((g, .block body) :: rest) n
  | after (m : Reader) (g : Bool) (s : Step) (rest : List (Bool × Step)) :
      Meets m ((g, s) :: rest) (s.run m).2
  | later (m n : Reader) (g : Bool) (s : Step) (rest : List (Bool × Step)) :
      (g = true ∨ (s.run m).1.result.isOk = true) → Meets (s.run m).2 rest n →
      Meets m ((g, s) :: rest) n

/-- The reader at the end of a run is one of those that are met. -/
theorem meets_end (m : Reader) (script : List (Bool × Step)) :
    Meets m script (runAll m script).2.2 := by
  induction script generalizing m with
  | nil =>
    rw [runAll]
    exact .start m []
  | cons p rest ih =>
    obtain ⟨g, s⟩ := p
    rw [runAll_cons]
    rcases follow_cases g (s.run m) (runAll · rest) with ⟨e, _, _, hrun⟩ | ⟨hgo, hrun⟩
    · rw [hrun]
      exact .after m g s rest
    · rw [hrun]
      exact .later m _ g s rest hgo (ih (s.run m).2)

namespace Invariant

variable {allowed : Step → Prop} {P : Reader → Prop}

/-- A step keeps what no effect breaks: a block by its steps, every other step by its effect. -/
theorem run (h : Invariant allowed P) (s : Step) (hs : allowed s) (m : Reader) (hm : P m) :
    P (s.run m).2 := by
  induction s using Step.induction generalizing m with
  | block body ih =>
    -- at its bounds a block changes the tracker only, which it may do as any step may
    have hopen := h.effect _ m _ hs (.looked _ m.inspection.tracker.begin) hm
    have hclosed := runAll_keeps P body (fun p hp => ih p hp (h.inside body hs p hp)) _ hopen
    rw [run_block]
    exact h.effect _ _ _ hs (.looked _ _) hclosed
  | single s hsingle => exact h.effect s m _ hs (single_effect s hsingle m) hm

/-- What no effect breaks holds at every moment of a run. -/
theorem meets (h : Invariant allowed P) {m n : Reader} {script : List (Bool × Step)}
    (hn : Meets m script n) (hscript : ∀ p ∈ script, allowed p.2) (hm : P m) : P n := by
  induction hn with
  | start m script => exact hm
  | inside m n g body rest _ ih =>
    have hblock : allowed (.block body) := hscript _ List.mem_cons_self
    exact ih (h.inside body hblock)
      (h.effect _ m _ hblock (.looked _ m.inspection.tracker.begin) hm)
  | after m g s rest => exact h.run s (hscript _ List.mem_cons_self) m hm
  | later m n g s rest _ _ ih =>
    exact ih (fun p hp => hscript p (List.mem_cons_of_mem _ hp))
      (h.run s (hscript _ List.mem_cons_self) m hm)

end Invariant
end Step
end Validity
