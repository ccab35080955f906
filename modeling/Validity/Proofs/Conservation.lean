import Validity.Proofs.Independence

/-!
Completion is conservative. Readings complete the model as they go, and a block that fails takes its
marks back but not what was completed in it. Still, at every moment of a run the model is the one
of the start with defaults behind it, so that every value is read as it would have been at first,
and the symbols that came with completion are never listed.
-/
namespace Validity

def Symbol.completion (f : Symbol) : Interpretation :=
  if f.domain.isEmpty then .constant f.range.default else .function (.default f.range)

/-- An interpretation stays, and where there was none a default may have been added. -/
theorem Model.CompletedTo.interpretation? {m n : Model} (h : m.CompletedTo n) (f : Symbol) :
    n.interpretation? f = m.interpretation? f ∨
      m.interpretation? f = none ∧ n.interpretation? f = some f.completion := by
  unfold Model.interpretation? Symbol.completion
  split_ifs with hconstant
  · rcases h.constants.lookup f with heq | ⟨hnone, hsome⟩
    · exact .inl (by rw [heq])
    · exact .inr ⟨by rw [hnone]; rfl, by rw [hsome]; rfl⟩
  · rcases h.functions.lookup f with heq | ⟨hnone, hsome⟩
    · exact .inl (by rw [heq])
    · exact .inr ⟨by rw [hnone]; rfl, by rw [hsome]; rfl⟩

/-- Going on to the next symbol only drops symbols. -/
theorem Inspection.next_subset (i : Inspection) (rest : List Symbol) :
    (∀ f, (i.next rest).1 = some f → f ∈ rest) ∧ (i.next rest).2 ⊆ rest := by
  have hsub : (rest.dropWhile fun f => i.tracker.names.contains f.name) ⊆ rest :=
    (List.dropWhile_sublist _).subset
  unfold next
  cases hdrop : rest.dropWhile fun f => i.tracker.names.contains f.name with
  | nil =>
    refine ⟨fun f hf => ?_, List.nil_subset rest⟩
    cases hf
  | cons g gs =>
    rw [hdrop] at hsub
    refine ⟨fun f hf => ?_, fun f hf => hsub (List.mem_cons_of_mem g hf)⟩
    obtain rfl := Option.some.inj hf
    exact hsub List.mem_cons_self

structure Reader.Faithful (model : Model) (m : Reader) : Prop where
  completed : model.CompletedTo m.inspection.model
  symbols : m.inspection.symbols = model.symbols
  fault : m.inspection.fault = none
  iterators : ∀ x, (m.iterators.lookup x).getD [] ⊆ model.symbols

theorem Reader.Faithful.keepIterator {model : Model} {m : Reader} (h : m.Faithful model)
    (x : String) (fs : List Symbol) (hfs : fs ⊆ model.symbols) :
    Reader.Faithful model { m with iterators := assign x fs m.iterators } := by
  refine ⟨h.completed, h.symbols, h.fault, fun y => ?_⟩
  rw [lookup_assign]
  split_ifs
  · exact hfs
  · exact h.iterators y

namespace Step

mutual

def breakFree : Step → Bool
  | .break _ => false
  | .block body => breakFreeAll body
  | _ => true

def breakFreeAll : List (Bool × Step) → Bool
  | [] => true
  | (_, s) :: rest => breakFree s && breakFreeAll rest

end

theorem breakFreeAll_iff (body : List (Bool × Step)) :
    breakFreeAll body = true ↔ ∀ p ∈ body, p.2.breakFree = true := by
  induction body with
  | nil => simp [breakFreeAll]
  | cons p body ih => simp [breakFreeAll, ih]

/-- No step without a break of evaluation does more to the model than to complete it. -/
theorem faithful_invariant (model : Model) :
    Invariant (fun s => s.breakFree = true) (Reader.Faithful model) := by
  refine ⟨fun body hbody => (breakFreeAll_iff body).mp hbody, fun s m n hs heffect hm => ?_⟩
  cases heffect with
  | looked _ r => exact ⟨hm.completed, hm.symbols, hm.fault, hm.iterators⟩
  | evaluated _ r complete t =>
    exact ⟨hm.completed.eval complete t, hm.symbols, hm.fault, hm.iterators⟩
  -- an iterator starts with the symbols of the assignment, not with those of the model as it is now
  | iterated x => exact hm.keepIterator x _ (hm.symbols ▸ List.Subset.refl _)
  | moved x =>
    have hrest := (m.inspection.next_subset ((m.iterators.lookup x).getD [])).2
    exact hm.keepIterator x _ (List.Subset.trans hrest (hm.iterators x))
  | broken cause => cases hs

/-- What is read is the value of the term in the model at first. -/
theorem read_of_faithful (model : Model) (kind : ValueKind) (t : Term) (m : Reader)
    (hm : m.Faithful model) :
    ((Step.read kind t).run m).1.result = kind.answer (t.valueIn model) := by
  -- the value depends only on how the symbols read, which completion does not change
  rw [read_result, hm.fault, hm.completed.reads.valueIn t]

end Step

/-- At every moment of a run on a model, inside blocks as well, whatever was evaluated, failed or
was taken back before: a value is read as it would have been at first, with the same error if it
cannot be read. Every interpretation of the model is what it was. What was added are defaults, once
each and behind all others, of symbols without interpretation. Such a symbol is not listed as one
that was not looked at, and no iterator gives it. -/
theorem completion_conservative (model : Model) (c : Consistency) (script : List (Bool × Step))
    (hscript : ∀ p ∈ script, p.2.breakFree = true) :
    let m : Reader := { inspection := .ofModel model c }
    ∀ n, Step.Meets m script n →
      (∀ kind t, ((Step.read kind t).run n).1.result = ((Step.read kind t).run m).1.result) ∧
      (∀ f v, model.interpretation? f = some v → n.inspection.model.interpretation? f = some v) ∧
      (∀ f v, model.interpretation? f = none → n.inspection.model.interpretation? f = some v →
        v = f.completion) ∧
      model.CompletedTo n.inspection.model ∧
      (∀ f ∈ n.inspection.unaccessed, f ∈ model.symbols) ∧
      ∀ x f, ((Step.next x).run n).1.result = .ok (.symbol (some f)) → f ∈ model.symbols := by
  intro m n hmeets
  have hstart : m.Faithful model :=
    ⟨.refl model, rfl, rfl, fun _ => List.nil_subset model.symbols⟩
  have hn : n.Faithful model := (Step.faithful_invariant model).meets hmeets hscript hstart
  refine ⟨fun kind t => ?_, fun f v hv => ?_, fun f v hnone hv => ?_, hn.completed, fun f hf => ?_,
    fun x f hf => ?_⟩
  · -- both answers are what the model of the start reads as
    rw [Step.read_of_faithful model kind t n hn, Step.read_of_faithful model kind t m hstart]
  · rcases hn.completed.interpretation? f with heq | ⟨hnone, _⟩
    · rw [heq, hv]
    · rw [hnone] at hv
      cases hv
  · rcases hn.completed.interpretation? f with heq | ⟨_, hsome⟩
    · rw [heq, hnone] at hv
      cases hv
    · rw [hsome] at hv
      exact (Option.some.inj hv).symm
  · rw [← hn.symbols]
    exact List.mem_of_mem_filter hf
  · have hnext : (n.inspection.next ((n.iterators.lookup x).getD [])).1 = some f :=
      Answer.symbol.inj (Except.ok.inj hf)
    exact hn.iterators x ((n.inspection.next_subset _).1 f hnext)

/-- A constant is completed by a value that is read, and a function in a block that is taken back.
The model has both then, and the values are what they were. -/
theorem completion_conservative_undone :
    let x : Symbol := ⟨"x", [], .int⟩
    let y : Symbol := ⟨"y", [], .int⟩
    let f : Symbol := ⟨"f", [.int], .int⟩
    let model : Model := { constants := [(x, .int 5)] }
    let script : List (Bool × Step) := [(true, .read .int (.const y)),
      (true, .read .bool (.const x)),
      (true, .block [(false, .eval (.app f [.const x]) true), (false, .raise .scope)])]
    let n := (Step.runAll { inspection := .ofModel model .consistent } script).2.2
    (∀ p ∈ script, p.2.breakFree = true) ∧ n.inspection.model.symbols = [x, y, f] ∧
      n.inspection.unaccessed = [x] ∧
      n.inspection.model.interpretation? x = some (.constant (.int 5)) ∧
      (Step.run n (.read .int (.app f [.const y]))).1.result = .ok (.int 0) := by
  intro x y f model script n
  have hscript : ∀ p ∈ script, p.2.breakFree = true := by decide
  have hsymbols : n.inspection.model.symbols = [x, y, f] := by
    simp only [n, script, model]
    cbv
  have hunaccessed : n.inspection.unaccessed = [x] := by
    simp only [n, script, model]
    cbv
  have hfresh : ((Step.read .int (.app f [.const y])).run
      { inspection := .ofModel model .consistent }).1.result = .ok (.int 0) := by
    simp only [model]
    cbv
  obtain ⟨hread, hkept, -⟩ := completion_conservative model .consistent script hscript n
    (Step.meets_end _ script)
  refine ⟨hscript, hsymbols, hunaccessed, hkept x _ rfl, ?_⟩
  rw [← hfresh]
  exact hread .int _

end Validity
