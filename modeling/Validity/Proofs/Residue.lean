import Validity.Proofs.Cuts
import Validity.Proofs.Occurrence

/-!
What a filter leaves of a text, balanced or not. The commands that were kept are cut from the
output again, although others between them are gone, so filters compose like tests of single
commands. Each of them ends with a parenthesis, so nothing that a filter looks for comes about where
two of them meet.
-/
namespace Validity.Command

/-- A command that is cut from a text ends with a parenthesis. -/
theorem mem_split_closed {text s : List Char} (hs : s ∈ split text) : ∃ r, s = r ++ [')'] := by
  have hlast := ((split_pieces text).1 s hs).closes.1
  exact List.getLast?_eq_some_iff.mp hlast

namespace Filter

/-- Cutting the output again gives the commands that were kept. -/
theorem split_apply (f : Filter) (text : List Char) :
    split (f.apply text) = (split text).filter f.keeps := by
  apply split_flatten
  intro c hc
  exact (split_pieces text).1 c (List.mem_of_mem_filter hc)

theorem keeps_append (f g : Filter) (c : List Char) :
    Filter.keeps ⟨f.keywords ++ g.keywords, f.functions ++ g.functions⟩ c =
      (g.keeps c && f.keeps c) := by
  simp only [keeps, List.any_append, Bool.not_or]
  ac_rfl

/-- Two filters one after the other keep what both of them keep. -/
theorem apply_apply (f g : Filter) (text : List Char) :
    g.apply (f.apply text) = ((split text).filter fun c => g.keeps c && f.keeps c).flatten := by
  calc
    g.apply (f.apply text) = ((split (f.apply text)).filter g.keeps).flatten := rfl
    _ = (((split text).filter f.keeps).filter g.keeps).flatten := by rw [split_apply]
    _ = _ := by rw [List.filter_filter]

theorem keeps_eq_decide (f : Filter) : f.keeps = fun c => decide (¬ f.Drops c) := by
  funext c
  rw [Bool.eq_iff_iff, keeps_iff, decide_eq_true_iff]

/-- Nothing that would be dropped is left, not even where two commands meet. -/
theorem Confined.not_drops_apply {f : Filter} (hf : f.Confined) (text : List Char) :
    ¬ f.Drops (f.apply text) := by
  intro hdrops
  -- what would be dropped stands within one command, and this command was kept
  obtain ⟨s, hs, hds⟩ := hf.drops_flatten _ (fun s hs =>
    mem_split_closed (List.mem_of_mem_filter hs)) hdrops
  exact (f.keeps_iff s).mp (List.mem_filter.mp hs).2 hds

end Filter

/-- Filtering twice is filtering once for what either filter looks for. So a filter has nothing left
to do on its own output, the order of filters does not matter, and cutting the output again gives
the commands that the filter does not drop, in order. -/
theorem filters_compose (f g : Filter) (text : List Char) :
    g.apply (f.apply text) =
        Filter.apply ⟨f.keywords ++ g.keywords, f.functions ++ g.functions⟩ text ∧
      f.apply (f.apply text) = f.apply text ∧
      g.apply (f.apply text) = f.apply (g.apply text) ∧
      split (f.apply text) = (split text).filter fun c => ¬ f.Drops c := by
  refine ⟨?_, ?_, ?_, ?_⟩
  · rw [f.apply_apply g, Filter.apply, funext (f.keeps_append g)]
  · rw [f.apply_apply f, Filter.apply]
    simp only [Bool.and_self]
  · rw [f.apply_apply g, g.apply_apply f]
    simp only [Bool.and_comm]
  · rw [f.split_apply, f.keeps_eq_decide]

/-- No keyword and no start of an unsupported declaration stands anywhere in what a filter leaves,
as long as none of them has the end of a command in it; and what is left are all commands that are
not dropped, in order. -/
theorem residue_supported (f : Filter) (hf : f.Confined) (text : List Char) :
    (∀ k ∈ f.keywords, ¬ k.toList <:+: f.apply text) ∧
      (∀ g ∈ f.functions, ¬ Declares g.toList (f.apply text)) ∧
      f.apply text = ((split text).filter fun c => ¬ f.Drops c).flatten := by
  have hnone := hf.not_drops_apply text
  refine ⟨?_, ?_, ?_⟩
  · intro k hk hin
    exact hnone (.inl ⟨k, hk, hin⟩)
  · intro g hg hdeclares
    exact hnone (.inr ⟨g, hg, hdeclares⟩)
  · rw [Filter.apply, f.keeps_eq_decide]

/-- A text that closes too early and then opens too much, a name that is no word, and a name that
only starts like it. -/
theorem residue_supported_unbalanced :
    let f : Filter := { keywords := ["all ("], functions := ["e.p"] }
    let text := "(a)) all ((b)) ( (declare-fun\n e.p(Int) Int)) (declare-fun exp () Int) all".toList
    ¬ "all (".toList <:+: f.apply text ∧ ¬ Declares "e.p".toList (f.apply text) ∧
      f.apply text = "(a)) (declare-fun exp ()".toList := by
  intro f text
  have hf : f.Confined := ⟨by decide, by decide⟩
  obtain ⟨hkeywords, hfunctions, _⟩ := residue_supported f hf text
  refine ⟨hkeywords _ (by decide), hfunctions _ (by decide), ?_⟩
  decide +kernel

end Validity.Command
