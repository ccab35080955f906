import Validity.Proofs.Quotients
import Validity.Proofs.Verdicts

/-!
Reasons and their texts. Many texts are read as one reason: blanks around a text do not count, an
interruption has two words, and a blank text is read as if it said `unknown`. Among the reasons
that are read from some text, the text tells which one it is, and reading it gives that reason
again: trimming twice is trimming once, and no other reason has the text of a timeout or of an
interruption.
-/
namespace Validity

namespace Text

/-- After trimming there is no blank at either end. -/
theorem trim_bare (s : List Char) : Bare (trim s) := by
  refine ⟨fun c hc => ?_, fun c hc => ?_⟩
  · -- in front, trimming at the back has left the first character as it was
    obtain ⟨r, hr⟩ := List.head?_eq_some_iff.mp hc
    have hne : trim s ≠ [] := by
      rw [hr]
      exact List.cons_ne_nil c r
    obtain ⟨d, _, hd, hblank⟩ := trim_telling s hne
    rw [hr] at hd
    rw [(List.cons.inj hd).1]
    exact hblank
  · -- at the back, the last character is the first one of the text read backwards
    change (trimLeft (trimLeft s).reverse).reverse.getLast? = some c at hc
    rw [List.getLast?_reverse] at hc
    obtain ⟨r, hr⟩ := List.head?_eq_some_iff.mp hc
    exact trimLeft_head hr

theorem Bare.trim_eq {s : List Char} (h : Bare s) : trim s = s := by
  apply (trim_eq_iff s s h).mpr
  exact ⟨[], [], by simp, by simp, by simp⟩

theorem trimmed_of_bare {s : String} (h : Bare s.toList) : trimmed s = s := by
  rw [trimmed, h.trim_eq, String.ofList_toList]

theorem trimmed_bare (s : String) : Bare (trimmed s).toList := by
  rw [trimmed, String.toList_ofList]
  exact trim_bare s.toList

theorem bare_word (w : String) (hfirst : w.toList.head?.map isBlank = some false)
    (hlast : w.toList.getLast?.map isBlank = some false) : Bare w.toList := by
  refine ⟨fun c hc => ?_, fun c hc => ?_⟩
  · simpa [hc] using hfirst
  · simpa [hc] using hlast

end Text

namespace Reason

/-- What is kept of a text when no kind fits: the text says something, has no blanks around it, and
is none of the words that have a kind of their own. -/
structure IsDetail (d : String) : Prop where
  ne_empty : d ≠ ""
  bare : Text.Bare d.toList
  not_timeout : d ≠ "timeout"
  not_stopped : ¬ (d = "canceled" ∨ d = "interrupted")

inductive Canonical : Reason → Prop where
  | timeout : Canonical .timeout
  | interrupted : Canonical .interrupted
  | other (d : String) : IsDetail d → Canonical (.other d)

theorem isDetail_unknown : IsDetail "unknown" where
  ne_empty := by decide
  bare := Text.bare_word "unknown" (by decide) (by decide)
  not_timeout := by decide
  not_stopped := by decide

/-- What is read is canonical, however the text was written. -/
theorem parse_canonical (text : Option String) : (parse text).Canonical := by
  unfold parse
  dsimp only
  split_ifs with htimeout hstopped hempty
  · exact .timeout
  · exact .interrupted
  · exact .other _ isDetail_unknown
  · exact .other _ ⟨hempty, Text.trimmed_bare _, htimeout, hstopped⟩

/-- A detail is read as it stands. -/
theorem IsDetail.parse_eq {d : String} (h : IsDetail d) : parse (some d) = .other d := by
  unfold parse
  dsimp only [Option.getD_some]
  -- the detail is trimmed already, so it goes past every word that is looked for
  rw [Text.trimmed_of_bare h.bare, if_neg h.not_timeout, if_neg h.not_stopped, if_neg h.ne_empty]

namespace Canonical

variable {r : Reason}

/-- Canonical reasons are read back from their texts. -/
theorem parse_text (h : r.Canonical) : parse (some r.text) = r := by
  cases h with
  | timeout => decide
  | interrupted => decide
  | other d hd => exact hd.parse_eq

/-- A canonical reason always says something. -/
theorem text_ne_empty (h : r.Canonical) : r.text ≠ "" := by
  cases h with
  | timeout => decide
  | interrupted => decide
  | other d hd => exact hd.ne_empty

theorem text_bare (h : r.Canonical) : Text.Bare r.text.toList := by
  cases h with
  | timeout => exact Text.bare_word "timeout" (by decide) (by decide)
  | interrupted => exact Text.bare_word "interrupted" (by decide) (by decide)
  | other d hd => exact hd.bare

end Canonical

/-- The canonical reasons are just those that are read from texts. -/
theorem canonical_iff (r : Reason) : r.Canonical ↔ ∃ text, parse text = r := by
  constructor
  · intro h
    exact ⟨some r.text, h.parse_text⟩
  · rintro ⟨text, rfl⟩
    exact parse_canonical text

/-- A reason that was read from a text, or from none, is read again from its own text. This text is
not empty and has no blanks around it, and two texts that are read as different reasons give
different texts. The reasons that are read are all that have a kind of their own or a detail. -/
theorem text_reads_back (text other : Option String) :
    parse (some (parse text).text) = parse text ∧
      (parse text).text ≠ "" ∧ Text.Bare (parse text).text.toList ∧
      (parse text ≠ parse other ↔ (parse text).text ≠ (parse other).text) ∧
      ∀ r : Reason, r.Canonical ↔ ∃ s, parse s = r := by
  have h := parse_canonical text
  have h' := parse_canonical other
  refine ⟨h.parse_text, h.text_ne_empty, h.text_bare, not_congr ?_, canonical_iff⟩
  constructor
  · exact congrArg Reason.text
  · intro heq
    calc
      parse text = parse (some (parse text).text) := h.parse_text.symm
      _ = parse (some (parse other).text) := by rw [heq]
      _ = parse other := h'.parse_text

end Reason
end Validity
