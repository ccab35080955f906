import Mathlib.Data.List.Infix
import Validity.Proofs.Cuts

/-!
The positions at which a text is cut. They are read off the text alone: a closing parenthesis up to
which as many parentheses were opened as closed, counted from the start of the text. The count may
fall below zero and come back, so this covers texts that close too early. A text that is cut at its
end can be cut apart from what follows it, and of a text with matching parentheses nothing but what
follows the last one is lost.
-/
namespace Validity.Command

/-- The character at `i` closes a parenthesis, and up to it as many are opened as closed. -/
def IsCut (text : List Char) (i : Nat) : Prop :=
  text[i]? = some ')' ∧ (text.take (i + 1)).count '(' = (text.take (i + 1)).count ')'

instance (text : List Char) (i : Nat) : Decidable (IsCut text i) :=
  inferInstanceAs (Decidable (_ ∧ _))

structure Matched (text : List Char) : Prop where
  counts : text.count '(' = text.count ')'
  opened : ∀ p, p <+: text → p.count ')' ≤ p.count '('

theorem matched_iff (text : List Char) : Matched text ↔
    text.count '(' = text.count ')' ∧
      text.inits.all (fun p => p.count ')' ≤ p.count '(') = true := by
  constructor
  · rintro ⟨hcounts, hopened⟩
    refine ⟨hcounts, List.all_eq_true.mpr fun p hp => ?_⟩
    exact decide_eq_true (hopened p ((List.mem_inits p text).mp hp))
  · rintro ⟨hcounts, hopened⟩
    refine ⟨hcounts, fun p hp => ?_⟩
    exact of_decide_eq_true (List.all_eq_true.mp hopened p ((List.mem_inits p text).mpr hp))

instance (text : List Char) : Decidable (Matched text) :=
  decidable_of_iff' _ (matched_iff text)

theorem level_append (s r : List Char) : level (s ++ r) = level s + level r := by
  simp only [level, List.count_append]
  omega

theorem level_eq_zero_iff (s : List Char) : level s = 0 ↔ s.count '(' = s.count ')' := by
  unfold level
  omega

theorem closes_zero_iff (s : List Char) :
    Closes 0 s ↔ s.getLast? = some ')' ∧ s.count '(' = s.count ')' := by
  rw [Closes, Int.zero_add, level_eq_zero_iff]

/-- A text is cut at a position iff what comes up to it, with it, closes. -/
theorem isCut_iff_closes (text : List Char) (i : Nat) :
    IsCut text i ↔ i < text.length ∧ Closes 0 (text.take (i + 1)) := by
  have hlast (hi : i < text.length) : (text.take (i + 1)).getLast? = text[i]? := by
    rw [List.getLast?_eq_getElem?, List.length_take, Nat.min_eq_left hi]
    exact List.getElem?_take_of_lt (Nat.lt_succ_self i)
  rw [IsCut, closes_zero_iff]
  constructor
  · rintro ⟨hclose, hcounts⟩
    have hi : i < text.length := (List.getElem?_eq_some_iff.mp hclose).1
    exact ⟨hi, (hlast hi).trans hclose, hcounts⟩
  · rintro ⟨hi, hclose, hcounts⟩
    exact ⟨(hlast hi).symm.trans hclose, hcounts⟩

/-- What closes and starts the text ends at a position where the text is cut. -/
theorem isCut_of_closes {text p : List Char} (hp : p <+: text) (h : Closes 0 p) :
    IsCut text (p.length - 1) := by
  have hpos : 0 < p.length := List.length_pos_of_ne_nil h.ne_nil
  have hle : p.length ≤ text.length := hp.length_le
  have hend : p.length - 1 + 1 = p.length := Nat.sub_add_cancel hpos
  rw [isCut_iff_closes, hend, ← List.prefix_iff_eq_take.mp hp]
  exact ⟨by omega, h⟩

namespace Closes

variable {s r : List Char}

theorem append (hs : Closes 0 s) (hr : Closes 0 r) : Closes 0 (s ++ r) := by
  refine ⟨?_, ?_⟩
  · rw [List.getLast?_append_of_ne_nil s hr.ne_nil]
    exact hr.1
  · have hlevel := level_append s r
    have hs' := hs.2
    have hr' := hr.2
    omega

/-- Behind a text that closes, what is not empty closes if all together does. -/
theorem of_append (hs : Closes 0 s) (hne : r ≠ []) (h : Closes 0 (s ++ r)) : Closes 0 r := by
  refine ⟨?_, ?_⟩
  · rw [← List.getLast?_append_of_ne_nil s hne]
    exact h.1
  · have hlevel := level_append s r
    have hs' := hs.2
    have h' := h.2
    omega

theorem flatten {l : List (List Char)} (hl : ∀ c ∈ l, Closes 0 c) (hne : l ≠ []) :
    Closes 0 l.flatten := by
  induction l with
  | nil => exact absurd rfl hne
  | cons c l ih =>
    obtain ⟨hc, hl'⟩ := List.forall_mem_cons.mp hl
    rw [List.flatten_cons]
    by_cases hnil : l = []
    · rw [hnil, List.flatten_nil, List.append_nil]
      exact hc
    · exact hc.append (ih hl' hnil)

end Closes

/-- Among pieces, and behind them where nothing closes, only whole pieces close. -/
theorem exists_pieces_of_closes (l : List (List Char)) (hl : ∀ c ∈ l, IsPiece 0 c)
    (rest : List Char) (hrest : ∀ p, p <+: rest → ¬ Closes 0 p) (p : List Char)
    (hp : p <+: l.flatten ++ rest) (h : Closes 0 p) :
    ∃ k < l.length, p = (l.take (k + 1)).flatten := by
  induction l generalizing p with
  | nil => exact absurd h (hrest p hp)
  | cons c l ih =>
    obtain ⟨hc, hl'⟩ := List.forall_mem_cons.mp hl
    rw [List.flatten_cons, List.append_assoc] at hp
    have hstart : c <+: c ++ (l.flatten ++ rest) := List.prefix_append c _
    rcases Nat.le_total p.length c.length with hlen | hlen
    · -- inside the first piece only its end closes
      have hpc : p = c := hc.first p (List.prefix_of_prefix_length_le hp hstart hlen) h
      exact ⟨0, Nat.zero_lt_succ _, by simp [hpc]⟩
    · obtain ⟨q, rfl⟩ := List.prefix_of_prefix_length_le hstart hp hlen
      by_cases hq : q = []
      · exact ⟨0, Nat.zero_lt_succ _, by simp [hq]⟩
      · -- what is left behind the first piece closes as well
        have hq' : q <+: l.flatten ++ rest := (List.prefix_append_right_inj c).mp hp
        obtain ⟨k, hk, hqk⟩ := ih hl' q hq' (hc.closes.of_append hq h)
        refine ⟨k + 1, Nat.succ_lt_succ hk, ?_⟩
        rw [List.take_succ_cons, List.flatten_cons, ← hqk]

/-- The positions at which a text is cut are the ends of its first one, two and more commands. -/
theorem isCut_iff_end (text : List Char) (i : Nat) : IsCut text i ↔
    ∃ k < (split text).length, ((split text).take (k + 1)).flatten.length = i + 1 := by
  obtain ⟨hpieces, rest, htext, huncut⟩ := split_pieces text
  constructor
  · intro hcut
    obtain ⟨hi, hcloses⟩ := (isCut_iff_closes text i).mp hcut
    have hprefix : text.take (i + 1) <+: (split text).flatten ++ rest := by
      rw [← htext]
      exact List.take_prefix (i + 1) text
    obtain ⟨k, hk, hend⟩ := exists_pieces_of_closes _ hpieces rest huncut _ hprefix hcloses
    refine ⟨k, hk, ?_⟩
    rw [← hend, List.length_take]
    exact Nat.min_eq_left hi
  · rintro ⟨k, hk, hlength⟩
    have hprefix : ((split text).take (k + 1)).flatten <+: text :=
      (List.take_prefix (k + 1) (split text)).flatten.trans ⟨rest, htext.symm⟩
    have hcloses : Closes 0 ((split text).take (k + 1)).flatten := by
      apply Closes.flatten
      · intro c hc
        exact (hpieces c (List.mem_of_mem_take hc)).closes
      · intro hnil
        rw [hnil] at hlength
        cases hlength
    have hcut := isCut_of_closes hprefix hcloses
    rwa [hlength, Nat.add_sub_cancel] at hcut

/-- Behind the last cut of a text with matching parentheses nothing is closed: the last parenthesis
to be closed there would bring the count back to zero, and the text would be cut. -/
theorem Matched.close_not_mem {text front rest : List Char} (h : Matched text)
    (htext : text = front ++ rest) (hfront : level front = 0)
    (huncut : ∀ p, p <+: rest → ¬ Closes 0 p) : ')' ∉ rest := by
  intro hmem
  obtain ⟨back, start, hrev, hback⟩ := List.eq_append_cons_of_mem (List.mem_reverse.mpr hmem)
  have hrest : rest = start.reverse ++ [')'] ++ back.reverse := by
    have hrev' := congrArg List.reverse hrev
    simpa using hrev'
  let p := start.reverse ++ [')']
  have hcounts : level text = 0 := (level_eq_zero_iff text).mpr h.counts
  have hsum : level text = level front + level p + level back.reverse := by
    rw [htext, hrest, level_append, level_append, Int.add_assoc]
  -- no parenthesis is closed behind it, and none is closed too early before it
  have hlater : 0 ≤ level back.reverse := by
    have hnone : back.reverse.count ')' = 0 :=
      List.count_eq_zero.mpr fun hin => hback (List.mem_reverse.mp hin)
    unfold level
    omega
  have hbefore : 0 ≤ level (front ++ p) := by
    have hprefix : front ++ p <+: text := ⟨back.reverse, by rw [htext, hrest, List.append_assoc]⟩
    have hopened := h.opened _ hprefix
    unfold level
    omega
  rw [level_append] at hbefore
  have hp : p <+: rest := ⟨back.reverse, hrest.symm⟩
  refine huncut p hp ⟨?_, by omega⟩
  exact List.getLast?_concat

/-- A text is cut just behind the closing parentheses up to which as many are opened as closed: they
are the ends of its commands, one after the other. So the commands make up the text up to the last
of them, and each is cut at its end and nowhere before. A text that is all commands can be cut apart
from what follows it, and of a text with matching parentheses only what follows the last closing one
is dropped. -/
theorem split_at_cuts (text : List Char) :
    (∀ i, IsCut text i ↔
      ∃ k < (split text).length, ((split text).take (k + 1)).flatten.length = i + 1) ∧
    (split text).flatten <+: text ∧
    (∀ i, IsCut text i → i < (split text).flatten.length) ∧
    (split text ≠ [] → IsCut text ((split text).flatten.length - 1)) ∧
    (∀ c ∈ split text, c ≠ [] ∧ c.getLast? = some ')' ∧ c.count '(' = c.count ')' ∧
      ∀ p, p <+: c → p.getLast? = some ')' → p.count '(' = p.count ')' → p = c) ∧
    ((split text).flatten = text → ∀ later, split (text ++ later) = split text ++ split later) ∧
    (Matched text → ∃ rest, text = (split text).flatten ++ rest ∧ ')' ∉ rest) := by
  obtain ⟨hpieces, rest, htext, huncut⟩ := split_pieces text
  have hprefix : (split text).flatten <+: text := ⟨rest, htext.symm⟩
  have hcloses (hne : split text ≠ []) : Closes 0 (split text).flatten :=
    Closes.flatten (fun c hc => (hpieces c hc).closes) hne
  refine ⟨isCut_iff_end text, hprefix, fun i hi => ?_, fun hne => ?_, fun c hc => ?_, ?_, ?_⟩
  · obtain ⟨k, _, hlength⟩ := (isCut_iff_end text i).mp hi
    have hle := (List.take_prefix (k + 1) (split text)).flatten.length_le
    omega
  · exact isCut_of_closes hprefix (hcloses hne)
  · have hpiece := hpieces c hc
    obtain ⟨hlast, hcounts⟩ := (closes_zero_iff c).mp hpiece.closes
    refine ⟨hpiece.closes.ne_nil, hlast, hcounts, fun p hp hlast' hcounts' => ?_⟩
    exact hpiece.first p hp ((closes_zero_iff p).mpr ⟨hlast', hcounts'⟩)
  · intro hall later
    calc
      split (text ++ later) = split ((split text).flatten ++ later) := by rw [hall]
      _ = split text ++ split later := split_flatten_append _ hpieces later
  · intro hmatched
    have hlevel : level (split text).flatten = 0 := by
      by_cases hne : split text = []
      · rw [hne]
        rfl
      · have hzero := (hcloses hne).2
        rwa [Int.zero_add] at hzero
    exact ⟨rest, htext, hmatched.close_not_mem htext hlevel huncut⟩

/-- A text with matching parentheses and something behind them, and a text that closes too early
behind one that is all commands: its only cut is the one that brings the count back to zero. -/
theorem split_at_cuts_early :
    let text := "(a (b)) c".toList
    let front := "(a)".toList
    let early := ")((b) c".toList
    Matched text ∧ (∃ rest, text = (split text).flatten ++ rest ∧ ')' ∉ rest) ∧
      (split front).flatten = front ∧ IsCut early 4 ∧ ¬ IsCut early 0 ∧
      split (front ++ early) = [front, ")((b)".toList] := by
  intro text front early
  have hmatched : Matched text := by decide
  have hfront : (split front).flatten = front := by decide
  obtain ⟨-, -, -, -, -, -, hdropped⟩ := split_at_cuts text
  obtain ⟨-, -, -, -, -, happend, -⟩ := split_at_cuts front
  refine ⟨hmatched, hdropped hmatched, hfront, by decide, by decide, ?_⟩
  rw [happend hfront early]
  decide

end Validity.Command
