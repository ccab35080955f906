import Mathlib.Tactic.Common
import Validity.Command

/-!
Texts with balanced parentheses, and where such texts are cut into commands. A command whose
inside is balanced comes out whole, with what stands before it.
-/
namespace Validity.Command

inductive Balanced : List Char → Prop where
  | nil : Balanced []
  | plain (c : Char) (s : List Char) : c ≠ '(' → c ≠ ')' → Balanced s → Balanced (c :: s)
  | nested (s r : List Char) : Balanced s → Balanced r → Balanced ('(' :: (s ++ ')' :: r))

def IsPlain (s : List Char) : Prop := ∀ c ∈ s, c ≠ '(' ∧ c ≠ ')'

instance (s : List Char) : Decidable (IsPlain s) :=
  List.decidableBAll (fun c => c ≠ '(' ∧ c ≠ ')') s

def IsCommand (c : List Char) : Prop := ∃ s, Balanced s ∧ c = '(' :: (s ++ [')'])

theorem IsPlain.append {s r : List Char} (hs : IsPlain s) (hr : IsPlain r) :
    IsPlain (s ++ r) := by
  intro c hc
  rcases List.mem_append.mp hc with h | h
  · exact hs c h
  · exact hr c h

namespace Balanced

theorem of_plain {s : List Char} (h : IsPlain s) : Balanced s := by
  induction s with
  | nil => exact .nil
  | cons c s ih =>
    have hc := h c List.mem_cons_self
    exact .plain c s hc.1 hc.2 (ih fun d hd => h d (List.mem_cons_of_mem c hd))

theorem append {s r : List Char} (hs : Balanced s) (hr : Balanced r) : Balanced (s ++ r) := by
  induction hs with
  | nil => exact hr
  | plain c s h1 h2 _ ih => exact .plain c _ h1 h2 ih
  | nested s s' h _ _ ih =>
    have he : '(' :: (s ++ ')' :: s') ++ r = '(' :: (s ++ ')' :: (s' ++ r)) := by simp
    rw [he]
    exact .nested s _ h ih

theorem wrap {s : List Char} (hs : Balanced s) : Balanced ('(' :: (s ++ [')'])) :=
  .nested s [] hs .nil

/-- Balanced texts stay balanced when a balanced one is put between them. -/
theorem intercalate {g : List Char} (hg : Balanced g) (l : List (List Char))
    (hl : ∀ s ∈ l, Balanced s) : Balanced (g.intercalate l) := by
  induction l with
  | nil => exact .nil
  | cons s l ih =>
    have hs := hl s List.mem_cons_self
    have hrest := ih fun r hr => hl r (List.mem_cons_of_mem s hr)
    cases l with
    | nil =>
      rw [List.intercalate_singleton]
      exact hs
    | cons r l =>
      rw [List.intercalate_cons_cons]
      exact (hs.append hg).append hrest

end Balanced

/-- Text without parentheses becomes part of the current command. -/
theorem splitFrom_plain (depth : Int) (before s rest : List Char) (h : IsPlain s) :
    splitFrom depth before (s ++ rest) = splitFrom depth (s.reverse ++ before) rest := by
  induction s generalizing before with
  | nil => rfl
  | cons c s ih =>
    have hc := h c List.mem_cons_self
    have hstep : splitFrom depth before (c :: (s ++ rest)) =
        splitFrom depth (c :: before) (s ++ rest) := by
      rw [splitFrom.eq_def]
      split
      · rename_i heq
        cases heq
      · rename_i heq
        exact absurd (List.cons.inj heq).1 hc.1
      · rename_i heq
        exact absurd (List.cons.inj heq).1 hc.2
      · rename_i heq
        obtain ⟨rfl, rfl⟩ := List.cons.inj heq
        rfl
    rw [List.cons_append, hstep, ih _ fun d hd => h d (List.mem_cons_of_mem c hd)]
    simp

/-- A closing parenthesis ends a command only if it is the partner of the first one. -/
theorem splitFrom_close (depth : Int) (before rest : List Char) (h : depth ≠ 1) :
    splitFrom depth before (')' :: rest) = splitFrom (depth - 1) (')' :: before) rest := by
  simp [splitFrom, h]

/-- Inside a command a balanced text is no place to cut. -/
theorem splitFrom_balanced {s : List Char} (hs : Balanced s) (depth : Int) (hd : 1 ≤ depth)
    (before rest : List Char) :
    splitFrom depth before (s ++ rest) = splitFrom depth (s.reverse ++ before) rest := by
  induction hs generalizing depth before rest with
  | nil => rfl
  | plain c s h1 h2 _ ih =>
    have hone := splitFrom_plain depth before [c] (s ++ rest) (by simpa [IsPlain] using ⟨h1, h2⟩)
    rw [List.singleton_append] at hone
    rw [List.cons_append, hone, ih depth hd]
    simp
  | nested s r _ _ ihs ihr =>
    have he : '(' :: (s ++ ')' :: r) ++ rest = '(' :: (s ++ (')' :: (r ++ rest))) := by simp
    -- the partner is met one level further in, so it does not end the command
    rw [he, splitFrom, ihs (depth + 1) (by omega), splitFrom_close _ _ _ (by omega),
      Int.add_sub_cancel, ihr depth hd]
    simp

/-- A text that starts with a command, after some text without parentheses, is cut behind it. -/
theorem split_command (gap c rest : List Char) (hgap : IsPlain gap) (hc : IsCommand c) :
    split (gap ++ c ++ rest) = (gap ++ c) :: split rest := by
  obtain ⟨s, hs, rfl⟩ := hc
  have he : gap ++ '(' :: (s ++ [')']) ++ rest = gap ++ ('(' :: (s ++ (')' :: rest))) := by simp
  have hend : splitFrom (0 + 1) (s.reverse ++ '(' :: (gap.reverse ++ [])) (')' :: rest) =
      (')' :: (s.reverse ++ '(' :: (gap.reverse ++ []))).reverse :: split rest := by
    simp [splitFrom, split]
  rw [split, he, splitFrom_plain _ _ _ _ hgap, splitFrom, splitFrom_balanced hs _ (by omega), hend]
  simp

/-- A text starts with one command at most. -/
theorem IsCommand.eq_of_append_eq {c d r s : List Char} (hc : IsCommand c) (hd : IsCommand d)
    (h : c ++ r = d ++ s) : c = d := by
  have hcut := split_command [] c r (fun _ hx => absurd hx List.not_mem_nil) hc
  have hcut' := split_command [] d s (fun _ hx => absurd hx List.not_mem_nil) hd
  rw [List.nil_append] at hcut hcut'
  rw [h, hcut'] at hcut
  exact (List.cons.inj hcut).1.symm

theorem split_plain (s : List Char) (h : IsPlain s) : split s = [] := by
  have hs := splitFrom_plain 0 [] s [] h
  rw [List.append_nil] at hs
  rw [split, hs]
  rfl

/-- Commands with text without parentheses before each of them are cut where they end; what stands
behind the last one is dropped. -/
theorem split_commands (pieces : List (List Char × List Char)) (trail : List Char)
    (h : ∀ p ∈ pieces, IsPlain p.1 ∧ IsCommand p.2) (ht : IsPlain trail) :
    split ((pieces.map fun p => p.1 ++ p.2).flatten ++ trail) =
      pieces.map fun p => p.1 ++ p.2 := by
  induction pieces with
  | nil => exact split_plain trail ht
  | cons p pieces ih =>
    have hp := h p List.mem_cons_self
    rw [List.map_cons, List.flatten_cons, List.append_assoc, split_command _ _ _ hp.1 hp.2,
      ih fun q hq => h q (List.mem_cons_of_mem p hq)]

end Validity.Command
