import Mathlib.Data.List.Infix
import Validity.Proofs.Balanced

/-!
Where texts are cut, balanced or not. A cut comes behind a closing parenthesis once as many
parentheses were closed as opened since the last cut, in whatever order. Where a piece ends depends
on the piece alone, so pieces can be taken away or put together and are found again.
-/
namespace Validity.Command

/-- How many more parentheses a text opens than it closes. It may close more than it opens. -/
def level (s : List Char) : Int := s.count '(' - s.count ')'

def Closes (depth : Int) (s : List Char) : Prop := s.getLast? = some ')' ∧ depth + level s = 0

structure IsPiece (depth : Int) (s : List Char) : Prop where
  closes : Closes depth s
  first : ∀ p, p <+: s → Closes depth p → p = s

theorem level_cons (c : Char) (s : List Char) : level (c :: s) = level [c] + level s := by
  have hopen := List.count_cons (a := '(') (b := c) (l := s)
  have hclose := List.count_cons (a := ')') (b := c) (l := s)
  have hopen' := List.count_cons (a := '(') (b := c) (l := [])
  have hclose' := List.count_cons (a := ')') (b := c) (l := [])
  simp only [level, List.count_nil] at *
  omega

theorem level_close : level [')'] = -1 := rfl

theorem level_plain {c : Char} (hopen : c ≠ '(') (hclose : c ≠ ')') : level [c] = 0 := by
  simp [level, hopen, hclose]

/-- What one character does: it ends the command or changes the depth. -/
theorem splitFrom_cons (depth : Int) (before : List Char) (c : Char) (s : List Char) :
    splitFrom depth before (c :: s) =
      if c = ')' ∧ depth = 1 then (c :: before).reverse :: split s
      else splitFrom (depth + level [c]) (c :: before) s := by
  by_cases hclose : c = ')'
  · subst hclose
    by_cases hdepth : depth = 1
    · rw [if_pos ⟨rfl, hdepth⟩, splitFrom, if_pos hdepth, split]
    · have hnot : ¬ (')' = ')' ∧ depth = 1) := fun h => hdepth h.2
      rw [if_neg hnot, splitFrom_close _ _ _ hdepth, level_close, Int.sub_eq_add_neg]
  · rw [if_neg fun h => hclose h.1]
    by_cases hopen : c = '('
    · subst hopen
      rfl
    · have hplain : IsPlain [c] := by simpa [IsPlain] using ⟨hopen, hclose⟩
      rw [level_plain hopen hclose, Int.add_zero]
      exact splitFrom_plain depth before [c] s hplain

theorem closes_singleton {depth : Int} {c : Char} : Closes depth [c] ↔ c = ')' ∧ depth = 1 := by
  rw [Closes, List.getLast?_singleton, Option.some.injEq]
  apply and_congr_right
  rintro rfl
  rw [level_close]
  omega

/-- The first character counts towards the depth at which the rest starts. -/
theorem closes_cons {depth : Int} {c : Char} {s : List Char} (hs : s ≠ []) :
    Closes depth (c :: s) ↔ Closes (depth + level [c]) s := by
  rw [Closes, Closes, level_cons, List.getLast?_cons_of_ne_nil hs, Int.add_assoc]

theorem not_closes_nil (depth : Int) : ¬ Closes depth [] := by
  rintro ⟨hlast, _⟩
  cases hlast

theorem Closes.ne_nil {depth : Int} {s : List Char} (h : Closes depth s) : s ≠ [] := by
  rintro rfl
  exact not_closes_nil depth h

/-- Behind a character that ends nothing, what closes goes on with the rest of the text. -/
theorem Closes.of_prefix_cons {depth : Int} {c : Char} {p s : List Char} (h : Closes depth p)
    (hp : p <+: c :: s) (hc : ¬ (c = ')' ∧ depth = 1)) :
    ∃ q, p = c :: q ∧ q <+: s ∧ Closes (depth + level [c]) q := by
  obtain ⟨q, rfl, hq⟩ := (List.prefix_cons_iff.mp hp).resolve_left h.ne_nil
  have hne : q ≠ [] := by
    rintro rfl
    exact hc (closes_singleton.mp h)
  exact ⟨q, rfl, hq, (closes_cons hne).mp h⟩

namespace IsPiece

variable {depth : Int} {c : Char} {s : List Char}

theorem close : IsPiece 1 [')'] := by
  refine ⟨closes_singleton.mpr ⟨rfl, rfl⟩, fun p hp hcloses => ?_⟩
  apply hp.eq_of_length_le
  exact List.length_pos_of_ne_nil hcloses.ne_nil

/-- A character that ends nothing can be put before a piece. -/
theorem cons (hc : ¬ (c = ')' ∧ depth = 1)) (hs : IsPiece (depth + level [c]) s) :
    IsPiece depth (c :: s) := by
  refine ⟨(closes_cons hs.closes.ne_nil).mpr hs.closes, fun p hp hcloses => ?_⟩
  -- the character alone closes nothing, so an earlier cut would be inside the piece
  obtain ⟨q, rfl, hq, hqcloses⟩ := hcloses.of_prefix_cons hp hc
  rw [hs.first q hq hqcloses]

/-- The first character ends a piece or can be taken off it. -/
theorem of_cons (h : IsPiece depth (c :: s)) :
    (c = ')' ∧ depth = 1 ∧ s = []) ∨ ¬ (c = ')' ∧ depth = 1) ∧ IsPiece (depth + level [c]) s := by
  by_cases hc : c = ')' ∧ depth = 1
  · have hs := h.first [c] (List.prefix_append [c] s) (closes_singleton.mpr hc)
    exact .inl ⟨hc.1, hc.2, (List.cons.inj hs).2.symm⟩
  · have hne : s ≠ [] := by
      rintro rfl
      exact hc (closes_singleton.mp h.closes)
    refine .inr ⟨hc, (closes_cons hne).mp h.closes, fun p hp hcloses => ?_⟩
    have hp' : c :: p <+: c :: s := (List.prefix_cons_inj c).mpr hp
    exact (List.cons.inj (h.first _ hp' ((closes_cons hcloses.ne_nil).mpr hcloses))).2

end IsPiece

/-- A piece at the front is cut off, whatever stands behind it. -/
theorem splitFrom_piece {depth : Int} {s : List Char} (hs : IsPiece depth s)
    (before rest : List Char) :
    splitFrom depth before (s ++ rest) = (before.reverse ++ s) :: split rest := by
  induction s generalizing depth before with
  | nil => exact absurd hs.closes (not_closes_nil depth)
  | cons c s ih =>
    rw [List.cons_append, splitFrom_cons]
    rcases hs.of_cons with ⟨hc, hdepth, rfl⟩ | ⟨hc, hs'⟩
    · rw [if_pos ⟨hc, hdepth⟩, List.reverse_cons, List.nil_append]
    · rw [if_neg hc, ih hs', List.reverse_cons, List.append_assoc, List.singleton_append]

theorem split_piece {s : List Char} (hs : IsPiece 0 s) (rest : List Char) :
    split (s ++ rest) = s :: split rest := by
  exact splitFrom_piece hs [] rest

/-- A text starts with a piece, or it has no place to cut. -/
theorem piece_or_uncut (depth : Int) (before text : List Char) :
    (∃ s rest, text = s ++ rest ∧ IsPiece depth s) ∨
      splitFrom depth before text = [] ∧ ∀ p, p <+: text → ¬ Closes depth p := by
  induction text generalizing depth before with
  | nil =>
    refine .inr ⟨rfl, fun p hp => ?_⟩
    rw [List.prefix_nil.mp hp]
    exact not_closes_nil depth
  | cons c text ih =>
    by_cases hc : c = ')' ∧ depth = 1
    · obtain ⟨rfl, rfl⟩ := hc
      exact .inl ⟨[')'], text, rfl, .close⟩
    rcases ih (depth + level [c]) (c :: before) with ⟨s, rest, rfl, hs⟩ | ⟨hnone, huncut⟩
    · exact .inl ⟨c :: s, rest, rfl, hs.cons hc⟩
    · refine .inr ⟨?_, fun p hp hcloses => ?_⟩
      · rw [splitFrom_cons, if_neg hc, hnone]
      · obtain ⟨q, _, hq, hqcloses⟩ := hcloses.of_prefix_cons hp hc
        exact huncut q hq hqcloses

/-- A text is its pieces and then something without a place to cut. -/
theorem split_pieces (text : List Char) :
    (∀ c ∈ split text, IsPiece 0 c) ∧
      ∃ rest, text = (split text).flatten ++ rest ∧ ∀ p, p <+: rest → ¬ Closes 0 p := by
  induction hn : text.length using Nat.strong_induction_on generalizing text with
  | _ n ih =>
    rcases piece_or_uncut 0 [] text with ⟨s, rest, rfl, hs⟩ | ⟨hnone, huncut⟩
    · have hshorter : rest.length < n := by
        have hpos := List.length_pos_of_ne_nil hs.closes.ne_nil
        rw [← hn, List.length_append]
        omega
      obtain ⟨hpieces, rest', hrest, huncut⟩ := ih rest.length hshorter rest rfl
      rw [split_piece hs]
      refine ⟨List.forall_mem_cons.mpr ⟨hs, hpieces⟩, rest', ?_, huncut⟩
      rw [List.flatten_cons, List.append_assoc, ← hrest]
    · have hsplit : split text = [] := hnone
      rw [hsplit]
      exact ⟨fun c hc => absurd hc List.not_mem_nil, text, rfl, huncut⟩

/-- Pieces that are put together are cut apart again. -/
theorem split_flatten_append (l : List (List Char)) (hl : ∀ c ∈ l, IsPiece 0 c)
    (rest : List Char) : split (l.flatten ++ rest) = l ++ split rest := by
  induction l with
  | nil => rfl
  | cons c l ih =>
    obtain ⟨hc, hl'⟩ := List.forall_mem_cons.mp hl
    calc
      split ((c :: l).flatten ++ rest) = split (c ++ (l.flatten ++ rest)) := by
        rw [List.flatten_cons, List.append_assoc]
      _ = c :: split (l.flatten ++ rest) := split_piece hc _
      _ = c :: (l ++ split rest) := by rw [ih hl']

/-- Pieces that were joined are cut apart again. -/
theorem split_flatten (l : List (List Char)) (hl : ∀ c ∈ l, IsPiece 0 c) :
    split l.flatten = l := by
  have hsplit := split_flatten_append l hl []
  rwa [List.append_nil, show split [] = [] from rfl, List.append_nil] at hsplit

end Validity.Command
