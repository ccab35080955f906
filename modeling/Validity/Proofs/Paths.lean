import Mathlib
import Validity.Path
import Validity.Proofs.Occurrence

/-!
Normal forms of paths. The text of a normal path is read back as that path, so two texts have the
same normal form iff they start in the same place and take the same steps. Which of them still have
a slash in their normal form follows from the same two things.
-/
namespace Validity

namespace Text

theorem pieces_ne_nil (mark : Char) (s : List Char) : pieces mark s ≠ [] := by
  cases s with
  | nil => exact List.cons_ne_nil _ _
  | cons c s =>
    rw [pieces]
    split
    · exact List.cons_ne_nil _ _
    · split_ifs <;> exact List.cons_ne_nil _ _

/-- What one character does: a mark starts a piece, any other character joins the first one. -/
theorem pieces_cons (mark c : Char) (s : List Char) : pieces mark (c :: s) =
    if c = mark then [] :: pieces mark s else (pieces mark s).modifyHead (c :: ·) := by
  obtain ⟨p, ps, hps⟩ := List.exists_cons_of_ne_nil (pieces_ne_nil mark s)
  rw [pieces, hps, List.modifyHead_cons]

theorem pieces_cons_mark (mark : Char) (s : List Char) :
    pieces mark (mark :: s) = [] :: pieces mark s := by
  rw [pieces_cons, if_pos rfl]

/-- Cutting at a mark is the split of the library. -/
theorem pieces_eq_splitOn (mark : Char) (s : List Char) : pieces mark s = s.splitOn mark := by
  rw [List.splitOn_eq_splitOnP]
  induction s with
  | nil => simp [pieces]
  | cons c s ih =>
    rw [pieces_cons, List.splitOnP_cons_eq_if_modifyHead, ih]
    simp only [beq_iff_eq]

/-- Texts without the mark that are put together with it are cut apart again. -/
theorem pieces_intercalate (mark : Char) (l : List (List Char)) (hl : ∀ s ∈ l, mark ∉ s)
    (hne : l ≠ []) : pieces mark ([mark].intercalate l) = l := by
  rw [pieces_eq_splitOn]
  exact List.splitOn_intercalate mark hl hne

theorem mark_not_mem_pieces {mark : Char} {s p : List Char} (hp : p ∈ pieces mark s) :
    mark ∉ p := by
  induction s generalizing p with
  | nil =>
    rw [pieces, List.mem_singleton] at hp
    rw [hp]
    exact List.not_mem_nil
  | cons c s ih =>
    obtain ⟨q, qs, hqs⟩ := List.exists_cons_of_ne_nil (pieces_ne_nil mark s)
    rw [pieces_cons] at hp
    split_ifs at hp with hc
    · rcases List.mem_cons.mp hp with rfl | hp
      · exact List.not_mem_nil
      · exact ih hp
    · rw [hqs, List.modifyHead_cons] at hp
      rcases List.mem_cons.mp hp with rfl | hp
      · -- the first piece grows by a character that is no mark
        have hq : mark ∉ q := ih (hqs ▸ List.mem_cons_self)
        simpa [hq] using Ne.symm hc
      · exact ih (hqs ▸ List.mem_cons_of_mem q hp)

theorem pieces_of_not_mem {mark : Char} {s : List Char} (h : mark ∉ s) : pieces mark s = [s] := by
  have hpieces := pieces_intercalate mark [s] (by simpa using h) (List.cons_ne_nil s [])
  rwa [List.intercalate_singleton] at hpieces

end Text

namespace Path

open Text

def IsNormal (p : Path) : Prop := ∀ s ∈ p.parts, isStep s = true ∧ '/' ∉ s

theorem isStep_iff (s : List Char) : isStep s = true ↔ s ≠ [] ∧ s ≠ ['.'] := by
  simp [isStep]

/-- Whatever is read, the components are steps. -/
theorem parse_isNormal (s : List Char) : (parse s).IsNormal := by
  intro r hr
  obtain ⟨hmem, hstep⟩ := List.mem_filter.mp hr
  exact ⟨hstep, mark_not_mem_pieces hmem⟩

theorem rootOf_eq_here_iff (s : List Char) : rootOf s = .here ↔ s.head? ≠ some '/' := by
  have hslashes : rootOf s = .here ↔ (s.takeWhile (· == '/')).length = 0 := by
    unfold rootOf
    split <;> simp_all
  rw [hslashes, List.length_eq_zero_iff]
  cases s with
  | nil => simp
  | cons c s => by_cases hc : c = '/' <;> simp [hc]

theorem rootOf_ne_here_iff (s : List Char) : rootOf s ≠ .here ↔ s.head? = some '/' :=
  not_iff_comm.mp (rootOf_eq_here_iff s).symm

theorem rootText_eq_nil_iff (r : Root) : rootText r = [] ↔ r = .here := by
  cases r <;> simp [rootText]

theorem text_ne_nil (p : Path) : p.text ≠ [] := by
  unfold text
  split
  · exact List.cons_ne_nil _ _
  · assumption

/-- The slashes of a root are read as that root, unless there are more behind them. -/
theorem rootOf_append (r : Root) (s : List Char) (hs : s.head? ≠ some '/') :
    rootOf (rootText r ++ s) = r := by
  have hslashes : ∀ c ∈ rootText r, (c == '/') = true := by
    cases r <;> simp [rootText]
  have hnone : s.takeWhile (· == '/') = [] := by
    cases s with
    | nil => rfl
    | cons c s => exact List.takeWhile_cons_of_neg (by simpa using hs)
  have htake : (rootText r ++ s).takeWhile (· == '/') = rootText r := by
    rw [List.takeWhile_append_of_pos hslashes, hnone, List.append_nil]
  rw [rootOf, htake]
  cases r <;> rfl

/-- Slashes in front add no steps. -/
theorem steps_rootText (r : Root) (s : List Char) :
    (pieces '/' (rootText r ++ s)).filter isStep = (pieces '/' s).filter isStep := by
  have hslash (t : List Char) :
      (pieces '/' ('/' :: t)).filter isStep = (pieces '/' t).filter isStep := by
    rw [pieces_cons_mark, List.filter_cons_of_neg (by decide)]
  cases r with
  | here => rfl
  | single => exact hslash s
  | double => exact (hslash ('/' :: s)).trans (hslash s)

namespace IsNormal

variable {p : Path}

theorem exists_cons_body (hp : p.IsNormal) (hne : p.parts ≠ []) :
    ∃ c r, ['/'].intercalate p.parts = c :: r ∧ c ≠ '/' := by
  obtain ⟨s, l, hparts⟩ := List.exists_cons_of_ne_nil hne
  obtain ⟨hstep, hslash⟩ := hp s (hparts ▸ List.mem_cons_self)
  -- the body starts as its first component does
  obtain ⟨c, r, rfl⟩ := List.exists_cons_of_ne_nil ((isStep_iff s).mp hstep).1
  rw [hparts, intercalate_cons_eq]
  exact ⟨c, _, rfl, fun h => hslash (h ▸ List.mem_cons_self)⟩

/-- The components in normal form do not start with a slash, which would count to the root. -/
theorem body_head (hp : p.IsNormal) : (['/'].intercalate p.parts).head? ≠ some '/' := by
  by_cases hne : p.parts = []
  · simp [hne]
  · obtain ⟨c, r, hbody, hc⟩ := hp.exists_cons_body hne
    simpa [hbody] using hc

/-- The steps of a body are the components. -/
theorem steps_body (hp : p.IsNormal) :
    (pieces '/' (['/'].intercalate p.parts)).filter isStep = p.parts := by
  by_cases hne : p.parts = []
  · rw [hne]
    rfl
  · rw [pieces_intercalate '/' _ (fun s hs => (hp s hs).2) hne]
    exact List.filter_eq_self.mpr fun s hs => (hp s hs).1

/-- Only the path that stays here without a step is written as a dot. -/
theorem text_of_steps (hp : p.IsNormal) (h : ¬ (p.root = .here ∧ p.parts = [])) :
    p.text = rootText p.root ++ ['/'].intercalate p.parts := by
  have hne : rootText p.root ++ ['/'].intercalate p.parts ≠ [] := by
    intro hnil
    obtain ⟨hroot, hbody⟩ := List.append_eq_nil_iff.mp hnil
    refine h ⟨(rootText_eq_nil_iff _).mp hroot, ?_⟩
    by_contra hne
    obtain ⟨c, r, hcons, _⟩ := hp.exists_cons_body hne
    rw [hbody] at hcons
    cases hcons
  unfold text
  split
  · contradiction
  · rfl

/-- A normal path is read from its text. -/
theorem parse_text (hp : p.IsNormal) : parse p.text = p := by
  by_cases hdot : p.root = .here ∧ p.parts = []
  · -- the dot says no more than that the path starts here
    obtain ⟨root, parts⟩ := p
    obtain ⟨rfl, rfl⟩ := hdot
    rfl
  · rw [hp.text_of_steps hdot, parse, rootOf_append _ _ hp.body_head, steps_rootText,
      hp.steps_body]

/-- The text has a slash iff the path is rooted or has several components. -/
theorem slash_mem_text_iff (hp : p.IsNormal) :
    '/' ∈ p.text ↔ p.root ≠ .here ∨ 2 ≤ p.parts.length := by
  by_cases hdot : p.root = .here ∧ p.parts = []
  · obtain ⟨root, parts⟩ := p
    obtain ⟨rfl, rfl⟩ := hdot
    decide
  · have hroot : '/' ∈ rootText p.root ↔ p.root ≠ .here := by
      cases p.root <;> simp [rootText]
    have hbody : '/' ∈ ['/'].intercalate p.parts ↔ 2 ≤ p.parts.length := by
      cases hparts : p.parts with
      | nil => simp
      | cons s l =>
        cases l with
        | nil => simpa using (hp s (by simp [hparts])).2
        | cons q l => simp [List.intercalate_cons_cons]
    rw [hp.text_of_steps hdot, List.mem_append, hroot, hbody]

end IsNormal

/-- Two texts have the same normal form iff they are read as the same path. -/
theorem text_parse_eq_iff (s r : List Char) :
    (parse s).text = (parse r).text ↔ parse s = parse r := by
  constructor
  · intro h
    have hread := congrArg parse h
    rwa [(parse_isNormal s).parse_text, (parse_isNormal r).parse_text] at hread
  · exact congrArg text

/-- A text without a slash is its own normal form, except that the empty text is the dot. -/
theorem text_parse_of_bare {s : List Char} (h : '/' ∉ s) :
    (parse s).text = if s = [] then ['.'] else s := by
  have hroot : rootOf s = .here := by
    rw [rootOf_eq_here_iff]
    exact fun hhead => h (List.mem_of_head? hhead)
  rw [parse, hroot, pieces_of_not_mem h]
  by_cases hstep : isStep s = true
  · have hne := ((isStep_iff s).mp hstep).1
    have hnormal : IsNormal ⟨.here, [s]⟩ := by
      intro r hr
      rw [List.mem_singleton.mp hr]
      exact ⟨hstep, h⟩
    have htext := hnormal.text_of_steps fun hdot => List.cons_ne_nil s [] hdot.2
    rw [if_neg hne, List.filter_cons_of_pos hstep]
    simpa [rootText] using htext
  · rw [List.filter_cons_of_neg hstep]
    by_cases hempty : s = []
    · rw [if_pos hempty]
      rfl
    · have hdot : s = ['.'] := by
        by_contra hne
        exact hstep ((isStep_iff s).mpr ⟨hempty, hne⟩)
      rw [if_neg hempty, hdot]
      rfl

end Path

theorem normalPath_ne_empty (s : String) : normalPath s ≠ "" := by
  intro hempty
  apply Path.text_ne_nil (Path.parse s.toList)
  rw [← String.ofList_inj]
  exact hempty

/-- The normal form is the same path. -/
theorem parse_normalPath (s : String) :
    Path.parse (normalPath s).toList = Path.parse s.toList := by
  rw [normalPath, String.toList_ofList]
  exact (Path.parse_isNormal s.toList).parse_text

end Validity
