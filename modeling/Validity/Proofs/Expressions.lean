import Mathlib.Tactic.Common
import Validity.Term.Smtlib

/-!
Texts in parentheses. A text is read character by character: words end at blanks and parentheses, a
word between bars ends at its closing bar, and what stands between two parentheses is one
expression. An expression with proper words is read back from its text, so no two such expressions
share a text.
-/
namespace Validity

inductive Expression where
  | word (w : List Char)
  | node (es : List Expression)

namespace Expression

mutual

def text : Expression → List Char
  | .word w => w
  | .node es => '(' :: ([' '].intercalate (texts es) ++ [')'])

def texts : List Expression → List (List Char)
  | [] => []
  | e :: es => text e :: texts es

end

@[simp] theorem text_word (w : List Char) : (word w).text = w := rfl

theorem texts_eq_map (es : List Expression) : texts es = es.map text := by
  induction es with
  | nil => rfl
  | cons e es ih => rw [texts, ih, List.map_cons]

end Expression

def isWordChar (c : Char) : Bool := isSymbolChar c || c == '#'

def isGap (c : Char) : Bool := c == ' ' || c == '\n' || c == '\r' || c == '\t'

def isToken (w : List Char) : Bool := (!w.isEmpty && w.all isWordChar) || isBarredName w

theorem isBarredName_iff (w : List Char) :
    isBarredName w = true ↔ ∃ cs, w = '|' :: cs ∧ closesBar cs = true := by
  constructor
  · intro h
    unfold isBarredName at h
    split at h
    · exact ⟨_, rfl, h⟩
    · cases h
  · rintro ⟨cs, rfl, h⟩
    exact h

inductive Expression.Proper : Expression → Prop where
  | word (w : List Char) : isToken w = true → Proper (.word w)
  | node (es : List Expression) : (∀ e ∈ es, Proper e) → Proper (.node es)

inductive Scan.Mode where
  | gap
  | word (w : List Char)
  | barred (w : List Char)
  | escaped (w : List Char)

/-- A reader: what stands before each open parenthesis, innermost first, and what has been read
behind the last of them. -/
structure Scan where
  outer : List (List Expression) := []
  inner : List Expression := []
  mode : Scan.Mode := .gap

namespace Scan

def put (s : Scan) (e : Expression) : Scan := { s with inner := s.inner ++ [e], mode := .gap }

def putAll (s : Scan) (es : List Expression) : Scan :=
  { s with inner := s.inner ++ es, mode := .gap }

def settle (s : Scan) : Scan :=
  match s.mode with
  | .word w => s.put (.word w)
  | _ => s

def opened (s : Scan) : Scan := { outer := s.inner :: s.outer }

def closed (s : Scan) : Option Scan :=
  match s.outer with
  | [] => none
  | es :: outer => some { outer, inner := es ++ [.node s.inner] }

def current (s : Scan) : List Char :=
  match s.mode with
  | .word w => w
  | _ => []

def advance (s : Scan) (c : Char) : Option Scan :=
  if c = '(' then some s.settle.opened
  else if c = ')' then s.settle.closed
  else if c = '|' then some { s.settle with mode := .barred ['|'] }
  else if isGap c then some s.settle
  else if isWordChar c then some { s with mode := .word (s.current ++ [c]) }
  else none

def step (s : Scan) (c : Char) : Option Scan :=
  match s.mode with
  | .barred w =>
    some (if c = '|' then s.put (.word (w ++ [c]))
      else if c = '\\' then { s with mode := .escaped (w ++ [c]) }
      else { s with mode := .barred (w ++ [c]) })
  | .escaped w => some { s with mode := .barred (w ++ [c]) }
  | .gap | .word _ => s.advance c

def Free (s : Scan) : Prop := s.mode = .gap ∨ ∃ w, s.mode = .word w

def Reads (s : Scan) (cs : List Char) (t : Scan) : Prop :=
  ∃ u, cs.foldlM step s = some u ∧ u.Free ∧ u.settle = t

end Scan

/-- The expressions of a text, if it can be read: every parenthesis has its partner, every bar is
closed, and other characters than those of words stand between bars only. -/
def readExpressions (text : List Char) : Option (List Expression) :=
  match text.foldlM Scan.step {} with
  | none => none
  | some s =>
    match s.settle with
    | { outer := [], inner := es, mode := .gap } => some es
    | _ => none

namespace Scan

theorem step_of_free {s : Scan} (hs : s.Free) (c : Char) : s.step c = s.advance c := by
  rcases hs with hs | ⟨w, hs⟩
  · rw [step, hs]
  · rw [step, hs]

theorem step_open {s : Scan} (hs : s.Free) : s.step '(' = some s.settle.opened := by
  rw [step_of_free hs, advance, if_pos rfl]

theorem step_close {s : Scan} (hs : s.Free) : s.step ')' = s.settle.closed := by
  rw [step_of_free hs, advance, if_neg (by decide), if_pos rfl]

theorem step_gap {s : Scan} (hs : s.Free) (c : Char) (hc : isGap c = true) :
    s.step c = some s.settle := by
  have hne (d : Char) (hd : isGap d = false) : c ≠ d := by
    rintro rfl
    rw [hc] at hd
    cases hd
  rw [step_of_free hs, advance, if_neg (hne '(' (by decide)), if_neg (hne ')' (by decide)),
    if_neg (hne '|' (by decide)), if_pos hc]

/-- A word character goes on with the word that is being read, or begins one. -/
theorem step_word {s : Scan} (hs : s.Free) (c : Char) (hc : isWordChar c = true) :
    s.step c = some { s with mode := .word (s.current ++ [c]) } := by
  have hne (d : Char) (hd : isWordChar d = false) : c ≠ d := by
    rintro rfl
    rw [hc] at hd
    cases hd
  have hgap : ¬ isGap c = true := by
    simp only [isGap, Bool.or_eq_true, beq_iff_eq, not_or]
    exact ⟨⟨⟨hne _ (by decide), hne _ (by decide)⟩, hne _ (by decide)⟩, hne _ (by decide)⟩
  rw [step_of_free hs, advance, if_neg (hne '(' (by decide)), if_neg (hne ')' (by decide)),
    if_neg (hne '|' (by decide)), if_neg hgap, if_pos hc]

theorem settle_of_gap {s : Scan} (hs : s.mode = .gap) : s.settle = s := by
  rw [settle, hs]

/-- A run of word characters goes on with the word that is being read. -/
theorem foldlM_word (s : Scan) (v w : List Char) (hw : w.all isWordChar = true) :
    w.foldlM step { s with mode := .word v } = some { s with mode := .word (v ++ w) } := by
  induction w generalizing v with
  | nil => simp
  | cons c w ih =>
    rw [List.all_cons, Bool.and_eq_true] at hw
    rw [List.foldlM_cons, step_word (.inr ⟨v, rfl⟩) c hw.1]
    change w.foldlM step { s with mode := .word (v ++ [c]) } = _
    rw [ih _ hw.2, List.append_assoc, List.singleton_append]

/-- The rest of a name between bars ends the word, at the closing bar and not before. -/
theorem foldlM_barred (s : Scan) (v cs : List Char) (hc : closesBar cs = true) :
    cs.foldlM step { s with mode := .barred v } = some (s.put (.word (v ++ cs))) := by
  induction cs using closesBar.induct generalizing v with
  | case1 => cases hc
  | case2 => rfl
  | case3 c cs ih =>
    -- two characters at once: the backslash and what stands behind it
    simp only [closesBar, Bool.and_eq_true] at hc
    have hword : v ++ '\\' :: c :: cs = v ++ ['\\'] ++ [c] ++ cs := by simp
    rw [hword]
    exact ih (v ++ ['\\'] ++ [c]) hc.2
  | case4 c cs hbar hesc ih =>
    rw [closesBar.eq_4 c cs hbar hesc] at hc
    simp only [Bool.and_eq_true, bne_iff_ne, ne_eq] at hc
    obtain ⟨⟨hne, hne'⟩, hcs⟩ := hc
    have hstep : step { s with mode := .barred v } c =
        some { s with mode := .barred (v ++ [c]) } := by
      simp only [step, if_neg hne, if_neg hne']
    rw [List.foldlM_cons, hstep]
    change cs.foldlM step { s with mode := .barred (v ++ [c]) } = _
    rw [ih _ hcs, List.append_assoc, List.singleton_append]

/-- A token is read as one word. -/
theorem reads_word (s : Scan) (hs : s.mode = .gap) (w : List Char) (hw : isToken w = true) :
    s.Reads w (s.put (.word w)) := by
  rcases Bool.or_eq_true _ _ |>.mp hw with hrun | hbarred
  · rw [Bool.and_eq_true, Bool.not_eq_true', List.isEmpty_eq_false_iff] at hrun
    obtain ⟨c, cs, rfl⟩ := List.exists_cons_of_ne_nil hrun.1
    have hcs : isWordChar c = true ∧ cs.all isWordChar = true := by simpa using hrun.2
    have hcurrent : s.current = [] := by rw [current, hs]
    refine ⟨{ s with mode := .word (c :: cs) }, ?_, .inr ⟨_, rfl⟩, rfl⟩
    rw [List.foldlM_cons, step_word (.inl hs) c hcs.1, hcurrent]
    exact foldlM_word s [c] cs hcs.2
  · obtain ⟨cs, rfl, hcs⟩ := (isBarredName_iff w).mp hbarred
    have hfirst : s.step '|' = some { s with mode := .barred ['|'] } := by
      rw [step_of_free (.inl hs), advance, settle_of_gap hs]
      rfl
    refine ⟨s.put (.word ('|' :: cs)), ?_, .inl rfl, settle_of_gap rfl⟩
    rw [List.foldlM_cons, hfirst]
    exact foldlM_barred s ['|'] cs hcs

/-- What is separated by a gap is read one after the other. -/
theorem Reads.trans {s t u : Scan} {cs ds : List Char} {c : Char} (hc : isGap c = true)
    (h : s.Reads cs t) (h' : t.Reads ds u) : s.Reads (cs ++ c :: ds) u := by
  obtain ⟨v, hv, hfree, rfl⟩ := h
  obtain ⟨w, hw, hfree', rfl⟩ := h'
  refine ⟨w, ?_, hfree', rfl⟩
  rw [List.foldlM_append, hv]
  change (c :: ds).foldlM step v = some w
  rw [List.foldlM_cons, step_gap hfree c hc]
  exact hw

/-- Expressions with blanks between them are read in order. -/
theorem reads_intercalate (es : List Expression)
    (ih : ∀ e ∈ es, ∀ s : Scan, s.mode = .gap → s.Reads e.text (s.put e)) (s : Scan)
    (hs : s.mode = .gap) : s.Reads ([' '].intercalate (es.map Expression.text)) (s.putAll es) := by
  induction es generalizing s with
  | nil =>
    refine ⟨s, rfl, .inl hs, ?_⟩
    rw [settle_of_gap hs, putAll, List.append_nil, ← hs]
  | cons e es ihs =>
    have hfirst := ih e List.mem_cons_self s hs
    cases es with
    | nil => simpa [List.intercalate, put, putAll] using hfirst
    | cons e' es =>
      have hrest := ihs (fun d hd => ih d (List.mem_cons_of_mem e hd)) (s.put e) rfl
      have hboth := hfirst.trans (c := ' ') (by decide) hrest
      have hput : (s.put e).putAll (e' :: es) = s.putAll (e :: e' :: es) := by
        simp [put, putAll]
      rw [hput] at hboth
      simpa [List.intercalate] using hboth

/-- An expression in parentheses is complete at its last character. -/
theorem foldlM_node (es : List Expression)
    (ih : ∀ e ∈ es, ∀ s : Scan, s.mode = .gap → s.Reads e.text (s.put e)) (s : Scan)
    (hs : s.mode = .gap) : (Expression.node es).text.foldlM step s = some (s.put (.node es)) := by
  obtain ⟨u, hu, hfree, hsettle⟩ := reads_intercalate es ih s.opened rfl
  have hclose : u.settle.closed = some (s.put (.node es)) := by
    rw [hsettle]
    rfl
  rw [Expression.text, Expression.texts_eq_map, List.foldlM_cons, step_open (.inl hs),
    settle_of_gap hs]
  change List.foldlM step s.opened _ = _
  rw [List.foldlM_append, hu]
  change List.foldlM step u [')'] = _
  rw [List.foldlM_cons, step_close hfree, hclose]
  rfl

/-- A proper expression is read from its text, wherever the text stands between blanks or
parentheses. -/
theorem reads_text (e : Expression) (he : e.Proper) (s : Scan) (hs : s.mode = .gap) :
    s.Reads e.text (s.put e) := by
  induction he generalizing s with
  | word w hw => exact reads_word s hs w hw
  | node es _ ih => exact ⟨s.put (.node es), foldlM_node es ih s hs, .inl rfl, settle_of_gap rfl⟩

theorem foldlM_gap (gap : List Char) (hg : ∀ c ∈ gap, isGap c = true) (s : Scan)
    (hs : s.mode = .gap) : gap.foldlM step s = some s := by
  induction gap with
  | nil => rfl
  | cons c gap ih =>
    rw [List.foldlM_cons, step_gap (.inl hs) c (hg c List.mem_cons_self), settle_of_gap hs]
    exact ih fun d hd => hg d (List.mem_cons_of_mem c hd)

/-- Nodes with gaps before them are read in order. -/
theorem foldlM_pieces (pieces : List (List Char × List Expression))
    (h : ∀ p ∈ pieces, (∀ c ∈ p.1, isGap c = true) ∧ (Expression.node p.2).Proper) (s : Scan)
    (hs : s.mode = .gap) :
    (pieces.map fun p => p.1 ++ (Expression.node p.2).text).flatten.foldlM step s =
      some (s.putAll (pieces.map fun p => .node p.2)) := by
  induction pieces generalizing s with
  | nil =>
    rw [List.map_nil, List.map_nil, putAll, List.append_nil, ← hs]
    rfl
  | cons p pieces ih =>
    obtain ⟨hgap, hproper⟩ := h p List.mem_cons_self
    cases hproper with
    | node _ hes =>
      have hnode := foldlM_node p.2 (fun e he => reads_text e (hes e he)) s hs
      have hrest := ih (fun q hq => h q (List.mem_cons_of_mem p hq)) (s.put (.node p.2)) rfl
      have hput : (s.put (.node p.2)).putAll (pieces.map fun q => .node q.2) =
          s.putAll ((p :: pieces).map fun q => .node q.2) := by
        simp [put, putAll]
      rw [List.map_cons, List.flatten_cons, List.foldlM_append, List.foldlM_append,
        foldlM_gap p.1 hgap s hs]
      change (List.foldlM step s (Expression.node p.2).text).bind _ = _
      rw [hnode, ← hput]
      exact hrest

end Scan

/-- The text of a proper expression determines it. -/
theorem Expression.Proper.eq_of_text {d e : Expression} (hd : d.Proper) (he : e.Proper)
    (h : d.text = e.text) : d = e := by
  obtain ⟨s, hs, -, hd'⟩ := Scan.reads_text d hd {} rfl
  obtain ⟨t, ht, -, he'⟩ := Scan.reads_text e he {} rfl
  rw [h, ht] at hs
  obtain rfl := Option.some.inj hs
  have hput : Scan.put {} d = Scan.put {} e := hd'.symm.trans he'
  simpa [Scan.put] using congrArg Scan.inner hput

/-- Expressions in parentheses, with blanks before each of them, are read as they are. -/
theorem readExpressions_pieces (pieces : List (List Char × List Expression))
    (h : ∀ p ∈ pieces, (∀ c ∈ p.1, isGap c = true) ∧ (Expression.node p.2).Proper) :
    readExpressions (pieces.map fun p => p.1 ++ (Expression.node p.2).text).flatten =
      some (pieces.map fun p => .node p.2) := by
  rw [readExpressions, Scan.foldlM_pieces pieces h {} rfl]
  simp [Scan.settle, Scan.putAll]

end Validity
