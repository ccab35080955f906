import Mathlib.Data.List.Infix
import Validity.Proofs.Balanced

/-!
Where a part can stand in a text that is put together from others. A part that does not have the
character between two texts stands in one of them; a part that opens a parenthesis and closes none
stands inside or behind a balanced text, never across its end. From this follows what a filter
drops, as a property of texts.
-/
namespace Validity

namespace Text

theorem occursIn_iff (part s : List Char) : occursIn part s = true ↔ part <:+: s := by
  induction s with
  | nil => rw [occursIn, List.isEmpty_iff, List.infix_nil]
  | cons c s ih =>
    rw [occursIn, Bool.or_eq_true, List.isPrefixOf_iff_prefix, ih, List.infix_cons_iff]

/-- A part without the character `c` stands before it or behind it. -/
theorem infix_of_append_cons {p s r : List Char} {c : Char} (hc : c ∉ p)
    (h : p <:+: s ++ c :: r) : p <:+: s ∨ p <:+: r := by
  have hstarts (q : List Char) (hq : c ∉ q) (hp : q <+: c :: r) : q = [] := by
    rcases List.prefix_cons_iff.mp hp with hnil | ⟨t, rfl, _⟩
    · exact hnil
    · exact absurd List.mem_cons_self hq
  rcases List.infix_append_iff.mp h with hs | hr | ⟨a, b, rfl, ha, hb⟩
  · exact .inl hs
  · rcases List.infix_cons_iff.mp hr with hp | hr
    · rw [hstarts p hc hp]
      exact .inl List.nil_infix
    · exact .inr hr
  · -- the part that reaches over the character does not get beyond it
    have hnil := hstarts b (fun hm => hc (List.mem_append_right a hm)) hb
    rw [hnil, List.append_nil]
    exact .inl ha.isInfix

theorem infix_of_cons {p r : List Char} {c : Char} (hc : c ∉ p) (h : p <:+: c :: r) :
    p <:+: r := by
  rcases infix_of_append_cons (s := []) hc h with hnil | hr
  · rw [List.infix_nil.mp hnil]
    exact List.nil_infix
  · exact hr

theorem infix_of_concat {p s : List Char} {c : Char} (hc : c ∉ p) (h : p <:+: s ++ [c]) :
    p <:+: s := by
  rcases infix_of_append_cons hc h with hs | hnil
  · exact hs
  · rw [List.infix_nil.mp hnil]
    exact List.nil_infix

theorem intercalate_cons_eq (c : Char) (s : List Char) (l : List (List Char)) :
    [c].intercalate (s :: l) = s ++ (l.map fun r => c :: r).flatten := by
  induction l generalizing s with
  | nil => simp
  | cons r l ih =>
    rw [List.intercalate_cons_cons, ih r]
    simp

/-- A part without the separator stands in one of the separated texts. -/
theorem infix_of_intercalate {p : List Char} {c : Char} (hp : p ≠ []) (hc : c ∉ p)
    (l : List (List Char)) (h : p <:+: [c].intercalate l) : ∃ s ∈ l, p <:+: s := by
  induction l with
  | nil => exact absurd (List.infix_nil.mp h) hp
  | cons s l ih =>
    cases l with
    | nil =>
      rw [List.intercalate_singleton] at h
      exact ⟨s, List.mem_cons_self, h⟩
    | cons r l =>
      rw [List.intercalate_cons_cons, List.append_assoc] at h
      rcases infix_of_append_cons hc h with hs | hrest
      · exact ⟨s, List.mem_cons_self, hs⟩
      · obtain ⟨q, hq, hpq⟩ := ih hrest
        exact ⟨q, List.mem_cons_of_mem s hq, hpq⟩

theorem infix_intercalate_of_mem {s : List Char} (g : List Char) (l : List (List Char))
    (h : s ∈ l) : s <:+: g.intercalate l := by
  induction l with
  | nil => exact absurd h List.not_mem_nil
  | cons r l ih =>
    cases l with
    | nil =>
      rw [List.intercalate_singleton, List.mem_singleton.mp h]
    | cons q l =>
      rw [List.intercalate_cons_cons]
      rcases List.mem_cons.mp h with rfl | hmem
      · rw [List.append_assoc]
        exact (List.prefix_append s _).isInfix
      · exact (ih hmem).trans (List.suffix_append _ _).isInfix

/-- Pieces that end with a character that `p` does not have keep `p` within one of them. -/
theorem infix_of_flatten {p : List Char} {c : Char} (hp : p ≠ []) (hc : c ∉ p)
    (l : List (List Char)) (hl : ∀ s ∈ l, ∃ r, s = r ++ [c]) (h : p <:+: l.flatten) :
    ∃ s ∈ l, p <:+: s := by
  induction l with
  | nil => exact absurd (List.infix_nil.mp h) hp
  | cons s l ih =>
    -- the character that ends the first piece parts it from the rest
    obtain ⟨r, rfl⟩ := hl s List.mem_cons_self
    rw [List.flatten_cons, List.append_assoc, List.singleton_append] at h
    rcases infix_of_append_cons hc h with hr | hrest
    · exact ⟨r ++ [c], List.mem_cons_self, hr.trans (List.prefix_append r [c]).isInfix⟩
    · obtain ⟨q, hq, hpq⟩ := ih (fun q hq => hl q (List.mem_cons_of_mem _ hq)) hrest
      exact ⟨q, List.mem_cons_of_mem _ hq, hpq⟩

/-- Two readings of one text as a run of `ok` characters and then another character are equal. -/
theorem run_unique {ok : Char → Bool} {v w r s : List Char} {x y : Char}
    (hv : v.all ok = true) (hw : w.all ok = true) (hx : ok x = false)
    (hy : ok y = false) (h : v ++ x :: r = w ++ y :: s) : v = w ∧ x = y ∧ r = s := by
  have hrun (u t : List Char) (z : Char) (hu : u.all ok = true) (hz : ok z = false) :
      (u ++ z :: t).takeWhile ok = u := by
    rw [List.takeWhile_append_of_pos (List.all_eq_true.mp hu),
      List.takeWhile_cons_of_neg (by simp [hz]), List.append_nil]
  -- each run is all that can be taken from the front
  have hvw : v = w := by
    have heq := congrArg (List.takeWhile ok) h
    rwa [hrun v r x hv hx, hrun w s y hw hy] at heq
  subst hvw
  have htail := List.append_cancel_left h
  exact ⟨rfl, List.cons.inj htail⟩

end Text

namespace Command

open Text

/-- A part that opens a parenthesis first and closes none ends before a balanced text does. -/
theorem Balanced.infix_of_append {s : List Char} (hs : Balanced s) {p r : List Char}
    (hclose : ')' ∉ p) (h : '(' :: p <:+: s ++ r) : '(' :: p <:+: s ∨ '(' :: p <:+: r := by
  have hfree : ')' ∉ '(' :: p := by simpa using hclose
  induction hs with
  | nil => exact .inr h
  | plain c s h1 _ _ ih =>
    rw [List.cons_append] at h
    rcases List.infix_cons_iff.mp h with hp | hi
    · exact absurd (List.cons_prefix_cons.mp hp).1.symm h1
    · rcases ih hi with hs | hr
      · exact .inl (List.infix_cons hs)
      · exact .inr hr
  | nested s q _ _ _ ihq =>
    -- no part without `)` reaches over the partner of the first parenthesis, so how the text
    -- inside it is nested does not matter
    have he : '(' :: (s ++ ')' :: q) ++ r = '(' :: s ++ ')' :: (q ++ r) := by simp
    rw [he] at h
    rcases infix_of_append_cons hfree h with hs | hrest
    · exact .inl (hs.trans (List.prefix_append _ _).isInfix)
    · rcases ihq hrest with hq | hr
      · have htail : q <:+: '(' :: (s ++ ')' :: q) :=
          ⟨'(' :: (s ++ [')']), [], by simp⟩
        exact .inl (hq.trans htail)
      · exact .inr hr

/-- An open parenthesis and what follows stand in one of several balanced texts. -/
theorem infix_of_intercalate_balanced {p : List Char} (hclose : ')' ∉ p) (l : List (List Char))
    (hl : ∀ s ∈ l, Balanced s) (h : '(' :: p <:+: [' '].intercalate l) :
    ∃ s ∈ l, '(' :: p <:+: s := by
  induction l with
  | nil => exact absurd (List.infix_nil.mp h) (List.cons_ne_nil _ _)
  | cons s l ih =>
    cases l with
    | nil =>
      rw [List.intercalate_singleton] at h
      exact ⟨s, List.mem_cons_self, h⟩
    | cons r l =>
      rw [List.intercalate_cons_cons, List.append_assoc] at h
      rcases (hl s List.mem_cons_self).infix_of_append hclose h with hs | hrest
      · exact ⟨s, List.mem_cons_self, hs⟩
      · -- it starts with a parenthesis, so not with the space
        rw [List.singleton_append] at hrest
        rcases List.infix_cons_iff.mp hrest with hp | hi
        · exact absurd (List.cons_prefix_cons.mp hp).1 (by decide)
        · obtain ⟨q, hq, hpq⟩ := ih (fun q hq => hl q (List.mem_cons_of_mem s hq)) hi
          exact ⟨q, List.mem_cons_of_mem s hq, hpq⟩

/-- What a declaration of `name` starts with: the opening, blanks, the name, and a blank or a
parenthesis that ends the name. -/
inductive Opening (name : List Char) : List Char → Prop where
  | mk (gap : List Char) (d : Char) : gap ≠ [] → (∀ c ∈ gap, isBlank c = true) →
      isBlank d = true ∨ d = '(' → Opening name (declareFun ++ gap ++ name ++ [d])

def Declares (name s : List Char) : Prop := ∃ p, Opening name p ∧ p <:+: s

theorem named_iff (name s : List Char) :
    (name.isPrefixOf s && match s.drop name.length with
      | [] => false
      | d :: _ => isBlank d || d == '(') = true ↔
      ∃ d, (isBlank d = true ∨ d = '(') ∧ name ++ [d] <+: s := by
  rw [Bool.and_eq_true, List.isPrefixOf_iff_prefix]
  constructor
  · rintro ⟨⟨r, rfl⟩, hd⟩
    rw [List.drop_left] at hd
    cases r with
    | nil => cases hd
    | cons d r =>
      refine ⟨d, ?_, r, by simp⟩
      simpa using hd
  · rintro ⟨d, hd, r, rfl⟩
    refine ⟨⟨d :: r, by simp⟩, ?_⟩
    rw [List.append_assoc, List.drop_left]
    simpa using hd

/-- What is looked for behind the opening, spelled out. -/
theorem namesNext_iff (name s : List Char) : namesNext name s = true ↔
    ∃ gap d, gap ≠ [] ∧ (∀ c ∈ gap, isBlank c = true) ∧ (isBlank d = true ∨ d = '(') ∧
      gap ++ name ++ [d] <+: s := by
  induction s with
  | nil =>
    refine ⟨nofun, ?_⟩
    rintro ⟨gap, d, _, _, _, hp⟩
    simp at hp
  | cons c s ih =>
    rw [namesNext, Bool.and_eq_true, Bool.or_eq_true]
    refine (and_congr_right' (or_congr (named_iff name s) ih)).trans ?_
    constructor
    · rintro ⟨hc, ⟨d, hd, hp⟩ | ⟨gap, d, _, hgap, hd, hp⟩⟩
      · exact ⟨[c], d, by simp, by simpa using hc, hd, by simpa using hp⟩
      · refine ⟨c :: gap, d, by simp, ?_, hd, by simpa using hp⟩
        exact List.forall_mem_cons.mpr ⟨hc, hgap⟩
    · rintro ⟨gap, d, hne, hgap, hd, hp⟩
      -- the first blank is `c`; the name follows now or after more blanks
      cases gap with
      | nil => exact absurd rfl hne
      | cons b gap =>
        obtain ⟨hb, hgap⟩ := List.forall_mem_cons.mp hgap
        obtain ⟨rfl, htail⟩ := List.cons_prefix_cons.mp hp
        refine ⟨hb, ?_⟩
        cases gap with
        | nil => exact .inl ⟨d, hd, htail⟩
        | cons e gap => exact .inr ⟨e :: gap, d, by simp, hgap, hd, htail⟩

/-- The search finds a declaration iff one starts somewhere in the text. -/
theorem declares_iff (name s : List Char) : declares name s = true ↔ Declares name s := by
  have hstart (r : List Char) :
      (declareFun.isPrefixOf r && namesNext name (r.drop declareFun.length)) = true ↔
        ∃ p, Opening name p ∧ p <+: r := by
    rw [Bool.and_eq_true, List.isPrefixOf_iff_prefix, namesNext_iff]
    constructor
    · rintro ⟨⟨q, rfl⟩, gap, d, hne, hgap, hd, hp⟩
      rw [List.drop_left] at hp
      refine ⟨_, .mk gap d hne hgap hd, ?_⟩
      rw [List.append_assoc, List.append_assoc, List.prefix_append_right_inj, ← List.append_assoc]
      exact hp
    · rintro ⟨_, ⟨gap, d, hne, hgap, hd⟩, q, rfl⟩
      refine ⟨⟨gap ++ name ++ [d] ++ q, by simp⟩, gap, d, hne, hgap, hd, ?_⟩
      exact ⟨q, by simp only [List.append_assoc, List.drop_left]⟩
  induction s with
  | nil =>
    refine ⟨nofun, ?_⟩
    rintro ⟨_, ⟨gap, d, _, _, _⟩, hp⟩
    simp at hp
  | cons c s ih =>
    rw [declares, Bool.or_eq_true, hstart]
    refine (or_congr_right ih).trans ?_
    simp only [Declares, List.infix_cons_iff, and_or_left, exists_or]

theorem Declares.mono {name s r : List Char} (h : Declares name s) (hr : s <:+: r) :
    Declares name r := by
  obtain ⟨p, hp, hps⟩ := h
  exact ⟨p, hp, hps.trans hr⟩

namespace Opening

variable {name p : List Char}

theorem cons_open (h : Opening name p) : ∃ q, p = '(' :: q := by
  obtain ⟨gap, d, _, _, _⟩ := h
  exact ⟨"declare-fun".toList ++ gap ++ name ++ [d], rfl⟩

theorem close_not_mem (h : Opening name p) (hname : ')' ∉ name) : ')' ∉ p := by
  obtain ⟨gap, d, _, hgap, hd⟩ := h
  have hblank : isBlank ')' = false := by decide
  have hg : ')' ∉ gap := fun hm => by simpa [hblank] using hgap _ hm
  have hlast : d ≠ ')' := by
    rintro rfl
    rcases hd with hd | hd
    · rw [hblank] at hd
      cases hd
    · exact absurd hd (by decide)
  have hopen : ')' ∉ declareFun := by decide
  simp [hg, hname, hopen, hlast.symm]

end Opening

namespace Filter

def Drops (f : Filter) (command : List Char) : Prop :=
  (∃ k ∈ f.keywords, k.toList <:+: command) ∨ ∃ g ∈ f.functions, Declares g.toList command

theorem keeps_eq_false_iff (f : Filter) (command : List Char) :
    f.keeps command = false ↔ f.Drops command := by
  simp only [keeps, Drops, Bool.and_eq_false_iff, Bool.not_eq_false', List.any_eq_true,
    occursIn_iff, declares_iff]

/-- A command passes iff it is not dropped. -/
theorem keeps_iff (f : Filter) (command : List Char) :
    f.keeps command = true ↔ ¬ f.Drops command := by
  rw [← keeps_eq_false_iff, Bool.not_eq_false]

instance (f : Filter) (command : List Char) : Decidable (f.Drops command) :=
  decidable_of_iff _ (f.keeps_eq_false_iff command)

/-- What is dropped is dropped in every longer text as well. -/
theorem Drops.mono {f : Filter} {s r : List Char} (h : f.Drops s) (hr : s <:+: r) :
    f.Drops r := by
  rcases h with ⟨k, hk, hks⟩ | ⟨g, hg, hgs⟩
  · exact .inl ⟨k, hk, hks.trans hr⟩
  · exact .inr ⟨g, hg, hgs.mono hr⟩

structure Confined (f : Filter) : Prop where
  keywords : ∀ k ∈ f.keywords, k ≠ "" ∧ ')' ∉ k.toList
  functions : ∀ g ∈ f.functions, ')' ∉ g.toList

/-- Commands that pass one by one pass together. -/
theorem Confined.drops_flatten {f : Filter} (hf : f.Confined) (l : List (List Char))
    (hl : ∀ s ∈ l, ∃ r, s = r ++ [')']) (h : f.Drops l.flatten) : ∃ s ∈ l, f.Drops s := by
  rcases h with ⟨k, hk, hks⟩ | ⟨g, hg, p, hp, hps⟩
  · obtain ⟨hne, hclose⟩ := hf.keywords k hk
    have hne' : k.toList ≠ [] := fun hnil => hne (String.toList_eq_nil_iff.mp hnil)
    obtain ⟨s, hs, hin⟩ := infix_of_flatten hne' hclose l hl hks
    exact ⟨s, hs, .inl ⟨k, hk, hin⟩⟩
  · have hne : p ≠ [] := by
      obtain ⟨q, rfl⟩ := hp.cons_open
      exact List.cons_ne_nil _ _
    obtain ⟨s, hs, hin⟩ :=
      infix_of_flatten hne (hp.close_not_mem (hf.functions g hg)) l hl hps
    exact ⟨s, hs, .inr ⟨g, hg, p, hp, hin⟩⟩

structure WithinCommands (f : Filter) : Prop where
  keywords : ∀ k ∈ f.keywords, k.toList ≠ [] ∧ ')' ∉ k.toList ∧ '\n' ∉ k.toList
  functions : ∀ g ∈ f.functions, ')' ∉ g.toList

/-- The default filter looks for nothing that reaches beyond a command or a line. -/
theorem withinCommands_default : WithinCommands {} := by
  constructor <;> decide

namespace WithinCommands

variable {f : Filter}

/-- A line feed in front makes no difference. -/
theorem drops_line (hf : f.WithinCommands) (s : List Char) : f.Drops ('\n' :: s) ↔ f.Drops s := by
  constructor
  · rintro (⟨k, hk, hks⟩ | ⟨g, hg, p, hp, hps⟩)
    · exact .inl ⟨k, hk, infix_of_cons (hf.keywords k hk).2.2 hks⟩
    · -- a declaration starts with a parenthesis, not with the end of the line
      obtain ⟨q, rfl⟩ := hp.cons_open
      rcases List.infix_cons_iff.mp hps with hstarts | hinner
      · exact absurd (List.cons_prefix_cons.mp hstarts).1 (by decide)
      · exact .inr ⟨g, hg, _, hp, hinner⟩
  · intro h
    exact h.mono (List.suffix_cons _ _).isInfix

theorem confined (hf : f.WithinCommands) : f.Confined where
  keywords k hk := by
    obtain ⟨hne, hclose, _⟩ := hf.keywords k hk
    exact ⟨fun hnil => hne (String.toList_eq_nil_iff.mpr hnil), hclose⟩
  functions := hf.functions

end WithinCommands
end Filter
end Command
end Validity
