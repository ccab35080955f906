import Validity.Prover
import Validity.Proofs.Numerals
import Validity.Proofs.Occurrence

/-!
The texts that can be read as integers: a sign, then groups of digits with single underscores
between them, and blanks around all of it, of which only the information separators are refused. Any
such text has one sign and one run of digits, so what reading does follows from these. The time
limit in the environment is read so.
-/
namespace Validity

namespace Text

/-- What may stand around an integer: a blank that is no information separator. -/
def Surrounds (c : Char) : Prop := isBlank c = true ∧ ¬ (0x1C ≤ c.toNat ∧ c.toNat ≤ 0x1F)

inductive WritesSign : Bool → List Char → Prop
  | minus : WritesSign true ['-']
  | plus : WritesSign false ['+']
  | nothing : WritesSign false []

inductive IntegerLayout : List Char → Bool → List Char → Prop
  | mk (front sign back : List Char) {negative : Bool} {groups : List (List Char)} :
    (∀ c ∈ front, Surrounds c) → WritesSign negative sign →
    groups ≠ [] → (∀ g ∈ groups, IsRun g) → (∀ c ∈ back, Surrounds c) →
    IntegerLayout (front ++ (sign ++ (['_'].intercalate groups ++ back))) negative groups.flatten

/-- The text is an integer within the limit, and that integer is `n`. -/
def SpellsInteger (text : String) (n : Int) : Prop :=
  ∃ negative digits v, IntegerLayout text.toList negative digits ∧ digits.length ≤ digitLimit ∧
    Spells digits v ∧ n = signed negative v

theorem isPadding_iff (c : Char) : isPadding c = true ↔ Surrounds c := by
  simp only [isPadding, Surrounds, Bool.and_eq_true, Bool.not_eq_true', Bool.and_eq_false_iff,
    decide_eq_false_iff_not, not_and_or]

/-- No digit of any script is a blank. -/
theorem isBlank_of_isDigit {c : Char} (hc : isDigit c = true) : isBlank c = false := by
  have htable : (decimalZeros.all fun z =>
      (List.range 10).all fun i => !isBlank (Char.ofNat (z + i))) = true := by decide +kernel
  obtain ⟨k, hk⟩ := (isDigit_iff c).mp hc
  obtain ⟨z, hz, _⟩ := Option.map_eq_some_iff.mp hk
  have hrange : z ≤ c.toNat ∧ c.toNat < z + 10 := by simpa using List.find?_some hz
  -- the character is one of the ten that start at the zero of its script
  have hentry := List.all_eq_true.mp (List.all_eq_true.mp htable z (List.mem_of_find?_eq_some hz))
    (c.toNat - z) (List.mem_range.mpr (by omega))
  rw [show z + (c.toNat - z) = c.toNat from by omega, Char.ofNat_toNat] at hentry
  simpa using hentry

theorem isNumeric_of_surrounds {c : Char} (hc : Surrounds c) : isNumeric c = false := by
  have hdigit : isDigit c = false := by
    by_contra hnot
    have hblank := isBlank_of_isDigit (eq_true_of_ne_false hnot)
    rw [hc.1] at hblank
    cases hblank
  have hunderscore : c ≠ '_' := by
    rintro rfl
    exact absurd hc.1 (by decide)
  simp [isNumeric, hdigit, hunderscore]

theorem IsRun.isNumeric {g : List Char} (hg : IsRun g) : ∀ c ∈ g, isNumeric c = true := by
  intro c hc
  simp [Text.isNumeric, hg.2 c hc]

/-- A run of digits starts with a digit. -/
theorem IsRun.exists_cons {g : List Char} (hg : IsRun g) :
    ∃ c r, g = c :: r ∧ isDigit c = true := by
  obtain ⟨c, r, rfl⟩ := List.exists_cons_of_ne_nil hg.1
  exact ⟨c, r, rfl, hg.2 c List.mem_cons_self⟩

theorem isDigit_underscore : isDigit '_' = false := by decide

/-- Of two digits in a row, the first makes no difference. -/
theorem isDigitRun_cons_digit {c d : Char} (hc : isDigit c = true) (hd : isDigit d = true)
    (s : List Char) : isDigitRun (c :: d :: s) = isDigitRun (d :: s) := by
  have hne : d ≠ '_' := by
    rintro rfl
    rw [isDigit_underscore] at hd
    cases hd
  simp [isDigitRun, hne, hc]

theorem isDigitRun_append_digit {r : List Char} {c : Char} (hr : ∀ d ∈ r, isDigit d = true)
    (hc : isDigit c = true) (s : List Char) : isDigitRun (r ++ c :: s) = isDigitRun (c :: s) := by
  induction r with
  | nil => rfl
  | cons d r ih =>
    obtain ⟨hd, hr'⟩ := List.forall_mem_cons.mp hr
    rw [← ih hr', List.cons_append]
    cases r with
    | nil => exact isDigitRun_cons_digit hd hc s
    | cons e r => exact isDigitRun_cons_digit hd (hr' e List.mem_cons_self) _

/-- A group may be all there is, or stand before an underscore and what goes on with digits. -/
theorem IsRun.isDigitRun_group {g : List Char} (hg : IsRun g) :
    isDigitRun g = true ∧ ∀ s, isDigitRun (g ++ '_' :: s) = isDigitRun s := by
  obtain ⟨r, c, rfl⟩ := (List.eq_nil_or_concat g).resolve_left hg.1
  -- only the last digit of the group counts
  have hr : ∀ d ∈ r, isDigit d = true := fun d hd => hg.2 d (by simp [hd])
  have hc : isDigit c = true := hg.2 c (by simp)
  constructor
  · rw [List.concat_eq_append, isDigitRun_append_digit hr hc, isDigitRun, hc]
  · intro s
    rw [List.concat_eq_append, List.append_assoc, List.singleton_append,
      isDigitRun_append_digit hr hc, isDigitRun, hc, Bool.true_and]

/-- Digits with single underscores between them are groups of digits, joined by underscores. -/
theorem isDigitRun_iff (s : List Char) : isDigitRun s = true ↔
    ∃ groups : List (List Char), groups ≠ [] ∧ (∀ g ∈ groups, IsRun g) ∧
      s = ['_'].intercalate groups := by
  constructor
  · intro h
    fun_induction isDigitRun s with
    | case1 => cases h
    | case2 c =>
      refine ⟨[[c]], List.cons_ne_nil _ _, ?_, by simp⟩
      simpa [IsRun] using h
    | case3 c s ih =>
      obtain ⟨hc, hs⟩ := (Bool.and_eq_true _ _).mp h
      obtain ⟨groups, hne, hruns, rfl⟩ := ih hs
      obtain ⟨g, gs, rfl⟩ := List.exists_cons_of_ne_nil hne
      refine ⟨[c] :: g :: gs, List.cons_ne_nil _ _, ?_, ?_⟩
      · exact List.forall_mem_cons.mpr ⟨by simpa [IsRun] using hc, hruns⟩
      · rw [List.intercalate_cons_cons]
        rfl
    | case4 c s _ _ ih =>
      -- the digit joins the first group
      obtain ⟨hc, hs⟩ := (Bool.and_eq_true _ _).mp h
      obtain ⟨groups, hne, hruns, rfl⟩ := ih hs
      obtain ⟨g, gs, rfl⟩ := List.exists_cons_of_ne_nil hne
      obtain ⟨hg, hgs⟩ := List.forall_mem_cons.mp hruns
      refine ⟨(c :: g) :: gs, List.cons_ne_nil _ _, ?_, ?_⟩
      · refine List.forall_mem_cons.mpr ⟨⟨List.cons_ne_nil _ _, ?_⟩, hgs⟩
        exact List.forall_mem_cons.mpr ⟨hc, hg.2⟩
      · rw [intercalate_cons_eq, intercalate_cons_eq]
        rfl
  · rintro ⟨groups, hne, hruns, rfl⟩
    induction groups with
    | nil => exact absurd rfl hne
    | cons g groups ih =>
      obtain ⟨hg, hgroups⟩ := List.forall_mem_cons.mp hruns
      cases groups with
      | nil =>
        rw [List.intercalate_singleton]
        exact hg.isDigitRun_group.1
      | cons g' groups =>
        rw [List.intercalate_cons_cons, List.append_assoc, List.singleton_append,
          hg.isDigitRun_group.2]
        exact ih (List.cons_ne_nil _ _) hgroups

section Groups

variable {groups : List (List Char)}

/-- Without underscores the groups are one row of digits. -/
theorem filter_isDigit_intercalate (hruns : ∀ g ∈ groups, IsRun g) :
    (['_'].intercalate groups).filter isDigit = groups.flatten := by
  induction groups with
  | nil => rfl
  | cons g groups ih =>
    obtain ⟨hg, hgroups⟩ := List.forall_mem_cons.mp hruns
    have hkeep : g.filter isDigit = g := List.filter_eq_self.mpr hg.2
    cases groups with
    | nil => simp [hkeep]
    | cons g' groups =>
      rw [List.intercalate_cons_cons, List.filter_append, List.filter_append, hkeep, ih hgroups,
        List.filter_cons_of_neg (by simp [isDigit_underscore]), List.filter_nil, List.append_nil]
      rfl

theorem isNumeric_intercalate (hruns : ∀ g ∈ groups, IsRun g) :
    ∀ c ∈ ['_'].intercalate groups, isNumeric c = true := by
  induction groups with
  | nil => simp
  | cons g groups ih =>
    obtain ⟨hg, hgroups⟩ := List.forall_mem_cons.mp hruns
    cases groups with
    | nil =>
      rw [List.intercalate_singleton]
      exact hg.isNumeric
    | cons g' groups =>
      intro c hc
      rw [List.intercalate_cons_cons, List.append_assoc, List.mem_append, List.mem_append,
        List.mem_singleton] at hc
      rcases hc with hc | rfl | hc
      · exact hg.isNumeric c hc
      · decide
      · exact ih hgroups c hc

theorem exists_cons_intercalate (hne : groups ≠ []) (hruns : ∀ g ∈ groups, IsRun g) :
    ∃ c r, ['_'].intercalate groups = c :: r ∧ isDigit c = true := by
  obtain ⟨g, groups, rfl⟩ := List.exists_cons_of_ne_nil hne
  obtain ⟨c, r, rfl, hc⟩ := (hruns g List.mem_cons_self).exists_cons
  rw [intercalate_cons_eq]
  exact ⟨c, _, rfl, hc⟩

theorem isRun_flatten (hne : groups ≠ []) (hruns : ∀ g ∈ groups, IsRun g) :
    IsRun groups.flatten := by
  obtain ⟨g, groups, rfl⟩ := List.exists_cons_of_ne_nil hne
  constructor
  · rw [List.flatten_cons]
    exact List.append_ne_nil_of_left_ne_nil (hruns g List.mem_cons_self).1 _
  · intro c hc
    obtain ⟨r, hr, hcr⟩ := List.mem_flatten.mp hc
    exact (hruns r hr).2 c hcr

end Groups

theorem IntegerLayout.isRun {s digits : List Char} {negative : Bool}
    (h : IntegerLayout s negative digits) : IsRun digits := by
  obtain ⟨_, _, _, _, _, hne, hruns, _⟩ := h
  exact isRun_flatten hne hruns

theorem IntegerLayout.ne_nil {s digits : List Char} {negative : Bool}
    (h : IntegerLayout s negative digits) : s ≠ [] := by
  obtain ⟨_, _, _, _, _, hne, hruns, _⟩ := h
  obtain ⟨c, r, hbody, _⟩ := exists_cons_intercalate hne hruns
  simp [hbody]

/-- The sign is split off what was written, if digits follow it. -/
theorem WritesSign.splitSign_append {negative : Bool} {sign : List Char}
    (h : WritesSign negative sign) {c : Char} (hc : isDigit c = true) (s : List Char) :
    splitSign (sign ++ c :: s) = (negative, c :: s) := by
  cases h with
  | minus => rfl
  | plus => rfl
  | nothing =>
    have hminus : isDigit '-' = false := by decide
    have hplus : isDigit '+' = false := by decide
    rw [List.nil_append]
    unfold splitSign
    split
    · next heq =>
      rw [(List.cons.inj heq).1, hminus] at hc
      cases hc
    · next heq =>
      rw [(List.cons.inj heq).1, hplus] at hc
      cases hc
    · rfl

/-- What is split off is a sign. -/
theorem writesSign_splitSign (s : List Char) :
    ∃ sign, WritesSign (splitSign s).1 sign ∧ s = sign ++ (splitSign s).2 := by
  unfold splitSign
  split
  · exact ⟨_, .minus, rfl⟩
  · exact ⟨_, .plus, rfl⟩
  · exact ⟨_, .nothing, rfl⟩

theorem dropWhile_append_of_head {p : Char → Bool} {s r : List Char}
    (hs : ∀ c ∈ s, p c = true) (hr : ∀ c, r.head? = some c → p c = false) :
    (s ++ r).dropWhile p = r ∧ (s ++ r).takeWhile p = s := by
  rw [List.dropWhile_append_of_pos hs, List.takeWhile_append_of_pos hs]
  cases r with
  | nil => simp
  | cons c r => simp [hr c rfl]

/-- What reading makes of an integer's text. -/
theorem readInteger_of_layout {text : String} {negative : Bool} {digits : List Char} {v : Nat}
    (h : IntegerLayout text.toList negative digits) (hv : Spells digits v) :
    readInteger text =
      if digitLimit < digits.length then .error (.tooLong digits.length)
      else .ok (signed negative v) := by
  generalize htext : text.toList = s at h
  obtain @⟨front, sign, back, negative, groups, hfront, hsign, hne, hruns, hback⟩ := h
  obtain ⟨c, r, hbody, hc⟩ := exists_cons_intercalate hne hruns
  have hpad : text.toList.dropWhile isPadding = sign ++ (['_'].intercalate groups ++ back) := by
    rw [htext]
    refine (dropWhile_append_of_head (fun d hd => (isPadding_iff d).mpr (hfront d hd)) ?_).1
    intro d hd
    rw [hbody] at hd
    cases hsign with
    | minus => cases hd; decide
    | plus => cases hd; decide
    | nothing =>
      cases hd
      simp [isPadding, isBlank_of_isDigit hc]
  have hsplit : splitSign (text.toList.dropWhile isPadding) =
      (negative, ['_'].intercalate groups ++ back) := by
    rw [hpad, hbody, List.cons_append]
    exact hsign.splitSign_append hc _
  obtain ⟨hrest, hrun⟩ := dropWhile_append_of_head (r := back) (isNumeric_intercalate hruns)
    fun d hd => isNumeric_of_surrounds (hback d (List.mem_of_head? hd))
  have hdigits : isDigitRun (['_'].intercalate groups) = true :=
    (isDigitRun_iff _).mpr ⟨groups, hne, hruns, rfl⟩
  have hend : back.all isPadding = true :=
    List.all_eq_true.mpr fun d hd => (isPadding_iff d).mpr (hback d hd)
  unfold readInteger
  rw [hsplit]
  dsimp only
  rw [hrun, hrest, hdigits, filter_isDigit_intercalate hruns, limitedInteger_of_spells _ hv, hend]
  by_cases hlong : digitLimit < groups.flatten.length
  · rw [if_pos hlong]
    rfl
  · rw [if_neg hlong]
    rfl

/-- Only texts of integers are read. -/
theorem layout_of_readInteger {text : String} {n : Int} (h : readInteger text = .ok n) :
    ∃ negative digits, IntegerLayout text.toList negative digits := by
  unfold readInteger at h
  obtain ⟨sign, hsign, hs⟩ := writesSign_splitSign (text.toList.dropWhile isPadding)
  generalize splitSign (text.toList.dropWhile isPadding) = parts at h hsign hs
  obtain ⟨negative, body⟩ := parts
  dsimp only at h hsign hs
  by_cases hrun : isDigitRun (body.takeWhile isNumeric) = true
  · by_cases hend : (body.dropWhile isNumeric).all isPadding = true
    · obtain ⟨groups, hne, hruns, hgroups⟩ := (isDigitRun_iff _).mp hrun
      have htext : text.toList = text.toList.takeWhile isPadding ++
          (sign ++ (['_'].intercalate groups ++ body.dropWhile isNumeric)) := by
        rw [← hgroups, List.takeWhile_append_dropWhile, ← hs, List.takeWhile_append_dropWhile]
      rw [htext]
      refine ⟨negative, _, .mk _ _ _ ?_ hsign hne hruns ?_⟩
      · intro c hc
        exact (isPadding_iff c).mp (List.mem_takeWhile_imp hc)
      · intro c hc
        exact (isPadding_iff c).mp (List.all_eq_true.mp hend c hc)
    · -- something else stands behind the digits
      rw [hrun, eq_false_of_ne_true hend] at h
      cases hlimited : limitedInteger negative ((body.takeWhile isNumeric).filter isDigit) with
      | error e =>
        rw [hlimited] at h
        cases h
      | ok m =>
        rw [hlimited] at h
        cases h
  · rw [eq_false_of_ne_true hrun] at h
    cases h

/-- An integer is read iff the text spells it. -/
theorem readInteger_eq_ok_iff (text : String) (n : Int) :
    readInteger text = .ok n ↔ SpellsInteger text n := by
  constructor
  · intro h
    obtain ⟨negative, digits, hlayout⟩ := layout_of_readInteger h
    have hspells := hlayout.isRun.spells
    rw [readInteger_of_layout hlayout hspells] at h
    split_ifs at h with hlong
    exact ⟨negative, digits, _, hlayout, by omega, hspells, (Except.ok.inj h).symm⟩
  · rintro ⟨negative, digits, v, hlayout, hshort, hspells, rfl⟩
    rw [readInteger_of_layout hlayout hspells, if_neg (by omega)]

/-- The decimal text of an integer within the limit spells it. -/
theorem spellsInteger_toString (n : Int) (hn : digitCount n ≤ digitLimit) :
    SpellsInteger (toString n) n := by
  have hspells := spells_toDigits n.natAbs
  have hruns : ∀ g ∈ [Nat.toDigits 10 n.natAbs], IsRun g := by
    simpa using hspells.isRun
  have hsign : ∃ sign, WritesSign (n < 0) sign ∧
      (toString n).toList = sign ++ Nat.toDigits 10 n.natAbs := by
    cases n with
    | ofNat m => exact ⟨[], .nothing, by simp [Int.toString_eq_repr, Int.repr]⟩
    | negSucc m =>
      rw [decide_eq_true (Int.negSucc_lt_zero m)]
      exact ⟨['-'], .minus, by simp [Int.toString_eq_repr, Int.repr]⟩
  obtain ⟨sign, hsign, htext⟩ := hsign
  have hlayout : IntegerLayout (toString n).toList (n < 0) (Nat.toDigits 10 n.natAbs) := by
    rw [htext]
    simpa using IntegerLayout.mk [] sign [] (by simp) hsign (List.cons_ne_nil _ _) hruns (by simp)
  exact ⟨_, _, _, hlayout, hn, hspells, (signed_natAbs n).symm⟩

end Text

open Text

namespace Environment

theorem get?_of_unset {env : Environment} {name : String}
    (h : env.lookup name = none ∨ env.lookup name = some "") : env.get? name = none := by
  rcases h with h | h <;> simp [get?, h]

theorem get?_of_set {env : Environment} {name value : String} (h : env.lookup name = some value)
    (hne : value ≠ "") : env.get? name = some value := by
  simp [get?, h, hne]

end Environment

theorem Config.ofEnvironment_unset {env : Environment}
    (h : env.get? "PROVEKIT_TIMEOUT_MS" = none) :
    Config.ofEnvironment env = .ok { executable := (env.get? "PROVEKIT_SWINE").getD "swine" } := by
  rw [ofEnvironment, h]

/-- A time limit that is an integer is read as it. -/
theorem Config.ofEnvironment_of_spells {env : Environment} {text : String} {n : Int}
    (h : env.get? "PROVEKIT_TIMEOUT_MS" = some text) (hn : SpellsInteger text n) :
    Config.ofEnvironment env = .ok
      { executable := (env.get? "PROVEKIT_SWINE").getD "swine", timeLimit := some (.whole n) } := by
  rw [ofEnvironment, h]
  dsimp only
  rw [(readInteger_eq_ok_iff text n).mpr hn]

/-- A time limit that is no integer is refused, with its text. -/
theorem Config.ofEnvironment_of_not_spells {env : Environment} {text : String}
    (h : env.get? "PROVEKIT_TIMEOUT_MS" = some text) (hnone : ¬ ∃ n, SpellsInteger text n) :
    Config.ofEnvironment env = .error (.timeLimit text) := by
  rw [ofEnvironment, h]
  dsimp only
  cases hread : readInteger text with
  | error e => rfl
  | ok n => exact absurd ⟨n, (readInteger_eq_ok_iff text n).mp hread⟩ hnone

/-- The settings depend on two variables only. A time limit that is unset or empty is none; any
other is read iff it spells an integer, and is then that integer, and is refused otherwise. In
particular the decimal text of an integer within the limit of digits is read as that integer. -/
theorem settings_read_integers (env : Environment) :
    (∀ env' : Environment, env'.lookup "PROVEKIT_SWINE" = env.lookup "PROVEKIT_SWINE" →
      env'.lookup "PROVEKIT_TIMEOUT_MS" = env.lookup "PROVEKIT_TIMEOUT_MS" →
      Config.ofEnvironment env' = Config.ofEnvironment env) ∧
    (env.lookup "PROVEKIT_TIMEOUT_MS" = none ∨ env.lookup "PROVEKIT_TIMEOUT_MS" = some "" →
      ∃ c, Config.ofEnvironment env = .ok c ∧ c.timeLimit = none) ∧
    (∀ text, env.lookup "PROVEKIT_TIMEOUT_MS" = some text → text ≠ "" →
      (∀ n : Int, (∃ c, Config.ofEnvironment env = .ok c ∧ c.timeLimit = some (.whole n)) ↔
        SpellsInteger text n) ∧
      (Config.ofEnvironment env = .error (.timeLimit text) ↔ ¬ ∃ n, SpellsInteger text n)) ∧
    ∀ n : Int, digitCount n ≤ digitLimit →
      env.lookup "PROVEKIT_TIMEOUT_MS" = some (toString n) →
      ∃ c, Config.ofEnvironment env = .ok c ∧ c.timeLimit = some (.whole n) := by
  refine ⟨?_, ?_, ?_, ?_⟩
  · intro env' hswine hlimit
    rw [Config.ofEnvironment, Config.ofEnvironment, Environment.get?, Environment.get?,
      Environment.get?, Environment.get?, hswine, hlimit]
  · intro hunset
    exact ⟨_, Config.ofEnvironment_unset (Environment.get?_of_unset hunset), rfl⟩
  · intro text htext hne
    have hget := Environment.get?_of_set htext hne
    by_cases hspells : ∃ m, SpellsInteger text m
    · obtain ⟨m, hm⟩ := hspells
      have hok := Config.ofEnvironment_of_spells hget hm
      refine ⟨fun n => ⟨?_, ?_⟩, ?_⟩
      · rintro ⟨c, hc, hn⟩
        rw [hok] at hc
        cases hc
        cases hn
        exact hm
      · intro hn
        exact ⟨_, Config.ofEnvironment_of_spells hget hn, rfl⟩
      · rw [hok]
        refine iff_of_false ?_ (not_not_intro ⟨m, hm⟩)
        intro h
        cases h
    · have herror := Config.ofEnvironment_of_not_spells hget hspells
      refine ⟨fun n => iff_of_false ?_ fun hn => hspells ⟨n, hn⟩, iff_of_true herror hspells⟩
      rintro ⟨c, hc, _⟩
      rw [herror] at hc
      cases hc
  · intro n hn htext
    have hspells := spellsInteger_toString n hn
    have hne : toString n ≠ "" := by
      obtain ⟨_, _, _, hlayout, _⟩ := hspells
      exact fun hempty => hlayout.ne_nil (String.toList_eq_nil_iff.mpr hempty)
    exact ⟨_, Config.ofEnvironment_of_spells (Environment.get?_of_set htext hne) hspells, rfl⟩

/-- Blanks around, an underscore, and a digit of another script. -/
theorem settings_read_integers_grouped :
    let env : Environment := [("HOME", "/root"), ("PROVEKIT_TIMEOUT_MS", "\u3000-1_\u06623\n")]
    ∃ c, Config.ofEnvironment env = .ok c ∧ c.timeLimit = some (.whole (-123)) := by
  intro env
  obtain ⟨_, _, hread, _⟩ := settings_read_integers env
  have hdigits : isDigit '1' = true ∧ isDigit '\u0662' = true ∧ isDigit '3' = true := by decide
  have hblanks : Surrounds '\u3000' ∧ Surrounds '\n' := by
    unfold Surrounds
    decide
  have hlayout : IntegerLayout "\u3000-1_\u06623\n".toList true ['1', '\u0662', '3'] :=
    .mk ['\u3000'] ['-'] ['\n'] (by simpa using hblanks.1) .minus
      (List.cons_ne_nil ['1'] [['\u0662', '3']]) (by simpa [IsRun] using hdigits)
      (by simpa using hblanks.2)
  have hinteger : SpellsInteger "\u3000-1_\u06623\n" (-123) :=
    ⟨true, _, _, hlayout, by decide, hlayout.isRun.spells, by decide⟩
  exact ((hread _ rfl (by decide)).1 _).mpr hinteger

/-- Information separators are blanks, but a time limit between them is refused, though it is one
without them. -/
theorem separators_refused :
    let text := "\x1f5\x1c"
    Text.trimmed text = "5" ∧
      Config.ofEnvironment [("PROVEKIT_TIMEOUT_MS", text)] = .error (.timeLimit text) ∧
      ∃ c, Config.ofEnvironment [("PROVEKIT_TIMEOUT_MS", "5")] = .ok c ∧
        c.timeLimit = some (.whole 5) := by
  intro text
  have hfault : readInteger text = .error (.malformed text) := by decide +kernel
  refine ⟨by decide +kernel, ?_, ?_⟩
  · apply Config.ofEnvironment_of_not_spells rfl
    rintro ⟨n, hn⟩
    rw [← readInteger_eq_ok_iff, hfault] at hn
    cases hn
  · exact ⟨_, Config.ofEnvironment_of_spells rfl (spellsInteger_toString 5 (by decide)), rfl⟩

end Validity
