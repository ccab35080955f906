import Mathlib
import Validity.Text.Integer

/-!
Runs of digits and the numbers they spell. The digits may be of any scripts. The decimal text of a
number spells that number, so reading it back gives the number again, unless it has more digits
than are read.
-/
namespace Validity.Text

inductive Spells : List Char → Nat → Prop
  | digit {c : Char} {k : Nat} : digitValue? c = some k → Spells [c] k
  | snoc {s : List Char} {c : Char} {v k : Nat} :
    Spells s v → digitValue? c = some k → Spells (s ++ [c]) (10 * v + k)

def IsRun (s : List Char) : Prop := s ≠ [] ∧ ∀ c ∈ s, isDigit c = true

theorem isDigit_iff (c : Char) : isDigit c = true ↔ ∃ k, digitValue? c = some k :=
  Option.isSome_iff_exists

@[simp] theorem digitsValue_nil : digitsValue [] = 0 := rfl

/-- A further digit is worth itself, and makes the others worth ten times as much. -/
theorem digitsValue_concat (s : List Char) (c : Char) :
    digitsValue (s ++ [c]) = 10 * digitsValue s + (digitValue? c).getD 0 := by
  rw [digitsValue, List.foldl_append]
  rfl

theorem Spells.isRun {s : List Char} {v : Nat} (h : Spells s v) : IsRun s := by
  induction h with
  | digit hk =>
    refine ⟨List.cons_ne_nil _ _, fun c hc => ?_⟩
    rw [List.mem_singleton.mp hc]
    exact (isDigit_iff _).mpr ⟨_, hk⟩
  | snoc _ hk ih =>
    refine ⟨List.append_ne_nil_of_left_ne_nil ih.1 _, fun c hc => ?_⟩
    rcases List.mem_append.mp hc with hs | hlast
    · exact ih.2 c hs
    · rw [List.mem_singleton.mp hlast]
      exact (isDigit_iff _).mpr ⟨_, hk⟩

/-- Digits spell one number only, the one that is read from them. -/
theorem Spells.digitsValue_eq {s : List Char} {v : Nat} (h : Spells s v) : digitsValue s = v := by
  induction h with
  | @digit c k hk => simpa [hk] using digitsValue_concat [] c
  | snoc _ hk ih => rw [digitsValue_concat, ih, hk, Option.getD_some]

/-- Every run of digits spells its value. -/
theorem IsRun.spells {s : List Char} (h : IsRun s) : Spells s (digitsValue s) := by
  induction s using List.reverseRecOn with
  | nil => exact absurd rfl h.1
  | append_singleton s c ih =>
    obtain ⟨k, hk⟩ := (isDigit_iff c).mp (h.2 c (by simp))
    rw [digitsValue_concat, hk, Option.getD_some]
    rcases List.eq_nil_or_concat s with rfl | ⟨r, d, hrd⟩
    · simpa using Spells.digit hk
    · refine .snoc (ih ⟨by simp [hrd], fun e he => h.2 e ?_⟩) hk
      exact List.mem_append_left _ he

theorem digitValue?_digitChar (k : Nat) (hk : k < 10) : digitValue? k.digitChar = some k := by
  have hall : ∀ i, i < 10 → digitValue? (Nat.digitChar i) = some i := by decide
  exact hall k hk

/-- The decimal text of a number spells it. -/
theorem spells_toDigits (n : Nat) : Spells (Nat.toDigits 10 n) n := by
  induction n using Nat.strong_induction_on with
  | _ n ih =>
    rcases Nat.lt_or_ge n 10 with hn | hn
    · rw [Nat.toDigits_of_lt_base hn]
      exact .digit (digitValue?_digitChar n hn)
    · have hlast : digitValue? (n % 10).digitChar = some (n % 10) :=
        digitValue?_digitChar _ (Nat.mod_lt n (by omega))
      have hspells := Spells.snoc (ih (n / 10) (by omega)) hlast
      rw [Nat.div_add_mod] at hspells
      rwa [Nat.toDigits_of_base_le (by omega) hn]

def signed (negative : Bool) (v : Nat) : Int := if negative then -v else v

theorem signed_natAbs (n : Int) : signed (n < 0) n.natAbs = n := by
  unfold signed
  split_ifs with h
  · have hneg : n < 0 := by simpa using h
    omega
  · have hpos : ¬ n < 0 := by simpa using h
    omega

/-- The integer of a sign and of digits that spell a number. -/
theorem limitedInteger_of_spells (negative : Bool) {s : List Char} {v : Nat} (h : Spells s v) :
    limitedInteger negative s =
      if digitLimit < s.length then .error (.tooLong s.length) else .ok (signed negative v) := by
  unfold limitedInteger
  rw [h.digitsValue_eq]
  rfl

def digitCount (n : Int) : Nat := (Nat.toDigits 10 n.natAbs).length

/-- How many digits a number has is a bound for it. -/
theorem digitCount_le_iff (n : Int) {k : Nat} (hk : 0 < k) :
    digitCount n ≤ k ↔ n.natAbs < 10 ^ k :=
  Nat.length_toDigits_le_iff (by decide) hk

theorem digitCount_mono {m n : Int} (h : m.natAbs ≤ n.natAbs) : digitCount m ≤ digitCount n := by
  have hpos : 0 < digitCount n := Nat.length_toDigits_pos
  rw [digitCount_le_iff m hpos]
  exact h.trans_lt ((digitCount_le_iff n hpos).mp le_rfl)

/-- The first number with one digit more. -/
theorem digitCount_pow (k : Nat) : digitCount (10 ^ k) = k + 1 := by
  have habs : ((10 : Int) ^ k).natAbs = 10 ^ k := Int.natAbs_pow 10 k
  apply Nat.le_antisymm
  · rw [digitCount_le_iff _ (by omega), habs]
    exact Nat.pow_lt_pow_right (by decide) (by omega)
  · by_contra hlt
    rcases Nat.eq_zero_or_pos k with rfl | hk
    · exact hlt Nat.length_toDigits_pos
    · have hle := (digitCount_le_iff (10 ^ k) hk).mp (by omega)
      rw [habs] at hle
      exact Nat.lt_irrefl _ hle

/-- A number of at most as many digits as are read comes back from its decimal text. -/
theorem limitedDecimal_eq (n : Int) :
    limitedDecimal n =
      if digitLimit < digitCount n then .error (.tooLong (digitCount n)) else .ok n := by
  unfold limitedDecimal
  rw [limitedInteger_of_spells _ (spells_toDigits n.natAbs), signed_natAbs]
  rfl

end Validity.Text
