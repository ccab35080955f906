import Validity.Proofs.Independence
import Validity.Proofs.Quotients
import Validity.Proofs.Wording

/-!
Values read back from terms. A numeral passes through its decimal text and comes back as it is, if
it has no more digits than are read. Any other term is read from its text, and for the quotient of
two numerals this gives the same number as the numeral of the quotient, unless the first numeral is
negative: its sign is written in parentheses then, and the text is not read.
-/
namespace Validity

open Text

namespace Term

theorem readInt_int (n : Int) : (Term.int n).readInt =
    if digitLimit < digitCount n then .error (.numeral (.tooLong (digitCount n))) else .ok n := by
  change (limitedDecimal n).mapError Error.numeral = _
  rw [limitedDecimal_eq]
  split_ifs <;> rfl

theorem readRational_int (n : Int) : (Term.int n).readRational =
    if digitLimit < digitCount n then .error (.numeral (.tooLong (digitCount n)))
    else .ok (n : Rat) := by
  change (limitedDecimal n).mapError Error.numeral >>= (fun m => Except.ok (m : Rat)) = _
  rw [limitedDecimal_eq]
  split_ifs <;> rfl

/-- The limit is on the numerator first, then on the denominator. -/
theorem readRational_rat (q : Rat) : (Term.lit (.real (.rat q))).readRational =
    if digitLimit < digitCount q.num then .error (.numeral (.tooLong (digitCount q.num)))
    else if digitLimit < digitCount q.den then .error (.numeral (.tooLong (digitCount q.den)))
    else .ok q := by
  change (do
    let n ← (limitedDecimal q.num).mapError Error.numeral
    let d ← (limitedDecimal q.den).mapError Error.numeral
    return mkRat n d.toNat) = _
  rw [limitedDecimal_eq, limitedDecimal_eq]
  by_cases hn : digitLimit < digitCount q.num
  · rw [if_pos hn, if_pos hn]
    rfl
  rw [if_neg hn, if_neg hn]
  by_cases hd : digitLimit < digitCount q.den
  · rw [if_pos hd, if_pos hd]
    rfl
  rw [if_neg hd, if_neg hd]
  change Except.ok (mkRat q.num q.den) = _
  rw [Rat.mkRat_self]

def ratio (n d : Int) : Term := .op .div [.lit (.real (.rat n)), .lit (.real (.rat d))]

end Term

theorem rationalText_intCast (n : Int) : (rationalText n).toList =
    if n < 0 then "(- ".toList ++ Nat.toDigits 10 n.natAbs ++ ".0)".toList
    else Nat.toDigits 10 n.natAbs ++ ".0".toList := by
  have hnum : (n : Rat).num = n := Rat.num_intCast n
  have hden : (n : Rat).den = 1 := Rat.den_intCast n
  unfold rationalText
  dsimp only
  rw [hnum, hden, if_pos rfl]
  split_ifs with h
  · simp
  · simp

namespace Term

theorem ratio_smtlib (n d : Int) : (ratio n d).smtlib.toList =
    "(/ ".toList ++ (rationalText n).toList ++ " ".toList ++ (rationalText d).toList ++
      ")".toList := by
  rw [ratio, smtlib_op, List.map_cons, applied_toList]
  change '(' :: ("/".toList ++ ' ' :: (rationalText n).toList ++
    [' ' :: (rationalText d).toList].flatten ++ [')']) = _
  simp

/-- A quotient of numerals that are not negative is written as a quotient text. -/
theorem ratio_writes (n d : Int) (hn : 0 ≤ n) (hd : 0 ≤ d) :
    WritesQuotient (ratio n d).smtlib false (Nat.toDigits 10 n.natAbs) (Nat.toDigits 10 d.natAbs)
      n.natAbs d.natAbs := by
  refine ⟨⟨[], [], by simp, by simp, ?_⟩, spells_toDigits _, spells_toDigits _⟩
  rw [ratio_smtlib, rationalText_intCast, rationalText_intCast, if_neg (by omega),
    if_neg (by omega)]
  simp [quotientText_eq, signText]

/-- A negative numeral starts with a parenthesis, where a quotient has a sign or a digit. -/
theorem ratio_not_writes (n d : Int) (hn : n < 0) :
    ¬ ∃ negative a b v w, WritesQuotient (ratio n d).smtlib negative a b v w := by
  rintro ⟨negative, a, b, v, w, h⟩
  obtain ⟨front, back, hfront, -, htext⟩ := h.layout
  obtain ⟨c, r, rfl⟩ := List.exists_cons_of_ne_nil h.numerator.isRun.1
  have hdigit : isDigit c = true := h.numerator.isRun.2 c List.mem_cons_self
  rw [ratio_smtlib, rationalText_intCast, if_pos hn] at htext
  have hempty : front = [] := by
    cases front with
    | nil => rfl
    | cons e front =>
      have hblank := hfront e List.mem_cons_self
      obtain rfl : '(' = e := (List.cons.inj htext).1
      exact absurd hblank (by decide)
  -- the fourth characters of the two texts
  have hfourth := congrArg (·[3]?) htext
  cases negative with
  | true => simp [hempty, quotientText_eq, signText] at hfourth
  | false =>
    have hc : '(' = c := by simpa [hempty, quotientText_eq, signText] using hfourth
    rw [← hc] at hdigit
    exact absurd hdigit (by decide)

/-- The quotient of two numerals is read from its text, if the first is not negative. -/
theorem readRational_ratio (n d : Int) (hd : 0 < d) (hn : digitCount n ≤ digitLimit)
    (hdigits : digitCount d ≤ digitLimit) : (ratio n d).readRational =
      if n < 0 then .error (.unreadable (.notQuotient (ratio n d).smtlib) (some (ratio n d)))
      else .ok (n / d : Rat) := by
  change readQuotient (ratio n d).smtlib (some (ratio n d)) = _
  split_ifs with hneg
  · exact readQuotient_of_not_writes (ratio_not_writes n d hneg) _
  · have hread := readQuotient_of_writes (ratio_writes n d (by omega) (by omega)) (some (ratio n d))
    unfold digitCount at hn hdigits
    rw [if_neg (by omega), if_neg (by omega), if_neg (by omega)] at hread
    have hsigned : signed false n.natAbs = n := by
      change (n.natAbs : Int) = n
      omega
    have hcast : ((d.natAbs : Nat) : Rat) = d := by
      rw [← Int.cast_natCast, Int.natAbs_of_nonneg hd.le]
    rw [hread, hsigned, hcast]

/-- The numeral of a quotient has no more digits than the two numbers. -/
theorem readRational_div (n d : Int) (hd : 0 < d) (hn : digitCount n ≤ digitLimit)
    (hdigits : digitCount d ≤ digitLimit) :
    (Term.lit (.real (.rat (n / d)))).readRational = .ok (n / d : Rat) := by
  obtain ⟨k, rfl⟩ := Int.eq_ofNat_of_zero_le hd.le
  have hk : k ≠ 0 := by omega
  rw [Int.cast_natCast, ← Rat.mkRat_eq_div, readRational_rat]
  have hnum : digitCount (mkRat n k).num ≤ digitCount n := by
    apply digitCount_mono
    rw [Rat.num_mkRat, if_neg hk]
    exact Int.natAbs_ediv_le_natAbs _ _
  have hden : digitCount ((mkRat n k).den : Nat) ≤ digitCount (k : Nat) := by
    apply digitCount_mono
    rw [Rat.den_mkRat, if_neg hk, Int.natAbs_natCast, Int.natAbs_natCast]
    exact Nat.div_le_self _ _
  rw [if_neg (by omega), if_neg (by omega)]

end Term

/-- The quotient of two numerals within the limit is read as the numeral of the quotient, unless the
first is negative: then it is unreadable. -/
theorem ratio_reads_as_numeral (n d : Int) (hd : 0 < d) (hn : digitCount n ≤ digitLimit)
    (hdigits : digitCount d ≤ digitLimit) :
    let numeral := Term.lit (.real (.rat (n / d)))
    numeral.readRational = .ok (n / d : Rat) ∧
    (0 ≤ n → (Term.ratio n d).readRational = numeral.readRational) ∧
    (n < 0 → (Term.ratio n d).readRational =
      .error (.unreadable (.notQuotient (Term.ratio n d).smtlib) (some (Term.ratio n d)))) := by
  intro numeral
  have hnative : numeral.readRational = .ok (n / d : Rat) := Term.readRational_div n d hd hn hdigits
  have hratio := Term.readRational_ratio n d hd hn hdigits
  refine ⟨hnative, fun hpos => ?_, fun hneg => ?_⟩
  · rw [hnative, hratio, if_neg (by omega)]
  · rw [hratio, if_pos hneg]

/-- A quotient that is not in lowest terms. -/
theorem ratio_reads_as_numeral_six_fourths :
    (Term.ratio 6 4).readRational = .ok (3 / 2 : Rat) ∧
      (Term.lit (.real (.rat (3 / 2)))).readRational = .ok (3 / 2 : Rat) := by
  have hvalue : ((6 : Int) / (4 : Int) : Rat) = 3 / 2 := by norm_num
  obtain ⟨hnative, hsame, -⟩ := ratio_reads_as_numeral 6 4 (by decide) (by decide) (by decide)
  have hread := (hsame (by decide)).trans hnative
  rw [hvalue] at hnative hread
  exact ⟨hread, hnative⟩

/-- The sign of a negative numeral keeps its quotient from being read. -/
theorem negative_ratio_unreadable :
    (Term.ratio (-10) 3).readRational =
      .error (.unreadable (.notQuotient "(/ (- 10.0) 3.0)") (some (Term.ratio (-10) 3))) ∧
    (Term.lit (.real (.rat (-10 / 3)))).readRational = .ok (-10 / 3 : Rat) := by
  have htext : (Term.ratio (-10) 3).smtlib = "(/ (- 10.0) 3.0)" := by decide +kernel
  have hratio := Term.readRational_ratio (-10) 3 (by decide) (by decide) (by decide)
  have hnative := Term.readRational_div (-10) 3 (by decide) (by decide) (by decide)
  rw [if_pos (by decide), htext] at hratio
  exact ⟨hratio, by simpa using hnative⟩

/-- Reading the term as a value of the kind meets a number with more digits than are read. -/
def ValueKind.Exceeds : ValueKind → Term → Prop
  | .int, .lit (.int n) | .rational, .lit (.int n) => digitLimit < digitCount n
  | .rational, .lit (.real (.rat q)) =>
    digitLimit < digitCount q.num ∨ digitLimit < digitCount q.den
  | .rational, t => ∃ negative n d v w, WritesQuotient t.smtlib negative n d v w ∧
      (digitLimit < n.length ∨ digitLimit < d.length)
  | _, _ => False

namespace Term

theorem readBool_cases (t : Term) : (∃ b, t = .bool b) ∨
    t.readBool = .error (.unreadable (.notBool t) (some t)) := by
  cases t with
  | lit l =>
    cases l with
    | bool b => exact .inl ⟨b, rfl⟩
    | int n | real x | bits v w => exact .inr rfl
  | app f args | op o args | quant q vars body => exact .inr rfl

theorem readInt_cases (t : Term) : (∃ n, t = .int n) ∨
    (t.readInt = .error (.unreadable (.notInt t) (some t)) ∧ ¬ ValueKind.int.Exceeds t) := by
  cases t with
  | lit l =>
    cases l with
    | int n => exact .inl ⟨n, rfl⟩
    | bool b | real x | bits v w => exact .inr ⟨rfl, id⟩
  | app f args | op o args | quant q vars body => exact .inr ⟨rfl, id⟩

theorem readRational_cases (t : Term) :
    (∃ n, t = .int n) ∨ (∃ q, t = .lit (.real (.rat q))) ∨
      (t.readRational = readQuotient t.smtlib (some t) ∧
        (ValueKind.rational.Exceeds t ↔ ∃ negative n d v w,
          WritesQuotient t.smtlib negative n d v w ∧
            (digitLimit < n.length ∨ digitLimit < d.length))) := by
  cases t with
  | lit l =>
    cases l with
    | int n => exact .inl ⟨n, rfl⟩
    | real x =>
      cases x with
      | rat q => exact .inr (.inl ⟨q, rfl⟩)
      | surd a s m => exact .inr (.inr ⟨rfl, .rfl⟩)
    | bool b | bits v w => exact .inr (.inr ⟨rfl, .rfl⟩)
  | app f args | op o args | quant q vars body => exact .inr (.inr ⟨rfl, .rfl⟩)

end Term

namespace ValueKind

/-- Too many digits are an error of numerals, whatever the kind. -/
theorem answer_of_exceeds (kind : ValueKind) (t : Term) (h : kind.Exceeds t) :
    ∃ k, digitLimit < k ∧ kind.answer t = .error (.numeral (.tooLong k)) := by
  cases kind with
  | bool => exact h.elim
  | int =>
    rcases t.readInt_cases with ⟨n, rfl⟩ | ⟨-, hwithin⟩
    · have hlong : digitLimit < digitCount n := h
      refine ⟨_, hlong, ?_⟩
      rw [answer, Term.readInt_int, if_pos hlong]
      rfl
    · exact absurd h hwithin
  | rational =>
    rw [answer]
    rcases t.readRational_cases with ⟨n, rfl⟩ | ⟨q, rfl⟩ | ⟨hread, hexceeds⟩
    · have hlong : digitLimit < digitCount n := h
      refine ⟨_, hlong, ?_⟩
      rw [Term.readRational_int, if_pos hlong]
      rfl
    · rw [Term.readRational_rat]
      by_cases hn : digitLimit < digitCount q.num
      · exact ⟨_, hn, by rw [if_pos hn]; rfl⟩
      · have hd : digitLimit < digitCount q.den := Or.resolve_left h hn
        exact ⟨_, hd, by rw [if_neg hn, if_pos hd]; rfl⟩
    · obtain ⟨negative, n, d, v, w, hwrites, hlong⟩ := hexceeds.mp h
      have hfault := (readQuotient_eq_numeral_iff t.smtlib (some t) _).mpr
        ⟨negative, n, d, v, w, hwrites, hlong, rfl⟩
      refine ⟨if digitLimit < n.length then n.length else d.length, ?_, ?_⟩
      · split_ifs with hn
        · exact hn
        · exact hlong.resolve_left hn
      · rw [hread, hfault]
        rfl

/-- All other failures to read a value are errors of the evaluation. -/
theorem isEvaluation_of_not_exceeds (kind : ValueKind) (t : Term) (h : ¬ kind.Exceeds t)
    (e : Error) (he : kind.answer t = .error e) : e.isEvaluation = true := by
  cases kind with
  | bool =>
    rw [answer] at he
    rcases t.readBool_cases with ⟨b, rfl⟩ | hread
    · cases he
    · rw [hread] at he
      cases he
      rfl
  | int =>
    rw [answer] at he
    rcases t.readInt_cases with ⟨n, rfl⟩ | ⟨hread, -⟩
    · change ¬ digitLimit < digitCount n at h
      rw [Term.readInt_int, if_neg h] at he
      cases he
    · rw [hread] at he
      cases he
      rfl
  | rational =>
    rw [answer] at he
    rcases t.readRational_cases with ⟨n, rfl⟩ | ⟨q, rfl⟩ | ⟨hread, hexceeds⟩
    · change ¬ digitLimit < digitCount n at h
      rw [Term.readRational_int, if_neg h] at he
      cases he
    · obtain ⟨hn, hd⟩ := not_or.mp h
      rw [Term.readRational_rat, if_neg hn, if_neg hd] at he
      cases he
    · rw [hread] at he
      cases hquotient : readQuotient t.smtlib (some t) with
      | ok q =>
        rw [hquotient] at he
        cases he
      | error err =>
        rw [hquotient] at he
        obtain rfl : err = e := Except.error.inj he
        rcases readQuotient_error _ _ _ hquotient with ⟨fault, rfl⟩ | ⟨fault, rfl⟩
        · obtain ⟨negative, n, d, v, w, hwrites, hlong, -⟩ :=
            (readQuotient_eq_numeral_iff _ _ _).mp hquotient
          exact absurd (hexceeds.mpr ⟨negative, n, d, v, w, hwrites, hlong⟩) h
        · rfl

end ValueKind

/-- Numbers of every size are read exactly up to the limit on digits. Beyond it the limit is
complained about, and nothing else but an error about the evaluation can come of reading any term.
So a value of a model is refused in another way iff it could be evaluated and exceeds the limit. -/
theorem values_read_exactly (n : Int) (q : Rat) (kind : ValueKind) (t : Term) (m : Reader) :
    (digitCount n ≤ digitLimit →
      (Term.int n).readInt = .ok n ∧ (Term.int n).readRational = .ok (n : Rat)) ∧
    (digitCount q.num ≤ digitLimit → digitCount q.den ≤ digitLimit →
      (Term.lit (.real (.rat q))).readRational = .ok q) ∧
    (kind.Exceeds t → ∃ k, digitLimit < k ∧ kind.answer t = .error (.numeral (.tooLong k))) ∧
    (¬ kind.Exceeds t → ∀ e, kind.answer t = .error e → e.isEvaluation = true) ∧
    ((∃ e, ((Step.read kind t).run m).1.result = .error e ∧ e.isEvaluation = false) ↔
      m.inspection.fault = none ∧ kind.Exceeds (m.inspection.model.eval true t).1) := by
  refine ⟨fun hn => ?_, fun hn hd => ?_, kind.answer_of_exceeds t,
    kind.isEvaluation_of_not_exceeds t, ?_⟩
  · rw [Term.readInt_int, Term.readRational_int, if_neg (by omega), if_neg (by omega)]
    exact ⟨rfl, rfl⟩
  · rw [Term.readRational_rat, if_neg (by omega), if_neg (by omega)]
  · rw [Step.read_result, m.inspection.model.eval_value]
    cases m.inspection.fault with
    | some cause =>
      constructor
      · rintro ⟨e, he, hother⟩
        cases he
        cases hother
      · rintro ⟨hnone, -⟩
        cases hnone
    | none =>
      constructor
      · rintro ⟨e, he, hother⟩
        refine ⟨rfl, ?_⟩
        by_contra hwithin
        rw [kind.isEvaluation_of_not_exceeds _ hwithin e he] at hother
        cases hother
      · rintro ⟨-, hexceeds⟩
        obtain ⟨k, -, hk⟩ := kind.answer_of_exceeds _ hexceeds
        exact ⟨_, hk, rfl⟩

/-- A numeral beyond machine words, a quotient, and a constant whose value has one digit more than
are read. -/
theorem values_read_exactly_large :
    let x : Symbol := ⟨"x", [], .int⟩
    let m : Reader := { inspection := .ofModel { constants := [(x, .int (10 ^ 4300))] } }
    (Term.int (2 ^ 100 + 3)).readInt = .ok (2 ^ 100 + 3) ∧
    (Term.lit (.real (.rat (-7 / 2)))).readRational = .ok (-7 / 2 : Rat) ∧
    ∃ e, ((Step.read .int (.const x)).run m).1.result = .error e ∧ e.isEvaluation = false := by
  intro x m
  obtain ⟨hint, hrational, -, -, hread⟩ :=
    values_read_exactly (2 ^ 100 + 3) (-7 / 2) .int (.const x) m
  refine ⟨(hint (by decide)).1, hrational (by decide +kernel) (by decide +kernel), hread.mpr ?_⟩
  have hvalue (n : Int) : (Model.eval { constants := [(x, .int n)] } true (.const x)).1 =
      .int n := by
    rw [Model.eval_value]
    rfl
  refine ⟨rfl, ?_⟩
  rw [show m.inspection.model = { constants := [(x, .int (10 ^ 4300))] } from rfl, hvalue]
  change digitLimit < digitCount (10 ^ 4300)
  rw [digitCount_pow]
  decide

/-- A numeral of one digit more than are read is refused, by an error that is not about the
evaluation. -/
theorem long_numeral_refused :
    (Term.int (10 ^ 4300)).readInt = .error (.numeral (.tooLong 4301)) ∧
      (Error.numeral (.tooLong 4301)).isEvaluation = false := by
  have hcount : digitCount (10 ^ 4300) = 4301 := digitCount_pow 4300
  rw [Term.readInt_int, hcount, if_pos (by decide)]
  exact ⟨rfl, rfl⟩

end Validity
