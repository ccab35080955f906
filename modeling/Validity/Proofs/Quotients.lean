import Validity.Proofs.Numerals
import Validity.Value

/-!
The texts that can be read as rational numbers: a quotient of two runs of digits, the first perhaps
with a minus sign, in exactly one layout and perhaps with blanks around it. Any such text has one
sign and one pair of runs, so what reading does follows from the runs alone: they may be too long,
the second may spell zero, or the number is their quotient.
-/
namespace Validity

namespace Text

def Padded (text core : List Char) : Prop :=
  ∃ front back, (∀ c ∈ front, isBlank c = true) ∧ (∀ c ∈ back, isBlank c = true) ∧
    text = front ++ core ++ back

def Bare (s : List Char) : Prop :=
  (∀ c, s.head? = some c → isBlank c = false) ∧ ∀ c, s.getLast? = some c → isBlank c = false

/-- Trimming takes away blanks only. -/
theorem padded_trim (s : List Char) : Padded s (trim s) := by
  let t := trimLeft s
  refine ⟨s.takeWhile isBlank, (t.reverse.takeWhile isBlank).reverse, ?_, ?_, ?_⟩
  · intro c hc
    exact List.mem_takeWhile_imp hc
  · intro c hc
    exact List.mem_takeWhile_imp (List.mem_reverse.mp hc)
  · have hback : trim s ++ (t.reverse.takeWhile isBlank).reverse = t := by
      change (t.reverse.dropWhile isBlank).reverse ++ _ = t
      rw [← List.reverse_append, List.takeWhile_append_dropWhile, List.reverse_reverse]
    calc
      s = s.takeWhile isBlank ++ t := List.takeWhile_append_dropWhile.symm
      _ = s.takeWhile isBlank ++ (trim s ++ (t.reverse.takeWhile isBlank).reverse) := by rw [hback]
      _ = _ := (List.append_assoc ..).symm

theorem trimLeft_padded (front s : List Char) (hfront : ∀ c ∈ front, isBlank c = true)
    (hs : ∀ c, s.head? = some c → isBlank c = false) : trimLeft (front ++ s) = s := by
  unfold trimLeft
  rw [List.dropWhile_append_of_pos hfront]
  cases s with
  | nil => rfl
  | cons c r => exact List.dropWhile_cons_of_neg (by simp [hs c rfl])

/-- Of the texts without a blank at either end, trimming gives the one that the text has inside its
blanks. -/
theorem trim_eq_iff (s core : List Char) (hcore : Bare core) : trim s = core ↔ Padded s core := by
  constructor
  · intro h
    rw [← h]
    exact padded_trim s
  · rintro ⟨front, back, hfront, hback, rfl⟩
    have hright : trimRight (core ++ back) = core := by
      unfold trimRight
      rw [List.reverse_append, trimLeft_padded, List.reverse_reverse]
      · intro c hc
        exact hback c (List.mem_reverse.mp hc)
      · intro c hc
        rw [List.head?_reverse] at hc
        exact hcore.2 c hc
    cases core with
    | nil =>
      -- all of the text is blank
      have hall : ∀ c ∈ front ++ back, isBlank c = true := by
        intro c hc
        rcases List.mem_append.mp hc with h | h
        · exact hfront c h
        · exact hback c h
      have hempty : trimLeft (front ++ back) = [] := by
        simpa using trimLeft_padded (front ++ back) [] hall (by simp)
      rw [List.append_nil, trim, hempty]
      rfl
    | cons d r =>
      have hleft : trimLeft (front ++ (d :: r ++ back)) = d :: r ++ back := by
        apply trimLeft_padded front _ hfront
        intro c hc
        exact hcore.1 c hc
      rw [trim, List.append_assoc, hleft, hright]

end Text

open Text

def signText (negative : Bool) : List Char := if negative then ['-'] else []

def quotientText (negative : Bool) (n d : List Char) : List Char :=
  "(/ ".toList ++ signText negative ++ n ++ ".0 ".toList ++ d ++ ".0)".toList

theorem quotientText_eq (negative : Bool) (n d : List Char) : quotientText negative n d =
    "(/ ".toList ++ (signText negative ++ (n ++ (".0 ".toList ++ (d ++ ".0)".toList)))) := by
  delta quotientText
  simp only [List.append_assoc]

theorem quotientText_bare (negative : Bool) (n d : List Char) :
    Bare (quotientText negative n d) := by
  have hopen : isBlank '(' = false := by decide
  have hclose : isBlank ')' = false := by decide
  constructor
  · intro c hc
    have hfirst : (quotientText negative n d).head? = some '(' := rfl
    rw [hfirst] at hc
    rwa [← Option.some.inj hc]
  · intro c hc
    have hlast : (quotientText negative n d).getLast? = some ')' := by
      delta quotientText
      rw [List.getLast?_append_of_ne_nil _ (by decide)]
      rfl
    rw [hlast] at hc
    rwa [← Option.some.inj hc]

theorem after?_eq_some_iff (front s rest : List Char) :
    after? front s = some rest ↔ s = front ++ rest := by
  induction front generalizing s with
  | nil => simp [after?]
  | cons a front ih =>
    cases s with
    | nil => simp [after?]
    | cons c cs =>
      rw [after?]
      split_ifs with h
      · simp [ih, h]
      · simp [Ne.symm h]

/-- The run of digits is as long as possible. -/
theorem digitRun?_eq_some_iff (s run rest : List Char) :
    digitRun? s = some (run, rest) ↔
      s = run ++ rest ∧ IsRun run ∧ ∀ c, rest.head? = some c → isDigit c = false := by
  unfold digitRun?
  constructor
  · intro h
    split_ifs at h with hempty
    obtain ⟨rfl, rfl⟩ := Prod.mk.inj (Option.some.inj h)
    refine ⟨List.takeWhile_append_dropWhile.symm, ⟨by simpa using hempty, ?_⟩, ?_⟩
    · intro c hc
      exact List.mem_takeWhile_imp hc
    · intro c hc
      have hhead := List.head?_dropWhile_not isDigit s
      rw [hc] at hhead
      exact hhead
  · rintro ⟨rfl, ⟨hne, hrun⟩, hrest⟩
    have hdrop : rest.dropWhile isDigit = rest := by
      cases rest with
      | nil => rfl
      | cons c r => exact List.dropWhile_cons_of_neg (by simp [hrest c rfl])
    have htake : rest.takeWhile isDigit = [] := by
      cases rest with
      | nil => rfl
      | cons c r => exact List.takeWhile_cons_of_neg (by simp [hrest c rfl])
    rw [List.takeWhile_append_of_pos hrun, List.dropWhile_append_of_pos hrun, hdrop, htake,
      List.append_nil, if_neg (by simpa using hne)]

namespace Quotient

def splitMinus : List Char → Bool × List Char
  | '-' :: cs => (true, cs)
  | cs => (false, cs)

theorem signText_splitMinus (s : List Char) :
    signText (splitMinus s).1 ++ (splitMinus s).2 = s := by
  unfold splitMinus
  split <;> rfl

theorem splitMinus_signText (negative : Bool) (s : List Char) (h : s.head? ≠ some '-') :
    splitMinus (signText negative ++ s) = (negative, s) := by
  cases negative with
  | true => rfl
  | false =>
    change splitMinus s = (false, s)
    unfold splitMinus
    split
    · exact absurd rfl h
    · rfl

/-- The parts of a quotient text one after the other, as they are read. -/
theorem parse?_eq_some_iff_parts (s : List Char) (q : Quotient) :
    parse? s = some q ↔ ∃ body tail, s = "(/ ".toList ++ body ∧ (splitMinus body).1 = q.negative ∧
      digitRun? (splitMinus body).2 = some (q.numerator, ".0 ".toList ++ tail) ∧
      digitRun? tail = some (q.denominator, ".0)".toList) := by
  unfold parse?
  simp only [bind, Option.bind_eq_some_iff, after?_eq_some_iff]
  constructor
  · rintro ⟨body, hbody, ⟨n, r⟩, hn, tail, rfl, ⟨d, r⟩, hd, back, rfl, h⟩
    split_ifs at h with hback
    rw [List.isEmpty_iff.mp hback, List.append_nil] at hd
    cases h
    exact ⟨body, tail, hbody, rfl, hn, hd⟩
  · rintro ⟨body, tail, hbody, hsign, hn, hd⟩
    refine ⟨body, hbody, _, hn, tail, rfl, _, hd, [], (List.append_nil _).symm, ?_⟩
    change some (Quotient.mk (splitMinus body).1 q.numerator q.denominator) = some q
    rw [hsign]

/-- Exactly the layouts of quotients are read. -/
theorem parse?_eq_some_iff (s : List Char) (q : Quotient) :
    parse? s = some q ↔ s = quotientText q.negative q.numerator q.denominator ∧
      IsRun q.numerator ∧ IsRun q.denominator := by
  have hpoint : isDigit '.' = false := by decide
  have hminus : isDigit '-' = false := by decide
  rw [parse?_eq_some_iff_parts]
  constructor
  · rintro ⟨body, tail, rfl, hsign, hn, hd⟩
    obtain ⟨hbody, hnrun, -⟩ := (digitRun?_eq_some_iff ..).mp hn
    obtain ⟨rfl, hdrun, -⟩ := (digitRun?_eq_some_iff ..).mp hd
    refine ⟨?_, hnrun, hdrun⟩
    rw [← signText_splitMinus body, hbody, hsign, quotientText_eq]
  · rintro ⟨rfl, hn, hd⟩
    have hafter (c : Char) (hc : some '.' = some c) : isDigit c = false := by
      rwa [← Option.some.inj hc]
    let tail := q.denominator ++ ".0)".toList
    let body := q.numerator ++ (".0 ".toList ++ tail)
    have hhead : body.head? ≠ some '-' := by
      intro h
      rw [List.head?_append_of_ne_nil _ hn.1] at h
      have hdigit := hn.2 '-' (List.mem_of_head? h)
      rw [hminus] at hdigit
      cases hdigit
    have hsplit := splitMinus_signText q.negative body hhead
    refine ⟨signText q.negative ++ body, tail, ?_, ?_, ?_, ?_⟩
    · exact quotientText_eq ..
    · rw [hsplit]
    · rw [hsplit]
      exact (digitRun?_eq_some_iff ..).mpr ⟨rfl, hn, hafter⟩
    · exact (digitRun?_eq_some_iff ..).mpr ⟨rfl, hd, hafter⟩

end Quotient

structure WritesQuotient (text : String) (negative : Bool) (n d : List Char) (v w : Nat) :
    Prop where
  layout : Padded text.toList (quotientText negative n d)
  numerator : Spells n v
  denominator : Spells d w

theorem parse?_trim_iff (text : String) (q : Quotient) :
    Quotient.parse? (trim text.toList) = some q ↔ WritesQuotient text q.negative q.numerator
      q.denominator (digitsValue q.numerator) (digitsValue q.denominator) := by
  rw [Quotient.parse?_eq_some_iff, trim_eq_iff _ _ (quotientText_bare ..)]
  constructor
  · intro h
    exact ⟨h.1, h.2.1.spells, h.2.2.spells⟩
  · intro h
    exact ⟨h.layout, h.numerator.isRun, h.denominator.isRun⟩

theorem WritesQuotient.parse?_eq {text : String} {negative : Bool} {n d : List Char} {v w : Nat}
    (h : WritesQuotient text negative n d v w) :
    Quotient.parse? (trim text.toList) = some ⟨negative, n, d⟩ := by
  rw [parse?_trim_iff, h.numerator.digitsValue_eq, h.denominator.digitsValue_eq]
  exact h

/-- What reading makes of a quotient. -/
theorem readQuotient_of_writes {text : String} {negative : Bool} {n d : List Char} {v w : Nat}
    (h : WritesQuotient text negative n d v w) (term : Option Term) :
    readQuotient text term =
      if digitLimit < n.length then .error (.numeral (.tooLong n.length))
      else if digitLimit < d.length then .error (.numeral (.tooLong d.length))
      else if w = 0 then .error (.unreadable (.zeroDenominator text) term)
      else .ok (signed negative v / w) := by
  unfold readQuotient
  rw [h.parse?_eq]
  dsimp only
  rw [limitedInteger_of_spells _ h.numerator, limitedInteger_of_spells _ h.denominator]
  by_cases hn : digitLimit < n.length
  · rw [if_pos hn, if_pos hn]
    rfl
  rw [if_neg hn, if_neg hn]
  by_cases hd : digitLimit < d.length
  · rw [if_pos hd, if_pos hd]
    rfl
  rw [if_neg hd, if_neg hd]
  change (if (w : Int) = 0 then _ else Except.ok (mkRat (signed negative v) w)) = _
  by_cases hw : w = 0
  · rw [if_pos hw, if_pos (by omega)]
  · rw [if_neg hw, if_neg (by omega), Rat.mkRat_eq_div]

/-- What reading makes of any other text. -/
theorem readQuotient_of_not_writes {text : String}
    (h : ¬ ∃ negative n d v w, WritesQuotient text negative n d v w) (term : Option Term) :
    readQuotient text term = .error (.unreadable (.notQuotient text) term) := by
  have hnone : Quotient.parse? (trim text.toList) = none := by
    rw [Option.eq_none_iff_forall_ne_some]
    intro q hq
    exact h ⟨_, _, _, _, _, (parse?_trim_iff text q).mp hq⟩
  unfold readQuotient
  rw [hnone]

/-- The lowest terms of a quotient. -/
theorem signed_div_lowest (negative : Bool) (v w : Nat) (hw : w ≠ 0) :
    (signed negative v / w : Rat).num = signed negative (v / v.gcd w) ∧
      (signed negative v / w : Rat).den = w / v.gcd w := by
  have habs : (signed negative v).natAbs = v := by
    cases negative <;> simp [signed]
  have hdvd : ((v.gcd w : Nat) : Int) ∣ v := Int.natCast_dvd_natCast.mpr (Nat.gcd_dvd_left v w)
  rw [← Rat.mkRat_eq_div, Rat.num_mkRat, Rat.den_mkRat, if_neg hw, if_neg hw, habs,
    Nat.gcd_comm w v]
  refine ⟨?_, rfl⟩
  cases negative with
  | false => rfl
  | true =>
    change -(v : Int) / (v.gcd w : Nat) = -((v / v.gcd w : Nat) : Int)
    rw [Int.neg_ediv_of_dvd hdvd, Int.natCast_div]

/-- A quotient is read iff its digits are within the limit and its denominator is not zero. -/
theorem readQuotient_eq_ok_iff (text : String) (term : Option Term) (q : Rat) :
    readQuotient text term = .ok q ↔ ∃ negative n d v w,
      WritesQuotient text negative n d v w ∧ n.length ≤ digitLimit ∧ d.length ≤ digitLimit ∧
        w ≠ 0 ∧ q = signed negative v / w := by
  constructor
  · intro hq
    by_cases hwrites : ∃ negative n d v w, WritesQuotient text negative n d v w
    · obtain ⟨negative, n, d, v, w, h⟩ := hwrites
      rw [readQuotient_of_writes h] at hq
      split_ifs at hq with hn hd hw
      exact ⟨negative, n, d, v, w, h, by omega, by omega, hw, (Except.ok.inj hq).symm⟩
    · rw [readQuotient_of_not_writes hwrites] at hq
      cases hq
  · rintro ⟨negative, n, d, v, w, h, hn, hd, hw, rfl⟩
    rw [readQuotient_of_writes h, if_neg (by omega), if_neg (by omega), if_neg hw]

/-- An error of numerals comes of a proper quotient with too many digits. -/
theorem readQuotient_eq_numeral_iff (text : String) (term : Option Term)
    (fault : IntegerFault) :
    readQuotient text term = .error (.numeral fault) ↔ ∃ negative n d v w,
      WritesQuotient text negative n d v w ∧ (digitLimit < n.length ∨ digitLimit < d.length) ∧
        fault = .tooLong (if digitLimit < n.length then n.length else d.length) := by
  constructor
  · intro hfault
    by_cases hwrites : ∃ negative n d v w, WritesQuotient text negative n d v w
    · obtain ⟨negative, n, d, v, w, h⟩ := hwrites
      rw [readQuotient_of_writes h] at hfault
      split_ifs at hfault with hn hd hw
      · cases hfault
        exact ⟨negative, n, d, v, w, h, .inl hn, by rw [if_pos hn]⟩
      · cases hfault
        exact ⟨negative, n, d, v, w, h, .inr hd, by rw [if_neg hn]⟩
      · cases hfault
    · rw [readQuotient_of_not_writes hwrites] at hfault
      cases hfault
  · rintro ⟨negative, n, d, v, w, h, hlong, rfl⟩
    rw [readQuotient_of_writes h]
    by_cases hn : digitLimit < n.length
    · rw [if_pos hn, if_pos hn]
    · rw [if_neg hn, if_neg hn, if_pos (hlong.resolve_left hn)]

theorem readQuotient_eq_unreadable_iff (text : String) (term : Option Term) :
    (∃ fault, readQuotient text term = .error (.unreadable fault term)) ↔
      ¬ ∃ negative n d v w, WritesQuotient text negative n d v w ∧
        (digitLimit < n.length ∨ digitLimit < d.length ∨ w ≠ 0) := by
  constructor
  · rintro ⟨fault, hfault⟩ ⟨negative, n, d, v, w, h, hother⟩
    rw [readQuotient_of_writes h] at hfault
    split_ifs at hfault with hn hd hw
    · cases hfault
    · cases hfault
    · -- the runs are within the limit and the second spells zero
      rcases hother with hlong | hlong | hne
      · exact hn hlong
      · exact hd hlong
      · exact hne hw
  · intro hnone
    by_cases hwrites : ∃ negative n d v w, WritesQuotient text negative n d v w
    · obtain ⟨negative, n, d, v, w, h⟩ := hwrites
      have hother : ¬ (digitLimit < n.length ∨ digitLimit < d.length ∨ w ≠ 0) :=
        fun hother => hnone ⟨negative, n, d, v, w, h, hother⟩
      refine ⟨.zeroDenominator text, ?_⟩
      rw [readQuotient_of_writes h, if_neg (by omega), if_neg (by omega), if_pos (by omega)]
    · exact ⟨.notQuotient text, readQuotient_of_not_writes hwrites term⟩

/-- There are no other errors. -/
theorem readQuotient_error (text : String) (term : Option Term) (e : Error)
    (h : readQuotient text term = .error e) :
    (∃ fault, e = .numeral fault) ∨ ∃ fault, e = .unreadable fault term := by
  by_cases hwrites : ∃ negative n d v w, WritesQuotient text negative n d v w
  · obtain ⟨negative, n, d, v, w, hw⟩ := hwrites
    rw [readQuotient_of_writes hw] at h
    split_ifs at h
    · exact .inl ⟨_, (Except.error.inj h).symm⟩
    · exact .inl ⟨_, (Except.error.inj h).symm⟩
    · exact .inr ⟨_, (Except.error.inj h).symm⟩
  · rw [readQuotient_of_not_writes hwrites] at h
    exact .inr ⟨_, (Except.error.inj h).symm⟩

/-- A text is read as a rational number iff it is a quotient of two runs of digits within the limit,
the second of which does not spell zero; the number is then their quotient, in lowest terms. The
limit is what is complained about iff the text is a quotient and one of its runs is longer. Every
other text is unreadable. -/
theorem readQuotient_accepts_layout (text : String) (term : Option Term) :
    (∀ q : Rat, readQuotient text term = .ok q ↔ ∃ negative n d v w,
      WritesQuotient text negative n d v w ∧ n.length ≤ digitLimit ∧ d.length ≤ digitLimit ∧
        w ≠ 0 ∧ q = signed negative v / w ∧
        q.num = signed negative (v / v.gcd w) ∧ q.den = w / v.gcd w) ∧
    (∀ fault, readQuotient text term = .error (.numeral fault) ↔ ∃ negative n d v w,
      WritesQuotient text negative n d v w ∧ (digitLimit < n.length ∨ digitLimit < d.length) ∧
        fault = .tooLong (if digitLimit < n.length then n.length else d.length)) ∧
    ((∃ fault, readQuotient text term = .error (.unreadable fault term)) ↔
      ¬ ∃ negative n d v w, WritesQuotient text negative n d v w ∧
        (digitLimit < n.length ∨ digitLimit < d.length ∨ w ≠ 0)) := by
  refine ⟨fun q => ?_, readQuotient_eq_numeral_iff text term,
    readQuotient_eq_unreadable_iff text term⟩
  rw [readQuotient_eq_ok_iff]
  constructor
  · rintro ⟨negative, n, d, v, w, h, hn, hd, hw, rfl⟩
    exact ⟨negative, n, d, v, w, h, hn, hd, hw, rfl, signed_div_lowest negative v w hw⟩
  · rintro ⟨negative, n, d, v, w, h, hn, hd, hw, hq, -⟩
    exact ⟨negative, n, d, v, w, h, hn, hd, hw, hq⟩

/-- Digits of other scripts count, and so do leading zeros. -/
example : (readQuotient " (/ -٠٣.0 6.0)\n" none).toOption = some (-1 / 2) := by decide +kernel

end Validity
