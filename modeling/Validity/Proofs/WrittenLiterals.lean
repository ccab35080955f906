import Mathlib
import Validity.Proofs.Occurrence
import Validity.Proofs.WrittenMeaning

/-!
Literals as they are written. Every literal is written as an expression with proper words, and the
expression has the value of the literal, whatever the names mean. An irrational number is written as
a root of its polynomial, by its position among the roots.
-/
namespace Validity

/-- A word without a bar in front is its own name. -/
theorem wordName_of_head (w : List Char) (h : w.head? ≠ some '|') : wordName w = w := by
  refine if_neg fun hbar => ?_
  obtain ⟨cs, rfl, -⟩ := (isBarredName_iff w).mp hbar
  exact h rfl

theorem toString_digits (n : Nat) (c : Char) (hc : c ∈ (toString n).toList) : c.isDigit = true := by
  rw [Nat.toString_eq_repr, Nat.toList_repr] at hc
  exact Nat.isDigit_of_mem_toDigits (by omega) (by omega) hc

theorem toString_ne_nil (n : Nat) : (toString n).toList ≠ [] := by
  rw [Nat.toString_eq_repr, Nat.toList_repr]
  exact Nat.toDigits_ne_nil

/-- The digits of a number spell it. -/
theorem digitsValue_toString (n : Nat) : Text.digitsValue (toString n).toList = n := by
  rw [Nat.toString_eq_repr, Nat.toList_repr]
  exact (Text.spells_toDigits n).digitsValue_eq

theorem isWordChar_of_isDigit (c : Char) (h : c.isDigit = true) : isWordChar c = true := by
  simp [isWordChar, isSymbolChar, Char.isAlphanum, h]

/-- A numeral with something behind it that keeps it one word. -/
theorem isToken_toString (n : Nat) (s : List Char) (hs : s.all isWordChar = true) :
    isToken ((toString n).toList ++ s) = true := by
  have hdigits : (toString n).toList.all isWordChar = true := by
    rw [List.all_eq_true]
    intro c hc
    exact isWordChar_of_isDigit c (toString_digits n c hc)
  have hne : ((toString n).toList ++ s).isEmpty = false := by
    rw [List.isEmpty_eq_false_iff]
    exact List.append_ne_nil_of_left_ne_nil (toString_ne_nil n) s
  rw [isToken, hne, List.all_append, hdigits, hs]
  rfl

/-- What starts with a digit is a number, whole or with decimals. -/
theorem constant?_of_digits (ds s : List Char) (hne : ds ≠ []) (hd : ∀ c ∈ ds, c.isDigit = true)
    (hs : s.head?.any Char.isDigit = false) : constant? (ds ++ s) = number? ds s := by
  obtain ⟨c, cs, rfl⟩ := List.exists_cons_of_ne_nil hne
  have hc : c.isDigit = true := hd c List.mem_cons_self
  have hhead (d : Char) (h : d.isDigit = false) : c ≠ d := by
    rintro rfl
    rw [hc] at h
    cases h
  have hname : wordName (c :: cs ++ s) = c :: cs ++ s := by
    apply wordName_of_head
    simpa using hhead '|' rfl
  have hword (d : Char) (u : List Char) (h : d.isDigit = false) :
      wordName (c :: cs ++ s) ≠ d :: u := by
    rw [hname]
    intro heq
    exact hhead d h (List.cons.inj heq).1
  have hstop : s.takeWhile Char.isDigit = [] ∧ s.dropWhile Char.isDigit = s := by
    cases s with
    | nil => exact ⟨rfl, rfl⟩
    | cons d s =>
      have hnd : d.isDigit = false := by simpa using hs
      simp [hnd]
  have htake : (c :: cs ++ s).takeWhile Char.isDigit = c :: cs := by
    rw [List.takeWhile_append_of_pos hd, hstop.1, List.append_nil]
  have hdrop : (c :: cs ++ s).dropWhile Char.isDigit = s := by
    rw [List.dropWhile_append_of_pos hd, hstop.2]
  unfold constant?
  split
  · rename_i heq
    exact absurd (List.cons.inj heq).1 (hhead '#' rfl)
  · rename_i heq
    exact absurd (List.cons.inj heq).1 (hhead '#' rfl)
  · have ht : wordName (c :: cs ++ s) ≠ "true".toList := hword 't' _ rfl
    have hf : wordName (c :: cs ++ s) ≠ "false".toList := hword 'f' _ rfl
    have hcons : ¬ (c :: cs : List Char) = [] := List.cons_ne_nil c cs
    simp only [ht, hf, htake, hdrop, hcons, if_false]

namespace Expression

def decimal (n : Nat) : Expression := .word (toString n).toList

def point (n : Nat) : Expression := .word ((toString n).toList ++ ['.', '0'])

def numeral (n : Int) : Expression :=
  if n < 0 then .node [.word ['-'], decimal n.natAbs] else decimal n.natAbs

def rational (q : Rat) : Expression :=
  let size := if q.den = 1 then point q.num.natAbs
    else .node [.word ['/'], point q.num.natAbs, point q.den]
  if q.num < 0 then .node [.word ['-'], size] else size

def power (k : Nat) : Expression :=
  if k = 1 then .word ['x'] else .node [.word ['^'], .word ['x'], decimal k]

def monomial (c : Int) (k : Nat) : Expression :=
  if k = 0 then numeral c
  else if c = 1 then power k
  else .node [.word ['*'], numeral c, power k]

def polynomial (terms : List (Int × Nat)) : Expression :=
  .node (.word ['+'] :: terms.map fun p => monomial p.1 p.2)

def surd (a : Rat) (plus : Bool) (m : Rat) : Expression :=
  let (u, v, w) := Quadratic.polynomial a m
  .node [.word rootName, polynomial ([(u, 2), (v, 1), (w, 0)].filter fun p => p.1 ≠ 0),
    .word (if plus then ['2'] else ['1'])]

def literal : Literal → Expression
  | .bool b => .word (if b then "true" else "false").toList
  | .int n => numeral n
  | .real (.rat q) => rational q
  | .real (.surd a s m) => surd a s m
  | .bits v w =>
    .word (if w % 4 = 0 then '#' :: 'x' :: baseDigits 16 (w / 4) v
      else '#' :: 'b' :: baseDigits 2 w v)

theorem proper_decimal (n : Nat) : (decimal n).Proper := by
  have h := isToken_toString n [] rfl
  rw [List.append_nil] at h
  exact .word _ h

theorem proper_point (n : Nat) : (point n).Proper := .word _ (isToken_toString n _ rfl)

theorem proper_pair (w : List Char) (e : Expression) (he : e.Proper)
    (h : isToken w = true) : (node [.word w, e]).Proper :=
  .node _ (by simpa using ⟨.word w h, he⟩)

theorem proper_triple (w : List Char) (d e : Expression) (hd : d.Proper) (he : e.Proper)
    (h : isToken w = true) : (node [.word w, d, e]).Proper :=
  .node _ (by simpa using ⟨.word w h, hd, he⟩)

theorem proper_numeral (n : Int) : (numeral n).Proper := by
  unfold numeral
  split_ifs
  · exact proper_pair _ _ (proper_decimal _) rfl
  · exact proper_decimal _

/-- Rational numerals can be read. -/
theorem proper_rational (q : Rat) : (rational q).Proper := by
  unfold rational
  extract_lets size
  have hsize : size.Proper := by
    simp only [size]
    split_ifs
    · exact proper_point _
    · exact proper_triple _ _ _ (proper_point _) (proper_point _) rfl
  split_ifs
  · exact proper_pair _ _ hsize rfl
  · exact hsize

theorem proper_power (k : Nat) : (power k).Proper := by
  unfold power
  split_ifs
  · exact .word _ rfl
  · exact proper_triple _ _ _ (.word _ rfl) (proper_decimal k) rfl

theorem proper_monomial (c : Int) (k : Nat) : (monomial c k).Proper := by
  unfold monomial
  split_ifs
  · exact proper_numeral c
  · exact proper_power k
  · exact proper_triple _ _ _ (proper_numeral c) (proper_power k) rfl

/-- Polynomials can be read. -/
theorem proper_polynomial (terms : List (Int × Nat)) : (polynomial terms).Proper := by
  refine .node _ ?_
  rw [List.forall_mem_cons]
  refine ⟨.word _ rfl, fun e he => ?_⟩
  obtain ⟨p, -, rfl⟩ := List.mem_map.mp he
  exact proper_monomial p.1 p.2

theorem isWordChar_digitChar (k : Nat) : isWordChar k.digitChar = true := by
  rcases Nat.lt_or_ge k 16 with hk | hk
  · have hall : ∀ i, i < 16 → isWordChar (Nat.digitChar i) = true := by decide
    exact hall k hk
  · have hne (i : Nat) (hi : i < 16) : k ≠ i := by omega
    have hstar : isWordChar '*' = true := rfl
    simpa [Nat.digitChar, hne] using hstar

theorem baseDigits_all (base count n : Nat) : (baseDigits base count n).all isWordChar = true := by
  induction count generalizing n with
  | zero => rfl
  | succ count ih => simp [baseDigits, ih, isWordChar_digitChar]

/-- All literals can be read. -/
theorem proper_literal (l : Literal) : (literal l).Proper := by
  cases l with
  | bool b => cases b <;> exact .word _ rfl
  | int n => exact proper_numeral n
  | real x =>
    cases x with
    | rat q => exact proper_rational q
    | surd a s m =>
      cases s <;> exact proper_triple _ _ _ (proper_polynomial _) (.word _ rfl) rfl
  | bits v w =>
    have hx : isWordChar 'x' = true := rfl
    have hb : isWordChar 'b' = true := rfl
    have hs : isWordChar '#' = true := rfl
    refine .word _ ?_
    split_ifs
    · simp [isToken, hs, hx, baseDigits_all]
    · simp [isToken, hs, hb, baseDigits_all]

theorem text_node_pair (w : List Char) (e : Expression) :
    (node [.word w, e]).text = '(' :: (w ++ ' ' :: (e.text ++ [')'])) := by
  simp [text, texts, List.intercalate]

theorem text_node_triple (w : List Char) (d e : Expression) :
    (node [.word w, d, e]).text = '(' :: (w ++ ' ' :: (d.text ++ ' ' :: (e.text ++ [')']))) := by
  simp [text, texts, List.intercalate]

theorem text_numeral (n : Int) : (numeral n).text = (numeralText n).toList := by
  unfold numeral numeralText
  split_ifs
  · simp [text_node_pair, decimal]
  · rfl

/-- The expression of a rational is written as the rational is. -/
theorem text_rational (q : Rat) : (rational q).text = (rationalText q).toList := by
  have hpoint (n : Nat) : (point n).text = (toString n ++ ".0").toList := by
    simp [point]
  unfold rational rationalText
  extract_lets size top size'
  have hsize : size.text = size'.toList := by
    simp only [size, size', top]
    split_ifs
    · exact hpoint _
    · simp [text_node_triple, hpoint]
  clear_value size size'
  split_ifs
  · simp [text_node_pair, hsize]
  · exact hsize

theorem text_monomial (c : Int) (k : Nat) : (monomial c k).text = (monomialText c k).toList := by
  unfold monomial monomialText
  extract_lets power'
  have hpower : (power k).text = power'.toList := by
    simp only [power, power']
    split_ifs
    · rfl
    · simp [text_node_triple, decimal]
  clear_value power'
  split_ifs
  · exact text_numeral c
  · exact hpower
  · simp [text_node_triple, text_numeral, hpower]

/-- The expression of a polynomial is written as the polynomial is. -/
theorem text_polynomial (terms : List (Int × Nat)) : (polynomial terms).text =
    ("(+" ++ String.join (terms.map fun p => " " ++ monomialText p.1 p.2) ++ ")").toList := by
  have hterms : [' '].intercalate (['+'] :: terms.map fun p => (monomialText p.1 p.2).toList) =
      '+' :: (String.join (terms.map fun p => " " ++ monomialText p.1 p.2)).toList := by
    rw [Text.intercalate_cons_eq, String.toList_join]
    simp [List.flatMap_def, Function.comp_def]
  have hall : texts (.word ['+'] :: terms.map fun p => monomial p.1 p.2) =
      ['+'] :: terms.map fun p => (monomialText p.1 p.2).toList := by
    rw [texts_eq_map, List.map_cons, List.map_map]
    simp [Function.comp_def, text_monomial]
  rw [polynomial, text, hall, hterms]
  simp

/-- The expression of a literal is written as the literal is. -/
theorem text_literal (l : Literal) : (literal l).text = l.smtlib.toList := by
  cases l with
  | bool b => rfl
  | int n => exact text_numeral n
  | real x =>
    cases x with
    | rat q => exact text_rational q
    | surd a s m =>
      change (surd a s m).text = (surdText a s m).toList
      unfold surd surdText
      rcases Quadratic.polynomial a m with ⟨u, v, w⟩
      have hroot : rootName = "root-obj".toList := rfl
      cases s <;> simp [text_node_triple, text_polynomial, hroot]
  | bits v w =>
    simp only [literal, text_word, Literal.smtlib]
    split_ifs
    · simp
    · simp

/-- A numeral without a point has an integer value. -/
theorem value_decimal (n : Nat) (N : Naming) : (decimal n).value N = .int n := by
  have h := constant?_of_digits _ [] (toString_ne_nil n) (toString_digits n) rfl
  rw [List.append_nil, number?, digitsValue_toString] at h
  rw [decimal, value, h, Option.getD_some]

/-- A numeral with a point has a real value. -/
theorem value_point (n : Nat) (N : Naming) : (point n).value N = .real n := by
  have h := constant?_of_digits _ ['.', '0'] (toString_ne_nil n) (toString_digits n) rfl
  have hzero : (Text.digitValue? '0').getD 0 = 0 := rfl
  rw [number?, Text.digitsValue_concat, digitsValue_toString, hzero] at h
  rw [point, value, h, Option.getD_some]
  simp

theorem value_pair (w : List Char) (e : Expression) (N : Naming) :
    (node [.word w, e]).value N = N.applied w [e.value N] := by
  simp [value, values]

theorem applied_minus (N : Naming) (v : Value) : N.applied ['-'] [v] = v.neg := by
  have hname : Op.ofName? (wordName ['-']) = some .sub := rfl
  rw [Naming.applied, hname]
  rfl

/-- The minus sign before a numeral is read as the operator. -/
theorem value_numeral (n : Int) (N : Naming) : (numeral n).value N = .int n := by
  unfold numeral
  split_ifs with hn
  · rw [value_pair, applied_minus, value_decimal, Value.neg, Int.ofNat_natAbs_of_nonpos hn.le,
      neg_neg]
  · rw [value_decimal, Int.natAbs_of_nonneg (not_lt.mp hn)]

/-- A quotient of numerals has the value of the rational. -/
theorem value_rational (q : Rat) (N : Naming) : (rational q).value N = .real q := by
  unfold rational
  extract_lets size
  have hquotient : (q.num.natAbs : ℝ) / q.den = |(q : ℝ)| := by
    rw [Nat.cast_natAbs, Int.cast_abs, ← abs_of_nonneg (Nat.cast_nonneg (α := ℝ) q.den), ← abs_div,
      ← Rat.cast_def]
  have hsize : size.value N = .real |(q : ℝ)| := by
    simp only [size]
    split_ifs with hden
    · rw [value_point, ← hquotient, hden, Nat.cast_one, div_one]
    · have hname : wordName ['/'] = ['/'] := rfl
      have hop : Op.ofName? ['/'] = some .div := rfl
      have hne : (q.den : ℝ) ≠ 0 := Nat.cast_ne_zero.mpr q.den_nz
      rw [value_node _ _ _ rfl (by decide), List.map_cons, List.map_cons, List.map_nil,
        value_point, value_point, Naming.applied, hname, hop]
      change Value.real (if (q.den : ℝ) = 0 then _ else _) = _
      rw [if_neg hne, hquotient]
  clear_value size
  split_ifs with hn
  · have hneg : (q : ℝ) < 0 := Rat.cast_lt_zero.mpr (Rat.num_neg.mp hn)
    rw [value_pair, applied_minus, hsize, Value.neg, abs_of_neg hneg, neg_neg]
  · have hpos : 0 ≤ (q : ℝ) := Rat.cast_nonneg.mpr (Rat.num_nonneg.mp (not_lt.mp hn))
    rw [hsize, abs_of_nonneg hpos]

theorem eval_decimal (n : Nat) (r : ℝ) : (decimal n).eval r = n := by
  have hx : (toString n).toList ≠ ['x'] := by
    intro h
    exact absurd (toString_digits n 'x' (by rw [h]; simp)) (by decide)
  rw [decimal, eval, if_neg hx, digitsValue_toString]

theorem eval_numeral (n : Int) (r : ℝ) : (numeral n).eval r = n := by
  unfold numeral
  split_ifs with hn
  · rw [eval, eval_decimal, Nat.cast_natAbs, abs_of_neg hn]
    simp
  · rw [eval_decimal, Nat.cast_natAbs, abs_of_nonneg (not_lt.mp hn)]

theorem eval_power (k : Nat) (r : ℝ) : (power k).eval r = r ^ k := by
  unfold power
  split_ifs with hk
  · simp [eval, hk]
  · change eval r (.word ['x']) ^ Text.digitsValue (toString k).toList = r ^ k
    rw [digitsValue_toString, eval, if_pos rfl]

/-- A factor of one and an exponent of one are left out in the text, and are not missed. -/
theorem eval_monomial (c : Int) (k : Nat) (r : ℝ) : (monomial c k).eval r = c * r ^ k := by
  unfold monomial
  split_ifs with hk hc
  · simp [eval_numeral, hk]
  · simp [eval_power, hc]
  · simp [eval, evalAll, eval_numeral, eval_power]

/-- The value of a polynomial is the sum over its terms. -/
theorem eval_polynomial (terms : List (Int × Nat)) (r : ℝ) :
    (polynomial terms).eval r = (terms.map fun p => (p.1 : ℝ) * r ^ p.2).sum := by
  have hall (ts : List (Int × Nat)) : evalAll r (ts.map fun p => monomial p.1 p.2) =
      ts.map fun p => (p.1 : ℝ) * r ^ p.2 := by
    induction ts with
    | nil => rfl
    | cons p ts ih => rw [List.map_cons, evalAll, ih, eval_monomial, List.map_cons]
  rw [polynomial, eval, hall]

/-- Terms with a zero factor may be left out. -/
theorem eval_quadratic (u v w : Int) (r : ℝ) :
    (polynomial ([(u, 2), (v, 1), (w, 0)].filter fun p => p.1 ≠ 0)).eval r =
      u * r ^ 2 + v * r + w := by
  have hdrop (ts : List (Int × Nat)) : ((ts.filter fun p => p.1 ≠ 0).map fun p =>
      (p.1 : ℝ) * r ^ p.2).sum = (ts.map fun p => (p.1 : ℝ) * r ^ p.2).sum := by
    induction ts with
    | nil => rfl
    | cons p ts ih =>
      by_cases hp : p.1 = 0
      · simpa [hp] using ih
      · simpa [hp] using ih
  rw [eval_polynomial, hdrop]
  simp
  ring

/-- A multiple of the denominator clears it. -/
theorem num_mul_of_dvd (q : Rat) (n : Nat) (h : q.den ∣ n) : ((q * n).num : Rat) = q * n := by
  obtain ⟨k, rfl⟩ := h
  have hint : q * (q.den * k : Nat) = ((q.num * k : Int) : Rat) := by
    push_cast
    rw [← mul_assoc, Rat.mul_den_eq_num]
  rw [hint, Rat.num_intCast]

/-- The polynomial of `a ± √m` is a multiple of `(x - a)² - m`. -/
theorem eval_surd_polynomial (a m : Rat) :
    ∃ l : ℝ, l ≠ 0 ∧ ∀ r, (polynomial ([((Quadratic.polynomial a m).1, 2),
      ((Quadratic.polynomial a m).2.1, 1), ((Quadratic.polynomial a m).2.2, 0)].filter
        fun p => p.1 ≠ 0)).eval r = l * ((r - a) ^ 2 - m) := by
  let l := Nat.lcm (-2 * a).den (a * a - m).den
  have hl : l ≠ 0 := Nat.lcm_ne_zero (-2 * a).den_nz (a * a - m).den_nz
  have hb : (((-2 * a * l).num : Rat) : ℝ) = (-2 * a * l : Rat) :=
    congrArg _ (num_mul_of_dvd (-2 * a) l (Nat.dvd_lcm_left _ _))
  have hc : ((((a * a - m) * l).num : Rat) : ℝ) = ((a * a - m) * l : Rat) :=
    congrArg _ (num_mul_of_dvd (a * a - m) l (Nat.dvd_lcm_right _ _))
  refine ⟨l, Nat.cast_ne_zero.mpr hl, fun r => ?_⟩
  have hpoly : Quadratic.polynomial a m =
      ((l : Int), (-2 * a * l).num, ((a * a - m) * l).num) := rfl
  rw [hpoly, eval_quadratic]
  push_cast at hb hc
  rw [hb, hc]
  push_cast
  ring

section Roots

variable {p : Expression} {a m l : ℝ}

theorem root_eq (k : Nat) (r : ℝ) (hr : p.IsRoot k r) (hunique : ∀ s, p.IsRoot k s → s = r) :
    p.root k = r := by
  rw [root, dif_pos ⟨r, hr⟩]
  exact hunique _ (Exists.choose_spec (⟨r, hr⟩ : ∃ r, p.IsRoot k r))

variable (hm : 0 < m) (hl : l ≠ 0) (hp : ∀ r, p.eval r = l * ((r - a) ^ 2 - m))
include hm hl hp

theorem eval_eq_zero_iff (r : ℝ) : p.eval r = 0 ↔ r = a + √m ∨ r = a - √m := by
  have hsquare : (r - a) ^ 2 - m = (r - a) ^ 2 - √m ^ 2 := by rw [Real.sq_sqrt hm.le]
  rw [hp, mul_eq_zero, or_iff_right hl, hsquare, sub_eq_zero, sq_eq_sq_iff_eq_or_eq_neg,
    sub_eq_iff_eq_add', sub_eq_iff_eq_add', ← sub_eq_add_neg]

/-- No root is below the smaller one. -/
theorem isRoot_smaller_iff (k : Nat) : p.IsRoot k (a - √m) ↔ 1 = k := by
  have hsqrt : 0 < √m := Real.sqrt_pos.mpr hm
  have hnone : {s | p.eval s = 0 ∧ s < a - √m} = ∅ := by
    rw [Set.eq_empty_iff_forall_notMem]
    rintro s ⟨hs, hlt⟩
    rcases (eval_eq_zero_iff hm hl hp s).mp hs with rfl | rfl
    · linarith
    · linarith
  rw [IsRoot, hnone, Set.ncard_empty, and_iff_right ((eval_eq_zero_iff hm hl hp _).mpr (.inr rfl))]

/-- The smaller root is the only one below the larger. -/
theorem isRoot_larger_iff (k : Nat) : p.IsRoot k (a + √m) ↔ 2 = k := by
  have hsqrt : 0 < √m := Real.sqrt_pos.mpr hm
  have hone : {s | p.eval s = 0 ∧ s < a + √m} = {a - √m} := by
    ext s
    rw [Set.mem_ofPred_eq, eval_eq_zero_iff hm hl hp, Set.mem_singleton_iff]
    constructor
    · rintro ⟨rfl | rfl, hs⟩
      · linarith
      · rfl
    · rintro rfl
      exact ⟨.inr rfl, by linarith⟩
  rw [IsRoot, hone, Set.ncard_singleton,
    and_iff_right ((eval_eq_zero_iff hm hl hp _).mpr (.inl rfl))]

/-- Of the two roots the smaller one is the first. -/
theorem root_surd (plus : Bool) :
    p.root (if plus then 2 else 1) = if plus then a + √m else a - √m := by
  have hsmaller := isRoot_smaller_iff hm hl hp
  have hlarger := isRoot_larger_iff hm hl hp
  cases plus with
  | true =>
    refine root_eq 2 _ ((hlarger 2).mpr rfl) fun s hs => ?_
    rcases (eval_eq_zero_iff hm hl hp s).mp hs.1 with rfl | rfl
    · rfl
    · exact absurd ((hsmaller 2).mp hs) (by omega)
  | false =>
    refine root_eq 1 _ ((hsmaller 1).mpr rfl) fun s hs => ?_
    rcases (eval_eq_zero_iff hm hl hp s).mp hs.1 with rfl | rfl
    · exact absurd ((hlarger 1).mp hs) (by omega)
    · rfl

end Roots

end Expression

/-- An irrational number has a proper square under its root. -/
def Literal.IsProper : Literal → Prop
  | .real (.surd _ _ m) => 0 < m
  | _ => True

instance (l : Literal) : Decidable l.IsProper := by
  unfold Literal.IsProper
  split <;> infer_instance

theorem spelled_concat (base : Nat) (ds : List Char) (c : Char) : spelled base (ds ++ [c]) =
    base * spelled base ds + if c.isDigit then c.toNat - 48 else c.toNat - 87 := by
  rw [spelled, List.foldl_append]
  rfl

theorem baseDigits_length (base count n : Nat) : (baseDigits base count n).length = count := by
  induction count generalizing n with
  | zero => rfl
  | succ count ih => rw [baseDigits, List.length_append, ih, List.length_singleton]

/-- The digits of a number spell what is left of it by the base. -/
theorem spelled_baseDigits (base : Nat) (hbase : 0 < base ∧ base ≤ 16) (count n : Nat) :
    spelled base (baseDigits base count n) = n % base ^ count := by
  have hdigit : ∀ k, k < 16 → (if (Nat.digitChar k).isDigit then (Nat.digitChar k).toNat - 48
      else (Nat.digitChar k).toNat - 87) = k := by decide
  induction count generalizing n with
  | zero =>
    rw [pow_zero, Nat.mod_one]
    rfl
  | succ count ih =>
    have hlt : n % base < 16 := lt_of_lt_of_le (Nat.mod_lt n hbase.1) hbase.2
    rw [baseDigits, spelled_concat, ih, hdigit _ hlt, pow_succ', Nat.mod_mul]
    ring

theorem Value.bits_eq {w w' : Nat} (hw : w' = w) (m n : Nat) (h : m % 2 ^ w = n % 2 ^ w) :
    Value.bits w' (.ofNat w' m) = .bits w (.ofNat w n) := by
  subst hw
  congr 1
  apply BitVec.eq_of_toNat_eq
  rw [BitVec.toNat_ofNat, BitVec.toNat_ofNat, h]

/-- A proper literal is read as the value that it stands for. -/
theorem value_literal (l : Literal) (hl : l.IsProper) (N : Naming) :
    (Expression.literal l).value N = l.value := by
  cases l with
  | bool b => cases b <;> rfl
  | int n => exact Expression.value_numeral n N
  | real x =>
    cases x with
    | rat q => exact Expression.value_rational q N
    | surd a s m =>
      have hm : (0 : ℝ) < m := Rat.cast_pos.mpr hl
      obtain ⟨l, hne, hpoly⟩ := Expression.eval_surd_polynomial a m
      have hroot := Expression.root_surd hm hne hpoly s
      have hname : wordName rootName = rootName := rfl
      have hq : Quantifier.ofName? rootName = none := rfl
      change (Expression.node [.word rootName, _, .word (if s then ['2'] else ['1'])]).value N =
        .real (if s then a + √m else a - √m)
      rw [Expression.value, hname, hq]
      dsimp only
      rw [if_pos rfl, Expression.text_word, ← hroot]
      cases s <;> rfl
  | bits v w =>
    simp only [Expression.literal]
    split_ifs with hw
    · change Value.bits _ (.ofNat _ _) = Value.bits w (.ofNat w v)
      have hwidth : 4 * (w / 4) = w := by omega
      have hpow : 16 ^ (w / 4) = 2 ^ w := by
        rw [show 16 = 2 ^ 4 from rfl, ← pow_mul, hwidth]
      apply Value.bits_eq
      · rw [baseDigits_length, hwidth]
      · rw [spelled_baseDigits 16 (by omega), hpow, Nat.mod_mod]
    · change Value.bits _ (.ofNat _ _) = Value.bits w (.ofNat w v)
      apply Value.bits_eq
      · rw [baseDigits_length]
      · rw [spelled_baseDigits 2 (by omega), Nat.mod_mod]

end Validity
