import Validity.Session
import Validity.Proofs.Balanced
import Validity.Proofs.Terms

/-!
The text of terms and of problems. If the parentheses in each name are balanced, the text of a term
is balanced, so that a problem is cut into exactly the commands that were written into it.
-/
namespace Validity

open Command

def Symbol.IsPlain (f : Symbol) : Prop := Command.IsPlain f.name.toList

instance (f : Symbol) : Decidable f.IsPlain := inferInstanceAs (Decidable (Command.IsPlain _))

def Symbol.IsBalanced (f : Symbol) : Prop := Balanced f.name.toList

theorem Symbol.IsPlain.balanced {f : Symbol} (h : f.IsPlain) : f.IsBalanced := .of_plain h

def barred (c : Char) : List Char := if c = '\\' || c = '|' then ['\\', c] else [c]

/-- A name is written as it is, if it is plain or stands between bars already, or between bars. -/
theorem symbolText_cases (name : String) :
    (isPlainName name.toList = true ∧ symbolText name = name) ∨
    (isBarredName name.toList = true ∧ symbolText name = name) ∨
      (symbolText name).toList = '|' :: (name.toList.flatMap barred ++ ['|']) := by
  unfold symbolText
  dsimp only
  split_ifs with h
  · rcases Bool.or_eq_true _ _ |>.mp h with hplain | hbarred
    · exact .inl ⟨hplain, rfl⟩
    · exact .inr (.inl ⟨hbarred, rfl⟩)
  · exact .inr (.inr (String.toList_ofList ..))

theorem barred_plain (c : Char) (h : c ≠ '(' ∧ c ≠ ')') : IsPlain (barred c) := by
  unfold barred
  split_ifs
  · simpa [IsPlain] using h
  · simpa [IsPlain] using h

/-- A name without parentheses is written without any. -/
theorem symbolText_plain (name : String) (h : IsPlain name.toList) :
    IsPlain (symbolText name).toList := by
  have hbar : IsPlain ['|'] := by decide
  rcases symbolText_cases name with ⟨_, he⟩ | ⟨_, he⟩ | he
  · rwa [he]
  · rwa [he]
  · rw [he]
    refine hbar.append (IsPlain.append ?_ hbar)
    intro c hc
    obtain ⟨d, hd, hcd⟩ := List.mem_flatMap.mp hc
    exact barred_plain d (h d hd) c hcd

/-- Backslashes in front of characters do not unbalance a text. -/
theorem barred_balanced {s : List Char} (h : Balanced s) : Balanced (s.flatMap barred) := by
  induction h with
  | nil => exact .nil
  | plain c s h1 h2 _ ih =>
    rw [List.flatMap_cons]
    exact (Balanced.of_plain (barred_plain c ⟨h1, h2⟩)).append ih
  | nested s r _ _ ihs ihr =>
    -- parentheses are not escaped, so partners stay partners
    have hopen : barred '(' = ['('] := rfl
    have hclose : barred ')' = [')'] := rfl
    rw [List.flatMap_cons, List.flatMap_append, List.flatMap_cons, hopen, hclose]
    exact .nested _ _ ihs ihr

/-- A name is written with the parentheses that it has. -/
theorem symbolText_balanced (name : String) (h : Balanced name.toList) :
    Balanced (symbolText name).toList := by
  have hbar : Balanced ['|'] := .of_plain (by decide)
  rcases symbolText_cases name with ⟨_, he⟩ | ⟨_, he⟩ | he
  · rwa [he]
  · rwa [he]
  · rw [he]
    exact hbar.append ((barred_balanced h).append hbar)

def isNumeralChar (c : Char) : Bool := c.isDigit || "-./*+^# abcdefjortx".toList.contains c

structure Compositional (P : List Char → Prop) : Prop where
  word : ∀ s : List Char, s.all isNumeralChar = true → P s
  append : ∀ s r : List Char, P s → P r → P (s ++ r)
  wrap : ∀ s : List Char, P s → P ('(' :: (s ++ [')']))

namespace Compositional

variable {P : List Char → Prop} (hP : Compositional P)
include hP

theorem append_text (s r : String) (hs : P s.toList) (hr : P r.toList) : P (s ++ r).toList := by
  rw [String.toList_append]
  exact hP.append _ _ hs hr

theorem wrap_text (s : String) (hs : P s.toList) : P ("(" ++ s ++ ")").toList := by
  simpa using hP.wrap _ hs

/-- A word of a numeral may be put in front. -/
theorem word_text {s : String} (w : String) (hs : P s.toList)
    (hw : w.toList.all isNumeralChar = true) : P (w ++ s).toList :=
  hP.append_text w s (hP.word _ hw) hs

theorem decimal (n : Nat) : P (toString n).toList := by
  apply hP.word
  rw [List.all_eq_true]
  intro c hc
  rw [Nat.toString_eq_repr, Nat.toList_repr] at hc
  have hdigit : c.isDigit = true := Nat.isDigit_of_mem_toDigits (by decide) (by decide) hc
  rw [isNumeralChar, hdigit, Bool.true_or]

theorem numeral (n : Int) : P (numeralText n).toList := by
  unfold numeralText
  split_ifs
  · simpa using hP.wrap_text _ (hP.word_text "- " (hP.decimal n.natAbs) rfl)
  · exact hP.decimal _

theorem rational (q : Rat) : P (rationalText q).toList := by
  have hd (n : Nat) : P (toString n ++ ".0").toList :=
    hP.append_text _ _ (hP.decimal n) (hP.word _ (by decide))
  unfold rationalText
  extract_lets top size
  have hsize : P size.toList := by
    simp only [size]
    split_ifs
    · exact hd _
    · have hparts := hP.append_text _ _ (hP.word_text "/ " (hd q.num.natAbs) rfl)
        (hP.word_text " " (hd q.den) rfl)
      simpa [top] using hP.wrap_text _ hparts
  clear_value size
  split_ifs
  · simpa using hP.wrap_text _ (hP.word_text "- " hsize rfl)
  · exact hsize

theorem monomial (c : Int) (k : Nat) : P (monomialText c k).toList := by
  unfold monomialText
  extract_lets power
  have hpower : P power.toList := by
    simp only [power]
    split_ifs
    · exact hP.word _ (by decide)
    · simpa using hP.wrap_text _ (hP.word_text "^ x " (hP.decimal k) rfl)
  clear_value power
  split_ifs
  · exact hP.numeral c
  · exact hpower
  · have hparts := hP.append_text _ _ (hP.word_text "* " (hP.numeral c) rfl)
      (hP.word_text " " hpower rfl)
    simpa using hP.wrap_text _ hparts

/-- The words of an irrational number are those of its polynomial. -/
theorem surd (a : Rat) (plus : Bool) (m : Rat) : P (surdText a plus m).toList := by
  unfold surdText
  rcases Quadratic.polynomial a m with ⟨u, v, w⟩
  have hterms (terms : List (Int × Nat)) :
      P (String.join (terms.map fun p => " " ++ monomialText p.1 p.2)).toList := by
    induction terms with
    | nil => exact hP.word _ (by decide)
    | cons p terms ih =>
      have hp := hP.word_text " " (hP.monomial p.1 p.2) rfl
      simpa [String.toList_join] using hP.append _ _ hp ih
  have hindex : P (if plus then "2" else "1").toList := by
    cases plus <;> exact hP.word _ (by decide)
  have hsum := hP.wrap_text _
    (hP.word_text "+" (hterms ([(u, 2), (v, 1), (w, 0)].filter fun p => p.1 ≠ 0)) rfl)
  have hparts := hP.append_text _ _ (hP.word_text "root-obj " hsum rfl)
    (hP.word_text " " hindex rfl)
  simpa using hP.wrap_text _ hparts

theorem digits (base count n : Nat) : P (baseDigits base count n) := by
  have hdigit (k : Nat) : isNumeralChar k.digitChar = true := by
    rcases Nat.lt_or_ge k 16 with hk | hk
    · have hall : ∀ i, i < 16 → isNumeralChar (Nat.digitChar i) = true := by decide
      exact hall k hk
    · have hne (i : Nat) (hi : i < 16) : k ≠ i := by omega
      have hstar : isNumeralChar '*' = true := by decide
      simpa [Nat.digitChar, hne] using hstar
  induction count generalizing n with
  | zero => exact hP.word _ (by simp [baseDigits])
  | succ count ih =>
    apply hP.append _ _ (ih (n / base))
    apply hP.word
    rw [List.all_cons, hdigit, List.all_nil, Bool.and_true]

/-- What holds of the words in numerals and is kept by joining them holds of every number. -/
theorem literal (l : Literal) (hl : l.ty ≠ .bool) : P l.smtlib.toList := by
  cases l with
  | bool b => exact absurd rfl hl
  | int n => exact hP.numeral n
  | real x =>
    cases x with
    | rat q => exact hP.rational q
    | surd a s m => exact hP.surd a s m
  | bits v w =>
    simp only [Literal.smtlib]
    split_ifs
    · exact hP.word_text "#x" (by rw [String.toList_ofList]; exact hP.digits _ _ _) rfl
    · exact hP.word_text "#b" (by rw [String.toList_ofList]; exact hP.digits _ _ _) rfl

end Compositional

/-- Numerals have balanced parentheses. -/
theorem compositional_balanced : Compositional Balanced where
  word s hs := by
    apply Balanced.of_plain
    intro c hc
    constructor
    · rintro rfl
      exact absurd (List.all_eq_true.mp hs '(' hc) (by decide)
    · rintro rfl
      exact absurd (List.all_eq_true.mp hs ')' hc) (by decide)
  append _ _ hs hr := hs.append hr
  wrap _ hs := hs.wrap

theorem Literal.eq_bool_or (l : Literal) : (∃ b, l = .bool b) ∨ l.ty ≠ .bool := by
  cases l with
  | bool b => exact .inl ⟨b, rfl⟩
  | int n | real x | bits v w => exact .inr (by simp [Literal.ty])

/-- All literals are balanced. -/
theorem literal_balanced (l : Literal) : Balanced l.smtlib.toList := by
  rcases l.eq_bool_or with ⟨b, rfl⟩ | hl
  · cases b <;> exact .of_plain (by decide)
  · exact compositional_balanced.literal l hl

/-- A character that no word in numerals has is in no number. -/
theorem compositional_avoids (c : Char) (hc : isNumeralChar c = false) (h1 : c ≠ '(')
    (h2 : c ≠ ')') : Compositional (c ∉ ·) where
  word s hs hm := by
    rw [List.all_eq_true.mp hs c hm] at hc
    cases hc
  append s r hs hr := by simp [hs, hr]
  wrap s hs := by simp [hs, h1, h2]

theorem decimal_start (n : Nat) : ∃ c, (toString n).toList.head? = some c ∧ c.isDigit = true := by
  rw [Nat.toString_eq_repr, Nat.toList_repr]
  obtain ⟨c, r, hcr⟩ := List.exists_cons_of_ne_nil (Nat.toDigits_ne_nil (b := 10) (n := n))
  have hmem : c ∈ Nat.toDigits 10 n := hcr ▸ List.mem_cons_self
  exact ⟨c, by rw [hcr, List.head?_cons], Nat.isDigit_of_mem_toDigits (by decide) (by decide) hmem⟩

/-- A value that is no truth value starts with a digit, a parenthesis or a number sign. -/
theorem literal_start (l : Literal) (hl : l.ty ≠ .bool) :
    ∃ c, l.smtlib.toList.head? = some c ∧ (c.isDigit = true ∨ c = '(' ∨ c = '#') := by
  cases l with
  | bool b => exact absurd rfl hl
  | int n =>
    simp only [Literal.smtlib, numeralText]
    split_ifs
    · exact ⟨'(', by simp, .inr (.inl rfl)⟩
    · obtain ⟨c, hc, hdigit⟩ := decimal_start n.natAbs
      exact ⟨c, hc, .inl hdigit⟩
  | real x =>
    cases x with
    | rat q =>
      simp only [Literal.smtlib, rationalText]
      split_ifs
      · exact ⟨'(', by simp, .inr (.inl rfl)⟩
      · exact ⟨'(', by simp, .inr (.inl rfl)⟩
      · obtain ⟨c, hc, hdigit⟩ := decimal_start q.num.natAbs
        exact ⟨c, by rw [String.toList_append, List.head?_append, hc, Option.some_or], .inl hdigit⟩
      · exact ⟨'(', by simp, .inr (.inl rfl)⟩
    | surd a plus m =>
      have hopen : "(root-obj (+".toList.head? = some '(' := by decide
      refine ⟨'(', ?_, .inr (.inl rfl)⟩
      change (surdText a plus m).toList.head? = some '('
      unfold surdText
      simp only [String.toList_append, List.head?_append, hopen, Option.some_or]
  | bits v w =>
    simp only [Literal.smtlib]
    split_ifs
    · exact ⟨'#', by simp, .inr (.inr rfl)⟩
    · exact ⟨'#', by simp, .inr (.inr rfl)⟩

theorem balanced_wrap_text (s : String) (h : Balanced s.toList) :
    Balanced ("(" ++ s ++ ")").toList :=
  compositional_balanced.wrap_text s h

theorem balanced_append_text (s r : String) (hs : Balanced s.toList) (hr : Balanced r.toList) :
    Balanced (s ++ r).toList :=
  compositional_balanced.append_text s r hs hr

theorem balanced_word {s : String} (w : String) (hs : Balanced s.toList)
    (hw : IsPlain w.toList) : Balanced (w ++ s).toList :=
  balanced_append_text w s (.of_plain hw) hs

theorem tyText_balanced (ty : Ty) : Balanced ty.text.toList := by
  cases ty with
  | bits w =>
    have h := balanced_wrap_text _ (balanced_word "_ BitVec " (compositional_balanced.decimal w)
      (by decide))
    simpa [Ty.text] using h
  | bool | int | real => exact .of_plain (by decide)

theorem balanced_intercalate_text (gap : String) (l : List String) (hg : Balanced gap.toList)
    (hl : ∀ s ∈ l, Balanced s.toList) : Balanced (gap.intercalate l).toList := by
  rw [String.toList_intercalate]
  apply Balanced.intercalate hg
  intro s hs
  obtain ⟨r, hr, rfl⟩ := List.mem_map.mp hs
  exact hl r hr

/-- An application is balanced if its head and arguments are. -/
theorem applied_balanced (head : String) (args : List String) (hh : Balanced head.toList)
    (ha : ∀ s ∈ args, Balanced s.toList) : Balanced (applied head args).toList := by
  unfold applied
  split_ifs
  · exact hh
  · apply balanced_wrap_text
    apply balanced_intercalate_text " " _ (.of_plain (by decide))
    intro s hs
    rcases List.mem_cons.mp hs with rfl | hs
    · exact hh
    · exact ha s hs

theorem op_text_plain (o : Op) : IsPlain o.text.toList := by
  cases o <;> decide

theorem quantifier_text_plain (q : Quantifier) : IsPlain q.text.toList := by
  cases q <;> decide

def Scope.IsBalanced (scope : Scope) : Prop := ∀ p ∈ scope, Balanced p.2.toList

namespace Scope

/-- A number behind a picked name does not unbalance it. -/
theorem pick_balanced (scope : Scope) (v : Symbol) (hv : v.IsBalanced) :
    Balanced (scope.pick v).toList := by
  have hbase := symbolText_balanced v.name hv
  unfold pick
  dsimp only
  split_ifs
  · -- the name is taken: a number is put behind it
    rcases Option.eq_none_or_eq_some (((List.range ((scope.map (·.2)).length + 1)).map fun i =>
      symbolText v.name ++ "!" ++ toString (i + 1)).find? fun n => !(scope.map (·.2)).contains n)
      with hn | ⟨n, hn⟩
    · rw [hn]
      exact hbase
    · rw [hn]
      obtain ⟨i, _, rfl⟩ := List.mem_map.mp (List.mem_of_find?_eq_some hn)
      simp only [Option.getD_some, String.toList_append]
      exact (hbase.append (.of_plain (by decide))).append (compositional_balanced.decimal (i + 1))
  · exact hbase

/-- Binding constants with balanced names keeps a scope balanced. -/
theorem foldl_bind_balanced (vars : List Symbol) (hv : ∀ v ∈ vars, v.IsBalanced) (scope : Scope)
    (hs : scope.IsBalanced) : (vars.foldl bind scope).IsBalanced := by
  induction vars generalizing scope with
  | nil => exact hs
  | cons v vars ih =>
    apply ih fun w hw => hv w (List.mem_cons_of_mem v hw)
    intro p hp
    rcases List.mem_cons.mp hp with rfl | hp
    · exact scope.pick_balanced v (hv v List.mem_cons_self)
    · exact hs p hp

theorem text_balanced (scope : Scope) (hs : scope.IsBalanced) (f : Symbol) (hf : f.IsBalanced) :
    Balanced (scope.text f).toList := by
  unfold text
  rcases Option.eq_none_or_eq_some (scope.lookup f) with hn | ⟨n, hn⟩
  · rw [hn]
    exact symbolText_balanced f.name hf
  · rw [hn]
    obtain ⟨p, q, rfl, _⟩ := List.lookup_eq_some_iff.mp hn
    exact hs (f, n) (by simp)

end Scope

theorem Term.smtlibAll_eq_map (scope : Scope) (ts : List Term) :
    Term.smtlibAll scope ts = ts.map (Term.smtlibIn scope) := by
  induction ts with
  | nil => rfl
  | cons t ts ih => rw [Term.smtlibAll, ih, List.map_cons]

/-- With balanced names, the text of a term is balanced. -/
theorem Term.smtlibIn_balanced (t : Term) (h : ∀ f ∈ t.symbols, f.IsBalanced) (scope : Scope)
    (hs : scope.IsBalanced) : Balanced (t.smtlibIn scope).toList := by
  induction t using Term.induction generalizing scope with
  | lit l => exact literal_balanced l
  | app f args ih =>
    have hf : f.IsBalanced := h f (by simp [Term.symbols])
    have hargs (s : String) (hm : s ∈ Term.smtlibAll scope args) : Balanced s.toList := by
      rw [smtlibAll_eq_map] at hm
      obtain ⟨a, ha, rfl⟩ := List.mem_map.mp hm
      refine ih a ha (fun g hg => h g ?_) scope hs
      exact List.mem_cons_of_mem f ((Term.mem_symbolsIn g args).mpr ⟨a, ha, hg⟩)
    cases args with
    | nil => exact scope.text_balanced hs f hf
    | cons a args => exact applied_balanced _ _ (symbolText_balanced f.name hf) hargs
  | op o args ih =>
    apply applied_balanced _ _ (.of_plain (op_text_plain o))
    intro s hm
    rw [smtlibAll_eq_map] at hm
    obtain ⟨a, ha, rfl⟩ := List.mem_map.mp hm
    exact ih a ha (fun g hg => h g ((Term.mem_symbolsIn g args).mpr ⟨a, ha, hg⟩)) scope hs
  | quant q vars body ih =>
    have hvars (v : Symbol) (hv : v ∈ vars) : v.IsBalanced := h v (by simp [Term.symbols, hv])
    have hinner := Scope.foldl_bind_balanced vars hvars scope hs
    have hbody := ih (fun g hg => h g (by simp [Term.symbols, hg])) _ hinner
    rw [Term.smtlibIn]
    -- which names the constants have got does not matter, only that they are balanced
    generalize vars.foldl Scope.bind scope = inner at hinner hbody
    have hbinder (p : Symbol × String) (hp : p ∈ inner) :
        Balanced ("(" ++ p.2 ++ " " ++ p.1.range.text ++ ")").toList := by
      have hparts := balanced_append_text _ _ (hinner p hp)
        (balanced_word " " (tyText_balanced p.1.range) (by decide))
      simpa using balanced_wrap_text _ hparts
    have hbinders := balanced_intercalate_text " " ((inner.take vars.length).reverse.map fun p =>
      "(" ++ p.2 ++ " " ++ p.1.range.text ++ ")") (.of_plain (by decide)) (by
        intro s hm
        obtain ⟨p, hp, rfl⟩ := List.mem_map.mp hm
        exact hbinder p (List.mem_of_mem_take (List.mem_reverse.mp hp)))
    have hhead := balanced_append_text _ _ (.of_plain (quantifier_text_plain q))
      (balanced_word " " (balanced_wrap_text _ hbinders) (by decide))
    have hparts := balanced_append_text _ _ hhead (balanced_word " " hbody (by decide))
    simpa using balanced_wrap_text _ hparts

theorem isCommand_wrap_text (s : String) (h : Balanced s.toList) :
    IsCommand ("(" ++ s ++ ")").toList :=
  ⟨s.toList, h, by simp⟩

theorem domain_balanced (f : Symbol) :
    Balanced ("(" ++ " ".intercalate (f.domain.map Ty.text) ++ ")").toList := by
  apply balanced_wrap_text
  apply balanced_intercalate_text " " _ (.of_plain (by decide))
  intro s hs
  obtain ⟨ty, _, rfl⟩ := List.mem_map.mp hs
  exact tyText_balanced ty

/-- A declaration is one command. -/
theorem Symbol.declaration_isCommand (f : Symbol) (hf : f.IsBalanced) :
    IsCommand f.declaration.toList := by
  have hhead := balanced_append_text _ _
    (balanced_word "declare-fun " (symbolText_balanced f.name hf) (by decide))
    (balanced_word " " (domain_balanced f) (by decide))
  have hwrap := isCommand_wrap_text _
    (balanced_append_text _ _ hhead (balanced_word " " (tyText_balanced f.range) (by decide)))
  -- the text is opened without `simp`, which would look into its literals
  unfold Symbol.declaration
  simp only [String.toList_append] at hwrap ⊢
  simpa using hwrap

/-- An assertion is one command. -/
theorem Term.assertion_isCommand (t : Term) (h : ∀ f ∈ t.symbols, f.IsBalanced) :
    IsCommand t.assertion.toList := by
  have hterm := t.smtlibIn_balanced h [] fun p hp => absurd hp List.not_mem_nil
  simpa [Term.assertion, Term.smtlib] using 
    isCommand_wrap_text _ (balanced_word "assert " hterm (by decide))

theorem checkCommand_isCommand : IsCommand checkCommand.toList :=
  isCommand_wrap_text "check-sat" (.of_plain (by decide))

inductive Instruction where
  | declare (f : Symbol)
  | assert (t : Term)
  | check

namespace Instruction

def text : Instruction → String
  | .declare f => f.declaration
  | .assert t => t.assertion
  | .check => checkCommand

def asserted? : Instruction → Option Term
  | .assert t => some t
  | _ => none

def Over (vocabulary : List Symbol) : Instruction → Prop
  | .declare f => f ∈ vocabulary
  | .assert t => ∀ f ∈ t.symbols, f ∈ vocabulary
  | .check => True

/-- Every command of a problem is cut off as a whole. -/
theorem isCommand (vocabulary : List Symbol) (hv : ∀ f ∈ vocabulary, f.IsBalanced)
    (i : Instruction) (hi : i.Over vocabulary) : IsCommand i.text.toList := by
  cases i with
  | declare f => exact f.declaration_isCommand (hv f hi)
  | assert t => exact t.assertion_isCommand fun f hf => hv f (hi f hf)
  | check => exact checkCommand_isCommand

def listing (ts : List Term) : List Instruction :=
  (freeSymbols ts).map .declare ++ ts.map .assert

/-- The texts of a problem are those of its commands. -/
theorem commands_eq_listing (ts : List Term) : commands ts = (listing ts).map text := by
  simp [commands, listing, Function.comp_def, text]

/-- The commands have no other symbols than the formulas. -/
theorem listing_over (ts : List Term) (i : Instruction) (hi : i ∈ listing ts) :
    i.Over (Term.symbolsIn ts) := by
  rcases List.mem_append.mp hi with hi | hi
  · obtain ⟨f, hf, rfl⟩ := List.mem_map.mp hi
    exact mem_symbolsIn_of_mem_freeSymbols f ts hf
  · obtain ⟨t, ht, rfl⟩ := List.mem_map.mp hi
    exact fun f hf => (Term.mem_symbolsIn f ts).mpr ⟨t, ht, hf⟩

/-- Every formula is asserted once, in order. -/
theorem listing_asserted (ts : List Term) : (listing ts).filterMap asserted? = ts := by
  have hdeclare : (asserted? ∘ declare) = fun _ => none := rfl
  have hassert : (asserted? ∘ assert) = some := rfl
  rw [listing, List.filterMap_append, List.filterMap_map, List.filterMap_map, hdeclare, hassert]
  simp

/-- The commands of a problem as it is cut, each with the text before it: every command but the
first stands on a line of its own, and so does the command to check. -/
def written (ts : List Term) : List (List Char × Instruction) :=
  match listing ts with
  | [] => [(['\n'], .check)]
  | i :: is => ([], i) :: (is ++ [Instruction.check]).map fun j => (['\n'], j)

def spaced (p : List Char × Instruction) : List Char := p.1 ++ p.2.text.toList

/-- With the texts before them left out, the pieces are the commands. -/
theorem written_snd (ts : List Term) : (written ts).map (·.2) = listing ts ++ [.check] := by
  rw [written]
  cases listing ts with
  | nil => rfl
  | cons i is => simp [Function.comp_def]

theorem written_gap (ts : List Term) (p : List Char × Instruction) (hp : p ∈ written ts) :
    p.1 = [] ∨ p.1 = ['\n'] := by
  rw [written] at hp
  cases hl : listing ts with
  | nil =>
    rw [hl] at hp
    exact .inr (by rw [List.mem_singleton.mp hp])
  | cons i is =>
    rw [hl] at hp
    rcases List.mem_cons.mp hp with rfl | hp
    · exact .inl rfl
    · obtain ⟨j, _, rfl⟩ := List.mem_map.mp hp
      exact .inr rfl

theorem written_over (ts : List Term) (p : List Char × Instruction) (hp : p ∈ written ts) :
    p.2.Over (Term.symbolsIn ts) := by
  have hmem : p.2 ∈ (written ts).map (·.2) := List.mem_map.mpr ⟨p, hp, rfl⟩
  rw [written_snd] at hmem
  rcases List.mem_append.mp hmem with hi | hi
  · exact listing_over ts p.2 hi
  · rw [List.mem_singleton.mp hi]
    trivial

end Instruction

namespace Command

open Instruction

/-- Ends of lines behind each line are ends of lines before all lines but the first, and one at
the end. -/
theorem lines_eq (c : List Char) (cs : List (List Char)) :
    ((c :: cs).map fun l => l ++ ['\n']).flatten =
      c ++ (cs.map fun l => '\n' :: l).flatten ++ ['\n'] := by
  induction cs generalizing c with
  | nil => simp
  | cons d cs ih =>
    rw [List.map_cons, List.flatten_cons, ih d]
    simp

/-- The last character of a problem closes a parenthesis. -/
theorem exists_eq_append_close (gap c : List Char) (cs : List (List Char)) (hc : IsCommand c)
    (hcs : ∀ d ∈ cs, IsCommand d) :
    ∃ s, gap ++ c ++ (cs.map fun l => '\n' :: l).flatten = s ++ [')'] := by
  induction cs generalizing gap c with
  | nil =>
    obtain ⟨s, _, rfl⟩ := hc
    exact ⟨gap ++ '(' :: s, by simp⟩
  | cons d cs ih =>
    obtain ⟨s, hs⟩ := ih (gap ++ c ++ ['\n']) d (hcs d List.mem_cons_self)
      fun e he => hcs e (List.mem_cons_of_mem d he)
    refine ⟨s, ?_⟩
    rw [← hs]
    simp

/-- Trimming takes the last line feed only. -/
theorem trimRight_line (s : List Char) : Text.trimRight (s ++ [')'] ++ ['\n']) = s ++ [')'] := by
  have hclose : Text.isBlank ')' = false := by decide
  have hline : Text.isBlank '\n' = true := by decide
  simp [Text.trimRight, Text.trimLeft, hclose, hline]

theorem problemText_toList (ts : List Term) : (problemText ts).toList =
    (((commands ts).map String.toList).map fun l => l ++ ['\n']).flatten := by
  rw [problemText, String.toList_join, List.flatMap_def, List.map_map, List.map_map]
  congr 1
  apply List.map_congr_left
  intro c _
  simp

/-- The text that is filtered is the commands as they are cut, and the end of the last line. -/
theorem problem_eq_written (ts : List Term) (h : ∀ f ∈ Term.symbolsIn ts, f.IsBalanced) :
    Text.trimRight (problemText ts).toList ++ ("\n" ++ checkCommand ++ "\n").toList =
      ((written ts).map spaced).flatten ++ ['\n'] := by
  have hlisting (i : Instruction) (hi : i ∈ listing ts) : IsCommand i.text.toList :=
    i.isCommand _ h (listing_over ts i hi)
  have hlines : (commands ts).map String.toList = (listing ts).map fun j => j.text.toList := by
    rw [commands_eq_listing, List.map_map]
    rfl
  rw [problemText_toList, hlines, written]
  cases hl : listing ts with
  | nil => decide
  | cons i is =>
    rw [hl] at hlisting
    obtain ⟨s, hs⟩ := exists_eq_append_close [] i.text.toList (is.map fun j => j.text.toList)
      (hlisting i List.mem_cons_self) (by
        intro d hd
        obtain ⟨j, hj, rfl⟩ := List.mem_map.mp hd
        exact hlisting j (List.mem_cons_of_mem i hj))
    rw [List.nil_append] at hs
    -- the last command ends with a parenthesis, so trimming takes just the end of its line
    rw [List.map_cons, lines_eq, hs, trimRight_line, ← hs]
    simp [Function.comp_def, spaced, Instruction.text]

/-- A problem with balanced names is cut into the commands that were written. -/
theorem Filter.problem_eq (f : Filter) (ts : List Term)
    (h : ∀ g ∈ Term.symbolsIn ts, g.IsBalanced) :
    f.problem ts = String.ofList (((written ts).map spaced).filter f.keeps).flatten := by
  have hpieces : (written ts).map spaced =
      ((written ts).map fun p => (p.1, p.2.text.toList)).map fun p => p.1 ++ p.2 := by
    simp [spaced]
  have hsplit := split_commands ((written ts).map fun p => (p.1, p.2.text.toList)) ['\n'] (by
    intro p hp
    obtain ⟨q, hq, rfl⟩ := List.mem_map.mp hp
    refine ⟨?_, q.2.isCommand _ h (written_over ts q hq)⟩
    rcases written_gap ts q hq with hg | hg
    · rw [hg]
      decide
    · rw [hg]
      decide) (by decide)
  rw [← hpieces] at hsplit
  unfold Filter.problem Filter.apply
  dsimp only
  rw [problem_eq_written ts h, hsplit]

end Command
end Validity
