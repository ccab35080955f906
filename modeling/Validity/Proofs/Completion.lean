import Mathlib.Data.List.Nodup
import Validity.Model.Eval
import Validity.Proofs.Terms

/-!
Evaluation with completion. A model reads as a total one, in which a symbol without interpretation
has the default value. Completion only writes such defaults down, behind what is there, so the model
reads the same afterwards, and the values found on the way stay right. Hence evaluation gives the
value of the term in the total reading, whatever was evaluated before.
-/
namespace Validity

theorem lookup_assign {α β : Type} [DecidableEq α] (key k : α) (value : β) (l : List (α × β)) :
    (assign key value l).lookup k = if k = key then some value else l.lookup k := by
  induction l with
  | nil =>
    rw [assign, List.lookup_cons]
    split_ifs with hk
    · simp [hk]
    · simp [beq_eq_false_iff_ne.mpr hk]
  | cons p l ih =>
    obtain ⟨a, b⟩ := p
    rw [assign, List.lookup_cons]
    split_ifs with ha hk hk
    · simp [ha, hk]
    · simp [ha, List.lookup_cons, beq_eq_false_iff_ne.mpr hk]
    · have hne : (k == a) = false := beq_eq_false_iff_ne.mpr fun h => ha (h.symm.trans hk)
      rw [List.lookup_cons, hne, ih, if_pos hk]
    · rw [List.lookup_cons, ih, if_neg hk]

theorem assign_eq_append {α β : Type} [DecidableEq α] (key : α) (value : β) (l : List (α × β))
    (h : l.lookup key = none) : assign key value l = l ++ [(key, value)] := by
  induction l with
  | nil => rfl
  | cons p l ih =>
    obtain ⟨a, b⟩ := p
    have hne : ¬ a = key := fun heq => bne_iff_ne.mp
      (List.lookup_eq_none_iff.mp h (a, b) List.mem_cons_self) heq.symm
    have hrest : l.lookup key = none := List.lookup_eq_none_iff.mpr fun e he =>
      List.lookup_eq_none_iff.mp h e (List.mem_cons_of_mem _ he)
    rw [assign, if_neg hne, ih hrest]
    rfl

def AddsDefaults {β : Type} (default : Symbol → β) (l l' : List (Symbol × β)) : Prop :=
  ∃ fs : List Symbol, fs.Nodup ∧ (∀ f ∈ fs, l.lookup f = none) ∧
    l' = l ++ fs.map fun f => (f, default f)

namespace AddsDefaults

variable {β : Type} {default : Symbol → β} {l l' : List (Symbol × β)}

theorem refl (default : Symbol → β) (l : List (Symbol × β)) : AddsDefaults default l l :=
  ⟨[], List.nodup_nil, fun _ hf => absurd hf List.not_mem_nil, (List.append_nil l).symm⟩

/-- Such a list reads as before, or has a default where there was nothing. -/
theorem lookup (h : AddsDefaults default l l') (f : Symbol) :
    l'.lookup f = l.lookup f ∨ l.lookup f = none ∧ l'.lookup f = some (default f) := by
  obtain ⟨fs, _, hnone, rfl⟩ := h
  rw [List.lookup_append]
  by_cases hf : f ∈ fs
  · rw [List.lookup_graph default hf, hnone f hf]
    exact .inr ⟨rfl, rfl⟩
  · have hrest : (fs.map fun g => (g, default g)).lookup f = none := by
      rw [List.lookup_eq_none_iff]
      intro e he
      obtain ⟨g, hg, rfl⟩ := List.mem_map.mp he
      exact bne_iff_ne.mpr fun heq => hf (heq ▸ hg)
    rw [hrest, Option.or_none]
    exact .inl rfl

/-- With the default for what is missing, both lists say the same. -/
theorem lookup_getD (h : AddsDefaults default l l') (f : Symbol) :
    (l'.lookup f).getD (default f) = (l.lookup f).getD (default f) := by
  rcases h.lookup f with heq | ⟨hnone, hsome⟩
  · rw [heq]
  · rw [hnone, hsome]
    rfl

/-- Another default for a symbol without a value goes to the end. -/
theorem assign (h : AddsDefaults default l l') (f : Symbol) (hf : l'.lookup f = none) :
    AddsDefaults default l (assign f (default f) l') := by
  rw [assign_eq_append f _ l' hf]
  obtain ⟨fs, hnodup, hnone, rfl⟩ := h
  rw [List.lookup_append, Option.or_eq_none_iff] at hf
  obtain ⟨hl, hfs⟩ := hf
  have hnew : f ∉ fs := by
    intro hmem
    rw [List.lookup_graph default hmem] at hfs
    cases hfs
  refine ⟨fs ++ [f], ?_, fun g hg => ?_, ?_⟩
  · rw [← List.concat_eq_append]
    exact hnodup.concat hnew
  · rcases List.mem_append.mp hg with hg | hg
    · exact hnone g hg
    · rw [List.mem_singleton.mp hg]
      exact hl
  · rw [List.map_append, List.append_assoc]
    rfl

end AddsDefaults

namespace Model

def constant (m : Model) (f : Symbol) : Literal :=
  (m.constants.lookup f).getD f.range.default

def function (m : Model) (f : Symbol) : Table :=
  (m.functions.lookup f).getD (.default f.range)

/-- All symbols have the same interpretation in both models, written down or by default. -/
structure ReadsAs (m n : Model) : Prop where
  constant : ∀ f, m.constant f = n.constant f
  function : ∀ f, m.function f = n.function f

theorem constant_setConstant (m : Model) (f g : Symbol) (v : Literal) :
    (m.setConstant f v).constant g = if g = f then v else m.constant g := by
  unfold constant setConstant
  rw [lookup_assign]
  split_ifs <;> rfl

namespace ReadsAs

variable {m n : Model}

theorem refl (m : Model) : ReadsAs m m := ⟨fun _ => rfl, fun _ => rfl⟩

theorem trans {k : Model} (h : ReadsAs m n) (h' : ReadsAs n k) : ReadsAs m k :=
  ⟨fun f => (h.constant f).trans (h'.constant f), fun f => (h.function f).trans (h'.function f)⟩

end ReadsAs

structure CompletedTo (m n : Model) : Prop where
  constants : AddsDefaults (fun f => f.range.default) m.constants n.constants
  functions : AddsDefaults (fun f => Table.default f.range) m.functions n.functions

namespace CompletedTo

variable {m n : Model}

theorem refl (m : Model) : CompletedTo m m := ⟨.refl _ _, .refl _ _⟩

/-- Completion changes no value, for the defaults were there before it. -/
theorem reads (h : CompletedTo m n) : n.ReadsAs m :=
  ⟨h.constants.lookup_getD, h.functions.lookup_getD⟩

theorem completeConstant (h : CompletedTo m n) (f : Symbol) (hf : n.constants.lookup f = none) :
    CompletedTo m (n.setConstant f f.range.default) :=
  ⟨h.constants.assign f hf, h.functions⟩

theorem completeFunction (h : CompletedTo m n) (f : Symbol) (hf : n.functions.lookup f = none) :
    CompletedTo m (n.setFunction f (.default f.range)) :=
  ⟨h.constants, h.functions.assign f hf⟩

end CompletedTo
end Model

namespace Table

/-- A table is constant as a list of entries iff it is as a function. -/
theorem isConstant_iff (t : Table) : t.isConstant = true ↔ ∀ vs, t.value vs = t.otherwise := by
  unfold isConstant
  rw [List.all_eq_true]
  constructor
  · intro h vs
    cases hvs : t.entries.lookup vs with
    | none =>
      rw [value, hvs]
      rfl
    | some v =>
      obtain ⟨front, back, hsplit, _⟩ := List.lookup_eq_some_iff.mp hvs
      have hmem : (vs, v) ∈ t.entries := by
        rw [hsplit]
        simp
      exact of_decide_eq_true (h _ hmem)
  · intro h e _
    exact decide_eq_true (h e.1)

/-- There are always arguments that have no entry. -/
theorem exists_otherwise (t : Table) : ∃ vs, t.value vs = t.otherwise := by
  -- a list of arguments that is longer than those of all entries together has no entry
  refine ⟨.bool true :: (t.entries.map (·.1)).flatten, ?_⟩
  have hnone : t.entries.lookup (.bool true :: (t.entries.map (·.1)).flatten) = none := by
    rw [List.lookup_eq_none_iff]
    intro e he
    have hmem : e.1 ∈ t.entries.map (·.1) := List.mem_map.mpr ⟨e, he, rfl⟩
    have hle := (List.sublist_flatten_of_mem hmem).length_le
    rw [bne_iff_ne]
    intro heq
    rw [← heq, List.length_cons] at hle
    omega
  rw [value, hnone]
  rfl

/-- Whether a table is constant, and its value then, is a matter of the function alone. -/
theorem otherwise_eq {t u : Table} (h : ∀ vs, t.value vs = u.value vs)
    (ht : t.isConstant = true) : u.isConstant = true ∧ u.otherwise = t.otherwise := by
  rw [isConstant_iff] at ht ⊢
  obtain ⟨vs, hvs⟩ := u.exists_otherwise
  have hrest : u.otherwise = t.otherwise := by rw [← hvs, ← h, ht]
  refine ⟨fun ws => ?_, hrest⟩
  rw [← h, ht, hrest]

/-- Tables with the same values count the same, however their entries are written. -/
theorem valueAt?_congr {t u : Table} (h : ∀ vs, t.value vs = u.value vs) (args : List Term) :
    t.valueAt? args = u.valueAt? args := by
  unfold valueAt?
  cases allSome (args.map Term.value?) with
  | some vs => exact congrArg some (h vs)
  | none =>
    dsimp only
    by_cases ht : t.isConstant = true
    · obtain ⟨hu, hrest⟩ := otherwise_eq h ht
      rw [if_pos ht, if_pos hu, hrest]
    · have hu : ¬ u.isConstant = true := fun hu => ht (otherwise_eq (fun vs => (h vs).symm) hu).1
      rw [if_neg ht, if_neg hu]

def applied (t : Table) (f : Symbol) (args : List Term) : Term :=
  match t.valueAt? args with
  | some v => .lit v
  | none => .app f args

theorem applied_default (f : Symbol) (args : List Term) :
    (default f.range).applied f args = .lit f.range.default := by
  unfold applied valueAt?
  cases allSome (args.map Term.value?) <;> rfl

end Table

mutual

/-- The value of a term if every symbol is read as the model gives it, with nothing to complete. -/
def Term.valueIn (m : Model) : Term → Term
  | .lit l => .lit l
  | .app f [] => .lit (m.constant f)
  | .app f args => (m.function f).applied f (Term.valuesIn m args)
  | .op .ite [c, a, b] =>
    if Term.valueIn m c = .bool true then Term.valueIn m a
    else if Term.valueIn m c = .bool false then Term.valueIn m b
    else .op .ite [Term.valueIn m c, Term.valueIn m a, Term.valueIn m b]
  | .op o args => o.reduce (Term.valuesIn m args)
  | .quant q vars body => .quant q vars body

def Term.valuesIn (m : Model) : List Term → List Term
  | [] => []
  | t :: ts => Term.valueIn m t :: Term.valuesIn m ts

end

def Eval.Keeps {α : Type} (inv : EvalState → Prop) (x : Eval α) (post : α → Prop) : Prop :=
  ∀ s, inv s → post (x.run s).1 ∧ inv (x.run s).2

namespace Eval.Keeps

variable {α β : Type} {inv : EvalState → Prop} {x : Eval α} {p : α → Prop} {q : β → Prop}

theorem pure {a : α} (h : p a) : Keeps inv (Pure.pure a) p :=
  fun _ hs => ⟨h, hs⟩

/-- Evaluations that keep an invariant can be put one after the other. -/
theorem bind {f : α → Eval β} (hx : Keeps inv x p) (hf : ∀ a, p a → Keeps inv (f a) q) :
    Keeps inv (x >>= f) q := by
  intro s hs
  obtain ⟨ha, hs'⟩ := hx s hs
  exact hf _ ha _ hs'

theorem get : Keeps inv MonadState.get inv :=
  fun _ hs => ⟨hs, hs⟩

theorem set {s : EvalState} (h : inv s) : Keeps inv (MonadStateOf.set s) fun _ => True :=
  fun _ _ => ⟨trivial, h⟩

theorem modified {f : EvalState → EvalState} (h : ∀ s, inv s → inv (f s)) :
    Keeps inv (modify f) fun _ => True :=
  fun s hs => ⟨trivial, h s hs⟩

end Eval.Keeps

structure EvalState.Sound (complete : Bool) (m : Model) (s : EvalState) : Prop where
  model : m.CompletedTo s.model
  known : complete = true → ∀ t v : Term, s.known[t]? = some v → v = t.valueIn m

def Eval.Gives (complete : Bool) (m : Model) (x : Eval Term) (v : Term) : Prop :=
  x.Keeps (EvalState.Sound complete m) fun w => complete = true → w = v

section Evaluation

variable (complete : Bool) (m : Model)

/-- A constant has the value that the model gives it, and keeps it. -/
theorem evalConstant_gives (f : Symbol) :
    (evalConstant complete f).Gives complete m (.lit (m.constant f)) := by
  unfold evalConstant
  refine Eval.Keeps.get.bind fun s hs => ?_
  cases hf : s.model.constants.lookup f with
  | some v =>
    refine .pure fun _ => ?_
    rw [← hs.model.reads.constant, Model.constant, hf]
    rfl
  | none =>
    have hdefault : m.constant f = f.range.default := by
      rw [← hs.model.reads.constant, Model.constant, hf]
      rfl
    cases complete with
    | false => exact .pure nofun
    | true =>
      have hset : EvalState.Sound true m
          { s with model := s.model.setConstant f f.range.default } :=
        ⟨hs.model.completeConstant f hf, hs.known⟩
      exact (Eval.Keeps.set hset).bind fun _ _ => .pure fun _ => by rw [hdefault]

/-- A function has the table that the model gives it, and keeps it. -/
theorem evalFunction_gives (f : Symbol) (args : List Term) :
    (evalFunction complete f args).Gives complete m ((m.function f).applied f args) := by
  unfold evalFunction
  refine Eval.Keeps.get.bind fun s hs => ?_
  cases hf : s.model.functions.lookup f with
  | some t =>
    have htable : m.function f = t := by
      rw [← hs.model.reads.function, Model.function, hf]
      rfl
    rw [htable, Table.applied]
    dsimp only
    cases t.valueAt? args with
    | some l => exact .pure fun _ => rfl
    | none => exact .pure fun _ => rfl
  | none =>
    have hdefault : m.function f = .default f.range := by
      rw [← hs.model.reads.function, Model.function, hf]
      rfl
    rw [hdefault, Table.applied_default]
    cases complete with
    | false => exact .pure nofun
    | true =>
      have hset : EvalState.Sound true m
          { s with model := s.model.setFunction f (.default f.range) } :=
        ⟨hs.model.completeFunction f hf, hs.known⟩
      exact (Eval.Keeps.set hset).bind fun _ _ => .pure fun _ => rfl

/-- Terms are evaluated one after the other, each in the model that those before it left. -/
theorem evalAllM_keeps (ts : List Term)
    (ih : ∀ t ∈ ts, (t.evalM complete).Gives complete m (t.valueIn m)) :
    (Term.evalAllM complete ts).Keeps (EvalState.Sound complete m) fun vs =>
      complete = true → vs = Term.valuesIn m ts := by
  induction ts with
  | nil =>
    rw [Term.evalAllM]
    exact .pure fun _ => rfl
  | cons t ts ihs =>
    rw [Term.evalAllM]
    refine (ih t List.mem_cons_self).bind fun v hv => ?_
    refine (ihs fun u hu => ih u (List.mem_cons_of_mem t hu)).bind fun vs hvs => ?_
    exact .pure fun hc => by rw [Term.valuesIn, hv hc, hvs hc]

/-- A value that is known already need not be found again. -/
theorem known_gives (t : Term) (fresh : Eval Term) (h : fresh.Gives complete m (t.valueIn m)) :
    Eval.Gives complete m (do
      match (← get).known[t]? with
      | some v => return v
      | none => fresh) (t.valueIn m) := by
  refine Eval.Keeps.get.bind fun s hs => ?_
  cases hk : s.known[t]? with
  | some v => exact .pure fun hc => hs.known hc t v hk
  | none => exact h

/-- A right value may be written down. -/
theorem stored_gives (t v : Term) (hv : complete = true → v = t.valueIn m) :
    Eval.Gives complete m (do
      modify fun s => { s with known := s.known.insert t v }
      return v) (t.valueIn m) := by
  refine (Eval.Keeps.modified fun s hs => ⟨hs.model, fun hc u w hw => ?_⟩).bind fun _ _ => .pure hv
  rw [Std.HashMap.getElem?_insert] at hw
  split_ifs at hw with htu
  · rw [← beq_iff_eq.mp htu, ← hv hc]
    exact (Option.some.inj hw).symm
  · exact hs.known hc u w hw

/-- If the condition has a truth value, the other branch is not evaluated and does not count. -/
theorem ite_gives (c a b : Term) (hc : (c.evalM complete).Gives complete m (c.valueIn m))
    (ha : (a.evalM complete).Gives complete m (a.valueIn m))
    (hb : (b.evalM complete).Gives complete m (b.valueIn m)) :
    ((Term.op .ite [c, a, b]).evalM complete).Gives complete m
      ((Term.op .ite [c, a, b]).valueIn m) := by
  rw [Term.evalM]
  apply known_gives
  refine hc.bind fun v hv => ?_
  -- only the branch that is taken is evaluated, so only its symbols are completed
  split_ifs with htrue hfalse
  · refine ha.bind fun x hx => stored_gives _ _ _ x fun hcomplete => ?_
    rw [Term.valueIn, ← hv hcomplete, if_pos htrue, hx hcomplete]
  · refine hb.bind fun x hx => stored_gives _ _ _ x fun hcomplete => ?_
    rw [Term.valueIn, ← hv hcomplete, if_neg htrue, if_pos hfalse, hx hcomplete]
  · refine ha.bind fun x hx => hb.bind fun y hy => stored_gives _ _ _ _ fun hcomplete => ?_
    rw [Term.valueIn, ← hv hcomplete, if_neg htrue, if_neg hfalse, hx hcomplete, hy hcomplete]

/-- Evaluation at most completes the model, and under completion it gives the value of the term as
the model reads. -/
theorem evalM_gives (t : Term) : (t.evalM complete).Gives complete m (t.valueIn m) := by
  induction t using Term.induction with
  | lit l =>
    rw [Term.evalM]
    apply known_gives
    exact stored_gives complete m (.lit l) (.lit l) fun _ => rfl
  | app f args ih =>
    cases args with
    | nil =>
      rw [Term.evalM]
      apply known_gives
      exact (evalConstant_gives complete m f).bind fun v hv => stored_gives _ _ _ v hv
    | cons a args =>
      rw [Term.evalM.eq_def]
      apply known_gives
      refine (evalAllM_keeps complete m (a :: args) ih).bind fun vs hvs => ?_
      refine (evalFunction_gives complete m f vs).bind fun v hv => stored_gives _ _ _ v fun hc => ?_
      rw [hv hc, hvs hc]
      rfl
  | op o args ih =>
    by_cases hite : ∃ c a b, o = .ite ∧ args = [c, a, b]
    · obtain ⟨c, a, b, rfl, rfl⟩ := hite
      exact ite_gives complete m c a b (ih c (by simp)) (ih a (by simp)) (ih b (by simp))
    · have hother (c a b : Term) (ho : o = .ite) (hargs : args = [c, a, b]) : False :=
        hite ⟨c, a, b, ho, hargs⟩
      rw [Term.evalM]
      apply known_gives
      dsimp only
      split
      case h_5 heq =>
        cases heq
        refine (evalAllM_keeps complete m args ih).bind fun vs hvs => ?_
        refine stored_gives _ _ _ _ fun hcomplete => ?_
        rw [Term.valueIn, hvs hcomplete]
        exact hother
      case h_4 c a b heq =>
        cases heq
        exact (hother c a b rfl rfl).elim
      all_goals cases ‹Term.op o args = _›
  | quant q vars body =>
    rw [Term.evalM]
    apply known_gives
    exact stored_gives complete m (.quant q vars body) (.quant q vars body) fun _ => rfl

end Evaluation

/-- A model that was completed before is completed further. -/
theorem Model.CompletedTo.eval {m n : Model} (h : m.CompletedTo n) (complete : Bool) (t : Term) :
    m.CompletedTo (n.eval complete t).2 := by
  have hstart : EvalState.Sound complete m { model := n } := ⟨h, by simp⟩
  exact (evalM_gives complete m t _ hstart).2.model

/-- Under completion the value of a term does not depend on what was evaluated before. -/
theorem Model.eval_value (m : Model) (t : Term) : (m.eval true t).1 = t.valueIn m := by
  have hstart : EvalState.Sound true m { model := m } := ⟨.refl m, by simp⟩
  exact (evalM_gives true m t _ hstart).1 rfl

end Validity
