import Mathlib.Tactic.Common
import Validity.Term.Smtlib

/-!
Terms as trees: induction over a term and the terms in it, and the symbols that occur in it.
-/
namespace Validity

/-- Induction over terms: a property of all arguments, and of the body of a quantifier, passes on
to the term. -/
@[elab_as_elim]
theorem Term.induction {P : Term → Prop} (lit : ∀ l, P (.lit l))
    (app : ∀ f args, (∀ a ∈ args, P a) → P (.app f args))
    (op : ∀ o args, (∀ a ∈ args, P a) → P (.op o args))
    (quant : ∀ q vars body, P body → P (.quant q vars body)) (t : Term) : P t :=
  match t with
  | .lit l => lit l
  | .app f args => app f args fun a _ => Term.induction lit app op quant a
  | .op o args => op o args fun a _ => Term.induction lit app op quant a
  | .quant q vars body => quant q vars body (Term.induction lit app op quant body)

mutual

def Term.symbols : Term → List Symbol
  | .lit _ => []
  | .app f args => f :: Term.symbolsIn args
  | .op _ args => Term.symbolsIn args
  | .quant _ vars body => vars ++ Term.symbols body

def Term.symbolsIn : List Term → List Symbol
  | [] => []
  | t :: ts => Term.symbols t ++ Term.symbolsIn ts

end

theorem Term.mem_symbolsIn (f : Symbol) (ts : List Term) :
    f ∈ Term.symbolsIn ts ↔ ∃ t ∈ ts, f ∈ t.symbols := by
  induction ts with
  | nil => simp [Term.symbolsIn]
  | cons t ts ih => simp [Term.symbolsIn, ih]

theorem Term.mem_symbolsAll (f : Symbol) (bound : List Symbol) (ts : List Term)
    (ih : ∀ t ∈ ts, ∀ seen, f ∈ t.symbolsFrom bound seen → f ∈ seen ∨ f ∈ t.symbols)
    (seen : List Symbol) (h : f ∈ Term.symbolsAll bound seen ts) :
    f ∈ seen ∨ f ∈ Term.symbolsIn ts := by
  induction ts with
  | nil => exact .inl h
  | cons t ts ihs =>
    rw [Term.symbolsIn, List.mem_append]
    rcases ih t List.mem_cons_self _ h with hrest | ht
    · rcases ihs (fun u hu => ih u (List.mem_cons_of_mem t hu)) hrest with hs | hts
      · exact .inl hs
      · exact .inr (.inr hts)
    · exact .inr (.inl ht)

/-- Only symbols that occur in the term are added. -/
theorem Term.mem_symbolsFrom (f : Symbol) (t : Term) (bound seen : List Symbol)
    (h : f ∈ t.symbolsFrom bound seen) : f ∈ seen ∨ f ∈ t.symbols := by
  induction t using Term.induction generalizing bound seen with
  | lit l => exact .inl h
  | app g args ih =>
    rw [Term.symbolsFrom] at h
    rw [Term.symbols, List.mem_cons]
    rcases Term.mem_symbolsAll f bound args (fun a ha => ih a ha bound) _ h with hs | hargs
    · split_ifs at hs
      · exact .inl hs
      · rcases List.mem_append.mp hs with hs | hs
        · exact .inl hs
        · exact .inr (.inl (List.mem_singleton.mp hs))
    · exact .inr (.inr hargs)
  | op o args ih => exact Term.mem_symbolsAll f bound args (fun a ha => ih a ha bound) seen h
  | quant q vars body ih =>
    rw [Term.symbols, List.mem_append]
    rcases ih _ _ h with hs | hbody
    · exact .inl hs
    · exact .inr (.inr hbody)

/-- Only symbols that occur are declared. -/
theorem mem_symbolsIn_of_mem_freeSymbols (f : Symbol) (ts : List Term)
    (h : f ∈ freeSymbols ts) : f ∈ Term.symbolsIn ts := by
  have hfold (seen : List Symbol) (hf : f ∈ ts.foldl (Term.symbolsFrom []) seen) :
      f ∈ seen ∨ f ∈ Term.symbolsIn ts := by
    clear h
    induction ts generalizing seen with
    | nil => exact .inl hf
    | cons t ts ih =>
      rw [Term.symbolsIn, List.mem_append]
      rcases ih _ hf with hs | hts
      · rcases Term.mem_symbolsFrom f t [] seen hs with hs | ht
        · exact .inl hs
        · exact .inr (.inl ht)
      · exact .inr (.inr hts)
  rcases hfold [] h with hn | hts
  · exact absurd hn List.not_mem_nil
  · exact hts

structure Collects (seen out : List Symbol) : Prop where
  subset : seen ⊆ out
  nodup : seen.Nodup → out.Nodup

namespace Collects

theorem refl (seen : List Symbol) : Collects seen seen := ⟨List.Subset.refl seen, id⟩

theorem trans {r s t : List Symbol} (h : Collects r s) (h' : Collects s t) : Collects r t :=
  ⟨List.Subset.trans h.subset h'.subset, fun hr => h'.nodup (h.nodup hr)⟩

theorem concat {f : Symbol} {seen : List Symbol} (h : f ∉ seen) : Collects seen (seen ++ [f]) := by
  refine ⟨List.subset_append_left _ _, fun hs => ?_⟩
  rw [List.nodup_append]
  refine ⟨hs, by simp, ?_⟩
  intro a ha b hb hab
  rw [List.mem_singleton.mp hb] at hab
  exact h (hab ▸ ha)

/-- What each term adds without repetition, all of them add without repetition. -/
theorem foldl (ts : List Term) (add : List Symbol → Term → List Symbol)
    (h : ∀ t ∈ ts, ∀ seen, Collects seen (add seen t)) (seen : List Symbol) :
    Collects seen (ts.foldl add seen) := by
  induction ts generalizing seen with
  | nil => exact refl seen
  | cons t ts ih =>
    have hrest := ih (fun u hu => h u (List.mem_cons_of_mem t hu)) (add seen t)
    exact (h t List.mem_cons_self seen).trans hrest

end Collects

theorem Term.symbolsAll_collects (bound : List Symbol) (ts : List Term)
    (ih : ∀ t ∈ ts, ∀ seen, Collects seen (t.symbolsFrom bound seen)) (seen : List Symbol) :
    Collects seen (Term.symbolsAll bound seen ts) := by
  induction ts with
  | nil => exact .refl seen
  | cons t ts ihs =>
    have hrest := ihs fun u hu => ih u (List.mem_cons_of_mem t hu)
    exact hrest.trans (ih t List.mem_cons_self _)

/-- A symbol that was seen before is not added again. -/
theorem Term.symbolsFrom_collects (t : Term) (bound seen : List Symbol) :
    Collects seen (t.symbolsFrom bound seen) := by
  induction t using Term.induction generalizing bound seen with
  | lit l => exact .refl seen
  | app f args ih =>
    rw [Term.symbolsFrom]
    -- first the head, if it is new, then what the arguments add
    refine Collects.trans ?_ (Term.symbolsAll_collects bound args (fun a ha => ih a ha bound) _)
    split_ifs with hknown
    · exact .refl seen
    · apply Collects.concat
      intro hf
      exact hknown (by simp [hf])
  | op o args ih => exact Term.symbolsAll_collects bound args (fun a ha => ih a ha bound) seen
  | quant q vars body ih => exact ih (vars ++ bound) seen

/-- No symbol is declared twice. -/
theorem freeSymbols_nodup (ts : List Term) : (freeSymbols ts).Nodup :=
  (Collects.foldl ts _ (fun t _ seen => t.symbolsFrom_collects [] seen) []).nodup List.nodup_nil

end Validity
