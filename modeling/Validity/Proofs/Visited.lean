import Mathlib.Logic.Relation
import Validity.Proofs.Effects

/-!
What a walk visits. A walk goes only through terms that are new, and still finds all: the terms
looked at are closed, so that from a term that was there before nothing new is reached. After every
script the terms looked at are exactly those that are reached from the marked terms that were kept,
and the names are the names of the symbols that head them, with the names that were asked for.
-/
namespace Validity

/-- The second term is the first one, or is reached from it through arguments of applications. -/
def Term.Reaches : Term → Term → Prop :=
  Relation.ReflTransGen fun t a => a ∈ t.children

def Term.headName? : Term → Option String
  | .app f _ => some f.name
  | _ => none

namespace Tracker

theorem record_names (r : Tracker) (e : Entry) : (r.record e).names = r.names :=
  (SameMarks.record r e).names

theorem mem_record_nodes (r : Tracker) (e : Entry) (u : Term) :
    u ∈ (r.record e).nodes ↔ u ∈ r.nodes :=
  (SameMarks.record r e).nodes u

/-- A name is there if it was before or is the one that was added. -/
theorem mem_addName (r : Tracker) (x y : String) :
    y ∈ (r.addName x).names ↔ y ∈ r.names ∨ y = x := by
  unfold addName
  split_ifs with hx
  · have hmem : x ∈ r.names := by simpa using hx
    constructor
    · exact .inl
    · rintro (h | rfl)
      · exact h
      · exact hmem
  · rw [record_names]
    simp

theorem mem_nodes_addName (r : Tracker) (x : String) (u : Term) :
    u ∈ (r.addName x).nodes ↔ u ∈ r.nodes := by
  unfold addName
  split_ifs
  · exact Iff.rfl
  · rw [mem_record_nodes]

/-- A term is there if it was before or is the one that was added. -/
theorem mem_addNode (r : Tracker) (t u : Term) :
    u ∈ (r.addNode t).nodes ↔ u ∈ r.nodes ∨ u = t := by
  unfold addNode
  split_ifs with ht
  · have hmem : t ∈ r.nodes := by simpa using ht
    constructor
    · exact .inl
    · rintro (h | rfl)
      · exact h
      · exact hmem
  · rw [mem_record_nodes, Std.HashSet.mem_insert, beq_iff_eq]
    constructor
    · rintro (rfl | h)
      · exact .inr rfl
      · exact .inl h
    · rintro (h | rfl)
      · exact .inr h
      · exact .inl rfl

theorem addNode_names (r : Tracker) (t : Term) : (r.addNode t).names = r.names := by
  unfold addNode
  split_ifs
  · rfl
  · rw [record_names]

/-- The flags tell which terms were new; all the others were there before. -/
theorem addNodes_facts (r : Tracker) (ts : List Term) :
    (r.addNodes ts).1.names = r.names ∧
    (∀ u, u ∈ (r.addNodes ts).1.nodes ↔ u ∈ r.nodes ∨ u ∈ ts) ∧
    ∀ u ∈ (r.addNodes ts).1.nodes, u ∈ r.nodes ∨ (u, true) ∈ ts.zip (r.addNodes ts).2 := by
  induction ts generalizing r with
  | nil => exact ⟨rfl, fun u => by simp [addNodes], fun u hu => .inl hu⟩
  | cons t ts ih =>
    obtain ⟨hnames, hnodes, hnew⟩ := ih (r.addNode t)
    have hcons : r.addNodes (t :: ts) = (((r.addNode t).addNodes ts).1,
        (!r.nodes.contains t) :: ((r.addNode t).addNodes ts).2) := rfl
    rw [hcons]
    refine ⟨hnames.trans (r.addNode_names t), fun u => ?_, fun u hu => ?_⟩
    · rw [hnodes, mem_addNode, List.mem_cons, or_assoc]
    · rw [List.zip_cons_cons, List.mem_cons]
      -- a term that occurs again later in the list is flagged here, where it comes first
      rcases hnew u hu with hu | hu
      · by_cases ht : t ∈ r.nodes
        · rcases (r.mem_addNode t u).mp hu with hu | rfl
          · exact .inl hu
          · exact .inl ht
        · rcases (r.mem_addNode t u).mp hu with hu | rfl
          · exact .inl hu
          · exact .inr (.inl (by simpa using ht))
      · exact .inr (.inr hu)

structure Done (r : Tracker) (t : Term) : Prop where
  children : ∀ a ∈ t.children, a ∈ r.nodes
  name : ∀ x, t.headName? = some x → x ∈ r.names

def ClosedOff (pending : Term → Prop) (r : Tracker) : Prop :=
  ∀ u ∈ r.nodes, ¬ pending u → r.Done u

structure Grows (new : Term → Prop) (r s : Tracker) : Prop where
  nodes : ∀ u ∈ r.nodes, u ∈ s.nodes
  names : ∀ x ∈ r.names, x ∈ s.names
  newNodes : ∀ u ∈ s.nodes, u ∈ r.nodes ∨ new u
  newNames : ∀ x ∈ s.names, x ∈ r.names ∨ ∃ u, new u ∧ u.headName? = some x

namespace Grows

variable {new new' : Term → Prop} {r s q : Tracker}

theorem refl (new : Term → Prop) (r : Tracker) : Grows new r r :=
  ⟨fun _ h => h, fun _ h => h, fun _ h => .inl h, fun _ h => .inl h⟩

theorem trans (h : Grows new r s) (h' : Grows new s q) : Grows new r q := by
  refine ⟨fun u hu => h'.nodes u (h.nodes u hu), fun x hx => h'.names x (h.names x hx),
    fun u hu => ?_, fun x hx => ?_⟩
  · exact (h'.newNodes u hu).elim (h.newNodes u) .inr
  · exact (h'.newNames x hx).elim (h.newNames x) .inr

theorem mono (h : Grows new r s) (hn : ∀ u, new u → new' u) : Grows new' r s :=
  ⟨h.nodes, h.names, fun u hu => (h.newNodes u hu).imp_right (hn u), fun x hx =>
    (h.newNames x hx).imp_right fun ⟨u, hu, hx⟩ => ⟨u, hn u hu, hx⟩⟩

/-- What is done stays done. -/
theorem done (h : Grows new r s) {t : Term} (ht : r.Done t) : s.Done t :=
  ⟨fun a ha => h.nodes a (ht.children a ha), fun x hx => h.names x (ht.name x hx)⟩

end Grows

namespace Walk

/-- Taking up a term adds the name of its head and nothing else. -/
theorem take_grows (w : Walk) (t : Term) :
    Grows (· = t) w.tracker (w.take t).tracker ∧
      ∀ x, t.headName? = some x → x ∈ (w.take t).tracker.names := by
  cases t with
  | app f args =>
    refine ⟨⟨fun u hu => ?_, fun x hx => ?_, fun u hu => ?_, fun x hx => ?_⟩, ?_⟩
    · exact (mem_nodes_addName _ _ u).mpr hu
    · exact (mem_addName _ _ x).mpr (.inl hx)
    · exact .inl ((mem_nodes_addName _ _ u).mp hu)
    · exact ((mem_addName _ _ x).mp hx).imp_right fun h => ⟨_, rfl, congrArg some h.symm⟩
    · rintro x hx
      exact (mem_addName _ _ x).mpr (.inr (Option.some.inj hx).symm)
  | lit l => exact ⟨.refl _ _, nofun⟩
  | op o args => exact ⟨.refl _ _, nofun⟩
  | quant q vars body => exact ⟨.refl _ _, nofun⟩

def Finishes (t : Term) : Prop :=
  ∀ (w : Walk) (pending : Term → Prop), ClosedOff (fun u => u = t ∨ pending u) w.tracker →
    ClosedOff pending (w.visit t).tracker ∧ Grows t.Reaches w.tracker (w.visit t).tracker

/-- After the new arguments were walked through, only what was pending before is pending. -/
theorem visitNew_finishes (ts : List Term) (ih : ∀ t ∈ ts, Finishes t) (flags : List Bool)
    (w : Walk) (pending : Term → Prop)
    (hclosed : ClosedOff (fun u => (u, true) ∈ ts.zip flags ∨ pending u) w.tracker) :
    ClosedOff pending (w.visitNew ts flags).tracker ∧
      Grows (fun u => ∃ a ∈ ts, a.Reaches u) w.tracker (w.visitNew ts flags).tracker := by
  induction ts generalizing flags pending with
  | nil =>
    rw [visitNew]
    · exact ⟨fun u hu hp => hclosed u hu (by simpa using hp), .refl _ _⟩
    · intro _ _ _ _ h
      cases h
  | cons t ts ihs =>
    cases flags with
    | nil =>
      rw [visitNew]
      · exact ⟨fun u hu hp => hclosed u hu (by simpa using hp), .refl _ _⟩
      · intro _ _ _ _ _ h
        cases h
    | cons new flags =>
      -- the rest goes first, and meanwhile the first term is pending if it is new
      obtain ⟨hrest, hgrows⟩ := ihs (fun a ha => ih a (List.mem_cons_of_mem t ha)) flags
        (fun u => (new = true ∧ u = t) ∨ pending u)
        (fun u hu hp => hclosed u hu fun hor => hp (by
          rw [List.zip_cons_cons, List.mem_cons] at hor
          rcases hor with (heq | hz) | hpend
          · obtain ⟨rfl, rfl⟩ := Prod.mk.inj heq
            exact .inr (.inl ⟨rfl, rfl⟩)
          · exact .inl hz
          · exact .inr (.inr hpend)))
      have hfromRest : Grows (fun u => ∃ a ∈ t :: ts, a.Reaches u) w.tracker
          (w.visitNew ts flags).tracker := by
        apply hgrows.mono
        rintro u ⟨a, ha, hu⟩
        exact ⟨a, List.mem_cons_of_mem t ha, hu⟩
      rw [visitNew]
      cases new with
      | false => exact ⟨fun u hu hp => hrest u hu (by simpa using hp), hfromRest⟩
      | true =>
        obtain ⟨hdone, hgrows'⟩ := ih t List.mem_cons_self (w.visitNew ts flags) pending
          fun u hu hp => hrest u hu (by simpa using hp)
        refine ⟨hdone, hfromRest.trans (hgrows'.mono fun u hu => ?_)⟩
        exact ⟨t, List.mem_cons_self, hu⟩

/-- A term is taken up, its arguments are added, and the new ones are walked through. Without
arguments that is just taking it up. -/
theorem arguments_finish (t : Term) (ih : ∀ a ∈ t.children, Finishes a) (w : Walk)
    (pending : Term → Prop) (hclosed : ClosedOff (fun u => u = t ∨ pending u) w.tracker) :
    let v := w.take t
    let added := v.tracker.addNodes t.children
    let result := visitNew { v with tracker := added.1 } t.children added.2
    ClosedOff pending result.tracker ∧ Grows t.Reaches w.tracker result.tracker := by
  intro v added result
  obtain ⟨htake, hname⟩ := w.take_grows t
  obtain ⟨hnames, hnodes, hnew⟩ := v.tracker.addNodes_facts t.children
  have hadd : Grows t.Reaches v.tracker added.1 := by
    refine ⟨fun u hu => (hnodes u).mpr (.inl hu), fun x hx => hnames ▸ hx, fun u hu => ?_,
      fun x hx => .inl (hnames ▸ hx)⟩
    exact ((hnodes u).mp hu).imp_right .single
  have hfirst : Grows t.Reaches w.tracker added.1 :=
    (htake.mono fun u hu => hu ▸ .refl).trans hadd
  have ht : added.1.Done t :=
    ⟨fun a ha => (hnodes a).mpr (.inr ha), fun x hx => hadd.names x (hname x hx)⟩
  -- of the terms that are there now, only the new arguments are pending
  have hpending : ClosedOff (fun u => (u, true) ∈ t.children.zip added.2 ∨ pending u) added.1 := by
    intro u hu hp
    by_cases hut : u = t
    · rw [hut]
      exact ht
    · rcases hnew u hu with hold | hz
      · have hw : u ∈ w.tracker.nodes := (htake.newNodes u hold).resolve_right hut
        exact hfirst.done (hclosed u hw fun hor => hor.elim hut fun h => hp (.inr h))
      · exact absurd (.inl hz) hp
  obtain ⟨hdone, hgrows⟩ := visitNew_finishes t.children ih added.2 { v with tracker := added.1 }
    pending hpending
  refine ⟨hdone, hfirst.trans (hgrows.mono fun u ⟨a, ha, hu⟩ => ?_)⟩
  exact Relation.ReflTransGen.head ha hu

/-- Every walk finishes its term. -/
theorem finishes (t : Term) : Finishes t := by
  induction t using Term.induction with
  | app f args ih => exact arguments_finish (.app f args) ih
  | op o args ih => exact arguments_finish (.op o args) ih
  | lit l => exact arguments_finish (.lit l) nofun
  | quant q vars body => exact arguments_finish (.quant q vars body) nofun

end Walk
end Tracker

open Tracker

/-- A mark: a term with all that is reached from it, or a name. -/
inductive Mark where
  | term (t : Term)
  | name (x : String)

structure Tracker.Accounts (marks : List Mark) (r : Tracker) : Prop where
  nodes : ∀ u, u ∈ r.nodes ↔ ∃ t, .term t ∈ marks ∧ t.Reaches u
  names : ∀ x, x ∈ r.names ↔
    .name x ∈ marks ∨ ∃ t u, .term t ∈ marks ∧ t.Reaches u ∧ u.headName? = some x

namespace Tracker.Accounts

variable {marks : List Mark} {r s : Tracker}

theorem sameMarks (h : Accounts marks r) (hs : SameMarks s r) : Accounts marks s :=
  ⟨fun u => (hs.nodes u).trans (h.nodes u), fun x => hs.names ▸ h.names x⟩

theorem empty : Accounts [] {} :=
  ⟨fun u => by simp, fun x => by simp⟩

theorem addName (h : Accounts marks r) (x : String) :
    Accounts (marks ++ [.name x]) (r.addName x) := by
  refine ⟨fun u => ?_, fun y => ?_⟩
  · rw [mem_nodes_addName, h.nodes u]
    simp
  · rw [mem_addName, h.names y]
    simp only [List.mem_append, List.mem_singleton, Mark.name.injEq, reduceCtorEq, or_false]
    exact or_right_comm

/-- Whatever is accounted for is closed: from a term that was looked at nothing new is reached. -/
theorem closed (h : Accounts marks r) : ClosedOff (fun _ => False) r := by
  intro u hu _
  obtain ⟨t, ht, hreach⟩ := (h.nodes u).mp hu
  exact ⟨fun a ha => (h.nodes a).mpr ⟨t, ht, hreach.tail ha⟩,
    fun x hx => (h.names x).mpr (.inr ⟨t, u, ht, hreach, hx⟩)⟩

/-- Where all terms are done, what they reach was looked at as well. -/
theorem reached_of_closed (hr : ClosedOff (fun _ => False) r) {t u : Term} (ht : t ∈ r.nodes)
    (h : t.Reaches u) : u ∈ r.nodes := by
  induction h with
  | refl => exact ht
  | tail _ hstep ih => exact (hr _ ih id).children _ hstep

/-- Marking a term brings just what is reached from it. -/
theorem visit (h : Accounts marks r) (t : Term) : Accounts (marks ++ [.term t]) (r.visit t) := by
  have hadded : Grows t.Reaches r (r.addNode t) := by
    refine ⟨fun u hu => (mem_addNode _ _ u).mpr (.inl hu), fun x hx => r.addNode_names t ▸ hx,
      fun u hu => ?_, fun x hx => .inl (r.addNode_names t ▸ hx)⟩
    exact ((mem_addNode _ _ u).mp hu).imp_right fun (h : u = t) => h ▸ .refl
  have hpending : ClosedOff (fun u => u = t ∨ False) (r.addNode t) := by
    intro u hu hp
    have hold : u ∈ r.nodes := ((mem_addNode _ _ u).mp hu).resolve_right fun h => hp (.inl h)
    exact hadded.done (h.closed u hold id)
  -- at first only the term itself can be pending, and after the walk nothing is
  obtain ⟨hclosed, hwalk⟩ := Walk.finishes t { tracker := r.addNode t } _ hpending
  have hgrows : Grows t.Reaches r (r.visit t) := hadded.trans hwalk
  have ht : t ∈ (r.visit t).nodes := hwalk.nodes t ((mem_addNode _ _ t).mpr (.inr rfl))
  -- nothing else was added since the walk only grows by what is reached, and nothing is missing
  -- since what is there is closed
  refine ⟨fun u => ⟨fun hu => ?_, ?_⟩, fun x => ⟨fun hx => ?_, ?_⟩⟩
  · rcases hgrows.newNodes u hu with hu | hu
    · obtain ⟨t', ht', hreach⟩ := (h.nodes u).mp hu
      exact ⟨t', by simp [ht'], hreach⟩
    · exact ⟨t, by simp, hu⟩
  · rintro ⟨t', ht', hreach⟩
    rcases List.mem_append.mp ht' with ht' | ht'
    · exact hgrows.nodes u ((h.nodes u).mpr ⟨t', ht', hreach⟩)
    · obtain rfl := Mark.term.inj (List.mem_singleton.mp ht')
      exact reached_of_closed hclosed ht hreach
  · rcases hgrows.newNames x hx with hx | ⟨u, hu, hx⟩
    · rcases (h.names x).mp hx with hx | ⟨t', u, ht', hreach, hx⟩
      · exact .inl (by simp [hx])
      · exact .inr ⟨t', u, by simp [ht'], hreach, hx⟩
    · exact .inr ⟨t, u, by simp, hu, hx⟩
  · rintro (hx | ⟨t', u, ht', hreach, hx⟩)
    · exact hgrows.names x ((h.names x).mpr (.inl (by simpa using hx)))
    · rcases List.mem_append.mp ht' with ht' | ht'
      · exact hgrows.names x ((h.names x).mpr (.inr ⟨t', u, ht', hreach, hx⟩))
      · obtain rfl := Mark.term.inj (List.mem_singleton.mp ht')
        exact (hclosed u (reached_of_closed hclosed ht hreach) id).name x hx

end Tracker.Accounts

namespace Step

mutual

/-- The marks that are kept after a step, given those before it and what the step did: a block that
failed and a value that could not be read leave none. -/
def kept (before : List Mark) : Step → Trace → List Mark
  | .read _ t, trace => if trace.result.isOk then before ++ [.term t] else before
  | .eval t _, _ => before ++ [.term t]
  | .look f, _ => before ++ [.name f.name]
  | .visit t, _ => before ++ [.term t]
  | .addName x, _ => before ++ [.name x]
  | .reset, _ => []
  | .block body, .mk (.ok _) _ (some inner) => keptAll before body inner
  | _, _ => before

def keptAll (before : List Mark) : List (Bool × Step) → List Trace → List Mark
  | (_, s) :: rest, t :: ts => keptAll (kept before s t) rest ts
  | _, _ => before

end

mutual

/-- After the step, and after every step inside it, the tracker has just what the kept marks bring,
and a list of the symbols not looked at has those whose names the tracker does not have. -/
def Accounted (symbols : List Symbol) (before : List Mark) : Step → Trace → Prop
  | .block body, .mk result after inner =>
    after.Accounts (kept before (.block body) (.mk result after inner)) ∧
      AccountedAll symbols before body (inner.getD [])
  | .unaccessed, trace =>
    trace.after.Accounts before ∧
      trace.result = .ok (.symbols (symbols.filter fun f => f.name ∉ trace.after.names))
  | s, trace => trace.after.Accounts (kept before s trace)

def AccountedAll (symbols : List Symbol) (before : List Mark) :
    List (Bool × Step) → List Trace → Prop
  | (_, s) :: rest, t :: ts =>
    Accounted symbols before s t ∧ AccountedAll symbols (kept before s t) rest ts
  | _, [] => True
  | [], _ :: _ => False

end

end Step

namespace Reading

theorem eval_tracker (t : Term) (complete : Bool) (i : Inspection) :
    (ExceptT.run (eval t complete) i).2.tracker = i.tracker.visit t := by
  rw [run_eval]
  cases i.fault <;> rfl

/-- A value that could be read leaves the marks of its term. -/
theorem value_marks {α : Type} (t : Term) (decode : Term → Except Error α) (i : Inspection)
    (h : (ExceptT.run (atomically (decoded t decode)) i).1.isOk = true) :
    SameMarks (ExceptT.run (atomically (decoded t decode)) i).2.tracker (i.tracker.visit t) := by
  rw [run_atomically] at h ⊢
  dsimp only at h ⊢
  rw [h, run_decoded]
  change SameMarks (ExceptT.run (eval t) i.openBlock.2).2.tracker.commit _
  rw [eval_tracker]
  exact (SameMarks.commit _).trans ((SameMarks.begin i.tracker).visit t)

end Reading

namespace Step

theorem read_accounts {α : Type} (s : Step) (m : Reader) (before : List Mark) (t : Term)
    (decode : Term → Except Error α) (f : α → Answer)
    (hrun : s.run m = Reader.traced (m.perform f (Reading.atomically (Reading.decoded t decode))))
    (hkept : ∀ trace, kept before s trace =
      if trace.result.isOk then before ++ [.term t] else before)
    (hback : (s.run m).1.result.isOk = false →
      SameMarks (s.run m).2.inspection.tracker m.inspection.tracker)
    (h : m.inspection.tracker.Accounts before) :
    (s.run m).2.inspection.tracker.Accounts (kept before s (s.run m).1) := by
  rw [hkept]
  cases hok : (s.run m).1.result.isOk with
  | false => exact h.sameMarks (hback hok)
  | true =>
    rw [hrun] at hok ⊢
    change (Except.map f _).isOk = true at hok
    rw [isOk_map] at hok
    exact (h.visit t).sameMarks (Reading.value_marks t decode m.inspection hok)

/-- A step without steps of its own: the marks that it leaves are those that it keeps. -/
theorem single_accounts (s : Step) (hs : ∀ body, s ≠ .block body) (m : Reader)
    (hm : m.inspection.tracker.WellFormed) (before : List Mark)
    (h : m.inspection.tracker.Accounts before) :
    (s.run m).2.inspection.tracker.Accounts (kept before s (s.run m).1) := by
  have hself : m.Similar m := ⟨.refl _, rfl⟩
  cases s with
  | read kind t =>
    have hback := (matches_single (.read kind t) hs rfl m m hm hself).restored rfl
    cases kind with
    | bool => exact read_accounts _ m before t Term.readBool .bool rfl (fun _ => rfl) hback h
    | int => exact read_accounts _ m before t Term.readInt .int rfl (fun _ => rfl) hback h
    | rational =>
      exact read_accounts _ m before t Term.readRational .rational rfl (fun _ => rfl) hback h
  | eval t complete =>
    change (ExceptT.run (Reading.eval t complete) m.inspection).2.tracker.Accounts _
    rw [Reading.eval_tracker]
    exact h.visit t
  | look f =>
    change (ExceptT.run (Reading.interpretation f) m.inspection).2.tracker.Accounts _
    rw [Reading.run_interpretation]
    exact h.addName f.name
  | visit t => exact h.visit t
  | addName x => exact h.addName x
  | reset => exact .empty
  | block body => exact absurd rfl (hs body)
  | _ => exact h

theorem single_accounted (s : Step) (hs : ∀ body, s ≠ .block body) (m : Reader)
    (before : List Mark)
    (h : (s.run m).2.inspection.tracker.Accounts (kept before s (s.run m).1)) :
    Accounted m.inspection.symbols before s (s.run m).1 := by
  have hafter : (s.run m).1.after.Accounts (kept before s (s.run m).1) := by
    rw [run_after]
    exact h
  cases s with
  | unaccessed =>
    have hfilter : m.inspection.unaccessed =
        m.inspection.symbols.filter fun f => f.name ∉ m.inspection.tracker.names := by
      apply List.filter_congr
      intro f _
      simp
    exact ⟨hafter, congrArg (fun fs => Except.ok (Answer.symbols fs)) hfilter⟩
  | block body => exact absurd rfl (hs body)
  | _ => exact hafter

/-- The symbols of the assignment are kept whatever is done. -/
theorem symbols_invariant (fs : List Symbol) :
    Invariant (fun _ => True) fun m => m.inspection.symbols = fs := by
  refine ⟨fun _ _ _ _ => trivial, fun s m n _ heffect hm => ?_⟩
  cases heffect <;> exact hm

/-- The symbols of the assignment stay what they were at first. -/
theorem run_symbols (s : Step) (m : Reader) :
    (s.run m).2.inspection.symbols = m.inspection.symbols :=
  (symbols_invariant m.inspection.symbols).run s trivial m rfl

theorem runAll_keeps_symbols (body : List (Bool × Step))
    (ih : ∀ p ∈ body, ∀ m : Reader, (p.2.run m).2.inspection.symbols = m.inspection.symbols)
    (m : Reader) : (runAll m body).2.2.inspection.symbols = m.inspection.symbols :=
  runAll_keeps (fun k => k.inspection.symbols = m.inspection.symbols) body
    (fun p hp k hk => (ih p hp k).trans hk) m rfl

structure Audit (s : Step) (m : Reader) (before : List Mark) : Prop where
  accounted : Accounted m.inspection.symbols before s (s.run m).1
  after : (s.run m).2.inspection.tracker.Accounts (kept before s (s.run m).1)

/-- Steps in a list are accounted for if each of them is, wherever it starts from. The invariant is
what makes one step ready for the next. -/
theorem audit_all (Q : Tracker → Prop) (body : List (Bool × Step))
    (hstep : ∀ p ∈ body, ∀ (m : Reader) (before : List Mark), Q m.inspection.tracker →
      m.inspection.tracker.Accounts before →
      p.2.Audit m before ∧ Q (p.2.run m).2.inspection.tracker)
    (m : Reader) (before : List Mark) (hm : Q m.inspection.tracker)
    (h : m.inspection.tracker.Accounts before) :
    AccountedAll m.inspection.symbols before body (runAll m body).1 ∧
      (runAll m body).2.2.inspection.tracker.Accounts (keptAll before body (runAll m body).1) := by
  induction body generalizing m before with
  | nil =>
    rw [runAll]
    exact ⟨trivial, h⟩
  | cons p rest ih =>
    obtain ⟨g, s⟩ := p
    obtain ⟨haudit, hnext⟩ := hstep (g, s) List.mem_cons_self m before hm h
    obtain ⟨haccounted, hafter⟩ := ih (fun p hp => hstep p (List.mem_cons_of_mem _ hp)) _ _ hnext
      haudit.after
    rw [run_symbols] at haccounted
    rw [runAll_cons]
    rcases follow_cases g (s.run m) (runAll · rest) with ⟨e, _, _, hrun⟩ | ⟨_, hrun⟩
    · -- the rest was not run, so it has no traces and keeps nothing
      rw [hrun]
      have hnil : keptAll (kept before s (s.run m).1) rest [] = kept before s (s.run m).1 := by
        cases rest <;> rfl
      refine ⟨⟨haudit.accounted, ?_⟩, ?_⟩
      · cases rest <;> trivial
      · rw [keptAll, hnil]
        exact haudit.after
    · rw [hrun]
      refine ⟨⟨haudit.accounted, haccounted⟩, ?_⟩
      rw [keptAll]
      exact hafter

/-- A block accounts for its steps: it keeps their marks if it succeeds, and none if it fails. -/
theorem audit_block (body : List (Bool × Step)) (hfree : resetFreeAll body = true)
    (ih : ∀ p ∈ body, ∀ (m : Reader) (before : List Mark), m.inspection.tracker.WellFormed →
      m.inspection.tracker.Accounts before → p.2.Audit m before)
    (m : Reader) (hm : m.inspection.tracker.WellFormed) (before : List Mark)
    (h : m.inspection.tracker.Accounts before) : (Step.block body).Audit m before := by
  have hbody := (resetFreeAll_iff body).mp hfree
  have hself (n : Reader) : n.Similar n := ⟨.refl _, rfl⟩
  have hopen : m.inspection.openBlock.2.tracker.Accounts before := h.sameMarks (.begin _)
  obtain ⟨hinside, hkept⟩ := audit_all Tracker.WellFormed body
    (fun p hp n marks hn hmarks => ⟨ih p hp n marks hn hmarks,
      hn.extends (p.2.matches_of_resetFree (hbody p hp) n n hn (hself n)).extended⟩)
    { m with inspection := m.inspection.openBlock.2 } before hm.begin.1 hopen
  have hmatch := (Step.block body).matches_of_resetFree hfree m m hm (hself m)
  have hback := hmatch.restored rfl
  have hrun := run_block m body
  dsimp only at hrun
  have hafter : ((Step.block body).run m).2.inspection.tracker.Accounts
      (kept before (.block body) ((Step.block body).run m).1) := by
    cases hf : (runAll { m with inspection := m.inspection.openBlock.2 } body).2.1 with
    | some e =>
      rw [hf] at hrun
      have hfail : ((Step.block body).run m).1.result.isOk = false := by rw [hrun]; rfl
      have hnone : kept before (.block body) ((Step.block body).run m).1 = before := by
        rw [hrun]
        rfl
      -- no mark is kept, and by then the tracker has those of before again
      rw [hnone]
      exact h.sameMarks (hback hfail)
    | none =>
      rw [hf] at hrun
      rw [hrun]
      exact hkept.sameMarks (.commit _)
  refine ⟨?_, hafter⟩
  rw [hrun] at hafter ⊢
  exact ⟨hafter, hinside⟩

/-- Every step without a reset is accounted for. -/
theorem audit_of_resetFree (s : Step) (hs : s.resetFree = true) (m : Reader)
    (hm : m.inspection.tracker.WellFormed) (before : List Mark)
    (h : m.inspection.tracker.Accounts before) : s.Audit m before := by
  induction s using Step.induction generalizing m before with
  | block body ih =>
    have hbody := (resetFreeAll_iff body).mp hs
    exact audit_block body hs (fun p hp n marks hn => ih p hp (hbody p hp) n hn marks) m hm before h
  | single s hsingle =>
    have hafter := single_accounts s hsingle m hm before h
    exact ⟨single_accounted s hsingle m before hafter, hafter⟩

theorem audit_outside (s : Step) (hs : s.resetsOutside = true) (m : Reader)
    (hm : m.inspection.tracker.Idle) (before : List Mark)
    (h : m.inspection.tracker.Accounts before) :
    s.Audit m before ∧ (s.run m).2.inspection.tracker.Idle := by
  have hself : m.Similar m := ⟨.refl _, rfl⟩
  refine ⟨?_, (s.outside_step hs m m hm hself).2.2⟩
  by_cases hreset : s = .reset
  · subst hreset
    exact ⟨.empty, .empty⟩
  · exact s.audit_of_resetFree (s.resetFree_of_resetsOutside hs hreset) m hm.wellFormed before h

end Step

inductive Inspection.Yields (i : Inspection) : List Symbol → List Symbol → Prop where
  | done (rest : List Symbol) : (i.next rest).1 = none → Yields i rest []
  | step (rest : List Symbol) (f : Symbol) (fs : List Symbol) : (i.next rest).1 = some f →
      Yields i (i.next rest).2 fs → Yields i rest (f :: fs)

/-- Asking for the next symbol gives those whose names were not looked at, in order. -/
theorem Inspection.yields_filter (i : Inspection) (rest : List Symbol) :
    i.Yields rest (rest.filter fun f => f.name ∉ i.tracker.names) := by
  induction rest with
  | nil => exact .done [] rfl
  | cons f rest ih =>
    by_cases hf : f.name ∈ i.tracker.names
    · have hnext : i.next (f :: rest) = i.next rest := by simp [next, hf]
      rw [List.filter_cons_of_neg (by simpa using hf)]
      generalize rest.filter (fun f => f.name ∉ i.tracker.names) = fs at ih
      cases ih with
      | done _ h => exact .done _ (hnext ▸ h)
      | step _ g gs h h' => exact .step _ g gs (hnext ▸ h) (hnext ▸ h')
    · have hnext : i.next (f :: rest) = (some f, rest) := by simp [next, hf]
      rw [List.filter_cons_of_pos (by simpa using hf)]
      exact .step _ f _ (by rw [hnext]) (by rw [hnext]; exact ih)

/-- After a script on a model, and after every step of it, the terms looked at are those that are
reached from the marked terms that were kept since the last reset, and the names are those of the
symbols that head them and those that were asked for. The symbols not looked at are the symbols
that the model had at first whose names are not among these, in order. -/
theorem visited_iff_reached (model : Model) (c : Consistency) (script : List (Bool × Step))
    (hscript : ∀ p ∈ script, p.2.resetsOutside = true) :
    let m : Reader := { inspection := .ofModel model c }
    let traces := (Step.runAll m script).1
    let i := (Step.runAll m script).2.2.inspection
    let marks := Step.keptAll [] script traces
    Step.AccountedAll model.symbols [] script traces ∧
    (∀ u, u ∈ i.tracker.nodes ↔ ∃ t, .term t ∈ marks ∧ t.Reaches u) ∧
    (∀ x, x ∈ i.tracker.names ↔
      .name x ∈ marks ∨ ∃ t u, .term t ∈ marks ∧ t.Reaches u ∧ u.headName? = some x) ∧
    i.Yields i.symbols (model.symbols.filter fun f => f.name ∉ i.tracker.names) := by
  intro m traces i marks
  have hstep := fun (p : Bool × Step) (hp : p ∈ script) (n : Reader) (before : List Mark) hn h =>
    p.2.audit_outside (hscript p hp) n hn before h
  obtain ⟨hall, hmarks⟩ := Step.audit_all Tracker.Idle script hstep m [] ⟨rfl, rfl⟩ .empty
  have hsymbols : i.symbols = model.symbols :=
    Step.runAll_keeps_symbols script (fun p _ => p.2.run_symbols) m
  refine ⟨hall, hmarks.nodes, hmarks.names, ?_⟩
  rw [hsymbols]
  exact i.yields_filter model.symbols

/-- A marked term brings its argument, a marked term of a block that failed brings nothing, and a
symbol that is looked up brings its name. -/
theorem visited_iff_reached_nested :
    let x := Term.const ⟨"x", [], .int⟩
    let y := Term.const ⟨"y", [], .int⟩
    let t := Term.app ⟨"f", [.int], .int⟩ [x]
    let script : List (Bool × Step) := [(true, .visit y), (true, .reset), (true, .visit t),
      (true, .block [(false, .visit y), (false, .raise .scope)]), (true, .look ⟨"g", [], .int⟩)]
    let run := Step.runAll { inspection := .ofModel {} .consistent } script
    (∀ p ∈ script, p.2.resetsOutside = true) ∧
    Step.keptAll [] script run.1 = [.term t, .name "g"] ∧
    x ∈ run.2.2.inspection.tracker.nodes ∧ y ∉ run.2.2.inspection.tracker.nodes ∧
    "f" ∈ run.2.2.inspection.tracker.names ∧ "g" ∈ run.2.2.inspection.tracker.names := by
  intro x y t script run
  have hscript : ∀ p ∈ script, p.2.resetsOutside = true := by decide
  have hmarks : Step.keptAll [] script run.1 = [.term t, .name "g"] := by
    cbv
  have h := visited_iff_reached {} .consistent script hscript
  dsimp only at h
  have hrun : run = Step.runAll { inspection := .ofModel {} .consistent } script := rfl
  rw [← hrun, hmarks] at h
  clear_value run
  obtain ⟨-, hnodes, hnames, -⟩ := h
  have hx : t.Reaches x := .single (by simp [t, Term.children])
  have hy : ¬ t.Reaches y := by
    intro hreach
    rcases hreach.cases_head with heq | ⟨a, ha, hrest⟩
    · simp [t, y, Term.const] at heq
    · obtain rfl : a = x := by simpa [t, Term.children] using ha
      rcases hrest.cases_head with heq | ⟨b, hb, _⟩
      · simp [x, y, Term.const] at heq
      · simp [x, Term.const, Term.children] at hb
  refine ⟨hscript, hmarks, (hnodes x).mpr ⟨t, by simp, hx⟩, fun hmem => ?_, ?_, ?_⟩
  · obtain ⟨u, hu, hreach⟩ := (hnodes y).mp hmem
    obtain rfl : u = t := by simpa using hu
    exact hy hreach
  · exact (hnames "f").mpr (.inr ⟨t, t, by simp, .refl, rfl⟩)
  · exact (hnames "g").mpr (by simp)

end Validity
