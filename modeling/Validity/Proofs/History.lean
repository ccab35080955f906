import Mathlib.Data.List.Infix
import Mathlib.Order.Bounds.Basic
import Validity.Prover

/-!
Histories of provers. A history lists what the successful operations did: scopes that were opened
or closed, and statements that were made. Which statements are live, and at which level, is read
off the history alone; the state of a prover always tells the same.
-/
namespace Validity

inductive Statement where
  | assumption (t : Term)
  | obligation (t : Term)
  deriving DecidableEq

def Statement.assertion : Statement → Term
  | .assumption t => t
  | .obligation t => t.not

inductive Event where
  | opened
  | closed
  | stated (s : Statement)
  deriving DecidableEq

def Operation.event? : Operation → Option Event
  | .assume t => some (.stated (.assumption t))
  | .require t => some (.stated (.obligation t))
  | .push => some .opened
  | .pop => some .closed
  | _ => none

namespace Prover

def events (p : Prover) (e : Engines) (op : Operation) : List Event :=
  if (p.perform e op).1.answer.isOk then op.event?.toList else []

/-- The prover after operations, each performed with the engines that are at hand then. -/
def performAll (p : Prover) : List (Engines × Operation) → Prover
  | [] => p
  | (e, op) :: rest => (p.perform e op).2.performAll rest

def history (p : Prover) : List (Engines × Operation) → List Event
  | [] => []
  | (e, op) :: rest => p.events e op ++ (p.perform e op).2.history rest

end Prover

namespace History

/-- The scopes that were open before the events are open after them: no initial part of the events
closes more scopes than it opens. -/
def keepsOpen (later : List Event) : Bool :=
  later.inits.all fun part => part.count .closed ≤ part.count .opened

def depth (h : List Event) : Nat := h.count .opened - h.count .closed

def liveAt? (h : List Event) (i : Nat) : Option (Nat × Statement) :=
  match h[i]? with
  | some (.stated s) => if keepsOpen (h.drop (i + 1)) then some (depth (h.take i), s) else none
  | _ => none

/-- The statements that are live after a history, in order, each with its level. -/
def live (h : List Event) : List (Nat × Statement) :=
  (List.range h.length).filterMap (liveAt? h)

def assumptions (h : List Event) : List Term :=
  (live h).filterMap fun x => match x.2 with
    | .assumption t => some t
    | .obligation _ => none

def obligations (h : List Event) : List Term :=
  (live h).filterMap fun x => match x.2 with
    | .assumption _ => none
    | .obligation t => some t

def obligationLevels (h : List Event) : Set Nat :=
  {l | ∃ t, (l, Statement.obligation t) ∈ live h}

theorem keepsOpen_iff (h : List Event) :
    keepsOpen h = true ↔ ∀ part, part <+: h → part.count .closed ≤ part.count .opened := by
  simp only [keepsOpen, List.all_eq_true, List.mem_inits, decide_eq_true_eq]

theorem keepsOpen_count (h : List Event) (hk : keepsOpen h = true) :
    h.count .closed ≤ h.count .opened :=
  (keepsOpen_iff h).mp hk h List.prefix_rfl

theorem keepsOpen_take (h : List Event) (hk : keepsOpen h = true) (i : Nat) :
    keepsOpen (h.take i) = true := by
  rw [keepsOpen_iff] at hk ⊢
  intro part hp
  exact hk part (hp.trans (List.take_prefix i h))

theorem keepsOpen_append_singleton (h : List Event) (e : Event) :
    keepsOpen (h ++ [e]) = true ↔
      keepsOpen h = true ∧ (h ++ [e]).count .closed ≤ (h ++ [e]).count .opened := by
  simp only [keepsOpen_iff, List.prefix_concat_iff]
  constructor
  · intro hk
    exact ⟨fun part hp => hk part (Or.inr hp), hk _ (Or.inl rfl)⟩
  · rintro ⟨hk, hl⟩ part (rfl | hp)
    · exact hl
    · exact hk part hp

/-- Only closing a scope can end one that was open before. -/
theorem keepsOpen_append_of_ne (h : List Event) (e : Event) (he : e ≠ .closed) :
    keepsOpen (h ++ [e]) = keepsOpen h := by
  rw [Bool.eq_iff_iff, keepsOpen_append_singleton, and_iff_left_iff_imp]
  intro hk
  have hc := keepsOpen_count h hk
  have hz : [e].count .closed = 0 := List.count_eq_zero.mpr fun hm =>
    he (List.mem_singleton.mp hm).symm
  rw [List.count_append, List.count_append, hz]
  omega

theorem depth_append_opened (h : List Event) (hk : keepsOpen h = true) :
    depth (h ++ [.opened]) = depth h + 1 := by
  have hc := keepsOpen_count h hk
  have ho : [Event.opened].count .opened = 1 := rfl
  have hn : [Event.opened].count .closed = 0 := rfl
  simp only [depth, List.count_append, ho, hn]
  omega

theorem depth_append_closed (h : List Event) : depth (h ++ [.closed]) = depth h - 1 := by
  have ho : [Event.closed].count .opened = 0 := rfl
  have hn : [Event.closed].count .closed = 1 := rfl
  simp only [depth, List.count_append, ho, hn]
  omega

theorem depth_append_stated (h : List Event) (s : Statement) :
    depth (h ++ [.stated s]) = depth h := by
  simp only [depth, List.count_append, List.count_singleton]
  rfl

/-- A scope can be closed exactly if one is open. -/
theorem keepsOpen_append_closed (h : List Event) :
    keepsOpen (h ++ [.closed]) = true ↔ keepsOpen h = true ∧ depth h ≠ 0 := by
  have ho : [Event.closed].count .opened = 0 := rfl
  have hn : [Event.closed].count .closed = 1 := rfl
  rw [keepsOpen_append_singleton, List.count_append, List.count_append, ho, hn]
  simp only [depth]
  constructor
  · rintro ⟨hk, hl⟩
    exact ⟨hk, by omega⟩
  · rintro ⟨hk, hl⟩
    exact ⟨hk, by omega⟩

/-- A statement is live if a history goes on after it without closing the scope of it. -/
theorem mem_live_iff (h : List Event) (l : Nat) (s : Statement) :
    (l, s) ∈ live h ↔
      ∃ before later, h = before ++ .stated s :: later ∧ keepsOpen later = true ∧
        l = depth before := by
  simp only [live, List.mem_filterMap, List.mem_range]
  constructor
  · rintro ⟨i, hi, hl⟩
    unfold liveAt? at hl
    split at hl
    · rename_i s' hs
      split_ifs at hl with hk
      obtain ⟨rfl, rfl⟩ := Prod.mk.inj (Option.some.inj hl)
      refine ⟨h.take i, h.drop (i + 1), ?_, hk, rfl⟩
      have hget : h[i] = .stated s' := by
        rw [List.getElem?_eq_getElem hi] at hs
        exact Option.some.inj hs
      rw [← hget, List.getElem_cons_drop, List.take_append_drop]
    · cases hl
  · rintro ⟨before, later, rfl, hk, rfl⟩
    refine ⟨before.length, by simp, ?_⟩
    simp [liveAt?, hk]

/-- The events after a point raise the depth by as many scopes as they leave open. -/
theorem depth_append (before later : List Event) (hb : keepsOpen before = true)
    (hl : keepsOpen later = true) : depth (before ++ later) = depth before + depth later := by
  have h1 := keepsOpen_count before hb
  have h2 := keepsOpen_count later hl
  simp only [depth, List.count_append]
  omega

/-- Nothing is live at a level that is not open. -/
theorem live_level_le_depth (h : List Event) (hk : keepsOpen h = true) (x : Nat × Statement)
    (hx : x ∈ live h) : x.1 ≤ depth h := by
  obtain ⟨before, later, rfl, hl, he⟩ := (mem_live_iff h x.1 x.2).mp hx
  have hb : keepsOpen before = true := by
    simpa using keepsOpen_take _ hk before.length
  have hs : before ++ Event.stated x.2 :: later = (before ++ [.stated x.2]) ++ later := by simp
  have hm : keepsOpen (before ++ [.stated x.2]) = true := by
    rw [keepsOpen_append_of_ne _ _ (by simp)]
    exact hb
  rw [he, hs, depth_append _ _ hm hl, depth_append_stated]
  exact Nat.le_add_right _ _

/-- What is live stays so, unless a scope is closed. -/
theorem liveAt?_append_of_ne (h : List Event) (e : Event) (he : e ≠ .closed) (i : Nat)
    (hi : i < h.length) : liveAt? (h ++ [e]) i = liveAt? h i := by
  have hd : (h ++ [e]).drop (i + 1) = h.drop (i + 1) ++ [e] :=
    List.drop_append_of_le_length (by omega)
  simp only [liveAt?, List.getElem?_append_left hi, hd, List.take_append_of_le_length hi.le,
    keepsOpen_append_of_ne _ e he]

/-- Closing a scope ends what was stated at its level, and nothing else. -/
theorem liveAt?_append_closed (h : List Event) (hk : keepsOpen h = true) (i : Nat)
    (hi : i < h.length) :
    liveAt? (h ++ [.closed]) i = (liveAt? h i).filter (fun x => x.1 < depth h) := by
  have hd : (h ++ [Event.closed]).drop (i + 1) = h.drop (i + 1) ++ [.closed] :=
    List.drop_append_of_le_length (by omega)
  simp only [liveAt?, List.getElem?_append_left hi, hd, List.take_append_of_le_length hi.le]
  split
  · rename_i s hs
    by_cases hl : keepsOpen (h.drop (i + 1)) = true
    · have hget : h[i] = .stated s := by
        rw [List.getElem?_eq_getElem hi] at hs
        exact Option.some.inj hs
      have hcut : (h.take i ++ [.stated s]) ++ h.drop (i + 1) = h := by
        rw [List.append_assoc, List.singleton_append, ← hget, List.getElem_cons_drop,
          List.take_append_drop]
      have hm : keepsOpen (h.take i ++ [.stated s]) = true := by
        rw [keepsOpen_append_of_ne _ _ (by simp)]
        exact keepsOpen_take h hk i
      -- the scope of the statement outlives the closing iff a later scope is still open
      have hsum : depth h = depth (h.take i) + depth (h.drop (i + 1)) := by
        conv_lhs => rw [← hcut, depth_append _ _ hm hl, depth_append_stated]
      have hiff : keepsOpen (h.drop (i + 1) ++ [.closed]) =
          decide (depth (h.take i) < depth h) := by
        rw [Bool.eq_iff_iff, keepsOpen_append_closed, decide_eq_true_iff]
        constructor
        · rintro ⟨_, hz⟩
          omega
        · intro hlt
          exact ⟨hl, by omega⟩
      rw [hiff, if_pos hl, Option.filter_some]
    · have hn : ¬ keepsOpen (h.drop (i + 1) ++ [.closed]) = true := by
        rw [keepsOpen_append_closed]
        exact fun hc => hl hc.1
      rw [if_neg hl, if_neg hn, Option.filter_none]
  · rfl

theorem live_append_opened (h : List Event) : live (h ++ [.opened]) = live h := by
  have hlast : liveAt? (h ++ [.opened]) h.length = none := by simp [liveAt?]
  rw [live, List.length_append, List.length_singleton, List.range_succ, List.filterMap_append,
    List.filterMap_cons, hlast, List.filterMap_nil, List.append_nil]
  exact List.filterMap_congr fun i hi =>
    liveAt?_append_of_ne h .opened (by simp) i (List.mem_range.mp hi)

/-- A new statement comes last, at the current depth. -/
theorem live_append_stated (h : List Event) (s : Statement) :
    live (h ++ [.stated s]) = live h ++ [(depth h, s)] := by
  have hlast : liveAt? (h ++ [.stated s]) h.length = some (depth h, s) := by
    simp [liveAt?, keepsOpen]
  rw [live, List.length_append, List.length_singleton, List.range_succ, List.filterMap_append,
    List.filterMap_cons, hlast, List.filterMap_nil]
  congr 1
  exact List.filterMap_congr fun i hi =>
    liveAt?_append_of_ne h (.stated s) (by simp) i (List.mem_range.mp hi)

/-- Closing a scope ends the statements made at its level. -/
theorem live_append_closed (h : List Event) (hk : keepsOpen h = true) :
    live (h ++ [.closed]) = (live h).filter (fun x => x.1 < depth h) := by
  have hlast : liveAt? (h ++ [.closed]) h.length = none := by simp [liveAt?]
  rw [live, List.length_append, List.length_singleton, List.range_succ, List.filterMap_append,
    List.filterMap_cons, hlast, List.filterMap_nil, List.append_nil, live, List.filter_filterMap]
  exact List.filterMap_congr fun i hi =>
    liveAt?_append_closed h hk i (List.mem_range.mp hi)

end History
end Validity
