import Mathlib.Algebra.Order.Group.Multiset
import Mathlib.Algebra.BigOperators.Group.List.Basic
import Libacorn.StringOps

/-!
# Runs of string operations

The invariant of the system of all handles: the counts are those of the handles,
and every handle is well-formed. Each operation keeps it, and leaves the content
of the handles it does not target.
-/

namespace Libacorn

open Support

namespace StringHeap

/-! ## The invariant -/

/-- The references of the live handles. -/
def owners (hs : List (Option Handle)) : Multiset Nat := (hs.map fun o => (o.map own).getD 0).sum

/-- The number of live handles. -/
def liveCount (hs : List (Option Handle)) : Nat := hs.countP Option.isSome

namespace State

def live (S : State) : Nat := liveCount S.handles

/-- The number of Standard handles on a buffer. -/
def pointers (S : State) (i : Nat) : Nat :=
  S.handles.countP fun o => o.any fun h => h.type = .Standard ∧ h.buf = .heap i

/-- The references of all handles but `k`. -/
def rest (S : State) (k : Nat) : Multiset Nat := owners (S.handles.set k none)

end State

structure Inv (S : State) : Prop where
  owned : S.heap.Owned (owners S.handles)
  wf : ∀ k h, S.handle? k = some h → WF S.heap h

/-- The content of the handles other than the target is as before. -/
def Isolated (S S' : State) (target : Option Nat) : Prop :=
  ∀ k h, target ≠ some k → S.handle? k = some h →
    S'.handle? k = some h ∧ content S'.heap h = content S.heap h

theorem owners_set {hs : List (Option Handle)} {k : Nat} (hk : k < hs.length) (h : Handle) :
    owners (hs.set k (some h)) = own h + owners (hs.set k none) := by
  induction hs generalizing k with
  | nil => simp at hk
  | cons o hs ih =>
    cases k with
    | zero => simp [owners]
    | succ k =>
      have := ih (Nat.lt_of_succ_lt_succ hk)
      simp only [owners, List.map_cons, List.sum_cons, List.set_cons_succ] at this ⊢
      rw [this, ← Multiset.add_assoc, ← Multiset.add_assoc, Multiset.add_comm (own h)]

theorem liveCount_set {hs : List (Option Handle)} {k : Nat} {h : Handle}
    (hk : hs[k]? = some (some h)) : liveCount (hs.set k none) + 1 = liveCount hs := by
  induction hs generalizing k with
  | nil => simp at hk
  | cons o hs ih =>
    cases k with
    | zero =>
      obtain rfl := Option.some.inj hk
      simp [liveCount]
    | succ k =>
      have := ih hk
      simp only [liveCount, List.set_cons_succ, List.countP_cons] at this ⊢
      omega

theorem liveCount_set_some {hs : List (Option Handle)} {k : Nat} {h : Handle}
    (hk : hs[k]? = some (some h)) (h' : Handle) :
    liveCount (hs.set k (some h')) = liveCount hs := by
  induction hs generalizing k with
  | nil => simp at hk
  | cons o hs ih =>
    cases k with
    | zero =>
      obtain rfl := Option.some.inj hk
      simp [liveCount]
    | succ k =>
      have := ih hk
      simp only [liveCount, List.set_cons_succ, List.countP_cons] at this ⊢
      omega

theorem card_own_le (h : Handle) : (own h).card ≤ 1 := by
  rw [own]
  split
  · rw [Multiset.card_singleton]
  · rw [Multiset.card_zero]
    omega

theorem card_owners_le (hs : List (Option Handle)) : (owners hs).card ≤ liveCount hs := by
  induction hs with
  | nil => simp [owners, liveCount]
  | cons o hs ih =>
    simp only [owners, liveCount, List.map_cons, List.sum_cons, Multiset.card_add,
      List.countP_cons] at ih ⊢
    cases o with
    | none => simpa using ih
    | some h =>
      have := card_own_le h
      simp
      omega

theorem count_own (h : Handle) (i : Nat) :
    (own h).count i = if h.type = .Standard ∧ h.buf = .heap i then 1 else 0 := by
  cases ht : h.type with
  | Static => simp [own, ht]
  | Standard =>
    cases hb : h.buf with
    | null => simp [own, ht, hb]
    | lit m => simp [own, ht, hb]
    | heap j =>
      by_cases hij : j = i
      · subst hij
        simp [own, ht, hb]
      · rw [own_heap hb ht, Multiset.count_singleton, if_neg (Ne.symm hij),
          if_neg (fun hc => hij (Ptr.heap.inj hc.2))]

theorem count_owners (S : State) (i : Nat) : (owners S.handles).count i = S.pointers i := by
  unfold State.pointers
  generalize S.handles = hs
  induction hs with
  | nil => rfl
  | cons o hs ih =>
    simp only [owners, List.map_cons, List.sum_cons, Multiset.count_add, List.countP_cons] at ih ⊢
    rw [ih, Nat.add_comm]
    cases o with
    | none => simp
    | some h => simp [count_own]

section Slots

variable {S : State} {k : Nat} {h : Handle}

theorem handle?_eq_some : S.handle? k = some h ↔ S.handles[k]? = some (some h) := by
  simp [State.handle?, Option.join_eq_some_iff]

theorem get_eq_ok (hk : S.handle? k = some h) : S.get k = .ok h := by
  simp [State.get, hk]

theorem lt_length (hk : S.handle? k = some h) : k < S.handles.length :=
  (List.getElem?_eq_some_iff.mp (handle?_eq_some.mp hk)).1

theorem owners_eq (hk : S.handle? k = some h) : owners S.handles = own h + S.rest k := by
  rw [State.rest, ← owners_set (lt_length hk)]
  congr 1
  have := handle?_eq_some.mp hk
  rw [List.getElem?_eq_some_iff] at this
  obtain ⟨hlt, heq⟩ := this
  rw [← heq, List.set_getElem_self]

theorem card_rest_lt (hk : S.handle? k = some h) : (S.rest k).card + 1 ≤ S.live := by
  have := card_owners_le (S.handles.set k none)
  have := liveCount_set (handle?_eq_some.mp hk)
  simp only [State.rest, State.live]
  omega

theorem handle?_drop_of_ne {k' : Nat} (H : Heap) (hne : k ≠ k') :
    (S.drop k H).handle? k' = S.handle? k' := by
  simp [State.handle?, State.drop, List.getElem?_set_ne hne]

theorem handle?_put_self (hk : S.handle? k = some h) (r : Heap × Handle) :
    (S.put k r).handle? k = some r.2 := by
  rw [handle?_eq_some, State.put, List.getElem?_set_self (lt_length hk)]

theorem handle?_put_of_ne {k' : Nat} (r : Heap × Handle) (hne : k ≠ k') :
    (S.put k r).handle? k' = S.handle? k' := by
  simp [State.handle?, State.put, List.getElem?_set_ne hne]

/-- Another handle is counted in the rest. -/
theorem own_le_rest {k' : Nat} {h' : Handle} (hne : k ≠ k') (hk' : S.handle? k' = some h') :
    own h' ≤ S.rest k := by
  have hd : (S.drop k S.heap).handle? k' = some h' := by
    rw [handle?_drop_of_ne _ hne]
    exact hk'
  rw [State.rest, show S.handles.set k none = (S.drop k S.heap).handles from rfl, owners_eq hd]
  exact Multiset.le_add_right _ _

theorem own_le_owners (hk : S.handle? k = some h) : own h ≤ owners S.handles := by
  rw [owners_eq hk]
  exact Multiset.le_add_right _ _

theorem Inv.owned_split (hI : Inv S) (hk : S.handle? k = some h) :
    S.heap.Owned (own h + S.rest k) := by
  rw [← owners_eq hk]
  exact hI.owned

end Slots

/-! ## From one handle to the system -/

section Rules

variable {S : State} {k : Nat} {h : Handle}

theorem Inv.put (hI : Inv S) (hk : S.handle? k = some h) {r : Heap × Handle}
    (hr : Keeps S.heap (S.rest k) r) : Inv (S.put k r) ∧ Isolated S (S.put k r) (some k) := by
  refine ⟨⟨?_, ?_⟩, ?_⟩
  · rw [State.put, owners_set (lt_length hk)]
    exact hr.owned
  · intro k' h' hk'
    by_cases hne : k = k'
    · subst hne
      rw [handle?_eq_some, State.put, List.getElem?_set_self (lt_length hk)] at hk'
      obtain rfl := Option.some.inj (Option.some.inj hk')
      exact hr.wf
    · rw [handle?_put_of_ne r hne] at hk'
      exact ((hI.wf k' h' hk').of_frame (own_le_rest hne hk') hr.frame).1
  · intro k' h' hne hk'
    have hne' : k ≠ k' := fun he => hne (congrArg some he)
    rw [handle?_put_of_ne r hne']
    exact ⟨hk', ((hI.wf k' h' hk').of_frame (own_le_rest hne' hk') hr.frame).2⟩

theorem Inv.drop (hI : Inv S) (hk : S.handle? k = some h) {H : Heap} (hO : H.Owned (S.rest k))
    (hf : Frame S.heap H (S.rest k)) : Inv (S.drop k H) ∧ Isolated S (S.drop k H) (some k) := by
  refine ⟨⟨hO, ?_⟩, ?_⟩
  · intro k' h' hk'
    have hne : k ≠ k' := by
      rintro rfl
      rw [handle?_eq_some, State.drop, List.getElem?_set_self (lt_length hk)] at hk'
      cases hk'
    rw [handle?_drop_of_ne H hne] at hk'
    exact ((hI.wf k' h' hk').of_frame (own_le_rest hne hk') hf).1
  · intro k' h' hne hk'
    have hne' : k ≠ k' := fun he => hne (congrArg some he)
    rw [handle?_drop_of_ne H hne']
    exact ⟨hk', ((hI.wf k' h' hk').of_frame (own_le_rest hne' hk') hf).2⟩

theorem handle?_push_of_some (r : Heap × Handle) (hk : S.handle? k = some h) :
    (S.push r).handle? k = some h := by
  rw [handle?_eq_some] at hk ⊢
  rw [State.push, List.getElem?_append_left (List.getElem?_eq_some_iff.mp hk).1]
  exact hk

/-- A handle after a push is an old one or the new one. -/
theorem handle?_push {r : Heap × Handle} (hk : (S.push r).handle? k = some h) :
    S.handle? k = some h ∨ h = r.2 := by
  rw [handle?_eq_some, State.push, List.getElem?_append] at hk
  split at hk
  · exact .inl (handle?_eq_some.mpr hk)
  · rw [List.getElem?_singleton] at hk
    split at hk
    · exact .inr (Option.some.inj (Option.some.inj hk)).symm
    · cases hk

theorem Inv.push (hI : Inv S) {r : Heap × Handle} (hr : Keeps S.heap (owners S.handles) r) :
    Inv (S.push r) ∧ Isolated S (S.push r) none := by
  refine ⟨⟨?_, ?_⟩, ?_⟩
  · have : owners (S.push r).handles = own r.2 + owners S.handles := by
      simp [State.push, owners, List.sum_append, add_comm]
    rw [this]
    exact hr.owned
  · intro k' h' hk'
    rcases handle?_push hk' with hold | rfl
    · exact ((hI.wf k' h' hold).of_frame (own_le_owners hold) hr.frame).1
    · exact hr.wf
  · intro k' h' _ hk'
    exact ⟨handle?_push_of_some r hk',
      ((hI.wf k' h' hk').of_frame (own_le_owners hk') hr.frame).2⟩

theorem live_push (S : State) (r : Heap × Handle) : (S.push r).live = S.live + 1 := by
  simp [State.live, State.push, liveCount]

theorem live_put (hk : S.handle? k = some h) (r : Heap × Handle) : (S.put k r).live = S.live :=
  liveCount_set_some (handle?_eq_some.mp hk) r.2

theorem Inv.init : Inv State.init where
  owned := RefHeap.Owned.empty
  wf k h hk := by simp [State.init, State.handle?] at hk

end Rules

end StringHeap

end Libacorn
