import Mathlib.Tactic.Common
import Mathlib.Algebra.Group.Nat.Defs
import Mathlib.Algebra.Group.Int.Defs
import Mathlib.Data.Multiset.Count
import Mathlib.Logic.Function.Basic

/-!
# A heap of reference-counted cells

Cells with a 32-bit count and contents of any type. `Owned H M` says that the
counts of `H` are exactly those of the multiset `M` of references, and that
nothing else is live. Each operation has a rule that says what it does to `M`
and that it leaves the contents behind the references it does not consume.
-/

namespace Libacorn.Support

structure Cell (β : Type) where
  refs : Nat
  data : β

/-- The live cells by id; ids from `next` on are unused. -/
structure RefHeap (β : Type) where
  cells : Nat → Option (Cell β)
  next : Nat

namespace RefHeap

variable {β : Type}

def empty : RefHeap β := ⟨fun _ => none, 0⟩

def set (H : RefHeap β) (i : Nat) (c : Option (Cell β)) : RefHeap β :=
  { H with cells := Function.update H.cells i c }

/-- The contents of a live cell. -/
def get? (H : RefHeap β) (i : Nat) : Option β := (H.cells i).map Cell.data

/-- A new cell with one reference; its id is `H.next`. -/
def alloc (H : RefHeap β) (b : β) : RefHeap β :=
  { cells := Function.update H.cells H.next (some ⟨1, b⟩), next := H.next + 1 }

def retain (H : RefHeap β) (i : Nat) : Option (RefHeap β) :=
  (H.cells i).map fun c => H.set i (some { c with refs := (c.refs + 1) % 2 ^ 32 })

/-- The cell is freed when its count reaches zero. -/
def release (H : RefHeap β) (i : Nat) : Option (RefHeap β) :=
  (H.cells i).map fun c =>
    let refs := (c.refs + (2 ^ 32 - 1)) % 2 ^ 32
    H.set i (if refs = 0 then none else some { c with refs := refs })

/-- Move a cell to a new id, count included, and change its contents. -/
def move (H : RefHeap β) (i : Nat) (f : β → β) : Option (RefHeap β) :=
  (H.cells i).map fun c =>
    { cells := Function.update (Function.update H.cells i none) H.next (some ⟨c.refs, f c.data⟩)
      next := H.next + 1 }

/-- Overwrite the contents of a live cell. -/
def modify (H : RefHeap β) (i : Nat) (b : β) : RefHeap β :=
  H.set i ((H.cells i).map fun c => { c with data := b })

/-! ## Ownership -/

/-- The counts are those of `M`, and only what is in `M` is live. -/
structure Owned (H : RefHeap β) (M : Multiset Nat) : Prop where
  live : ∀ i c, H.cells i = some c → c.refs = M.count i
  mem_iff : ∀ i, i ∈ M ↔ (H.cells i).isSome
  fresh : ∀ i, H.next ≤ i → H.cells i = none

variable {H H' : RefHeap β} {M : Multiset Nat} {i j : Nat}

theorem Owned.empty : Owned (empty : RefHeap β) 0 where
  live _ _ h := nomatch h
  mem_iff i := by simp [RefHeap.empty]
  fresh _ _ := rfl

theorem Owned.exists_cell (h : Owned H M) (hi : i ∈ M) :
    ∃ c, H.cells i = some c ∧ c.refs = M.count i := by
  obtain ⟨c, hc⟩ := Option.isSome_iff_exists.mp ((h.mem_iff i).mp hi)
  exact ⟨c, hc, h.live i c hc⟩

theorem Owned.mem_of_get? (h : Owned H M) {b : β} (hb : H.get? i = some b) : i ∈ M := by
  obtain ⟨c, hc, -⟩ := Option.map_eq_some_iff.mp hb
  exact (h.mem_iff i).mpr (by rw [hc]; rfl)

theorem Owned.next_notMem (h : Owned H M) : H.next ∉ M := by
  intro hm
  have := (h.mem_iff _).mp hm
  rw [h.fresh _ (Nat.le_refl _)] at this
  cases this

theorem Owned.ne_next (h : Owned H M) (hi : i ∈ M) : i ≠ H.next := by
  rintro rfl
  exact h.next_notMem hi

theorem set_cells_self (H : RefHeap β) (i : Nat) (c : Option (Cell β)) :
    (H.set i c).cells i = c := Function.update_self ..

theorem set_cells_of_ne (H : RefHeap β) (c : Option (Cell β)) (h : j ≠ i) :
    (H.set i c).cells j = H.cells j := Function.update_of_ne h ..

/-- Replacing one cell, when the counts of the others stay. -/
theorem Owned.set {N : Multiset Nat} {c : Option (Cell β)} (h : Owned H M)
    (hi : i ∈ M) (hj : ∀ j, j ≠ i → N.count j = M.count j)
    (hc : ∀ d, c = some d → d.refs = N.count i) (hm : i ∈ N ↔ c.isSome) :
    Owned (H.set i c) N where
  live j d hd := by
    by_cases hji : j = i
    · subst hji
      rw [set_cells_self] at hd
      exact hc d hd
    · rw [set_cells_of_ne H c hji] at hd
      rw [hj j hji]
      exact h.live j d hd
  mem_iff j := by
    by_cases hji : j = i
    · subst hji
      rw [set_cells_self]
      exact hm
    · rw [set_cells_of_ne H c hji, ← h.mem_iff, ← Multiset.count_pos, ← Multiset.count_pos,
        hj j hji]
  fresh j hle := by
    have hji : j ≠ i := by
      rintro rfl
      have := (h.mem_iff j).mp hi
      rw [h.fresh j hle] at this
      cases this
    rw [set_cells_of_ne H c hji]
    exact h.fresh j hle

/-! ## Rules -/

theorem alloc_get?_next (H : RefHeap β) (b : β) : (H.alloc b).get? H.next = some b := by
  simp [alloc, get?]

theorem alloc_get?_of_ne (H : RefHeap β) (b : β) (h : i ≠ H.next) :
    (H.alloc b).get? i = H.get? i := by
  simp [alloc, get?, h]

theorem Owned.alloc (h : Owned H M) (b : β) : Owned (H.alloc b) (H.next ::ₘ M) where
  live i c hc := by
    by_cases hi : i = H.next
    · subst hi
      simp only [RefHeap.alloc, Function.update_self, Option.some.injEq] at hc
      subst hc
      simp [Multiset.count_eq_zero_of_notMem h.next_notMem]
    · simp only [RefHeap.alloc, Function.update_of_ne hi] at hc
      rw [Multiset.count_cons_of_ne hi]
      exact h.live i c hc
  mem_iff i := by
    by_cases hi : i = H.next
    · subst hi
      simp [RefHeap.alloc]
    · simp [RefHeap.alloc, hi, h.mem_iff]
  fresh i hle := by
    simp only [RefHeap.alloc] at hle ⊢
    rw [Function.update_of_ne (by omega)]
    exact h.fresh i (by omega)

/-- A live cell can be retained, and no contents change. -/
theorem retain_get? {b : β} (hb : H.get? i = some b) :
    ∃ H', H.retain i = some H' ∧ ∀ j, H'.get? j = H.get? j := by
  obtain ⟨c, hc, -⟩ := Option.map_eq_some_iff.mp hb
  refine ⟨_, by rw [RefHeap.retain, hc]; rfl, ?_⟩
  intro j
  by_cases hj : j = i
  · subst hj
    simp [get?, set_cells_self, hc]
  · simp [get?, set_cells_of_ne H _ hj]

theorem Owned.retain (h : Owned H M) (hi : i ∈ M) (hM : M.count i + 1 < 2 ^ 32) :
    ∃ H', H.retain i = some H' ∧ Owned H' (i ::ₘ M) ∧ ∀ j, H'.get? j = H.get? j := by
  obtain ⟨c, hc, hrefs⟩ := h.exists_cell hi
  obtain ⟨H', hr, hsame⟩ := retain_get? (show H.get? i = some c.data by rw [get?, hc]; rfl)
  refine ⟨H', hr, ?_, hsame⟩
  rw [RefHeap.retain, hc, Option.map_some] at hr
  obtain rfl := Option.some.inj hr
  apply h.set hi
  · intro j hj
    exact Multiset.count_cons_of_ne hj M
  · intro d hd
    obtain rfl := Option.some.inj hd
    rw [Multiset.count_cons_self, ← hrefs]
    exact Nat.mod_eq_of_lt (by omega)
  · simp

theorem Owned.release (h : Owned H (i ::ₘ M)) (hM : M.count i + 1 < 2 ^ 32) :
    ∃ H', H.release i = some H' ∧ Owned H' M ∧ ∀ j ∈ M, H'.get? j = H.get? j := by
  have hi : i ∈ i ::ₘ M := Multiset.mem_cons_self i M
  obtain ⟨c, hc, hrefs⟩ := h.exists_cell hi
  rw [Multiset.count_cons_self] at hrefs
  have hr : (c.refs + (2 ^ 32 - 1)) % 2 ^ 32 = M.count i := by omega
  refine ⟨_, by rw [RefHeap.release, hc]; rfl, ?_, ?_⟩
  · apply h.set hi
    · intro j hj
      rw [Multiset.count_cons_of_ne hj]
    · intro d hd
      simp only [hr] at hd
      split at hd
      · cases hd
      · obtain rfl := Option.some.inj hd
        rfl
    · simp only [hr]
      split
      · rename_i h0
        simp [Multiset.count_eq_zero.mp h0]
      · rename_i h0
        simp [Multiset.count_ne_zero.mp h0]
  · intro j hj
    by_cases hji : j = i
    · subst hji
      have h0 : M.count j ≠ 0 := Multiset.count_ne_zero.mpr hj
      simp only [hr, get?, set_cells_self, hc, h0, ↓reduceIte]
      rfl
    · simp [get?, set_cells_of_ne H _ hji]

theorem release_next (h : H.release i = some H') : H'.next = H.next := by
  obtain ⟨c, -, rfl⟩ := Option.map_eq_some_iff.mp h
  rfl

/-- The only reference moves to the new cell. -/
theorem Owned.move (h : Owned H (i ::ₘ M)) (hi : i ∉ M) (f : β → β) :
    ∃ H' b, H.get? i = some b ∧ H.move i f = some H' ∧ Owned H' (H.next ::ₘ M) ∧
      H'.get? H.next = some (f b) ∧ ∀ j ∈ M, H'.get? j = H.get? j := by
  obtain ⟨c, hc, hrefs⟩ := h.exists_cell (Multiset.mem_cons_self i M)
  rw [Multiset.count_cons_self, Multiset.count_eq_zero_of_notMem hi] at hrefs
  -- freeing the cell and allocating a new one, since its count is one
  have hfree : Owned (H.set i none) M := by
    apply h.set (Multiset.mem_cons_self i M)
    · intro j hj
      rw [Multiset.count_cons_of_ne hj]
    · intro d hd
      cases hd
    · simp [hi]
  have hmove : H.move i f = some ((H.set i none).alloc (f c.data)) := by
    rw [RefHeap.move, hc, Option.map_some, hrefs]
    rfl
  refine ⟨_, c.data, by simp [get?, hc], hmove, hfree.alloc _, alloc_get?_next _ _, ?_⟩
  intro j hj
  have hji : j ≠ i := by
    rintro rfl
    exact hi hj
  rw [alloc_get?_of_ne _ _ (hfree.ne_next hj), get?, get?, set_cells_of_ne H _ hji]

theorem Owned.modify (h : Owned H M) (b : β) (hi : i ∈ M) : Owned (H.modify i b) M := by
  obtain ⟨c, hc, hrefs⟩ := h.exists_cell hi
  apply h.set hi
  · intro j _
    rfl
  · intro d hd
    rw [hc] at hd
    obtain rfl := Option.some.inj hd
    exact hrefs
  · simp [hc, hi]

theorem modify_get?_self (H : RefHeap β) (b : β) {b' : β} (h : H.get? i = some b') :
    (H.modify i b).get? i = some b := by
  obtain ⟨c, hc, -⟩ := Option.map_eq_some_iff.mp h
  simp [RefHeap.modify, get?, set_cells_self, hc]

theorem modify_get?_of_ne (H : RefHeap β) (b : β) (h : j ≠ i) :
    (H.modify i b).get? j = H.get? j := by
  simp [RefHeap.modify, get?, set_cells_of_ne H _ h]

end RefHeap

end Libacorn.Support
