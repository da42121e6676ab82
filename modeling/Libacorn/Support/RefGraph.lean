import Mathlib.Algebra.Order.Group.Multiset
import Libacorn.Support.RefHeap

/-!
# Cells that refer to cells

The cells of a counted heap may have references themselves: `kids` are those in the contents of a
cell, `edges H` all that the live cells of `H` have. `Closed kids H M` says that the counts are
those of `edges H` and of the references `M` from outside. A reference that is put into a cell
leaves `M`, and the references of a cell that dies come back into it: `free` gives up a list of
references and, one after the other, all that go with them.
-/

namespace Libacorn.Support.RefHeap

variable {β : Type} (kids : β → List Nat)

/-- The references in a cell. -/
def kidsAt (H : RefHeap β) (i : Nat) : Multiset Nat := ↑(((H.get? i).map kids).getD [])

/-- The references in the cells below `n`. -/
def edgesBelow (H : RefHeap β) : Nat → Multiset Nat
  | 0 => 0
  | n + 1 => edgesBelow H n + kidsAt kids H n

def edges (H : RefHeap β) : Multiset Nat := edgesBelow kids H H.next

/-- Give up references. The contents of a cell that dies are given up behind it. -/
def free : Nat → RefHeap β → List Nat → Option (RefHeap β)
  | _, H, [] => some H
  | 0, _, _ :: _ => none
  | n + 1, H, i :: w =>
    match H.get? i, H.release i with
    | some b, some H' => free n H' (if (H'.get? i).isNone then kids b ++ w else w)
    | _, _ => none

/-- The counts are those of `M` and of the references between cells, and fit an `int`. -/
structure Closed (H : RefHeap β) (M : Multiset Nat) : Prop where
  owned : H.Owned (M + edges kids H)
  small : ∀ i, (M + edges kids H).count i < 2 ^ 31

variable {kids} {H H' : RefHeap β} {M : Multiset Nat} {i n : Nat}

/-! ## References between cells -/

theorem edgesBelow_congr (h : ∀ j, j < n → H'.get? j = H.get? j) :
    edgesBelow kids H' n = edgesBelow kids H n := by
  induction n with
  | zero => rfl
  | succ n ih =>
    have hn : kidsAt kids H' n = kidsAt kids H n := by
      rw [kidsAt, kidsAt, h n (Nat.lt_succ_self n)]
    rw [edgesBelow, edgesBelow, hn, ih fun j hj => h j (Nat.lt_succ_of_lt hj)]

/-- One cell has changed. -/
theorem edgesBelow_update (h : ∀ j, j ≠ i → H'.get? j = H.get? j) (hi : i < n) :
    edgesBelow kids H' n + kidsAt kids H i = edgesBelow kids H n + kidsAt kids H' i := by
  induction n with
  | zero => omega
  | succ n ih =>
    rw [edgesBelow, edgesBelow]
    by_cases hn : i = n
    · subst hn
      rw [edgesBelow_congr fun j hj => h j (Nat.ne_of_lt hj)]
      exact add_right_comm ..
    · have hkids : kidsAt kids H' n = kidsAt kids H n := by
        rw [kidsAt, kidsAt, h n (Ne.symm hn)]
      rw [hkids, add_right_comm, ih (by omega)]
      exact add_right_comm ..

theorem mem_edges {b : β} {j : Nat} (hi : i < H.next) (hb : H.get? i = some b) (hj : j ∈ kids b) :
    j ∈ edges kids H := by
  have hat : j ∈ kidsAt kids H i := by
    rw [kidsAt, hb]
    exact hj
  have hbelow (n : Nat) (hn : i < n) : j ∈ edgesBelow kids H n := by
    induction n with
    | zero => omega
    | succ n ih =>
      rw [edgesBelow, Multiset.mem_add]
      by_cases h : i = n
      · right
        rwa [← h]
      · left
        exact ih (by omega)
  exact hbelow H.next hi

theorem edges_congr (hnext : H'.next = H.next) (h : ∀ j, H'.get? j = H.get? j) :
    edges kids H' = edges kids H := by
  rw [edges, edges, hnext]
  exact edgesBelow_congr fun j _ => h j

theorem edges_alloc (H : RefHeap β) (b : β) : edges kids (H.alloc b) = edges kids H + kids b := by
  have hold : edgesBelow kids (H.alloc b) H.next = edges kids H :=
    edgesBelow_congr fun j hj => alloc_get?_of_ne H b (Nat.ne_of_lt hj)
  have hnew : kidsAt kids (H.alloc b) H.next = ↑(kids b) := by
    rw [kidsAt, alloc_get?_next, Option.map_some, Option.getD_some]
  rw [edges, show (H.alloc b).next = H.next + 1 from rfl, edgesBelow, hold, hnew]

/-! ## Rules -/

namespace Closed

theorem empty : Closed kids (RefHeap.empty : RefHeap β) 0 where
  owned := Owned.empty
  small _ := Nat.two_pow_pos 31

theorem lt_next (h : Closed kids H M) (hi : i ∈ M + edges kids H) : i < H.next := by
  obtain ⟨c, hc, -⟩ := h.owned.exists_cell hi
  by_contra hle
  rw [h.owned.fresh i (by omega)] at hc
  cases hc

theorem live (h : Closed kids H M) (hi : i ∈ M + edges kids H) : (H.get? i).isSome := by
  obtain ⟨c, hc, -⟩ := h.owned.exists_cell hi
  rw [get?, hc]
  rfl

/-- What a live cell refers to is live. -/
theorem live_kid {b : β} {j : Nat} (h : Closed kids H M) (hb : H.get? i = some b)
    (hj : j ∈ kids b) :
    (H.get? j).isSome :=
  h.live (Multiset.mem_add.mpr (Or.inr (mem_edges (h.lt_next (h.owned.mem_of_get? hb)) hb hj)))

/-- A new cell takes the references that are put into it. -/
theorem alloc {b : β} (h : Closed kids H (↑(kids b) + M)) :
    Closed kids (H.alloc b) (H.next ::ₘ M) := by
  have heq : H.next ::ₘ M + edges kids (H.alloc b) = H.next ::ₘ (↑(kids b) + M + edges kids H) := by
    rw [edges_alloc, Multiset.cons_add, add_comm (kids b : Multiset Nat), add_assoc,
      add_comm (edges kids H)]
  constructor
  · rw [heq]
    exact h.owned.alloc b
  · intro i
    rw [heq]
    by_cases hi : i = H.next
    · rw [hi, Multiset.count_cons_self, Multiset.count_eq_zero_of_notMem h.owned.next_notMem]
      decide
    · rw [Multiset.count_cons_of_ne hi]
      exact h.small i

theorem retain (h : Closed kids H M) (hi : i ∈ M + edges kids H)
    (hsmall : (M + edges kids H).count i + 1 < 2 ^ 31) :
    ∃ H', H.retain i = some H' ∧ Closed kids H' (i ::ₘ M) ∧ H'.next = H.next ∧
      ∀ j, H'.get? j = H.get? j := by
  obtain ⟨H', hretain, howned, hsame⟩ := h.owned.retain hi (by omega)
  have hnext : H'.next = H.next := by
    obtain ⟨c, -, rfl⟩ := Option.map_eq_some_iff.mp hretain
    rfl
  have hedges : edges kids H' = edges kids H := edges_congr hnext hsame
  refine ⟨H', hretain, ⟨?_, ?_⟩, hnext, hsame⟩
  · rw [hedges, Multiset.cons_add]
    exact howned
  · intro j
    rw [hedges, Multiset.cons_add]
    by_cases hj : j = i
    · rw [hj, Multiset.count_cons_self]
      exact hsmall
    · rw [Multiset.count_cons_of_ne hj]
      exact h.small j

/-- The references of the old contents come out, and those of the new ones go in. -/
theorem modify {b c : β} (h : Closed kids H (↑(kids b) + M)) (hc : H.get? i = some c) :
    Closed kids (H.modify i b) (↑(kids c) + M) := by
  have hi : i ∈ ↑(kids b) + M + edges kids H := h.owned.mem_of_get? hc
  have hupdate : edgesBelow kids (H.modify i b) H.next + kidsAt kids H i =
      edgesBelow kids H H.next + kidsAt kids (H.modify i b) i :=
    edgesBelow_update (fun j hj => modify_get?_of_ne H b hj) (h.lt_next hi)
  rw [kidsAt, kidsAt, hc, modify_get?_self H b hc] at hupdate
  have heq : ↑(kids c) + M + edges kids (H.modify i b) = ↑(kids b) + M + edges kids H := by
    have hsum : edges kids (H.modify i b) + kids c = edges kids H + kids b := hupdate
    rw [add_comm _ M, add_assoc, add_comm (kids c : Multiset Nat), hsum, add_comm _ M, add_assoc,
      add_comm (kids b : Multiset Nat)]
  constructor
  · rw [heq]
    exact h.owned.modify b hi
  · rw [heq]
    exact h.small

/-- One reference is given up: the cell stays, or its contents are outside now. -/
theorem release (h : Closed kids H (i ::ₘ M)) : ∃ b H', H.get? i = some b ∧ H.release i = some H' ∧
    (H'.get? i = some b ∧ Closed kids H' M ∧ (edges kids H').card = (edges kids H).card ∨
      H'.get? i = none ∧ Closed kids H' (↑(kids b) + M) ∧
        (edges kids H').card + (kids b).length = (edges kids H).card) := by
  have howned := h.owned
  have hsmall (j : Nat) : (M + edges kids H).count j < 2 ^ 31 := by
    have hj := h.small j
    rw [Multiset.cons_add] at hj
    exact Nat.lt_of_le_of_lt (Multiset.count_le_count_cons ..) hj
  have hlt := h.lt_next (Multiset.mem_add.mpr (Or.inl (Multiset.mem_cons_self i M)))
  rw [Multiset.cons_add] at howned
  obtain ⟨c, hc, -⟩ := howned.exists_cell (Multiset.mem_cons_self i _)
  have hi : H.get? i = some c.data := by rw [get?, hc]; rfl
  obtain ⟨H', hrelease, howned', hsame⟩ := howned.release (by have := hsmall i; omega)
  have hnext := release_next hrelease
  have hdead (H : RefHeap β) {N : Multiset Nat} (h : H.Owned N) {j : Nat} (hj : j ∉ N) :
      H.get? j = none := by
    rw [get?, Option.not_isSome_iff_eq_none.mp fun hs => hj ((h.mem_iff j).mpr hs)]
    rfl
  have hother (j : Nat) (hj : j ≠ i) : H'.get? j = H.get? j := by
    by_cases hmem : j ∈ M + edges kids H
    · exact hsame j hmem
    · rw [hdead H' howned' hmem, hdead H howned (by simp [hj, hmem])]
  refine ⟨c.data, H', hi, hrelease, ?_⟩
  by_cases hmem : i ∈ M + edges kids H
  · have hedges : edges kids H' = edges kids H := by
      apply edges_congr hnext
      intro j
      by_cases hj : j = i
      · rw [hj]
        exact hsame i hmem
      · exact hother j hj
    left
    refine ⟨(hsame i hmem).trans hi, ⟨?_, ?_⟩, by rw [hedges]⟩
    · rw [hedges]
      exact howned'
    · rw [hedges]
      exact hsmall
  · have hnone : H'.get? i = none := hdead H' howned' hmem
    have hupdate : edgesBelow kids H' H.next + kidsAt kids H i =
        edgesBelow kids H H.next + kidsAt kids H' i := edgesBelow_update hother hlt
    rw [kidsAt, kidsAt, hi, hnone] at hupdate
    have hsum : edges kids H' + kids c.data = edges kids H := by
      rw [edges, hnext]
      exact hupdate.trans (add_zero _)
    have heq : ↑(kids c.data) + M + edges kids H' = M + edges kids H := by
      rw [add_comm _ M, add_assoc, add_comm (kids c.data : Multiset Nat), hsum]
    right
    refine ⟨hnone, ⟨?_, ?_⟩, ?_⟩
    · rw [heq]
      exact howned'
    · rw [heq]
      exact hsmall
    · have hcard := congrArg Multiset.card hsum
      rwa [Multiset.card_add, Multiset.coe_card] at hcard

/-- All references of the list are given up: each round takes one, and those that come in leave
their cell. -/
theorem free {w : List Nat} (h : Closed kids H (↑w + M)) (hn : (edges kids H).card + w.length ≤ n) :
    ∃ H', RefHeap.free kids n H w = some H' ∧ Closed kids H' M := by
  induction n generalizing H w with
  | zero =>
    obtain rfl : w = [] := List.length_eq_zero_iff.mp (by omega)
    rw [Multiset.coe_nil, zero_add] at h
    exact ⟨H, rfl, h⟩
  | succ n ih =>
    cases w with
    | nil =>
      rw [Multiset.coe_nil, zero_add] at h
      exact ⟨H, rfl, h⟩
    | cons i w =>
      rw [List.length_cons] at hn
      rw [← Multiset.cons_coe, Multiset.cons_add] at h
      obtain ⟨b, H', hb, hrelease, ⟨hlive, h', hlen⟩ | ⟨hnone, h', hlen⟩⟩ := h.release
      · obtain ⟨H'', hfree, h''⟩ := ih h' (by omega)
        refine ⟨H'', ?_, h''⟩
        simp only [RefHeap.free, hb, hrelease, hlive]
        exact hfree
      · rw [← add_assoc, Multiset.coe_add] at h'
        obtain ⟨H'', hfree, h''⟩ := ih h' (by rw [List.length_append]; omega)
        refine ⟨H'', ?_, h''⟩
        simp only [RefHeap.free, hb, hrelease, hnone]
        exact hfree

end Closed

end Libacorn.Support.RefHeap
