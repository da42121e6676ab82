import Libacorn.ValOperations
import Libacorn.ValViews

/-!
# What an assignment leaves

After an assignment between vals of which none is inside the other the destination has
the view that the source had, up to the objects (`assign_apart_spec`).
-/

namespace Libacorn.ValHeap

open Support

/-! ## The source is copied -/

/-- The copy that is stored has the value of the source, and other blocks are as they were. -/
theorem copied_spec {n word : Nat} {S : State} {x : Ref} {e s : Slot} {r : Slot × Heap}
    (hH : S.heap.Bounded) (hx : S.load x = some e) (hs : layout.Tree S.heap s)
    (hrun : copyMember n s word S.heap = .done r) :
    (∀ f k, viewWith f ((S.withHeap r.2).store x r.1).heap k r.1 = viewWith f S.heap k s) ∧
      ∀ q, q < S.heap.next → x.holder ≠ some q →
        ((S.withHeap r.2).store x r.1).heap.blocks q = S.heap.blocks q := by
  have hext := copyMember_extends hrun
  have hturn := copyMember_turns hH hrun
  have hlive : ∀ {p}, x.holder = some p → p < S.heap.next := by
    intro p hp
    obtain ⟨b, hb, -⟩ := State.holder_of_load hx hp
    exact hH.lt hb
  constructor
  · intro f k
    rw [← copyMember_view hH hs hrun]
    apply viewWith_congr (Layout.forest_singleton.mp hturn.forest) _ (fun _ _ _ => rfl)
    intro q hq
    apply State.blocks_store
    intro hp
    -- the copy only has new blocks
    rcases hturn.owned r.1 (List.mem_singleton_self _) q hq with ⟨d, hd, -⟩ | hle
    · cases hd
    · exact Nat.not_lt.mpr hle (hlive hp)
  · intro q hq hne
    rw [State.blocks_store _ hne]
    exact hext.blocks_eq q hq

/-- An assignment to a val that is EMPTY. -/
theorem State.assign_unchanged {n : Nat} {S : State} {x y : Ref} {v s : Slot} {r : Slot × Heap}
    (hv : S.load x = some v) (hset : setType n .EMPTY v S.heap = .done (v, S.heap))
    (hs : S.load y = some s) (hr : copyMember n s v.word S.heap = .done r) :
    S.assign n x y = .done ((S.withHeap r.2).store x r.1) := by
  have hsame : S.emptied x (v, S.heap) = S := State.store_self hv
  have hload : (S.emptied x (v, S.heap)).load y = some s := by
    rw [hsame]
    exact hs
  have hcopy : copyMember n s v.word (S.emptied x (v, S.heap)).heap = .done r := by
    rw [hsame]
    exact hr
  rw [State.assign_done hv hset hload hcopy, hsame]

/-! ## The destination -/

section Assignment

variable {S : State} (hS : S.Good) {i j : Nat} {path rest : List Nat} {x y : Ref} {v s : Slot}
variable (hv : S.find i path = some (x, v)) (hs : S.find j rest = some (y, s))

include hv in
/-- The destination does not stand in a `sp`. -/
theorem holder_ne_sp {w obj : Nat} (hw : S.heap.blocks w = some (.sp obj)) : x.holder ≠ some w := by
  intro hp
  obtain ⟨b, hb, hty⟩ := State.holder_of_load (State.find_load hv) hp
  cases hw.symm.trans hb
  exact hty rfl

include hS hv in
theorem find_holder_self {p : Nat} (hp : x.holder = some p) : ¬layout.Owns S.heap v p := by
  obtain ⟨a, -, ha, -, -⟩ := State.find_eq hv
  exact (State.find_holder hS ha hv hp).2

include hS hv hs in
theorem assign_apart_spec (hno : ¬Overlap i path j rest) {n : Nat} {S' : State}
    (hrun : S.assign n x y = .done S') :
    ∃ r w, setType n .EMPTY v S.heap = .done r ∧ S'.find i path = some (x, w) ∧
      (∀ f k, viewWith f S'.heap k w = viewWith f S.heap k s) ∧
      ∀ {p obj}, S.heap.blocks p = some (.sp obj) → objectVal S'.heap p = objectVal r.2 p := by
  have hts := State.find_tree hS hs
  obtain ⟨r, s', r', hr, hs', hr', rfl⟩ := State.assign_steps (State.find_load hv) hrun
  obtain ⟨hempty, htouch⟩ := State.emptied_found hS hv hr
  have hgood := htouch.changes.good hS
  obtain ⟨hfind, hm⟩ := htouch.aside hno hs
  cases (State.find_load hfind).symm.trans hs'
  obtain ⟨hview, hframe⟩ := copied_spec hgood.bounded (State.find_load hempty) (hts.congr hm).1 hr'
  have hcopy := (copyMember_turns hgood.bounded hr').drop (ptr_setType_empty hr)
  refine ⟨r, r'.1, hr, (State.store_found hgood hempty hcopy).1, ?_, ?_⟩
  · intro f k
    rw [hview]
    exact viewWith_congr hts hm (fun _ _ _ => rfl) k
  · intro p obj hp
    have hnot := holder_ne_sp hv hp
    have hlt := Nat.lt_of_lt_of_le (hS.bounded.lt hp) htouch.changes.turns.next_le
    have hblocks := (hframe p hlt hnot).trans (State.blocks_store (S.withHeap r.2) hnot r.1)
    rw [objectVal, objectVal, hblocks]
    rfl

end Assignment

end Libacorn.ValHeap
