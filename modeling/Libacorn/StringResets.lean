import Libacorn.StringRuns

/-!
# Ownership under the reset operations

Runs that also use `clear`, `assign`, `operator=` on any source, `mutateToStatic`
and `alloc`.
-/

namespace Libacorn

open Support

namespace StringHeap

/-- The type tells the buffers apart, and no handle is on a freed one. -/
structure Typed (S : State) : Prop where
  standard : ∀ k h, S.handle? k = some h → h.buf ≠ .null →
    (h.type = .Standard ↔ ∃ i, h.buf = .heap i)
  counted : ∀ k h i, S.handle? k = some h → h.buf = .heap i →
    ∃ c, S.heap.cells i = some c ∧ 0 < c.refs

theorem Inv.typed {S : State} (hI : Inv S) : Typed S where
  standard k h hk hbuf := by
    cases hI.wf k h hk with
    | null hb => exact absurd hb hbuf
    | lit hb ht => simp [hb, ht]
    | heap hb ht => simp [hb, ht]
  counted k h i hk hb := by
    obtain ⟨b, hget, -⟩ := hI.exact.heap k h i hk hb
    have hmem := hI.owned.mem_of_get? hget
    obtain ⟨c, hc, hrefs⟩ := hI.owned.exists_cell hmem
    exact ⟨c, hc, by rw [hrefs]; exact Multiset.count_pos.mpr hmem⟩

section Runs

variable [Uninit] {S : State} {op : Op}

/-- The states of the runs of all operations whose steps keep to the discipline. -/
inductive DisciplinedReach : State → Prop
  | init : DisciplinedReach .init
  | step {S S' : State} (op : Op) (hS : DisciplinedReach S) (hr : Ready S op)
      (hd : Disciplined S op) (h : StringHeap.step S op = .ok S') : DisciplinedReach S'

/-- A disciplined step succeeds, or its sizes do not fit. -/
theorem step_disciplined (hI : Inv S) (hr : Ready S op) (hd : Disciplined S op) :
    (∃ S', step S op = .ok S' ∧ Stays S S' op) ∨ step S op = .error .bounds ∨
      step S op = .error .overflow := by
  by_cases hf : Fits S op
  · exact .inl (step_stays hI hr hd hf)
  · exact .inr (step_overflow hI hr hf)

theorem DisciplinedReach.inv (hS : DisciplinedReach S) : Inv S := by
  induction hS with
  | init => exact Inv.init
  | step op _ hr hd h ih =>
    rcases step_disciplined ih hr hd with ⟨S', h', hst⟩ | he | he
    · obtain rfl := Except.ok.inj (h.symm.trans h')
      exact hst.inv
    · rw [he] at h
      cases h
    · rw [he] at h
      cases h

/-- In every run whose steps keep to the discipline, the type of each handle fits
its buffer, no handle is on a freed buffer, and no step releases a literal or uses
a freed buffer. -/
theorem resets_keep_ownership (hS : DisciplinedReach S) :
    Typed S ∧ ∀ op, Ready S op → Disciplined S op →
      step S op ≠ .error .releaseStatic ∧ step S op ≠ .error .freed := by
  refine ⟨hS.inv.typed, ?_⟩
  intro op hr hd
  rcases step_disciplined hS.inv hr hd with ⟨S', h, -⟩ | h | h <;> simp [h]

end Runs

/-- The hypothesis is met by a run that resets a handle. -/
theorem resets_keep_ownership_assign :
    letI := zeroMemory
    ∃ S, run .init [.bytes (some [0x61]), .clear 0, .assign 0 (some [0x62])] = .ok S ∧
      DisciplinedReach S ∧ Typed S := by
  let _ := zeroMemory
  have hS₁ := DisciplinedReach.step (.bytes (some [0x61])) .init (Ready.bytes (by decide)) trivial
      rfl
  have hS₂ := DisciplinedReach.step (.clear 0) hS₁ ⟨by decide, _, rfl⟩
    (by rintro h ⟨⟩; exact nofun) rfl
  have hS₃ := DisciplinedReach.step (.assign 0 (some [0x62])) hS₂
    ⟨by decide, ⟨_, rfl⟩, by rintro q ⟨⟩; decide⟩ (by rintro - h ⟨⟩; rfl) rfl
  exact ⟨_, rfl, hS₃, (resets_keep_ownership hS₃).1⟩

/-- `clear` on a handle that was made from a literal passes the literal to
`buf_release`. -/
theorem clear_releases_literal :
    letI := zeroMemory
    run .init [.literal [0x61], .clear 0] = .error .releaseStatic := rfl

end StringHeap

end Libacorn
