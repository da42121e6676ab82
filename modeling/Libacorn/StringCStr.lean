import Libacorn.StringRuns

/-!
# What c_str returns

The pointer that `c_str` returns, for every handle a run can make.
-/

namespace Libacorn

open Support

namespace StringHeap

/-- The block holds a NUL at `_cb`, and before it the bytes it has from `_offset`
on. -/
def RepeatsContent (H : Heap) (h : Handle) : Prop :=
  (memory H h.buf)[h.cb]? = some 0 ∧
    ∀ j < h.cb, (memory H h.buf)[j]? = (memory H h.buf)[h.offset + j]?

/-- The states before the call in which `c_str` is faithful. -/
def CStrReady (H : Heap) (h : Handle) : Prop :=
  match h.buf with
  | .null => False
  | .lit _ => RepeatsContent H h
  | .heap i => (∃ b, H.get? i = some b ∧ h.offset + h.cb < b.cb) ∨ RepeatsContent H h

/-- A handle on the whole of its block is such a state. -/
theorem WF.repeatsContent {H : Heap} {h : Handle} (hw : WF H h) (ho : h.offset = 0)
    (hend : (memory H h.buf).length = h.cb + 1) : RepeatsContent H h := by
  refine ⟨?_, fun j _ => by rw [ho, Nat.zero_add]⟩
  cases hw with
  | null hb => simp [hb, memory] at hend
  | lit hb ht hle hm =>
    simp only [hb, memory, List.length_append, List.length_singleton] at hend ⊢
    rw [← Nat.add_right_cancel hend, List.getElem?_append_right (Nat.le_refl _), Nat.sub_self]
    rfl
  | @heap i b hb ht hget hle hz =>
    simp only [hb, memory, hget, Option.map_some, Option.getD_some] at hend ⊢
    have hs := b.size
    have hcb : h.cb = b.cb := by omega
    rw [hcb]
    exact hz ho hcb

theorem RepeatsContent.cStrReady {H : Heap} {h : Handle} (hr : RepeatsContent H h)
    (hend : (memory H h.buf).length = h.cb + 1) : CStrReady H h := by
  rw [CStrReady]
  cases hb : h.buf with
  | null => simp [hb, memory] at hend
  | lit m => exact hr
  | heap i => exact .inr hr

/-- The first `_cb + 1` bytes of the block are the content and a NUL. -/
theorem take_eq_iff_repeats {H : Heap} {h : Handle} (hw : WF H h) :
    (memory H h.buf).take (h.cb + 1) = content H h ++ [0] ↔ RepeatsContent H h := by
  have hlen := hw.length_content
  have hcont : ∀ j < h.cb, (content H h)[j]? = (memory H h.buf)[h.offset + j]? := by
    intro j hj
    rw [content, List.getElem?_take_of_lt hj, List.getElem?_drop]
  constructor
  · intro heq
    constructor
    · have := congrArg (·[h.cb]?) heq
      rw [List.getElem?_take_of_lt (Nat.lt_succ_self _), List.getElem?_append_right (by omega),
        hlen, Nat.sub_self] at this
      exact this
    · intro j hj
      have := congrArg (·[j]?) heq
      rw [List.getElem?_take_of_lt (by omega), List.getElem?_append_left (by omega),
        hcont j hj] at this
      exact this
  · rintro ⟨hnul, hrep⟩
    apply List.ext_getElem?
    intro j
    rcases Nat.lt_trichotomy j h.cb with hj | rfl | hj
    · rw [List.getElem?_take_of_lt (by omega), List.getElem?_append_left (by omega), hcont j hj]
      exact hrep j hj
    · rw [List.getElem?_take_of_lt (by omega), List.getElem?_append_right (by omega), hlen,
        Nat.sub_self]
      exact hnul
    · rw [List.getElem?_eq_none (by simp; omega), List.getElem?_eq_none (by simp; omega)]

section Runs

variable [Uninit] {S : State} {k : Nat} {h : Handle}

/-- The call returns a pointer to the content and a NUL, and changes the content
of no handle. -/
def CStrFaithful (S : State) (k : Nat) (h : Handle) : Prop :=
  ∃ S' h', step S (.cStr k) = .ok S' ∧ S'.handle? k = some h' ∧ h'.buf ≠ .null ∧
    (memory S'.heap h'.buf).take (h.cb + 1) = content S.heap h ++ [0] ∧
    content S'.heap h' = content S.heap h ∧ Isolated S S' (some k)

theorem step_cStr (hk : S.handle? k = some h) {r : Heap × Handle} (hr : cStr S.heap h = .ok r) :
    step S (.cStr k) = .ok (S.put k r) := by
  rw [step, get_eq_ok hk, ok_bind, hr]
  rfl

/-- For every handle of every reachable state; a handle on the whole of its block
is among the faithful ones. -/
theorem cStr_faithful_iff (hS : Reach S) (hk : S.handle? k = some h) :
    (CStrFaithful S k h ↔ CStrReady S.heap h) ∧
      (h.offset = 0 → (memory S.heap h.buf).length = h.cb + 1 → CStrReady S.heap h) := by
  obtain ⟨hI, -, hlive⟩ := hS.inv
  have hw := hI.wf k h hk
  refine ⟨?_, fun ho hend => (hw.repeatsContent ho hend).cStrReady hend⟩
  have hO := hI.owned_split hk
  have hc := card_rest_lt hk
  by_cases hend : ∀ i b, h.buf = .heap i → S.heap.get? i = some b → b.cb ≤ h.offset + h.cb
  · have hsame := cStr_same hw hend
    have hput : S.put k (S.heap, h) = S := by
      have := List.getElem?_eq_some_iff.mp (handle?_eq_some.mp hk)
      obtain ⟨hlt, heq⟩ := this
      rw [State.put]
      simp only [← heq, List.set_getElem_self]
    have hstep : step S (.cStr k) = .ok S := by
      rw [step_cStr hk hsame, hput]
    have hiff : CStrFaithful S k h ↔ h.buf ≠ .null ∧ RepeatsContent S.heap h := by
      rw [← take_eq_iff_repeats hw]
      constructor
      · rintro ⟨S', h', hs, hh, hn, ht, -⟩
        obtain rfl := Except.ok.inj (hstep.symm.trans hs)
        obtain rfl := Option.some.inj (hk.symm.trans hh)
        exact ⟨hn, ht⟩
      · rintro ⟨hn, ht⟩
        exact ⟨S, h, hstep, hk, hn, ht, rfl, fun k' h' _ hk' => ⟨hk', rfl⟩⟩
    rw [hiff, CStrReady]
    cases hb : h.buf with
    | null => simp
    | lit m => simp
    | heap i =>
      have hno : ¬∃ b, S.heap.get? i = some b ∧ h.offset + h.cb < b.cb := by
        rintro ⟨b, hget, hlt⟩
        have := hend i b hb hget
        omega
      simp [hno]
  · push Not at hend
    obtain ⟨i, b, hb, hget, hlt⟩ := hend
    have hready : CStrReady S.heap h := by
      rw [CStrReady, hb]
      exact .inl ⟨b, hget, hlt⟩
    refine ⟨fun _ => hready, fun _ => ?_⟩
    obtain ⟨r, hr, hkeep, -, hnull, hmem, hcont⟩ := cStr_copies hw hO (by omega) hb hget hlt
    exact ⟨S.put k r, r.2, step_cStr hk hr, handle?_put_self hk r, hnull, hmem, hcont,
      (hI.put hk hkeep).2⟩

end Runs

/-- A prefix of a shared buffer is copied. -/
theorem cStr_faithful_prefix :
    letI := zeroMemory
    ∃ S h, Reach S ∧ run .init [.bytes (some [0x61, 0x62]), .substr 0 0 1] = .ok S ∧
      S.handle? 1 = some h ∧ CStrReady S.heap h ∧ CStrFaithful S 1 h := by
  let _ := zeroMemory
  have hS := Reach.slice [0x61, 0x62] 0 1 (by decide) rfl
  refine ⟨_, _, hS, rfl, rfl, ?_, (cStr_faithful_iff hS rfl).1.mpr ?_⟩
  · exact .inl ⟨_, rfl, by decide⟩
  · exact .inl ⟨_, rfl, by decide⟩

/-- The suffix `b` of `ab` gets a pointer to `ab`. -/
theorem cStr_suffix_not_faithful :
    letI := zeroMemory
    ∃ S h, Reach S ∧ run .init [.bytes (some [0x61, 0x62]), .substr 0 1 2] = .ok S ∧
      S.handle? 1 = some h ∧ content S.heap h = [0x62] ∧ ¬CStrFaithful S 1 h := by
  let _ := zeroMemory
  have hS := Reach.slice [0x61, 0x62] 1 2 (by decide) rfl
  refine ⟨_, _, hS, rfl, rfl, rfl, ?_⟩
  rintro ⟨S', h', hs, hh, -, ht, -⟩
  cases hs
  cases hh
  cases ht

end StringHeap

end Libacorn
