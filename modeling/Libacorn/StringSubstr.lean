import Libacorn.StringEdits

/-!
# What substr selects

The constructor behind `substr` retains the buffer of any Standard handle, one
without a buffer too, and keeps 24 bits of the absolute offset. On a well-formed
handle `substr` therefore selects the right bytes unless there is no buffer, or
the range starts at an offset that does not fit (`substr_selects_iff`).
-/

namespace Libacorn

open Support

namespace StringHeap

/-- The bytes between the two positions, each clamped to the length. -/
def selected (w : Bytes) (a b : Nat) : Bytes :=
  (w.take (min w.length (max a b))).drop (min w.length (min a b))

/-- `substr` succeeds and its content is the bytes between the two offsets. -/
def SubstrSelects (H : Heap) (h : Handle) (fromOff toOff : Nat) : Prop :=
  ∃ r, substr H h fromOff toOff = .ok r ∧ content r.1 r.2 = selected (content H h) fromOff toOff

/-- The constructor does not pass a null pointer to `buf_retain`. -/
def Handle.Retainable (h : Handle) : Prop := h.buf = .null → h.type = .Static

/-- The `n` bytes at an absolute offset are also those at its lowest 24 bits. -/
def SameWrapped (mem : Bytes) (o n : Nat) : Prop :=
  (mem.drop (o % 2 ^ 24)).take n = (mem.drop o).take n

theorem SameWrapped.of_lt {mem : Bytes} {o n : Nat} (h : o < 2 ^ 24) : SameWrapped mem o n := by
  rw [SameWrapped, Nat.mod_eq_of_lt h]

theorem SameWrapped.nothing (mem : Bytes) (o : Nat) : SameWrapped mem o 0 := by
  rw [SameWrapped, List.take_zero, List.take_zero]

section Select

variable {H H' : Heap} {h : Handle} {w : Bytes} {a b : Nat}

/-- The selected bytes, in the block behind the handle. -/
theorem WF.selected_eq (hw : WF H h) (a b : Nat) :
    selected (content H h) a b =
      ((memory H h.buf).drop (h.offset + min h.cb (min a b))).take
        (min h.cb (max a b) - min h.cb (min a b)) := by
  rw [selected, hw.length_content, content, List.take_take, Nat.min_eq_left (Nat.min_le_left ..),
    List.drop_take, List.drop_drop]

theorem memory_congr (hsame : ∀ i, H'.get? i = H.get? i) (p : Ptr) : memory H' p = memory H p := by
  cases p with
  | null => rfl
  | lit m => rfl
  | heap i => simp only [memory, hsame]

/-- The constructor behind `substr`, for a string whose buffer can be retained. -/
theorem WF.sliceOf_eq (hw : WF H h) (hr : h.Retainable) (a b : Nat) :
    ∃ H', sliceOf H h a b =
      .ok (H', { h with cb := u32Sub b a, offset := (h.offset + a) % 2 ^ 24 }) ∧
      ∀ i, H'.get? i = H.get? i := by
  by_cases ht : h.type = .Standard
  · cases hw with
    | null hb => exact absurd (hr hb) (by simp [ht])
    | lit hb ht' => rw [ht] at ht'; cases ht'
    | @heap i b' hb _ hget _ _ =>
      obtain ⟨H', hret, hsame⟩ := RefHeap.retain_get? hget
      refine ⟨H', ?_, hsame⟩
      simp only [sliceOf, if_pos ht, hb, bufRetain, hret, ok_bind]
      rfl
  · refine ⟨H, ?_, fun _ => rfl⟩
    simp only [sliceOf, if_neg ht]
    rfl

/-- It does not return for a handle without a buffer. -/
theorem Handle.Retainable.of_sliceOf {r : Heap × Handle} (hok : sliceOf H h a b = .ok r) :
    h.Retainable := by
  intro hb
  cases ht : h.type with
  | Static => rfl
  | Standard =>
    rw [sliceOf, if_pos ht, hb] at hok
    cases hok

/-- A slice of a string whose buffer can be retained. -/
theorem WF.substr_eq (hw : WF H h) (hr : h.Retainable) (a b : Nat) :
    ∃ H', substr H h a b = .ok (H', { h with
        cb := min h.cb (max a b) - min h.cb (min a b)
        offset := (h.offset + min h.cb (min a b)) % 2 ^ 24 }) ∧
      ∀ i, H'.get? i = H.get? i := by
  have hlt := hw.cb_lt
  have hslice := hw.sliceOf_eq hr (min h.cb (min a b)) (min h.cb (max a b))
  rwa [u32Sub_of_le (by omega), u32_of_lt (by omega)] at hslice

theorem SubstrSelects.retainable (hs : SubstrSelects H h a b) : h.Retainable := by
  obtain ⟨r, hok, -⟩ := hs
  exact .of_sliceOf hok

/-- The slice starts at the lowest 24 bits of its offset. -/
theorem WF.substrSelects_iff (hw : WF H h) (hr : h.Retainable) (a b : Nat) :
    SubstrSelects H h a b ↔ SameWrapped (memory H h.buf) (h.offset + min h.cb (min a b))
      (min h.cb (max a b) - min h.cb (min a b)) := by
  obtain ⟨H', hok, hsame⟩ := hw.substr_eq hr a b
  have hcont : content H' { h with
      cb := min h.cb (max a b) - min h.cb (min a b)
      offset := (h.offset + min h.cb (min a b)) % 2 ^ 24 } =
      ((memory H h.buf).drop ((h.offset + min h.cb (min a b)) % 2 ^ 24)).take
        (min h.cb (max a b) - min h.cb (min a b)) := by
    rw [content, memory_congr hsame]
  rw [SameWrapped, ← hw.selected_eq, ← hcont]
  constructor
  · rintro ⟨r, h', hsel⟩
    obtain rfl := Except.ok.inj (hok.symm.trans h')
    exact hsel
  · intro hsel
    exact ⟨_, hok, hsel⟩

/-- `substr` selects the right bytes exactly when the buffer can be retained and the range is
empty, starts below `2^24`, or has the same bytes at the offset that is stored. -/
theorem substr_selects_iff (hw : WF H h) (fromOff toOff : Nat) :
    SubstrSelects H h fromOff toOff ↔ h.Retainable ∧
      (min h.cb (max fromOff toOff) = min h.cb (min fromOff toOff) ∨
        h.offset + min h.cb (min fromOff toOff) < 2 ^ 24 ∨
        SameWrapped (memory H h.buf) (h.offset + min h.cb (min fromOff toOff))
          (min h.cb (max fromOff toOff) - min h.cb (min fromOff toOff))) := by
  constructor
  · intro hs
    have hr := hs.retainable
    exact ⟨hr, .inr (.inr ((hw.substrSelects_iff hr fromOff toOff).mp hs))⟩
  · rintro ⟨hr, hcase⟩
    apply (hw.substrSelects_iff hr fromOff toOff).mpr
    rcases hcase with hempty | hlt | hsame
    · rw [hempty, Nat.sub_self]
      exact SameWrapped.nothing ..
    · exact SameWrapped.of_lt hlt
    · exact hsame

end Select

/-- The tail of a slice: its range starts at an offset that fits. -/
theorem substr_selects_slice :
    letI := zeroMemory
    ∃ S h, run .init [.bytes (some [0x61, 0x62, 0x63, 0x64]), .substr 0 1 4] = .ok S ∧
      S.handle? 1 = some h ∧ SubstrSelects S.heap h 5 1 ∧ selected (content S.heap h) 5 1 =
        [0x63, 0x64] := by
  let _ := zeroMemory
  have hS := Reach.slice [0x61, 0x62, 0x63, 0x64] 1 4 (by decide) rfl
  refine ⟨_, _, rfl, rfl, ?_, rfl⟩
  apply (substr_selects_iff (hS.inv.1.wf 1 _ rfl) 5 1).mpr
  constructor
  · nofun
  · right
    left
    decide

/-- The last byte of a long literal: the slice starts at its first one. -/
theorem substr_wraps {n : Nat} (hn : n = 2 ^ 24) :
    ¬SubstrSelects RefHeap.empty (.literal (List.replicate n 0x61 ++ [0x62])) n (n + 1) := by
  have hlen : (List.replicate n (0x61 : UInt8) ++ [0x62]).length = n + 1 := by
    rw [List.length_append, List.length_replicate, List.length_singleton]
  have hw : WF RefHeap.empty (.literal (List.replicate n 0x61 ++ [0x62])) :=
    .lit rfl rfl (Nat.le_of_eq (Nat.zero_add _)) (by omega)
  rw [hw.substrSelects_iff nofun]
  simp only [Handle.literal, hlen, memory, SameWrapped]
  rw [show min (n + 1) (min n (n + 1)) = n by omega, show min (n + 1) (max n (n + 1)) - n = 1 by
    omega, Nat.zero_add, show n % 2 ^ 24 = 0 by rw [hn]; rfl, List.append_assoc,
    List.drop_left' List.length_replicate, List.drop_zero, show n = 2 ^ 24 - 1 +
      1 by omega, List.replicate_succ]
  decide

/-- A string without a buffer has no slice, and a slice that starts past 24 bits has the wrong
bytes. -/
theorem substr_fails :
    (WF RefHeap.empty .empty ∧ ¬SubstrSelects RefHeap.empty .empty 0 0) ∧
      ∃ m : Bytes, m.length < 2 ^ 31 ∧ WF RefHeap.empty (.literal m) ∧
        ¬SubstrSelects RefHeap.empty (.literal m) (2 ^ 24) (2 ^ 24 + 1) := by
  constructor
  · refine ⟨.null rfl rfl rfl, ?_⟩
    intro hs
    have hstatic := hs.retainable rfl
    cases hstatic
  · obtain ⟨n, hn⟩ : ∃ n : Nat, n = 2 ^ 24 := ⟨_, rfl⟩
    have hlen : (List.replicate n (0x61 : UInt8) ++ [0x62]).length = n + 1 := by
      rw [List.length_append, List.length_replicate, List.length_singleton]
    refine ⟨List.replicate n 0x61 ++ [0x62], by omega, ?_, ?_⟩
    · exact .lit rfl rfl (Nat.le_of_eq (Nat.zero_add _)) (by omega)
    · rw [← hn]
      exact substr_wraps hn

end StringHeap

end Libacorn
