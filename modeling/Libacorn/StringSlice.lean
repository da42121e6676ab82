import Libacorn.CharNavigation
import Libacorn.StringChars
import Libacorn.StringSplit

/-!
# slice of base/string.cpp

`slice` brings its two character indices into the string, turns them into byte
offsets and calls `substr`. On well-formed UTF-8 it selects the characters of
Python's slicing and reads only bytes of the string (`slice_selects`).
-/

namespace Libacorn

open Support

/-! ## The source -/

/-- The indices of `slice`, brought into `[0, cc]`. The sums are `int32_t`; one summand is negative
and the other is not, so they do not overflow. -/
def sliceIndices (cc charIndex1 charIndex2 : Int) : Int × Int :=
  let (charIndex1, charIndex2) := if charIndex2 = 0 then (0, charIndex1) else
      (charIndex1, charIndex2)
  let charIndex1 := if charIndex1 < 0 then charIndex1 + cc else charIndex1
  let charIndex2 := if charIndex2 < 0 then charIndex2 + cc else charIndex2
  let (charIndex1, charIndex2) :=
    if charIndex1 > charIndex2 then (charIndex2, charIndex1) else (charIndex1, charIndex2)
  (min cc (max 0 charIndex1), min cc (max 0 charIndex2))

/-- The byte offsets that `slice` passes to `substr`. -/
def Text.sliceOffsets (s : Text) (charIndex1 charIndex2 : Int) : Outcome (Nat × Nat) :=
  s.length.bind fun cc =>
  let r := sliceIndices cc charIndex1 charIndex2
  (s.charIndexToOffset r.1).bind fun o1 => (s.charIndexToOffset r.2).bind fun o2 => .done (o1, o2)

namespace StringHeap

theorem cb_lt_of_fits {H : Heap} {h : Handle}
    (hfit : h.cb < 2 ^ 32 ∧ h.offset + h.cb ≤ (memory H h.buf).length) : h.cb < 2 ^ 32 := hfit.1

theorem range_of_fits {H : Heap} {h : Handle}
    (hfit : h.cb < 2 ^ 32 ∧ h.offset + h.cb ≤ (memory H h.buf).length) :
    h.offset + h.cb ≤ (memory H h.buf).length := hfit.2

/-- What the reading functions see of a handle whose range lies in its block. -/
def textOf (H : Heap) (h : Handle) : Option Text :=
  if hfit : h.cb < 2 ^ 32 ∧ h.offset + h.cb ≤ (memory H h.buf).length then
    some (Text.mk (memory H h.buf) h.offset h.cb (h.type = .Static) (cb_lt_of_fits hfit)
      (range_of_fits hfit))
  else none

/-- `string::slice` -/
def slice (H : Heap) (h : Handle) (charIndex1 charIndex2 : Int) : Except Fault (Heap × Handle) :=
  match (textOf H h).map fun s => s.sliceOffsets charIndex1 charIndex2 with
  | some (Outcome.done (o1, o2)) => substr H h o1 o2
  | _ => .error .bounds

end StringHeap

/-! ## What slice should give -/

/-- The range of Python's slicing in `n` characters; `0` as the second index stands for the
form with one index, the end. -/
def pythonRange (n : Nat) (i j : Int) : Nat × Nat :=
  let fromStart : Int → Int := fun x => if x < 0 then x + n else x
  let clamp : Int → Nat := fun x => min n x.toNat
  let a := fromStart (if j = 0 then 0 else i)
  let b := fromStart (if j = 0 then i else j)
  (clamp (min a b), clamp (max a b))

/-- The string in a memory of its own, where every read outside the string is a fault. -/
def Text.alone (s : Text) : Text where
  mem := s.content
  offset := 0
  cb := s.cb
  static := s.static
  cb_lt := s.cb_lt
  fits := by rw [s.length_content, Nat.zero_add]

/-! ## The offsets -/

section Offsets

variable {s : Text} {cs : List Char}

theorem Text.alone_content (s : Text) : s.alone.content = s.content := by
  rw [Text.content, Text.alone, List.drop_zero,
    List.take_of_length_le (Nat.le_of_eq s.length_content)]

theorem sliceIndices_eq (n : Nat) (i j : Int) :
    sliceIndices n i j = (((pythonRange n i j).1 : Int), ((pythonRange n i j).2 : Int)) := by
  have hclamp : ∀ x : Int, min (n : Int) (max 0 x) = ((min n x.toNat : Nat) : Int) := by
    intro x
    omega
  have hsort : ∀ a b : Int, (if a > b then (b, a) else (a, b)) = (min a b, max a b) := by
    intro a b
    by_cases h : a > b
    · rw [if_pos h, min_eq_right (le_of_lt h), max_eq_left (le_of_lt h)]
    · rw [if_neg h, min_eq_left (le_of_not_gt h), max_eq_right (le_of_not_gt h)]
  simp only [sliceIndices, pythonRange, hsort, hclamp]
  by_cases hj : j = 0
  · simp only [hj, ↓reduceIte]
  · simp only [hj, ↓reduceIte]

theorem pythonRange_le (n : Nat) (i j : Int) :
    (pythonRange n i j).1 ≤ (pythonRange n i j).2 ∧ (pythonRange n i j).2 ≤ n := by
  simp only [pythonRange]
  omega

/-- The offsets of the range, from the bytes of the string alone. -/
theorem Text.sliceOffsets_eq (hc : s.content = utf8 cs) (hlen : cs.length < 2 ^ 31) (i j : Int) :
    s.sliceOffsets i j = .done ((utf8 (cs.take (pythonRange cs.length i j).1)).length,
      (utf8 (cs.take (pythonRange cs.length i j).2)).length) := by
  obtain ⟨hab, hbn⟩ := pythonRange_le cs.length i j
  have hlength : s.length = .done cs.length := by
    rw [Text.length_eq (hc.trans (utf8_eq_flat cs)), List.length_map, if_pos hlen]
  rw [Text.sliceOffsets, hlength]
  simp only [Outcome.bind_done, sliceIndices_eq, Text.charIndexToOffset_utf8 hc
    (Nat.le_trans hab hbn), Text.charIndexToOffset_utf8 hc hbn]

end Offsets

/-! ## slice on handles -/

namespace StringHeap

section Slice

variable {H : Heap} {h : Handle} {cs : List Char}

theorem WF.textOf_eq (hw : WF H h) : textOf H h = some (h.text H hw) := dif_pos hw.fits

theorem utf8_take_append_drop (cs : List Char) (a : Nat) :
    utf8 (cs.take a) ++ utf8 (cs.drop a) = utf8 cs := by
  rw [← utf8_append, List.take_append_drop]

theorem utf8_take (cs : List Char) (a : Nat) :
    (utf8 cs).take (utf8 (cs.take a)).length = utf8 (cs.take a) := by
  conv_lhs => rw [← utf8_take_append_drop cs a]
  exact List.take_left

theorem utf8_drop (cs : List Char) (a : Nat) :
    (utf8 cs).drop (utf8 (cs.take a)).length = utf8 (cs.drop a) := by
  conv_lhs => rw [← utf8_take_append_drop cs a]
  exact List.drop_left

theorem length_utf8_take_le (cs : List Char) (a : Nat) :
    (utf8 (cs.take a)).length ≤ (utf8 cs).length := by
  rw [← utf8_take_append_drop cs a, List.length_append]
  exact Nat.le_add_right ..

theorem length_utf8_take_mono (cs : List Char) {a b : Nat} (hab : a ≤ b) :
    (utf8 (cs.take a)).length ≤ (utf8 (cs.take b)).length := by
  have htake : (cs.take b).take a = cs.take a := by rw [List.take_take, Nat.min_eq_left hab]
  rw [← htake]
  exact length_utf8_take_le (cs.take b) a

/-- The bytes between two character boundaries are those of the characters between them. -/
theorem selected_utf8 {a b : Nat} (hab : a ≤ b) :
    selected (utf8 cs) (utf8 (cs.take a)).length (utf8 (cs.take b)).length =
      utf8 ((cs.take b).drop a) := by
  have htake : (cs.take b).take a = cs.take a := by rw [List.take_take, Nat.min_eq_left hab]
  have hle := length_utf8_take_mono cs hab
  have hend := length_utf8_take_le cs b
  rw [selected, Nat.max_eq_right hle, Nat.min_eq_left hle, Nat.min_eq_right hend,
    Nat.min_eq_right (Nat.le_trans hle hend), utf8_take, ← htake, utf8_drop]

/-- `slice` selects the characters of the range, and the offsets it computes are the same when only
the bytes of the string can be read. -/
theorem slice_selects (hw : WF H h) (hbuf : h.buf ≠ .null)
    (hsize : (memory H h.buf).length ≤ 2 ^ 24) (hc : content H h = utf8 cs) (i j : Int) :
    ∃ r o, slice H h i j = .ok r ∧
      content r.1 r.2 = utf8
        ((cs.take (pythonRange cs.length i j).2).drop (pythonRange cs.length i j).1) ∧
      (h.text H hw).sliceOffsets i j = .done o ∧ (h.text H hw).alone.sliceOffsets i j =
        .done o := by
  have hend := hw.end_lt hbuf hsize
  have hlen : cs.length < 2 ^ 31 := by
    have hle := length_le_length_utf8 cs
    rw [← hc, hw.length_content] at hle
    omega
  have htext : (h.text H hw).content = utf8 cs := hc
  have hoff := Text.sliceOffsets_eq htext hlen i j
  have halone := Text.sliceOffsets_eq ((Text.alone_content _).trans htext) hlen i j
  have hretain : h.Retainable := fun hnull => absurd hnull hbuf
  obtain ⟨r, hr, hsel⟩ :=
    (hw.substrSelects_iff hretain (utf8 (cs.take (pythonRange cs.length i j).1)).length
    (utf8 (cs.take (pythonRange cs.length i j).2)).length).mpr (SameWrapped.of_lt (by omega))
  refine ⟨r, _, ?_, ?_, hoff, halone⟩
  · rw [slice, hw.textOf_eq, Option.map_some, hoff]
    exact hr
  · rw [hsel, hc, selected_utf8 (pythonRange_le ..).1]

end Slice

/-- A slice of a slice, with a negative index and one beyond the end. -/
theorem slice_selects_slice :
    letI := zeroMemory
    ∃ S h, run .init [.bytes (some [0x61, 0xC3, 0xA9, 0xE2, 0x82, 0xAC, 0x62]), .substr 0 1 6] =
      .ok S ∧
      S.handle? 1 = some h ∧ ∃ r, slice S.heap h 9 (-1) = .ok r ∧
        content r.1 r.2 = [0xE2, 0x82, 0xAC] := by
  let _ := zeroMemory
  have hS := Reach.slice [0x61, 0xC3, 0xA9, 0xE2, 0x82, 0xAC, 0x62] 1 6 (by decide) rfl
  refine ⟨_, _, rfl, rfl, ?_⟩
  obtain ⟨r, o, hr, hcont, -⟩ := slice_selects (hS.inv.1.wf 1 _ rfl) nofun (by decide)
    (show _ = utf8 ['é', '€'] from rfl) 9 (-1)
  exact ⟨r, hr, hcont⟩

end StringHeap

end Libacorn
