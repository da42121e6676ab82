import Libacorn.StringOps
import Libacorn.CharIndex

/-!
# Appending and reading characters

The string that `append(char32_t)` builds is read back by `readChar`, counted by
`length` and indexed by `charIndexToOffset` and `charAt`.
-/

namespace Libacorn

open Support

namespace StringHeap

/-- The handle and its block, as the scanning functions see them. -/
def Handle.text (H : Heap) (h : Handle) (hw : WF H h) : Text where
  mem := memory H h.buf
  offset := h.offset
  cb := h.cb
  static := h.type = .Static
  cb_lt := hw.cb_lt
  fits := hw.range

/-- The size of the encoding of `append(char32_t)`. -/
def encodedSize (cs : List Nat) : Nat := (cs.map fun ch => ((encodeUtf8 ch).getD []).length).sum

/-- What the reading functions say about a string that spells the code points. -/
structure ReadsBack (s : Text) (cs : List Nat) : Prop where
  readChar : ∃ n c, s.readChars n Cursor.start = .done (cs, c) ∧ c.it = s.cb
  length : s.length = .done cs.length
  charIndexToOffset : ∀ i < cs.length, s.charIndexToOffset i = .done (encodedSize (cs.take i))
  charAt : ∀ i (hi : i < cs.length), s.charAt i = .done cs[i]

section Append

variable [Uninit]

/-- `append(char32_t)`; its `assert(0)` is compiled out. -/
def appendChar32 (H : Heap) (h : Handle) (ch : Nat) : Except Fault (Heap × Handle) :=
  match encodeUtf8 ch with
  | some p => insert H h h.cb p
  | none => pure (H, h)

def appendAll (H : Heap) (h : Handle) : List Nat → Except Fault (Heap × Handle)
  | [] => pure (H, h)
  | ch :: cs => do
    let r ← appendChar32 H h ch
    appendAll r.1 r.2 cs

end Append

/-! ## Glyphs of code points -/

theorem length_flat_ofCode {cs : List Nat} (hcs : ∀ c ∈ cs, c ≤ 0x10FFFF) :
    (flat (cs.map Glyph.ofCode)).length = encodedSize cs := by
  induction cs with
  | nil => rfl
  | cons c cs ih =>
    have hc := encodeUtf8_eq (hcs c (List.mem_cons_self ..))
    have := ih fun c' hc' => hcs c' (List.mem_cons_of_mem _ hc')
    simp only [encodedSize, List.map_cons, flat_cons, List.length_append, List.sum_cons, hc,
      Option.getD_some] at this ⊢
    rw [this]

theorem isByte_ofCode {c : Nat} (h1 : 1 ≤ c) (h2 : c ≤ 0x10FFFF) :
    (Glyph.ofCode c).isByte 0 = false := by
  have hcode := Glyph.code_ofCode h2
  by_contra h
  simp only [Glyph.isByte, Bool.not_eq_false, decide_eq_true_eq] at h
  simp [Glyph.code, h] at hcode
  omega

/-- The text is the glyphs of the code points. -/
theorem readsBack_of_holds {s : Text} {cs : List Nat} (hcs : ∀ c ∈ cs, 1 ≤ c ∧ c ≤ 0x10FFFF)
    (hs : Holds s (cs.map Glyph.ofCode) Glyph.nul) (hlen : cs.length < 2 ^ 31) :
    ReadsBack s cs where
  readChar := by
    have hnul : ∀ g ∈ cs.map Glyph.ofCode, g.isByte 0 = false := by
      intro g hg
      obtain ⟨c, hc, rfl⟩ := List.mem_map.mp hg
      exact isByte_ofCode (hcs c hc).1 (hcs c hc).2
    obtain ⟨c', hread, hit⟩ := hs.readChars_eq (At.start _) hnul (Nat.lt_succ_self _)
    refine ⟨_, c', hread.trans ?_, hit⟩
    have hcode : (cs.map Glyph.ofCode).map Glyph.code = cs := by
      rw [List.map_map]
      conv_rhs => rw [← List.map_id cs]
      exact List.map_congr_left fun c hc => Glyph.code_ofCode (hcs c hc).2
    rw [hcode]
  length := by
    rw [hs.length_eq, List.length_map, if_pos hlen]
  charIndexToOffset i hi := by
    have hle : i ≤ (cs.map Glyph.ofCode).length := by
      rw [List.length_map]
      exact Nat.le_of_lt hi
    rw [hs.charIndexToOffset_eq hle, ← List.map_take, length_flat_ofCode]
    intro c hc
    exact (hcs c (List.mem_of_mem_take hc)).2
  charAt i hi := by
    have hlt : i < (cs.map Glyph.ofCode).length := by
      rw [List.length_map]
      exact hi
    rw [hs.charAt_eq hlt, List.getElem_map, Glyph.code_ofCode (hcs _ (List.getElem_mem hi)).2]

/-! ## Building the string -/

/-- Bytes that a terminator follows. -/
theorem Terminated.holds {H : Heap} {h : Handle} (hw : WF H h) (ht : Terminated H h)
    {gs : List Glyph} (hc : content H h = flat gs) : Holds (h.text H hw) gs Glyph.nul where
  mem := by
    refine ⟨(memory H h.buf).drop (h.offset + h.cb + 1), ?_⟩
    obtain ⟨hlt, hz⟩ := List.getElem?_eq_some_iff.mp ht
    have hrest : ((memory H h.buf).drop h.offset).drop h.cb =
        Glyph.nul.bytes ++ (memory H h.buf).drop (h.offset + h.cb + 1) := by
      rw [List.drop_drop, List.drop_eq_getElem_cons hlt, hz]
      rfl
    rw [← hc, ← hrest]
    exact (List.take_append_drop h.cb _).symm
  cb := by
    rw [← hc, hw.length_content]
    rfl
  room := hw.cb_lt

section Build

variable [Uninit] {H : Heap} {rest : Multiset Nat}

/-- The handle is still without a buffer, or alone on a whole buffer with content
`w`. -/
inductive Grown (rest : Multiset Nat) (r : Heap × Handle) : Bytes → Prop
  | empty (hr : r.2 = .empty) (hO : r.1.Owned rest) : Grown rest r []
  | built {H₀ : Heap} {w : Bytes} (hb : Built H₀ rest r w w.length) : Grown rest r w

theorem appendChar32_grown {r : Heap × Handle} {w : Bytes} (hg : Grown rest r w)
    (hc : rest.card + 1 < 2 ^ 32) {ch : Nat} (hch : ch ≤ 0x10FFFF)
    (hsize : w.length + (Glyph.ofCode ch).bytes.length < 2 ^ 32) :
    ∃ r', appendChar32 r.1 r.2 ch = .ok r' ∧
      ∃ H₀, Built H₀ rest r' (w ++ (Glyph.ofCode ch).bytes)
        (w ++ (Glyph.ofCode ch).bytes).length := by
  have hp : (Glyph.ofCode ch).bytes ≠ [] := List.cons_ne_nil _ _
  simp only [appendChar32, encodeUtf8_eq hch]
  cases hg with
  | empty hr hO =>
    have hO' : r.1.Owned (own r.2 + rest) := by
      rw [hr]
      exact (Multiset.zero_add rest).symm ▸ hO
    have hw : WF r.1 r.2 := .null (by rw [hr]; rfl) (by rw [hr]; rfl) (by rw [hr]; rfl)
    obtain ⟨r', hr', hb⟩ := assign_keeps hw hO' hc (by rw [hr]; rfl)
      (show (Glyph.ofCode ch).bytes.length < 2 ^ 32 by omega)
    refine ⟨r', ?_, r.1, hb⟩
    simp only [insert, hp, ↓reduceIte, show r.2.buf = .null by rw [hr]; rfl]
    exact hr'
  | @built H₀ w hb =>
    have hlen := hb.keeps.wf.length_content
    rw [hb.content] at hlen
    obtain ⟨r', hr', hb'⟩ := insert_keeps hb.keeps.wf hb.keeps.owned hb.buf hc (Nat.le_refl r.2.cb)
        hp
      (by rw [hb.size]; exact hsize)
    refine ⟨r', hr', r.1, ?_⟩
    rw [hb.content, hb.size, ← hlen, List.take_length, List.drop_length, List.append_nil,
      ← List.length_append] at hb'
    exact hb'

theorem appendAll_grown {r : Heap × Handle} {w : Bytes} (hg : Grown rest r w)
    (hc : rest.card + 1 < 2 ^ 32) {cs : List Nat} (hcs : ∀ c ∈ cs, c ≤ 0x10FFFF)
    (hsize : w.length + encodedSize cs < 2 ^ 32) :
    ∃ r', appendAll r.1 r.2 cs = .ok r' ∧ Grown rest r' (w ++ flat (cs.map Glyph.ofCode)) := by
  induction cs generalizing r w with
  | nil => exact ⟨r, rfl, by simpa using hg⟩
  | cons c cs ih =>
    have hc1 := hcs c (List.mem_cons_self ..)
    have hcs' : ∀ c' ∈ cs, c' ≤ 0x10FFFF := fun c' hc' => hcs c' (List.mem_cons_of_mem _ hc')
    have hcons : encodedSize (c :: cs) = (Glyph.ofCode c).bytes.length + encodedSize cs := by
      simp [encodedSize, encodeUtf8_eq hc1]
    rw [hcons] at hsize
    obtain ⟨r₁, h₁, H₀, hb⟩ := appendChar32_grown hg hc hc1 (by omega)
    obtain ⟨r₂, h₂, hg₂⟩ := ih (.built hb) hcs' (by rw [List.length_append]; omega)
    refine ⟨r₂, ?_, ?_⟩
    · rw [appendAll, h₁, ok_bind, h₂]
    · rw [List.append_assoc] at hg₂
      exact hg₂

/-- Appending to an empty string that owns no buffer. -/
theorem appendAll_holds (hO : H.Owned rest) (hc : rest.card + 1 < 2 ^ 32) {cs : List Nat}
    (hcs : ∀ c ∈ cs, c ≤ 0x10FFFF) (hsize : encodedSize cs < 2 ^ 32) (hne : cs ≠ []) :
    ∃ r hw, appendAll H .empty cs = .ok r ∧
      Holds (r.2.text r.1 hw) (cs.map Glyph.ofCode) Glyph.nul := by
  have hg : Grown rest (H, Handle.empty) [] := .empty rfl hO
  obtain ⟨r, hr, hg⟩ := appendAll_grown hg hc hcs (by simpa using hsize)
  rw [List.nil_append] at hg
  cases hgw : flat (cs.map Glyph.ofCode) with
  | nil =>
    have := length_le_length_flat (cs.map Glyph.ofCode)
    rw [hgw, List.length_map] at this
    exact absurd (List.length_eq_zero_iff.mp (Nat.le_zero.mp this)) hne
  | cons b w =>
    rw [hgw] at hg
    cases hg with
    | built hb =>
      exact ⟨r, hb.keeps.wf, hr, hb.terminated.holds hb.keeps.wf (by rw [hb.content, hgw])⟩

/-- The encoder and the decoder are inverse: what `append` builds from an empty
string reads back as the same code points, with their number and their offsets. -/
theorem appendAll_readsBack (hO : H.Owned rest) (hc : rest.card + 1 < 2 ^ 32) {cs : List Nat}
    (hcs : ∀ c ∈ cs, 1 ≤ c ∧ c ≤ 0x10FFFF) (hsize : encodedSize cs < 2 ^ 32)
    (hlen : cs.length < 2 ^ 31) :
    ∃ r hw, appendAll H .empty cs = .ok r ∧ ReadsBack (r.2.text r.1 hw) cs := by
  by_cases hne : cs = []
  · subst hne
    refine ⟨(H, .empty), .null rfl rfl rfl, rfl, ⟨1, _, rfl, rfl⟩, rfl, ?_, ?_⟩
    · intro i hi
      exact absurd hi (Nat.not_lt_zero i)
    · intro i hi
      exact absurd hi (Nat.not_lt_zero i)
  · obtain ⟨r, hw, hr, hs⟩ := appendAll_holds hO hc (fun c h => (hcs c h).2) hsize hne
    exact ⟨r, hw, hr, readsBack_of_holds hcs hs hlen⟩

end Build

/-- One character of each encoded size. -/
theorem appendAll_readsBack_mixed :
    letI := zeroMemory
    ∃ r hw, appendAll RefHeap.empty .empty [0x61, 0xE9, 0x20AC, 0x1F600] = .ok r ∧
      ReadsBack (r.2.text r.1 hw) [0x61, 0xE9, 0x20AC, 0x1F600] :=
  let _ := zeroMemory
  appendAll_readsBack RefHeap.Owned.empty (by decide) (by decide) (by decide) (by decide)

theorem encodedSize_replicate (n : Nat) : encodedSize (List.replicate n 0x61) = n := by
  induction n with
  | zero => rfl
  | succ n ih =>
    rw [List.replicate_succ]
    simp only [encodedSize, List.map_cons, List.sum_cons] at ih ⊢
    rw [ih, Nat.add_comm]
    rfl

/-- The counter of `length()` overflows on `2^31` characters. -/
theorem length_overflows :
    letI := zeroMemory
    ∃ r hw, appendAll RefHeap.empty .empty (List.replicate (2 ^ 31) 0x61) = .ok r ∧
      (r.2.text r.1 hw).length = .fault ∧
        ¬ReadsBack (r.2.text r.1 hw) (List.replicate (2 ^ 31) 0x61) := by
  let _ := zeroMemory
  have hne : List.replicate (2 ^ 31) 0x61 ≠ [] := by
    intro h
    have := congrArg List.length h
    rw [List.length_replicate] at this
    exact absurd this (by decide)
  have hcs : ∀ c ∈ List.replicate (2 ^ 31) 0x61, c ≤ 0x10FFFF := by
    intro c hc
    rw [List.eq_of_mem_replicate hc]
    decide
  obtain ⟨r, hw, hr, hs⟩ := appendAll_holds RefHeap.Owned.empty (by decide) hcs
    (by rw [encodedSize_replicate]; decide) hne
  have hlen : (r.2.text r.1 hw).length = .fault := by
    rw [hs.length_eq, List.length_map, List.length_replicate]
    exact if_neg (by decide)
  refine ⟨r, hw, hr, hlen, ?_⟩
  intro hrb
  have := hrb.length
  rw [hlen] at this
  cases this

end StringHeap

end Libacorn
