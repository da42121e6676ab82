import Libacorn.CharLoops
import Libacorn.StringSplit

/-!
# string::lowercase

`lower` maps each of its ranges to code points that it leaves alone, and that take as
many bytes. So `lowercase` acts character by character (`lowercase_lower`).
-/

namespace Libacorn

open Support

/-! ## lower -/

/-- The code points that are the lower-case form of others. -/
def IsLowered (c : Nat) : Prop :=
  (0x61 ≤ c ∧ c ≤ 0x7A) ∨ (0xE0 ≤ c ∧ c ≤ 0xFF) ∨ (c % 2 = 1 ∧ 0x101 ≤ c ∧ c ≤ 0x137) ∨
    (c % 2 = 0 ∧ 0x13A ≤ c ∧ c ≤ 0x148) ∨ (c % 2 = 1 ∧ 0x14B ≤ c ∧ c ≤ 0x177)

theorem lower_or (c : Nat) : lower c = c ∨ IsLowered (lower c) := by
  unfold lower IsLowered
  simp only [Nat.and_one_is_mod]
  split_ifs <;> omega

/-- The ranges and their images do not overlap. -/
theorem lower_of_isLowered {c : Nat} (h : IsLowered c) : lower c = c := by
  unfold IsLowered at h
  unfold lower
  simp only [Nat.and_one_is_mod]
  split_ifs <;> omega

theorem lower_lower (c : Nat) : lower (lower c) = lower c := by
  rcases lower_or c with h | h
  · rw [h, h]
  · exact lower_of_isLowered h

theorem lower_ne_zero {c : Nat} (h : c ≠ 0) : lower c ≠ 0 := by
  rcases lower_or c with e | e
  · rwa [e]
  · unfold IsLowered at e
    omega

/-- A code point and its lower-case form take as many bytes. -/
theorem lower_class (c : Nat) :
    (lower c ≤ 0x7F ↔ c ≤ 0x7F) ∧ (lower c ≤ 0x7FF ↔ c ≤ 0x7FF) ∧
      (lower c = c ∨ lower c ≤ 0xFFFF ∧ c ≤ 0xFFFF) := by
  unfold lower
  simp only [Nat.and_one_is_mod]
  split_ifs <;> omega

theorem length_ofCode_lower (c : Nat) :
    (Glyph.ofCode (lower c)).bytes.length = (Glyph.ofCode c).bytes.length := by
  obtain ⟨h1, h2, h3⟩ := lower_class c
  rcases h3 with h3 | ⟨h3, h4⟩
  · rw [h3]
  · simp only [Glyph.ofCode, h1, h2, h3, h4, ↓reduceIte]
    split_ifs <;> rfl

theorem lower_isValidChar (c : Char) : (lower c.toNat).isValidChar := by
  have hc := c.valid
  rcases lower_or c.toNat with h | h
  · rw [h]
    exact hc
  · unfold IsLowered at h
    left
    omega

/-- The character that `lower` makes of one. -/
def lowerChar (c : Char) : Char := Char.ofNat (lower c.toNat)

theorem toNat_lowerChar (c : Char) : (lowerChar c).toNat = lower c.toNat := by
  have hv := lower_isValidChar c
  rw [lowerChar, Char.ofNat, dif_pos hv]
  exact UInt32.toNat_ofNatLT ..

/-! ## UTF-8 -/

theorem utf8_lowerChar (cs : List Char) :
    StringHeap.encoded ((cs.map Char.toNat).map lower) = utf8 (cs.map lowerChar) := by
  induction cs with
  | nil => rfl
  | cons c cs ih =>
    have hone : (encodeUtf8 (lower c.toNat)).getD [] = String.utf8EncodeChar (lowerChar c) := by
      rw [utf8EncodeChar_eq, ← toNat_lowerChar, encodeUtf8_toNat, Option.getD_some]
    rw [List.map_cons, List.map_cons, StringHeap.encoded_cons, ih, List.map_cons,
      StringHeap.encoded, List.flatMap_cons, List.flatMap_nil, List.append_nil, hone]
    rfl

theorem length_utf8_lowerChar (cs : List Char) :
    (utf8 (cs.map lowerChar)).length = (utf8 cs).length := by
  induction cs with
  | nil => rfl
  | cons c cs ih =>
    have hone : (Glyph.ofChar (lowerChar c)).bytes.length = (Glyph.ofChar c).bytes.length := by
      rw [Glyph.ofChar, toNat_lowerChar]
      exact length_ofCode_lower c.toNat
    simp only [List.map_cons, utf8, List.flatMap_cons, List.length_append, utf8EncodeChar_eq, hone]
    exact congrArg _ ih

theorem lowerChar_lowerChar (c : Char) : lowerChar (lowerChar c) = lowerChar c := by
  apply Char.toNat_inj.mp
  rw [toNat_lowerChar, toNat_lowerChar, lower_lower]

theorem nulFree_of_utf8 {cs : List Char} (h : (0 : UInt8) ∉ utf8 cs) : ∀ c ∈ cs, c.toNat ≠ 0 := by
  intro c hc h0
  have hnul : c = Char.ofNat 0 := Char.toNat_inj.mp h0
  apply h
  rw [utf8, List.mem_flatMap]
  exact ⟨c, hc, by rw [hnul]; decide⟩

/-- NUL-free UTF-8 spells its characters. -/
theorem Spells.of_utf8 {s : Text} {pre post : List Char} (hc : s.content = utf8 (pre ++ post))
    (hnul : ∀ c ∈ post, c.toNat ≠ 0) : Spells s (utf8 pre).length (post.map Char.toNat) .atEnd := by
  induction post generalizing pre with
  | nil =>
    rw [List.append_nil] at hc
    exact .atEnd (by rw [← s.length_content, hc])
  | cons c post ih =>
    have hne := hnul c (List.mem_cons_self ..)
    obtain ⟨hlt, hle⟩ := Text.length_concat_le hc
    have hread := Text.readUtf8_char hc
    rw [if_neg hne] at hread
    refine .char (by omega) ?_ hread (ih ?_ fun c' hc' => hnul c' (List.mem_cons_of_mem _ hc'))
    · -- at a NUL byte `readUtf8` gives the NUL
      intro h0
      rw [Text.readUtf8_nul h0] at hread
      exact hne (Prod.mk.inj (Outcome.done.inj hread)).1.symm
    · rw [List.append_assoc]
      exact hc

namespace StringHeap

section Lowercase

variable [Uninit] {base : Nat} {H H' : Heap} {h s : Handle} {w p : Bytes} {r : Heap × Handle}

/-! ## The string that is built -/

omit [Uninit] in
theorem write_zero {buf : Ptr} {o : Nat} (hw : write H buf o [0] = .ok H') :
    (memory H' buf)[o]? = some 0 := by
  cases buf with
  | null => cases hw
  | lit m => cases hw
  | heap i =>
    rw [write] at hw
    cases hget : H.get? i with
    | none => simp [hget] at hw
    | some b =>
      simp only [hget] at hw
      split at hw
      next hle =>
        cases hw
        rw [memory, RefHeap.modify_get?_self H _ hget]
        exact overwrite_terminator hle
      next => cases hw

/-- What ends with a write of the terminator. -/
theorem insert_terminated (hne : p ≠ []) {o : Nat} (hrun : insert H s o p = .ok r) :
    Terminated r.1 r.2 := by
  rw [insert, if_neg hne] at hrun
  split at hrun
  next =>
    rw [assign] at hrun
    obtain ⟨H₁, -, hrun⟩ := bind_eq_ok hrun
    obtain ⟨H₂, -, hrun⟩ := bind_eq_ok hrun
    obtain ⟨H₃, hw, hrun⟩ := bind_eq_ok hrun
    cases hrun
    have hz := write_zero hw
    rw [Terminated]
    simpa using hz
  next =>
    obtain ⟨⟨H₁, h₁⟩, -, hrun⟩ := bind_eq_ok hrun
    obtain ⟨⟨H₂, buf⟩, -, hrun⟩ := bind_eq_ok hrun
    obtain ⟨tail, -, hrun⟩ := bind_eq_ok hrun
    obtain ⟨H₃, -, hrun⟩ := bind_eq_ok hrun
    obtain ⟨H₄, -, hrun⟩ := bind_eq_ok hrun
    obtain ⟨H₅, hw, hrun⟩ := bind_eq_ok hrun
    cases hrun
    exact write_zero hw

omit [Uninit] in
theorem encodeUtf8_ne_nil {c : Nat} (he : encodeUtf8 c = some p) : p ≠ [] := by
  unfold encodeUtf8 at he
  split_ifs at he <;> cases he <;> nofun

/-- What the loop returns is empty or has a terminator. -/
theorem lowercaseLoop_terminated {n o : Nat} (hs : s = .empty ∨ Terminated H s)
    (hrun : lowercaseLoop h n H s o = .ok (some r)) : r.2 = .empty ∨ Terminated r.1 r.2 := by
  induction n generalizing H s o with
  | zero => cases hrun
  | succ n ih =>
    rw [lowercaseLoop] at hrun
    split at hrun
    next =>
      obtain ⟨r₁, -, hrun⟩ := bind_eq_ok hrun
      obtain ⟨r₂, happ, hrun⟩ := bind_eq_ok hrun
      refine ih ?_ hrun
      rw [appendChar32] at happ
      cases he : encodeUtf8 (lower r₁.1) with
      | none =>
        simp only [he] at happ
        cases happ
        exact hs
      | some p =>
        simp only [he] at happ
        exact .inr (insert_terminated (encodeUtf8_ne_nil he) happ)
    next =>
      cases hrun
      exact hs

omit [Uninit] in
theorem Appended.wf (ha : Appended base H s w) (ht : s = .empty ∨ Terminated H s) :
    WF H s ∧ s.Below H.next := by
  cases ha with
  | nothing he hw =>
    subst he
    exact ⟨.null rfl rfl rfl, nofun⟩
  | @buffer i b hh hcell hcb hbytes hbase hnext =>
    subst hh
    have hget := get?_of_cell hcell
    have hterm := ht.resolve_left nofun
    refine ⟨.heap rfl rfl hget (by simp [hcb]) fun _ _ => ?_, ?_⟩
    · simp only [Terminated, memory, hget, Option.map_some, Option.getD_some, Nat.zero_add] at hterm
      rw [hcb]
      exact hterm
    · rintro j ⟨⟩
      exact hnext

/-! ## lowercase -/

/-- `lowercase` of a NUL-free string. -/
theorem lowercase_utf8 (hw : WF H h) (hin : h.Below H.next) {cs : List Char}
    (hc : content H h = utf8 cs) (hnul : ∀ c ∈ cs, c.toNat ≠ 0) :
    ∃ fuel r, lowercase H h fuel = .ok (some r) ∧ WF r.1 r.2 ∧ r.2.Below r.1.next ∧
      content r.1 r.2 = utf8 (cs.map lowerChar) := by
  have hs : Spells (h.text H hw) 0 (cs.map Char.toNat) .atEnd :=
    Spells.of_utf8 (show (h.text H hw).content = utf8 ([] ++ cs) from hc) hnul
  have hlen := hw.cb_lt
  rw [← hw.length_content, hc] at hlen
  obtain ⟨fuel, r, hrun, ha, -⟩ := lowercaseLoop_spells hw hin ⟨Nat.le_refl _, fun _ _ => rfl⟩
    (.nothing rfl rfl) hs (by
      rwa [List.length_nil, Nat.zero_add, utf8_lowerChar, length_utf8_lowerChar])
  rw [List.nil_append, utf8_lowerChar] at ha
  obtain ⟨hwf, hbelow⟩ := ha.wf (lowercaseLoop_terminated (.inl rfl) hrun)
  exact ⟨fuel, r, hrun, hwf, hbelow, ha.content⟩

/-- `lowercase` applies `lower` to each character, keeps the number of characters and of bytes, and
changes nothing when it is applied again. -/
theorem lowercase_lower (hw : WF H h) (hin : h.Below H.next) {cs : List Char}
    (hc : content H h = utf8 cs) (hnul : (0 : UInt8) ∉ content H h) :
    ∃ fuel r ds, lowercase H h fuel = .ok (some r) ∧ content r.1 r.2 = utf8 ds ∧
      ds.map Char.toNat = (cs.map Char.toNat).map lower ∧ r.2.cb = h.cb ∧
      (∃ hr : WF r.1 r.2, (r.2.text r.1 hr).length = (h.text H hw).length) ∧
      ∃ fuel' r', lowercase r.1 r.2 fuel' = .ok (some r') ∧
        content r'.1 r'.2 = content r.1 r.2 := by
  rw [hc] at hnul
  have hnul' := nulFree_of_utf8 hnul
  obtain ⟨fuel, r, hrun, hwf, hbelow, hcont⟩ := lowercase_utf8 hw hin hc hnul'
  have hnul'' : ∀ c ∈ cs.map lowerChar, c.toNat ≠ 0 := by
    intro c' hmem
    obtain ⟨c, hc', rfl⟩ := List.mem_map.mp hmem
    rw [toNat_lowerChar]
    exact lower_ne_zero (hnul' c hc')
  obtain ⟨fuel', r', hrun', -, -, hcont'⟩ := lowercase_utf8 hwf hbelow hcont hnul''
  refine ⟨fuel, r, cs.map lowerChar, hrun, hcont, ?_, ?_, ⟨hwf, ?_⟩, fuel', r', hrun', ?_⟩
  · simp only [List.map_map, Function.comp_def, toNat_lowerChar]
  · rw [← hwf.length_content, hcont, length_utf8_lowerChar, ← hc, hw.length_content]
  · rw [Text.length_eq (s := r.2.text r.1 hwf) (hcont.trans (utf8_eq_flat _)),
      Text.length_eq (s := h.text H hw) (hc.trans (utf8_eq_flat _))]
    simp only [List.length_map]
  · rw [hcont', hcont, List.map_map]
    simp only [Function.comp_def, lowerChar_lowerChar]

end Lowercase

theorem WF.below {H : Heap} {h : Handle} (hw : WF H h) (hu : Unused H.next H) : h.Below H.next := by
  intro i hi
  cases hw with
  | null hb => rw [hb] at hi; cases hi
  | lit hb => rw [hb] at hi; cases hi
  | heap hb _ hget =>
    rw [hb] at hi
    cases hi
    by_contra hge
    rw [hu i (Nat.not_lt.mp hge)] at hget
    cases hget

/-- `AÉ` becomes `aé`. -/
theorem lowercase_lower_accent :
    letI := zeroMemory
    ∃ S h, run .init [.bytes (some [0x41, 0xC3, 0x89])] = .ok S ∧ S.handle? 0 = some h ∧
      ∃ fuel r ds, lowercase S.heap h fuel = .ok (some r) ∧ content r.1 r.2 = utf8 ds ∧
        ds.map Char.toNat = [0x61, 0xE9] := by
  let _ := zeroMemory
  have hS := Reach.bytes [0x41, 0xC3, 0x89] (by decide) rfl
  refine ⟨_, _, rfl, rfl, ?_⟩
  have hI := hS.inv.1
  have hw := hI.wf 0 _ rfl
  obtain ⟨fuel, r, ds, hrun, hcont, hds, -⟩ := lowercase_lower hw (hw.below hI.unused)
    (show _ = utf8 ['A', 'É'] from rfl) (by decide)
  exact ⟨fuel, r, ds, hrun, hcont, hds⟩

end StringHeap

end Libacorn
