import Libacorn.StringSlice
import Libacorn.UrlCoding

/-!
# hex and unhex: base/string.cpp

`hex` into a new buffer, and `unhex` into a `bytearray`. They are inverse to each
other as long as the `int` index of `unhex` does not overflow
(`hex_unhex_inverse_iff`).
-/

namespace Libacorn

open Support

namespace StringHeap

/-! ## The source -/

section Source
variable [Uninit]

/-- The loop of `hex`, over the bytes left; `o` is an index in `buf`. -/
def hexLoop (buf : Ptr) : Heap → Bytes → Nat → Except Fault (Heap × Nat)
  | H, [], o => .ok (H, o)
  | H, byte :: rest, o => do
    let H ← write H buf o [hexDigit (byte.toNat / 16)]
    let H ← write H buf (o + 1) [hexDigit (byte.toNat % 16)]
    hexLoop buf H rest (o + 2)

/-- `string::hex(p, cb)`, where `p` points at the bytes. -/
def hex (H : Heap) (p : Bytes) : Except Fault (Heap × Handle) :=
  -- `cb * 2` is an `int`
  if p.length * 2 < 2 ^ 31 then do
    let str := { Handle.empty with cb := p.length * 2 }
    let (H, buf) := bufNew H str.cb
    let str := { str with buf := buf }
    let (H, o) ← hexLoop str.buf H p 0
    let H ← write H str.buf o [0]
    return (H, str)
  else .error .overflow

/-- The loop of `unhex`, with at most `n` more rounds: `i` is an `int`, `p` an index in the
block. -/
def unhexLoop (start : Bytes) (cb : Nat) : Nat → Nat → Bytes → Nat → Except Fault Bytes
  | 0, _, block, _ => .ok block
  | n + 1, i, block, p =>
    if i < cb then
      match start[i]?, start[i + 1]? with
      | some hi, some lo =>
        if p + 1 ≤ block.length then
          if i + 2 < 2 ^ 31 then
            unhexLoop start cb n (i + 2) (overwrite block p [hexValue hi <<< 4 ||| hexValue lo])
              (p + 1)
          else .error .overflow
        else .error .bounds
      | _, _ => .error .bounds
    else .ok block

/-- `string::unhex`; a round takes two bytes. -/
def unhex (H : Heap) (s : Handle) : Except Fault Bytearray := do
  let cb := u32 (s.cb + 1) / 2
  let block ← unhexLoop ((startOf H s).getD []) s.cb ((s.cb + 1) / 2) 0 (Uninit.block cb) 0
  return ⟨block, cb⟩

end Source

/-! ## What the two should give -/

def isHexDigit (c : UInt8) : Bool := isUpperHex c || between 'a' 'f' c

/-- A letter in upper case. -/
def upperCase (c : UInt8) : UInt8 := if between 'a' 'z' c then c - 32 else c

/-- Decoding what `hex` gives. -/
def HexDecodes [Uninit] (H : Heap) (b : Bytes) : Prop :=
  ∃ H₁ str ba, hex H b = .ok (H₁, str) ∧ unhex H₁ str = .ok ba ∧ ba.content = b

/-- Encoding what `unhex` gives. -/
def UnhexEncodes [Uninit] (H : Heap) (s : Handle) : Prop :=
  ∃ ba H₁ str, unhex H s = .ok ba ∧ hex H ba.content = .ok (H₁, str) ∧
    content H₁ str = (content H s).map upperCase

/-! ## Digits and bytes -/

/-- The two digits of a byte. -/
def hexPair (b : UInt8) : Bytes := [hexDigit (b.toNat / 16), hexDigit (b.toNat % 16)]

/-- The byte of two digits. -/
def pairByte (hi lo : UInt8) : UInt8 := hexValue hi <<< 4 ||| hexValue lo

/-- The bytes of a list of digits. -/
def pairBytes : Bytes → Bytes
  | [] => []
  | [_] => []
  | hi :: lo :: w => pairByte hi lo :: pairBytes w

section Digits

variable {c hi lo : UInt8} {b w : Bytes}

theorem pairByte_hexPair (b : UInt8) :
    pairByte (hexDigit (b.toNat / 16)) (hexDigit (b.toNat % 16)) = b := by
  revert b
  exact forall_byte (by decide +kernel)

theorem hexDigit_hexValue (h : isHexDigit c = true) :
    hexDigit (hexValue c).toNat = upperCase c ∧ (hexValue c).toNat < 16 := by
  have hall : ∀ c, isHexDigit c = true → hexDigit (hexValue c).toNat = upperCase c ∧
      (hexValue c).toNat < 16 :=
    forall_byte (by decide +kernel)
  exact hall c h

/-- Two values below 16 stay apart in a byte. -/
theorem nibbles {u v : UInt8} (hu : u.toNat < 16) (hv : v.toNat < 16) :
    (u <<< 4 ||| v).toNat / 16 = u.toNat ∧ (u <<< 4 ||| v).toNat % 16 = v.toNat := by
  have hall : ∀ i j : Fin 16, (UInt8.ofNat i <<< 4 ||| UInt8.ofNat j).toNat / 16 = i ∧
      (UInt8.ofNat i <<< 4 ||| UInt8.ofNat j).toNat % 16 = j := by
    decide +kernel
  have h := hall ⟨u.toNat, hu⟩ ⟨v.toNat, hv⟩
  rwa [UInt8.ofNat_toNat, UInt8.ofNat_toNat] at h

theorem hexPair_pairByte (hhi : isHexDigit hi = true) (hlo : isHexDigit lo = true) :
    hexPair (pairByte hi lo) = [upperCase hi, upperCase lo] := by
  obtain ⟨hhi', hhi16⟩ := hexDigit_hexValue hhi
  obtain ⟨hlo', hlo16⟩ := hexDigit_hexValue hlo
  obtain ⟨hdiv, hmod⟩ := nibbles hhi16 hlo16
  rw [hexPair, pairByte, hdiv, hmod, hhi', hlo']

theorem length_flatMap_hexPair (b : Bytes) : (b.flatMap hexPair).length = b.length * 2 := by
  induction b with
  | nil => rfl
  | cons c b ih =>
    rw [List.flatMap_cons, List.length_append, ih, List.length_cons, hexPair]
    simp only [List.length_cons, List.length_nil]
    omega

theorem pairBytes_flatMap (b : Bytes) : pairBytes (b.flatMap hexPair) = b := by
  induction b with
  | nil => rfl
  | cons c b ih =>
    rw [List.flatMap_cons, hexPair, List.cons_append, List.cons_append, List.nil_append, pairBytes,
      pairByte_hexPair, ih]

theorem length_pairBytes (w : Bytes) : (pairBytes w).length = w.length / 2 := by
  induction w using pairBytes.induct with
  | case1 => rfl
  | case2 c => simp [pairBytes]
  | case3 hi lo w ih =>
    rw [pairBytes, List.length_cons, ih, List.length_cons, List.length_cons]
    omega

theorem flatMap_pairBytes (heven : w.length % 2 = 0) (hhex : ∀ c ∈ w, isHexDigit c = true) :
    (pairBytes w).flatMap hexPair = w.map upperCase := by
  induction w using pairBytes.induct with
  | case1 => rfl
  | case2 c => cases heven
  | case3 hi lo w ih =>
    rw [List.length_cons, List.length_cons] at heven
    obtain ⟨hhi, hrest⟩ := List.forall_mem_cons.mp hhex
    obtain ⟨hlo, hrest⟩ := List.forall_mem_cons.mp hrest
    rw [pairBytes, List.flatMap_cons, hexPair_pairByte hhi hlo, ih (by omega) hrest]
    rfl

end Digits

/-! ## The loop of hex -/

section Hex

variable {H : Heap} {i o : Nat} {b : Buf} {w : Bytes}

/-- A write into a live buffer. -/
theorem write_get (hget : H.get? i = some b) (o : Nat) (bytes : Bytes)
    (hle : o + bytes.length ≤ b.bytes.length) :
    ∃ H' b', write H (.heap i) o bytes = .ok H' ∧ H'.get? i = some b' ∧ b'.cb = b.cb ∧
      b'.bytes = overwrite b.bytes o bytes := by
  refine ⟨H.modify i (b.write o bytes hle), b.write o bytes hle, ?_, H.modify_get?_self _ hget, rfl,
    rfl⟩
  simp only [write, hget, dif_pos hle]

/-- The digits of every byte behind each other. -/
theorem hexLoop_eq (hget : H.get? i = some b) (hroom : o + w.length * 2 ≤ b.bytes.length) :
    ∃ H' b', hexLoop (.heap i) H w o = .ok (H', o + w.length * 2) ∧ H'.get? i = some b' ∧
      b'.cb = b.cb ∧
      b'.bytes.take (o + w.length * 2) = b.bytes.take o ++ w.flatMap hexPair := by
  induction w generalizing H b o with
  | nil => exact ⟨H, b, rfl, hget, rfl, (List.append_nil _).symm⟩
  | cons c w ih =>
    rw [List.length_cons] at hroom ⊢
    have hroom₁ : o + [hexDigit (c.toNat / 16)].length ≤ b.bytes.length := by
      rw [List.length_singleton]
      omega
    obtain ⟨H₁, b₁, hwrite₁, hget₁, hcb₁, hbytes₁⟩ :=
      write_get hget o [hexDigit (c.toNat / 16)] hroom₁
    have hlen₁ : b₁.bytes.length = b.bytes.length := by
      rw [b.size, b₁.size, hcb₁]
    have hroom₂ : o + 1 + [hexDigit (c.toNat % 16)].length ≤ b₁.bytes.length := by
      rw [List.length_singleton]
      omega
    obtain ⟨H₂, b₂, hwrite₂, hget₂, hcb₂, hbytes₂⟩ :=
      write_get hget₁ (o + 1) [hexDigit (c.toNat % 16)] hroom₂
    have hlen₂ : b₂.bytes.length = b.bytes.length := by
      rw [b.size, b₂.size, hcb₂, hcb₁]
    obtain ⟨H', b', hrun, hget', hcb', htake⟩ := ih (o := o + 2) hget₂ (by omega)
    refine ⟨H', b', ?_, hget', by rw [hcb', hcb₂, hcb₁], ?_⟩
    · rw [hexLoop, hwrite₁, ok_bind, hwrite₂, ok_bind, hrun]
      congr 2
      omega
    · have hstep : b₂.bytes.take (o + 2) = b.bytes.take o ++ hexPair c := by
        calc b₂.bytes.take (o + 2) = b₁.bytes.take (o + 1) ++ [hexDigit (c.toNat % 16)] := by
              rw [hbytes₂]
              exact take_overwrite hroom₂
          _ = b.bytes.take o ++ [hexDigit (c.toNat / 16)] ++ [hexDigit (c.toNat % 16)] := by
              rw [hbytes₁]
              exact congrArg (· ++ _) (take_overwrite hroom₁)
          _ = b.bytes.take o ++ hexPair c := by
              rw [List.append_assoc]
              rfl
      rw [show o + (w.length + 1) * 2 = o + 2 + w.length * 2 by
        omega, htake, hstep, List.append_assoc, List.flatMap_cons]

/-- `hex` of fewer than `2^30` bytes. -/
theorem hex_eq [Uninit] (H : Heap) (hlt : w.length < 2 ^ 30) :
    ∃ H' str, hex H w = .ok (H', str) ∧ WF H' str ∧ content H' str = w.flatMap hexPair := by
  have hu : u32 (w.length * 2) = w.length * 2 := u32_of_lt (by omega)
  have hnew : (H.alloc (Buf.sized [] (w.length * 2))).get? H.next =
      some (Buf.sized [] (w.length * 2)) :=
    RefHeap.alloc_get?_next ..
  have hcb : (Buf.sized [] (w.length * 2)).cb = w.length * 2 := hu
  have hsize : (Buf.sized [] (w.length * 2)).bytes.length = w.length * 2 + 1 := by
    rw [Buf.size, hcb]
  obtain ⟨H₁, b₁, hrun, hget₁, hcb₁, htake⟩ := hexLoop_eq (o := 0) (w := w) hnew (by omega)
  rw [Nat.zero_add] at hrun htake
  have hsize₁ : b₁.bytes.length = w.length * 2 + 1 := by
    rw [b₁.size, hcb₁, hcb]
  obtain ⟨H₂, b₂, hwrite, hget₂, hcb₂, hbytes₂⟩ := write_get hget₁ (w.length * 2) [0]
    (by rw [List.length_singleton]; omega)
  have hend : b₂.bytes[w.length * 2]? = some 0 := by
    rw [hbytes₂]
    exact overwrite_terminator (by omega)
  refine ⟨H₂, ⟨.heap H.next, w.length * 2, 0, .Standard⟩, ?_, ?_, ?_⟩
  · rw [hex, if_pos (by omega)]
    simp only [bufNew, hrun, ok_bind, hwrite]
    rfl
  · refine .heap rfl rfl hget₂ ?_ ?_
    · simp only
      omega
    · intro _ _
      rw [hcb₂, hcb₁, hcb]
      exact hend
  · simp only [content, memory, hget₂, Option.map_some, Option.getD_some, List.drop_zero]
    rw [hbytes₂, take_overwrite_start (by omega) [0], htake, List.take_zero, List.nil_append]

end Hex

/-! ## The loop of unhex -/

section Unhex

variable {H : Heap} {s : Handle} {T : Text} {n i p : Nat} {block block' l w : Bytes}

theorem length_unhexLoop (h : T.unhexLoop n i = .done l) : l.length = n := by
  induction n generalizing i l with
  | zero =>
    obtain rfl := Outcome.done.inj h
    rfl
  | succ n ih =>
    rw [Text.unhexLoop] at h
    obtain ⟨hi, -, h⟩ := Outcome.bind_eq_done h
    obtain ⟨lo, -, h⟩ := Outcome.bind_eq_done h
    split_ifs at h
    obtain ⟨rest, hrest, h⟩ := Outcome.bind_eq_done h
    obtain rfl := Outcome.done.inj h
    rw [List.length_cons, ih hrest]

/-- The bytes go to the block one behind the other. -/
theorem unhexLoop_eq_ok (hn : i + 2 * n ≤ T.cb + 1) (hroom : p + n ≤ block.length) :
    unhexLoop (T.mem.drop T.offset) T.cb n i block p = .ok block' ↔
      ∃ l, T.unhexLoop n i = .done l ∧ block' = overwrite block p l := by
  induction n generalizing i p block with
  | zero =>
    constructor
    · intro h
      exact ⟨[], rfl, by rw [overwrite_nil, Except.ok.inj h]⟩
    · rintro ⟨l, hl, rfl⟩
      rw [← Outcome.done.inj hl, overwrite_nil]
      rfl
  | succ n ih =>
    rw [unhexLoop, Text.unhexLoop, if_pos (by omega), Text.byte, Text.byte, List.getElem?_drop,
      List.getElem?_drop]
    cases T.mem[T.offset + i]? with
    | none => exact iff_of_false (by rintro ⟨⟩) (by rintro ⟨_, ⟨⟩, -⟩)
    | some hi =>
      cases T.mem[T.offset + (i + 1)]? with
      | none => exact iff_of_false (by rintro ⟨⟩) (by rintro ⟨_, ⟨⟩, -⟩)
      | some lo =>
        simp only [Outcome.bind_done]
        rw [if_pos (by omega)]
        by_cases hlt : i + 2 < 2 ^ 31
        · have hlen : (overwrite block p [hexValue hi <<< 4 ||| hexValue lo]).length =
              block.length :=
            length_overwrite (by rw [List.length_singleton]; omega)
          rw [if_pos hlt, if_pos hlt, ih (by omega) (by omega)]
          constructor
          · rintro ⟨l, hl, rfl⟩
            rw [hl, overwrite_cons (by omega)]
            exact ⟨_, rfl, rfl⟩
          · rintro ⟨l, hl, rfl⟩
            obtain ⟨rest, hrest, h⟩ := Outcome.bind_eq_done hl
            obtain rfl := Outcome.done.inj h
            exact ⟨rest, hrest, by rw [overwrite_cons (by omega)]⟩
        · rw [if_neg hlt, if_neg hlt]
          exact iff_of_false (by rintro ⟨⟩) (by rintro ⟨_, ⟨⟩, -⟩)

/-- The bytes of a string of pairs, if the index does not overflow. -/
theorem text_unhexLoop_eq (hn : i + 2 * n = T.cb) :
    T.unhexLoop n i =
      if n = 0 ∨ T.cb < 2 ^ 31 then .done (pairBytes (T.content.drop i)) else .fault := by
  have hlen := T.length_content
  induction n generalizing i with
  | zero =>
    rw [List.drop_eq_nil_of_le (by omega)]
    rfl
  | succ n ih =>
    have hdrop : T.content.drop i = T.content.get ⟨i, by omega⟩ :: T.content.get
        ⟨i + 1, by omega⟩ ::
        T.content.drop (i + 2) := by
      rw [List.drop_eq_getElem_cons (by omega), List.drop_eq_getElem_cons (by omega)]
      rfl
    have hhi : T.byte i = .done (T.content.get ⟨i, by omega⟩) :=
      Text.byte_of_content (List.getElem?_eq_getElem _)
    have hlo : T.byte (i + 1) = .done (T.content.get ⟨i + 1, by omega⟩) :=
      Text.byte_of_content (List.getElem?_eq_getElem _)
    rw [Text.unhexLoop, hhi, hlo, Outcome.bind_done, Outcome.bind_done, hdrop, pairBytes,
      ih (by omega)]
    by_cases hcb : T.cb < 2 ^ 31
    · rw [if_pos (by omega), if_pos (.inr hcb), if_pos (.inr hcb)]
      rfl
    · rw [if_neg (show ¬(n + 1 = 0 ∨ T.cb < 2 ^ 31) by omega)]
      split_ifs with hi hn'
      · omega
      · rfl
      · rfl

theorem startOf_eq_text (hw : WF H s) :
    (startOf H s).getD [] = (s.text H hw).mem.drop (s.text H hw).offset := by
  by_cases hbuf : s.buf = .null
  · rw [startOf, if_pos hbuf]
    simp only [Handle.text, memory, hbuf, List.drop_nil, Option.getD_none]
  · rw [startOf_eq hbuf]
    rfl

variable [Uninit]

/-- `unhex` gives the bytes that the decoder of URLs reads. -/
theorem unhex_iff_text (hw : WF H s) (hlt : s.cb + 1 < 2 ^ 32) :
    (∃ ba, unhex H s = .ok ba ∧ ba.content = w) ↔ (s.text H hw).unhex = .done w := by
  have hcb : (s.text H hw).cb = s.cb := rfl
  have hblock : (Uninit.block ((s.cb + 1) / 2)).length = (s.cb + 1) / 2 := Uninit.length_block _
  have hloop : ∀ block', unhexLoop ((startOf H s).getD []) s.cb ((s.cb + 1) / 2) 0
      (Uninit.block ((s.cb + 1) / 2)) 0 = .ok block' ↔
        ∃ l, (s.text H hw).unhexLoop ((s.cb + 1) / 2) 0 = .done l ∧
        block' = overwrite (Uninit.block ((s.cb + 1) / 2)) 0 l := by
    intro block'
    rw [startOf_eq_text hw]
    exact unhexLoop_eq_ok (by omega) (by omega)
  -- the bytes fill the block
  have hfill : ∀ l : Bytes, l.length = (s.cb + 1) / 2 →
      (overwrite (Uninit.block ((s.cb + 1) / 2)) 0 l).take ((s.cb + 1) / 2) = l := by
    intro l hl
    have htake : (overwrite (Uninit.block ((s.cb + 1) / 2)) 0 l).take (0 + l.length) = _ :=
      take_overwrite (by omega)
    rwa [Nat.zero_add, hl, List.take_zero, List.nil_append] at htake
  rw [unhex, u32_of_lt hlt, Text.unhex, hcb]
  constructor
  · rintro ⟨ba, hba, rfl⟩
    obtain ⟨block', hrun, hba⟩ := bind_eq_ok hba
    obtain rfl := Except.ok.inj hba
    obtain ⟨l, hl, rfl⟩ := (hloop _).mp hrun
    rw [Bytearray.content, hfill l (length_unhexLoop hl)]
    exact hl
  · intro hl
    refine ⟨⟨overwrite (Uninit.block ((s.cb + 1) / 2)) 0 w, (s.cb + 1) / 2⟩, ?_,
      hfill w (length_unhexLoop hl)⟩
    rw [(hloop _).mpr ⟨w, hl, rfl⟩]
    rfl

/-- A string of pairs of characters is decoded if and only if its length fits in an `int`. -/
theorem unhex_iff_pairs (hw : WF H s) (heven : s.cb % 2 = 0) :
    (∃ ba, unhex H s = .ok ba ∧ ba.content = w) ↔ s.cb < 2 ^ 31 ∧ w = pairBytes (content H s) := by
  have hlt := hw.cb_lt
  have hcb : (s.text H hw).cb = s.cb := rfl
  have hcont : (s.text H hw).content = content H s := rfl
  rw [unhex_iff_text hw (by omega), Text.unhex, text_unhexLoop_eq (by omega), List.drop_zero, hcont,
    hcb]
  split_ifs with hfit
  · constructor
    · intro h
      exact ⟨by omega, (Outcome.done.inj h).symm⟩
    · rintro ⟨-, rfl⟩
      rfl
  · exact iff_of_false nofun fun h => hfit (.inr h.1)

/-! ## Both directions -/

theorem hex_decodes (H : Heap) {b : Bytes} (hlt : b.length < 2 ^ 30) : HexDecodes H b := by
  obtain ⟨H₁, str, hhex, hw, hcont⟩ := hex_eq H hlt
  have hlen := hw.length_content
  rw [hcont, length_flatMap_hexPair] at hlen
  obtain ⟨ba, hba, hcontent⟩ := (unhex_iff_pairs hw (by omega)).mpr ⟨by omega, rfl⟩
  refine ⟨H₁, str, ba, hhex, hba, ?_⟩
  rw [hcontent, hcont, pairBytes_flatMap]

/-- Fewer than `2^31` digits. -/
theorem unhexEncodes_iff (hw : WF H s) (heven : s.cb % 2 = 0)
    (hhex : ∀ c ∈ content H s, isHexDigit c = true) :
    UnhexEncodes H s ↔ s.cb < 2 ^ 31 := by
  have hlen := hw.length_content
  constructor
  · rintro ⟨ba, H₁, str, hba, -⟩
    exact ((unhex_iff_pairs hw heven).mp ⟨ba, hba, rfl⟩).1
  · intro hlt
    obtain ⟨ba, hba, hcontent⟩ := (unhex_iff_pairs hw heven).mpr ⟨hlt, rfl⟩
    have hsmall : ba.content.length < 2 ^ 30 := by
      rw [hcontent, length_pairBytes]
      omega
    obtain ⟨H₁, str, hhexed, -, hcont⟩ := hex_eq H hsmall
    refine ⟨ba, H₁, str, hba, hhexed, ?_⟩
    rw [hcont, hcontent, flatMap_pairBytes (by omega) hhex]

/-- Hex coding is inverse to decoding; decoding and then coding again gives the digits in upper case
if and only if there are fewer than `2^31` of them. -/
theorem hex_unhex_inverse_iff (H : Heap) {b : Bytes} (hb : b.length < 2 ^ 30) (hw : WF H s)
    (heven : s.cb % 2 = 0) (hhex : ∀ c ∈ content H s, isHexDigit c = true) :
    HexDecodes H b ∧ (UnhexEncodes H s ↔ s.cb < 2 ^ 31) :=
  ⟨hex_decodes H hb, unhexEncodes_iff hw heven hhex⟩

end Unhex

/-- Two bytes with a letter each, and four digits. -/
theorem hex_unhex_inverse_letters :
    letI := zeroMemory
    ∃ S s, run .init [.literal [0x31, 0x61, 0x42, 0x66]] = .ok S ∧ S.handle? 0 = some s ∧
      HexDecodes S.heap [0x1f, 0xa0] ∧ (UnhexEncodes S.heap s ↔ s.cb < 2 ^ 31) := by
  let _ := zeroMemory
  have hS := Reach.step (.literal [0x31, 0x61, 0x42, 0x66]) .init trivial ⟨by decide, by decide⟩
      trivial rfl
  refine ⟨_, _, rfl, rfl, ?_⟩
  exact hex_unhex_inverse_iff _ (by decide) (hS.inv.1.wf 0 _ rfl) rfl (forall_mem_of_all rfl)

/-- A string of `2^31` zeros. -/
theorem hex_unhex_fails :
    letI := zeroMemory
    ∃ m : Bytes, m.length = 2 ^ 31 ∧ (∀ c ∈ m, c = 0x30) ∧
      WF RefHeap.empty (.literal m) ∧
        (∀ c ∈ content RefHeap.empty (.literal m), isHexDigit c = true) ∧
      ¬UnhexEncodes RefHeap.empty (.literal m) := by
  let _ := zeroMemory
  obtain ⟨n, hn⟩ : ∃ n : Nat, n = 2 ^ 31 := ⟨_, rfl⟩
  have hlen : (List.replicate n (0x30 : UInt8)).length = n := List.length_replicate
  have hzero : ∀ c ∈ List.replicate n (0x30 : UInt8), c = 0x30 :=
    fun c hc => List.eq_of_mem_replicate hc
  have hw : WF RefHeap.empty (.literal (List.replicate n 0x30)) :=
    .lit rfl rfl (Nat.le_of_eq (Nat.zero_add _)) (by omega)
  have hcb : (Handle.literal (List.replicate n 0x30)).cb = n := hlen
  have hdigits : ∀ c ∈ content RefHeap.empty (.literal (List.replicate n 0x30)),
      isHexDigit c = true := by
    intro c hc
    have hmem : c ∈ List.replicate n (0x30 : UInt8) := by
      have hcont : content RefHeap.empty (.literal (List.replicate n 0x30)) =
          List.replicate n 0x30 := List.take_left
      rwa [hcont] at hc
    rw [hzero c hmem]
    rfl
  refine ⟨List.replicate n 0x30, by omega, hzero, hw, hdigits, ?_⟩
  intro henc
  have hlt := (unhexEncodes_iff hw (by omega) hdigits).mp henc
  omega

end StringHeap

end Libacorn
