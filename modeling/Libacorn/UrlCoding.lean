import Libacorn.Bytearray
import Libacorn.CharIndex

/-!
# urlEncode, urlDecode and unhex: base/string.cpp

The encoder passes a signed `char` to `sprintf`; the decoder makes a minus of a
plus and does not skip the two digits it has decoded. What comes back is the
string only if nothing had to be encoded (`url_roundTrips_iff`).
-/

namespace Libacorn

open Support

/-! ## The source -/

/-- `(char)(n + '0')` or `(char)(n - 10 + 'A')`, for a hex digit `n`. -/
def hexDigit (n : Nat) : UInt8 := UInt8.ofNat (if n < 10 then n + '0'.toNat else n - 10 + 'A'.toNat)

/-- The last `k` hex digits. -/
def hexDigits : Nat → Nat → Bytes
  | 0, _ => []
  | k + 1, n => hexDigits k (n / 16) ++ [hexDigit (n % 16)]

def between (lo hi : Char) (c : UInt8) : Bool := UInt8.ofNat lo.toNat ≤ c ∧ c ≤ UInt8.ofNat hi.toNat

def isChar (ch : Char) (c : UInt8) : Bool := c = UInt8.ofNat ch.toNat

/-- `asciiOk` -/
def asciiOk (c : UInt8) : Bool :=
  between 'A' 'Z' c || between 'a' 'z' c || between '0' '9' c || isChar '-' c || isChar '.' c ||
    isChar '_' c ||
    isChar '~' c

/-- What `sprintf` prints with `"%%%02X"`. A `char` is signed: from `0x80` on it is a negative
`int`, which is printed as an `unsigned int`. -/
def percentCode (c : UInt8) : Bytes :=
  UInt8.ofNat '%'.toNat ::
    if c.toNat < 128 then hexDigits 2 c.toNat else hexDigits 8 (2 ^ 32 - 256 + c.toNat)

/-- The bytes that the encoder writes for a character, and by how many `out` moves. -/
def encodeChar (c : UInt8) : Bytes × Nat :=
  if asciiOk c then ([c], 1)
  else if isChar ' ' c then ([UInt8.ofNat '+'.toNat], 1)
  else (percentCode c ++ [0], 3)

/-- The loop of `urlEncode`, over what is left of the input; `i` is an `int`. -/
def urlEncodeLoop : Bytes → Nat → Bytes → Nat → Outcome (Bytes × Nat)
  | [], _, buf, out => .done (buf, out)
  | c :: rest, i, buf, out =>
    (Bytearray.memcpy buf out (encodeChar c).1).bind fun buf =>
    if i + 1 < 2 ^ 31 then urlEncodeLoop rest (i + 1) buf (out + (encodeChar c).2) else .fault

/-- `string rv(buf, int32_t(out-buf))`. From `2^31` on the length is negative: it is then
`(int32_t)strlen`, which is negative too, and the terminator goes before the buffer. -/
def stringOfBuffer (buf : Bytes) (out : Nat) : Outcome Bytes :=
  if out < 2 ^ 31 then .done (buf.take out) else .fault

def hexValue (ch : UInt8) : UInt8 :=
  if between 'A' 'F' ch then 10 + ch - UInt8.ofNat 'A'.toNat
  else if between 'a' 'f' ch then 10 + ch - UInt8.ofNat 'a'.toNat
  else if between '0' '9' ch then ch - UInt8.ofNat '0'.toNat
  else 0

namespace Text

variable (s : Text)

/-- `urlEncode()`. The size of the buffer is a `uint32_t`. -/
def urlEncode [Uninit] : Outcome Bytes :=
  (urlEncodeLoop s.content 0 (Uninit.block (u32 (s.cb * 3 + 1))) 0).bind fun r =>
  (Bytearray.memcpy r.1 r.2 [0]).bind fun buf => stringOfBuffer buf r.2

/-- The loop of `unhex`, with the pairs of digits left. -/
def unhexLoop : Nat → Nat → Outcome Bytes
  | 0, _ => .done []
  | n + 1, i =>
    (s.byte i).bind fun hi => (s.byte (i + 1)).bind fun lo =>
    if i + 2 < 2 ^ 31 then
      (unhexLoop n (i + 2)).bind fun rest => .done ((hexValue hi <<< 4 ||| hexValue lo) :: rest)
    else .fault

/-- `unhex()`, with the bytes of its result. -/
def unhex : Outcome Bytes := s.unhexLoop ((s.cb + 1) / 2) 0

/-- `string asciiCode(in+i+1, 2); asciiCode.unhex().data()[0]` -/
def asciiVal (i : Nat) : Outcome UInt8 :=
  (s.bytes (i + 1) 2).bind fun asciiCode =>
  if h : asciiCode.length < 2 ^ 32 then
    (Text.whole asciiCode h).unhex.bind fun bytes =>
    match bytes with
    | b :: _ => .done b
    | [] => .fault
  else .fault

/-- The byte that the decoder writes for `in[i]`. -/
def decodeAt (i : Nat) : Outcome UInt8 :=
  (s.byte i).bind fun c =>
  if isChar '+' c then .done (UInt8.ofNat '-'.toNat)
  else if isChar '%' c then s.asciiVal i
  else .done c

/-- The loop of `urlDecode`, with the bytes of the input left; it writes one byte in each round. -/
def urlDecodeLoop : Nat → Nat → Outcome Bytes
  | 0, _ => .done []
  | n + 1, i =>
    (s.decodeAt i).bind fun b =>
    if i + 1 < 2 ^ 31 then (urlDecodeLoop n (i + 1)).bind fun rest => .done (b :: rest) else .fault

/-- `urlDecode()` -/
def urlDecode : Outcome Bytes :=
  (s.urlDecodeLoop s.cb 0).bind fun buf => stringOfBuffer (buf ++ [0]) buf.length

end Text

/-! ## What encoding should give -/

def isUpperHex (c : UInt8) : Bool := between '0' '9' c || between 'A' 'F' c

/-- Unreserved characters, pluses, and percent signs with two upper-case hex digits. -/
inductive UrlEncoded : Bytes → Prop
  | nil : UrlEncoded []
  | plain {c : UInt8} {w : Bytes} (h : asciiOk c = true ∨ isChar '+' c = true) (hw : UrlEncoded w) :
    UrlEncoded (c :: w)
  | percent {hi lo : UInt8} {w : Bytes} (hhi : isUpperHex hi = true) (hlo : isUpperHex lo = true)
    (hw : UrlEncoded w) :
    UrlEncoded (UInt8.ofNat '%'.toNat :: hi :: lo :: w)

/-- Encoding gives a URL-encoded string, and decoding that one the content again. -/
def UrlRoundTrips [Uninit] (s : Text) : Prop :=
  ∃ e, s.urlEncode = .done e ∧ UrlEncoded e ∧
    ∃ h : e.length < 2 ^ 32, (Text.whole e h).urlDecode = .done s.content

/-! ## The encoder -/

section Encode

variable {buf buf' e w : Bytes} {out out' i : Nat} {c : UInt8}

theorem memcpy_eq_done {block block' bytes : Bytes} {dst : Nat}
    (h : Bytearray.memcpy block dst bytes = .done block') :
    dst + bytes.length ≤ block.length ∧ block' = overwrite block dst bytes := by
  rw [Bytearray.memcpy] at h
  split_ifs at h with hroom
  exact ⟨hroom, (Outcome.done.inj h).symm⟩

theorem length_hexDigits (k n : Nat) : (hexDigits k n).length = k := by
  induction k generalizing n with
  | zero => rfl
  | succ k ih => rw [hexDigits, List.length_append, ih, List.length_singleton]

/-- `out` moves over bytes that were written. -/
theorem encodeChar_le (c : UInt8) :
    1 ≤ (encodeChar c).2 ∧ (encodeChar c).2 ≤ (encodeChar c).1.length := by
  rw [encodeChar]
  split_ifs
  · exact ⟨Nat.le_refl 1, Nat.le_refl 1⟩
  · exact ⟨Nat.le_refl 1, Nat.le_refl 1⟩
  · simp only [percentCode, List.length_append, List.length_cons]
    split_ifs
    · rw [length_hexDigits]
      decide
    · rw [length_hexDigits]
      decide

/-- The bytes of a character that stay when the next one is written. -/
def encodedChar (c : UInt8) : Bytes := (encodeChar c).1.take (encodeChar c).2

theorem length_encodedChar (c : UInt8) : (encodedChar c).length = (encodeChar c).2 := by
  rw [encodedChar, List.length_take, Nat.min_eq_left (encodeChar_le c).2]

/-- What a run of the loop leaves in the buffer. -/
theorem urlEncodeLoop_done (h : urlEncodeLoop w i buf out = .done (buf', out'))
    (hout : out ≤ buf.length) :
    buf'.length = buf.length ∧ out' = out + (w.flatMap encodedChar).length ∧ out' ≤ buf.length ∧
      buf'.take out' = buf.take out ++ w.flatMap encodedChar := by
  induction w generalizing i buf out with
  | nil =>
    cases h
    exact ⟨rfl, rfl, hout, (List.append_nil _).symm⟩
  | cons c w ih =>
    obtain ⟨buf₁, hcopy, h⟩ := Outcome.bind_eq_done h
    obtain ⟨hroom, rfl⟩ := memcpy_eq_done hcopy
    obtain ⟨-, hle⟩ := encodeChar_le c
    split_ifs at h with hi
    obtain ⟨hlen, hout', hfit, htake⟩ := ih h (by rw [length_overwrite hroom]; omega)
    rw [length_overwrite hroom] at hlen hfit
    refine ⟨hlen, ?_, hfit, ?_⟩
    · rw [hout', List.flatMap_cons, List.length_append, length_encodedChar, Nat.add_assoc]
    · rw [htake, take_overwrite_part hout hle, List.flatMap_cons, List.append_assoc, encodedChar]

/-- The result of an encoder that does not fail. -/
theorem urlEncode_eq_done [Uninit] {s : Text} (h : s.urlEncode = .done e) :
    e = s.content.flatMap encodedChar ∧ e.length < 2 ^ 31 ∧ e.length + 1 ≤ u32 (s.cb * 3 + 1) := by
  obtain ⟨⟨buf, out⟩, hloop, h⟩ := Outcome.bind_eq_done h
  obtain ⟨buf₁, hcopy, h⟩ := Outcome.bind_eq_done h
  obtain ⟨hroom, rfl⟩ := memcpy_eq_done hcopy
  obtain ⟨hlen, hout, -, htake⟩ := urlEncodeLoop_done hloop (Nat.zero_le _)
  rw [Uninit.length_block] at hlen
  simp only [List.length_singleton] at hroom
  have hkeep : (overwrite buf out [0]).take out = buf.take out := take_overwrite_start (by omega) _
  rw [stringOfBuffer] at h
  split_ifs at h with hlt
  obtain rfl := Outcome.done.inj h
  simp only at hlt
  have he : (overwrite buf out [0]).take out = s.content.flatMap encodedChar := by
    rw [hkeep, htake, List.take_zero, List.nil_append]
  rw [he]
  refine ⟨rfl, by omega, by omega⟩

theorem asciiOk_ne {ch : Char} (hch : asciiOk (UInt8.ofNat ch.toNat) = false)
    (h : asciiOk c = true) :
    isChar ch c = false := by
  rw [isChar, decide_eq_false_iff_not]
  rintro rfl
  exact Bool.false_ne_true (hch.symm.trans h)

theorem encodedChar_ok (h : asciiOk c = true) : encodedChar c = [c] := by
  rw [encodedChar, encodeChar, if_pos h]
  rfl

/-- Only what is written as it is, or as a plus, takes one byte. -/
theorem encodedChar_one (h : (encodeChar c).2 = 1) :
    asciiOk c = true ∨ (isChar ' ' c = true ∧ encodedChar c = [UInt8.ofNat '+'.toNat]) := by
  by_cases hok : asciiOk c = true
  · exact .inl hok
  · right
    rw [encodedChar]
    rw [encodeChar, if_neg hok] at h ⊢
    by_cases hsp : isChar ' ' c = true
    · rw [if_pos hsp]
      exact ⟨hsp, rfl⟩
    · rw [if_neg hsp] at h
      cases h

theorem length_le_encoded (w : Bytes) : w.length ≤ (w.flatMap encodedChar).length := by
  induction w with
  | nil => exact Nat.le_refl 0
  | cons c w ih =>
    have hpos := (encodeChar_le c).1
    rw [List.flatMap_cons, List.length_append, length_encodedChar, List.length_cons]
    omega

theorem encoded_one_of_length (h : (w.flatMap encodedChar).length ≤ w.length) :
    ∀ c ∈ w, (encodeChar c).2 = 1 := by
  induction w with
  | nil => nofun
  | cons c w ih =>
    have hpos := (encodeChar_le c).1
    have hrest := length_le_encoded w
    rw [List.flatMap_cons, List.length_append, length_encodedChar, List.length_cons] at h
    intro c' hc'
    rcases List.mem_cons.mp hc' with rfl | hc'
    · omega
    · exact ih (by omega) c' hc'

theorem encoded_ok (h : ∀ c ∈ w, asciiOk c = true) : w.flatMap encodedChar = w := by
  induction w with
  | nil => rfl
  | cons c w ih =>
    rw [List.flatMap_cons, encodedChar_ok (h c (List.mem_cons_self ..)),
      ih fun c' hc' => h c' (List.mem_cons_of_mem _ hc')]
    rfl

theorem urlEncoded_ok (h : ∀ c ∈ w, asciiOk c = true) : UrlEncoded w := by
  induction w with
  | nil => exact .nil
  | cons c w ih =>
    exact .plain (.inl (h c (List.mem_cons_self ..)))
      (ih fun c' hc' => h c' (List.mem_cons_of_mem _ hc'))

/-- Characters that stay as they are, one after the other. -/
theorem urlEncodeLoop_ok (h : ∀ c ∈ w, asciiOk c = true) (hi : i + w.length < 2 ^ 31)
    (hroom : out + w.length ≤ buf.length) :
    ∃ buf', urlEncodeLoop w i buf out = .done (buf', out + w.length) := by
  induction w generalizing i buf out with
  | nil => exact ⟨buf, rfl⟩
  | cons c w ih =>
    rw [List.length_cons] at hi hroom
    have hchar : encodeChar c = ([c], 1) := by
      rw [encodeChar, if_pos (h c (List.mem_cons_self ..))]
    have hone : out + [c].length ≤ buf.length := by
      rw [List.length_singleton]
      omega
    obtain ⟨buf', hrest⟩ := ih (fun c' hc' => h c' (List.mem_cons_of_mem _ hc'))
        (show i + 1 + w.length < 2 ^ 31 by omega)
      (show out + 1 + w.length ≤ (overwrite buf out [c]).length by
        rw [length_overwrite hone]; omega)
    refine ⟨buf', ?_⟩
    rw [urlEncodeLoop, hchar]
    simp only [Bytearray.memcpy, hone, ↓reduceIte, Outcome.bind_done]
    rw [if_pos (by omega), hrest, List.length_cons, Nat.add_assoc, Nat.add_comm 1]

theorem urlEncode_ok [Uninit] {s : Text} (h : ∀ c ∈ s.content, asciiOk c = true)
    (hsize : s.cb * 3 + 1 < 2 ^ 32) :
    s.urlEncode = .done s.content := by
  have hlen := s.length_content
  have hblock : (Uninit.block (u32 (s.cb * 3 + 1))).length = s.cb * 3 + 1 := by
    rw [Uninit.length_block, u32_of_lt hsize]
  obtain ⟨buf, hloop⟩ := urlEncodeLoop_ok (i := 0) h (show 0 + s.content.length < 2 ^ 31 by omega)
    (show 0 + s.content.length ≤ (Uninit.block (u32 (s.cb * 3 + 1))).length by omega)
  obtain ⟨hbuf, -, -, -⟩ := urlEncodeLoop_done hloop (Nat.zero_le _)
  obtain ⟨e, he⟩ : ∃ e, s.urlEncode = .done e := by
    rw [Text.urlEncode, hloop]
    simp only [Outcome.bind_done, Bytearray.memcpy, List.length_singleton, stringOfBuffer]
    rw [if_pos (by omega), Outcome.bind_done, if_pos (by omega)]
    exact ⟨_, rfl⟩
  rw [he, (urlEncode_eq_done he).1, encoded_ok h]

end Encode

/-! ## The decoder -/

section Decode

variable {s : Text} {w : Bytes} {n i : Nat}

theorem length_urlDecodeLoop (h : s.urlDecodeLoop n i = .done w) : w.length = n := by
  induction n generalizing i w with
  | zero =>
    cases h
    rfl
  | succ n ih =>
    obtain ⟨b, -, h⟩ := Outcome.bind_eq_done h
    split_ifs at h
    obtain ⟨rest, hrest, h⟩ := Outcome.bind_eq_done h
    cases h
    rw [List.length_cons, ih hrest]

theorem urlDecode_eq_done (h : s.urlDecode = .done w) : s.urlDecodeLoop s.cb 0 = .done w := by
  obtain ⟨buf, hloop, h⟩ := Outcome.bind_eq_done h
  rw [stringOfBuffer] at h
  split_ifs at h
  obtain rfl := Outcome.done.inj h
  rw [List.take_left]
  exact hloop

/-- The decoder never writes a space, unless one is in its input or percent-encoded. -/
theorem urlDecodeLoop_ne_space
    (hno : ∀ j c, j < i + n → s.byte j = .done c → isChar '%' c = false ∧ isChar ' ' c = false)
    (h : s.urlDecodeLoop n i = .done w) : ∀ b ∈ w, isChar ' ' b = false := by
  induction n generalizing i w with
  | zero =>
    cases h
    nofun
  | succ n ih =>
    obtain ⟨b, hb, h⟩ := Outcome.bind_eq_done h
    split_ifs at h
    obtain ⟨rest, hrest, h⟩ := Outcome.bind_eq_done h
    cases h
    intro b' hb'
    rcases List.mem_cons.mp hb' with rfl | hb'
    · obtain ⟨c, hc, hb⟩ := Outcome.bind_eq_done hb
      obtain ⟨hpct, hsp⟩ := hno i c (by omega) hc
      rw [hpct] at hb
      simp only [Bool.false_eq_true, ↓reduceIte] at hb
      split_ifs at hb
      · cases hb
        rfl
      · cases hb
        exact hsp
    · exact ih (fun j c hj hc => hno j c (by omega) hc) hrest b' hb'

/-- What is neither a plus nor a percent sign stays as it is. -/
theorem urlDecodeLoop_ok (hok : ∀ c ∈ s.content, asciiOk c = true) (hcb : s.cb < 2 ^ 31)
    (hn : i + n = s.cb) :
    s.urlDecodeLoop n i = .done (s.content.drop i) := by
  have hlen := s.length_content
  induction n generalizing i with
  | zero => rw [List.drop_eq_nil_of_le (by omega), Text.urlDecodeLoop]
  | succ n ih =>
    have hi : i < s.content.length := by omega
    have hc : asciiOk s.content[i] = true := hok _ (List.getElem_mem hi)
    have hbyte : s.byte i = .done s.content[i] := Text.byte_of_content (List.getElem?_eq_getElem hi)
    have hdecode : s.decodeAt i = .done s.content[i] := by
      rw [Text.decodeAt, hbyte, Outcome.bind_done, asciiOk_ne rfl hc, asciiOk_ne rfl hc]
      rfl
    rw [Text.urlDecodeLoop, hdecode, Outcome.bind_done, if_pos (by omega), ih (by omega),
      Outcome.bind_done, ← List.drop_eq_getElem_cons hi]

theorem urlDecode_ok (hok : ∀ c ∈ s.content, asciiOk c = true) (hcb : s.cb < 2 ^ 31) :
    s.urlDecode = .done s.content := by
  have hlen := s.length_content
  rw [Text.urlDecode, urlDecodeLoop_ok hok hcb (Nat.zero_add _), Outcome.bind_done, List.drop_zero,
    stringOfBuffer, if_pos (by omega), List.take_left]

end Decode

/-! ## There and back -/

/-- Decoding undoes encoding exactly for strings of unreserved characters, when the size of the
buffer fits. -/
theorem url_roundTrips_iff [Uninit] (s : Text) :
    UrlRoundTrips s ↔ (∀ c ∈ s.content, asciiOk c = true) ∧ s.cb * 3 + 1 < 2 ^ 32 := by
  have hlen := s.length_content
  have hcblt := s.cb_lt
  constructor
  · rintro ⟨e, henc, -, h32, hdec⟩
    obtain ⟨he, h31, hroom⟩ := urlEncode_eq_done henc
    have hloop := urlDecode_eq_done hdec
    have hcb : e.length = s.content.length := (length_urlDecodeLoop hloop).symm
    have hone : ∀ c ∈ s.content, (encodeChar c).2 = 1 := encoded_one_of_length (by rw [← he, hcb])
    have hplain : ∀ c ∈ e, asciiOk c = true ∨ c = UInt8.ofNat '+'.toNat := by
      intro c hc
      rw [he] at hc
      obtain ⟨c', hc', hmem⟩ := List.mem_flatMap.mp hc
      rcases encodedChar_one (hone c' hc') with hok | ⟨-, hplus⟩
      · rw [encodedChar_ok hok, List.mem_singleton] at hmem
        exact .inl (hmem ▸ hok)
      · rw [hplus, List.mem_singleton] at hmem
        exact .inr hmem
    have hno : ∀ j c, j < 0 + e.length → (Text.whole e h32).byte j = .done c →
        isChar '%' c = false ∧ isChar ' ' c = false := by
      intro j c hj hc
      have hmem : c ∈ e := by
        rw [Nat.zero_add] at hj
        have hbyte : (Text.whole e h32).byte j = .done e[j] :=
          Text.byte_of_content (by rw [Text.content_whole]; exact List.getElem?_eq_getElem hj)
        rw [Outcome.done.inj (hc.symm.trans hbyte)]
        exact List.getElem_mem hj
      rcases hplain c hmem with hok | rfl
      · exact ⟨asciiOk_ne rfl hok, asciiOk_ne rfl hok⟩
      · exact ⟨rfl, rfl⟩
    have hnospace := urlDecodeLoop_ne_space hno hloop
    refine ⟨?_, ?_⟩
    · intro c hc
      rcases encodedChar_one (hone c hc) with hok | ⟨hsp, -⟩
      · exact hok
      · exact absurd ((hnospace c hc).symm.trans hsp) Bool.false_ne_true
    · -- a buffer whose size wraps around is shorter than the string
      by_contra hbig
      rw [u32, Nat.mod_eq_sub_mod (by omega), Nat.mod_eq_of_lt (by omega)] at hroom
      omega
  · rintro ⟨hok, hsize⟩
    have hlt : s.content.length < 2 ^ 32 := by omega
    refine ⟨s.content, urlEncode_ok hok hsize, urlEncoded_ok hok, hlt, ?_⟩
    have hwhole : (Text.whole s.content hlt).content = s.content := Text.content_whole ..
    rw [urlDecode_ok (by rwa [hwhole]) (show s.content.length < 2 ^ 31 by omega), hwhole]

/-- Neither a space nor a slash comes back. -/
theorem url_roundTrips_fails :
    letI := zeroMemory
    ¬UrlRoundTrips (Text.whole [0x61, 0x20, 0x62] (by decide)) ∧
      ¬UrlRoundTrips (Text.whole [0x2F] (by decide)) := by
  let _ := zeroMemory
  have henc₁ : (Text.whole [0x61, 0x20, 0x62] (by decide)).urlEncode = .done [0x61, 0x2B, 0x62] :=
    rfl
  have hdec₁ : (Text.whole [0x61, 0x2B, 0x62] (by decide)).urlDecode = .done [0x61, 0x2D, 0x62] :=
    rfl
  have henc₂ : (Text.whole [0x2F] (by decide)).urlEncode = .done [0x25, 0x32, 0x46] := rfl
  have hdec₂ : (Text.whole [0x25, 0x32, 0x46] (by decide)).urlDecode = .done [0x2F, 0x32, 0x46] :=
    rfl
  constructor
  · rintro ⟨e, henc, -, h, hdec⟩
    obtain rfl := Outcome.done.inj (henc₁.symm.trans henc)
    cases hdec₁.symm.trans hdec
  · rintro ⟨e, henc, -, h, hdec⟩
    obtain rfl := Outcome.done.inj (henc₂.symm.trans henc)
    cases hdec₂.symm.trans hdec

end Libacorn
