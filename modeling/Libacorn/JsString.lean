import Mathlib.Data.List.TakeWhile
import Libacorn.Json
import Libacorn.CharIndex
import Libacorn.Bytestream

/-!
# Strings across the JavaScript boundary

`qjs::js_traits<acorn::string>` of libacorn.h, with `JS_NewStringLen` and
`JS_ToCStringLen` of js/quickjs.c and the UTF-8 functions of js/cutils.c they use.
The limit of the engine on the length of a string is left out.
-/

namespace Libacorn

open Support

/-! ## UTF-8 in js/cutils.c -/

/-- `unicode_to_utf8`; UTF-16 has no code point from `2^21` on. -/
def unicodeToUtf8 (c : Nat) : Bytes :=
  if c < 0x80 then [UInt8.ofNat c]
  else if c < 0x800 then [UInt8.ofNat (c >>> 6 ||| 0xc0), UInt8.ofNat (c &&& 0x3f ||| 0x80)]
  else if c < 0x10000 then
    [UInt8.ofNat (c >>> 12 ||| 0xe0), UInt8.ofNat ((c >>> 6) &&& 0x3f ||| 0x80),
      UInt8.ofNat (c &&& 0x3f ||| 0x80)]
  else
    [UInt8.ofNat (c >>> 18 ||| 0xf0), UInt8.ofNat ((c >>> 12) &&& 0x3f ||| 0x80),
      UInt8.ofNat ((c >>> 6) &&& 0x3f ||| 0x80), UInt8.ofNat (c &&& 0x3f ||| 0x80)]

/-- The number of further bytes a lead byte announces. -/
def leadTail (c : Nat) : Option Nat :=
  if 0xc0 ≤ c ∧ c ≤ 0xdf then some 1
  else if 0xe0 ≤ c ∧ c ≤ 0xef then some 2
  else if 0xf0 ≤ c ∧ c ≤ 0xf7 then some 3
  else if 0xf8 ≤ c ∧ c ≤ 0xfb then some 4
  else if 0xfc ≤ c ∧ c ≤ 0xfd then some 5
  else none

/-- `utf8_first_code_mask[l - 1]` -/
def firstCodeMask (l : Nat) : Nat := 2 ^ (6 - l) - 1

/-- `utf8_min_code[l - 1]` -/
def minCode (l : Nat) : Nat := [0x80, 0x800, 0x10000, 0x00200000, 0x04000000].getD (l - 1) 0

/-- The loop of `unicode_from_utf8` over `l` bytes. -/
def continueCode : Nat → Nat → Bytes → Option (Nat × Bytes)
  | 0, c, p => some (c, p)
  | l + 1, c, b :: p =>
    if b.toNat < 0x80 ∨ 0xc0 ≤ b.toNat then none
    else continueCode l ((c <<< 6) ||| (b.toNat &&& 0x3f)) p
  | _ + 1, _, [] => none

/-- `unicode_from_utf8`: the code point and the bytes after it, or `none` for -1. -/
def unicodeFromUtf8 : Bytes → Option (Nat × Bytes)
  | [] => none
  | b :: p =>
    if b.toNat < 0x80 then some (b.toNat, p)
    else do
      let l ← leadTail b.toNat
      if l > p.length then none
      else do
        let (c, next) ← continueCode l (b.toNat &&& firstCodeMask l) p
        if c < minCode l then none else some (c, next)

/-! ## Strings of js/quickjs.c -/

def isHiSurrogate (c : Nat) : Bool := c >>> 10 = 0xD800 >>> 10
def isLoSurrogate (c : Nat) : Bool := c >>> 10 = 0xDC00 >>> 10
def getHiSurrogate (c : Nat) : Nat := c >>> 10 - 0x10000 >>> 10 + 0xD800
def getLoSurrogate (c : Nat) : Nat := (c &&& 0x3FF) ||| 0xDC00
def fromSurrogate (hi lo : Nat) : Nat := 0x10000 + 0x400 * (hi - 0xD800) + (lo - 0xDC00)

/-- `JSString`: the 16-bit units, and whether they are stored as such. -/
structure JsString where
  isWideChar : Bool
  units : List Nat

def isTailByte (b : UInt8) : Bool := 0x80 ≤ b.toNat ∧ b.toNat < 0xc0

/-- Skip the invalid bytes. -/
def skipInvalid (p : Bytes) : Bytes :=
  match p.dropWhile isTailByte with
  | [] => []
  | _ :: p => p.dropWhile isTailByte

/-- The loop of `JS_NewStringLen`, with at most `n` more units or pairs. -/
def decodeUnits : Nat → Bytes → List Nat
  | 0, _ => []
  | _ + 1, [] => []
  | n + 1, b :: p =>
    if b.toNat < 128 then b.toNat :: decodeUnits n p
    else
      match unicodeFromUtf8 (b :: p) with
      | some (c, next) =>
        if c < 0x10000 then c :: decodeUnits n next
        else if c ≤ 0x10FFFF then getHiSurrogate c :: getLoSurrogate c :: decodeUnits n next
        else 0xfffd :: decodeUnits n (skipInvalid (b :: p))
      | none => 0xfffd :: decodeUnits n (skipInvalid (b :: p))

/-- `JS_NewStringLen(ctx, buf, buf_len)` on the `buf_len` bytes; every step takes at
least one of them. A unit from 0x100 on makes the buffer wide. -/
def newStringLen (buf : Bytes) : JsString where
  isWideChar := (decodeUnits buf.length buf).any (0x100 ≤ ·)
  units := decodeUnits buf.length buf

/-- The loop of `JS_ToCStringLen2` over a wide string. -/
def encodeUnits : List Nat → Bytes
  | [] => []
  | [c] => if c < 0x80 then [UInt8.ofNat c] else unicodeToUtf8 c
  | c :: c1 :: src =>
    if c < 0x80 then UInt8.ofNat c :: encodeUnits (c1 :: src)
    else if isHiSurrogate c ∧ isLoSurrogate c1 then
      unicodeToUtf8 (fromSurrogate c c1) ++ encodeUnits src
    else unicodeToUtf8 c ++ encodeUnits (c1 :: src)

/-- The loop over a string of bytes. -/
def encodeLatin1 (src : List Nat) : Bytes :=
  src.flatMap fun c =>
    if c < 0x80 then [UInt8.ofNat c]
    else [UInt8.ofNat (c >>> 6 ||| 0xc0), UInt8.ofNat (c &&& 0x3f ||| 0x80)]

/-- `JS_ToCStringLen`: the bytes before the terminator, `*plen` of them. -/
def toCStringLen (str : JsString) : Bytes :=
  if str.isWideChar then encodeUnits str.units else encodeLatin1 str.units

/-! ## js_traits<acorn::string> -/

/-- The content of `string(p, cb)`: a negative length asks for `strlen`, and a
length that stays negative puts the terminator before the block. -/
def stringOf (p : Bytes) : Outcome Bytes :=
  let cb := int32 p.length
  let cb := if cb < 0 then int32 (p.takeWhile (· ≠ 0)).length else cb
  if cb < 0 then .fault else .done (p.take cb.toNat)

/-- `JS_NewStringLen(ctx, str.c_str(), str.length())` -/
def wrap (str : Text) : Outcome JsString :=
  str.length.bind fun len =>
  match str.cStr with
  | none => .fault
  | some buf => if len ≤ buf.length then .done (newStringLen (buf.take len)) else .fault

/-- The content of the string that `unwrap` returns. -/
def unwrap (v : JsString) : Outcome Bytes := stringOf (toCStringLen v)

/-! ## Decoding and encoding characters -/

theorem unicodeToUtf8_toNat (c : Char) : unicodeToUtf8 c.toNat = (Glyph.ofChar c).bytes := by
  have hv := toNat_le c
  have h := encodeUtf8_toNat c
  unfold encodeUtf8 at h
  unfold unicodeToUtf8
  by_cases h1 : c.toNat ≤ 0x7F
  · rw [if_pos h1] at h
    rw [if_pos (by omega)]
    exact Option.some.inj h
  · rw [if_neg h1] at h
    rw [if_neg (by omega)]
    by_cases h2 : c.toNat ≤ 0x7FF
    · rw [if_pos h2] at h
      rw [if_pos (by omega), ← Option.some.inj h, Nat.or_comm, Nat.or_comm _ 0x80]
    · rw [if_neg h2] at h
      rw [if_neg (by omega)]
      by_cases h3 : c.toNat ≤ 0xFFFF
      · rw [if_pos h3] at h
        rw [if_pos (by omega), ← Option.some.inj h, Nat.or_comm, Nat.or_comm _ 0x80,
          Nat.or_comm _ 0x80]
      · rw [if_neg h3, if_pos hv] at h
        rw [if_neg (by omega), ← Option.some.inj h, Nat.or_comm, Nat.or_comm _ 0x80,
          Nat.or_comm _ 0x80, Nat.or_comm _ 0x80]

theorem toNat_contByte (x : Nat) : (contByte x).toNat = x % 64 + 0x80 := by
  rw [contByte, UInt8.toNat_ofNat']
  omega

theorem continueCode_contByte (l a x : Nat) (p : Bytes) :
    continueCode (l + 1) a (contByte x :: p) = continueCode l (a * 64 + x % 64) p := by
  have hx := toNat_contByte x
  have hor : a * 2 ^ 6 ||| x % 64 = a * 64 + x % 64 :=
    or_eq_add a (show x % 64 < 2 ^ 6 from Nat.mod_lt _ (by decide))
  rw [continueCode, if_neg (by omega), contByte_bits, Nat.shiftLeft_eq, hor]

theorem toNat_lead {x m k : Nat} (hx : x < m) (hk : k + m ≤ 256) :
    (UInt8.ofNat (x + k)).toNat = x + k := by
  rw [UInt8.toNat_ofNat']
  omega

theorem unicodeFromUtf8_lead {b : UInt8} {p next : Bytes} {l a c : Nat} (hb : 0x80 ≤ b.toNat)
    (hl : leadTail b.toNat = some l) (hp : l ≤ p.length) (hm : b.toNat &&& firstCodeMask l = a)
    (hc : continueCode l a p = some (c, next)) (hmin : minCode l ≤ c) :
    unicodeFromUtf8 (b :: p) = some (c, next) := by
  simp only [unicodeFromUtf8, if_neg (Nat.not_lt.mpr hb), hl, Option.bind_eq_bind, Option.bind_some,
    gt_iff_lt, if_neg (Nat.not_lt.mpr hp), hm, hc, if_neg (Nat.not_lt.mpr hmin)]

/-- The decoder on a character that is not ASCII. -/
theorem unicodeFromUtf8_char {c : Char} (h : 0x80 ≤ c.toNat) (rest : Bytes) :
    unicodeFromUtf8 ((Glyph.ofChar c).bytes ++ rest) = some (c.toNat, rest) := by
  have hv := toNat_le c
  unfold Glyph.ofChar Glyph.ofCode
  generalize c.toNat = v at h hv ⊢
  split_ifs with h1 h2 h3
  · omega
  · have hx : v / 2 ^ 6 % 32 < 32 := Nat.mod_lt _ (by decide)
    have hb := toNat_lead hx (show 0xC0 + 32 ≤ 256 by decide)
    have hm : (UInt8.ofNat (v / 2 ^ 6 % 32 + 0xC0)).toNat &&& firstCodeMask 1 = v / 2 ^ 6 % 32 :=
      lead_bits 5 (m := 32) (by decide) (by decide) (by decide) hx
    have hl : leadTail (v / 2 ^ 6 % 32 + 0xC0) = some 1 := if_pos (by omega)
    have hc : v / 2 ^ 6 % 32 * 64 + v % 64 = v := by omega
    simp only [Glyph.bytes, List.cons_append, List.nil_append]
    refine unicodeFromUtf8_lead (by omega) (by rw [hb]; exact hl) ?_ hm ?_ (show 0x80 ≤ v by omega)
    · simp only [List.length_cons]
      omega
    · simp only [continueCode_contByte, hc]
      rfl
  · have hx : v / 2 ^ 12 % 16 < 16 := Nat.mod_lt _ (by decide)
    have hb := toNat_lead hx (show 0xE0 + 16 ≤ 256 by decide)
    have hm : (UInt8.ofNat (v / 2 ^ 12 % 16 + 0xE0)).toNat &&& firstCodeMask 2 = v / 2 ^ 12 % 16 :=
      lead_bits 4 (m := 16) (by decide) (by decide) (by decide) hx
    have hl : leadTail (v / 2 ^ 12 % 16 + 0xE0) = some 2 := by
      rw [leadTail, if_neg (by omega), if_pos (by omega)]
    have hc : (v / 2 ^ 12 % 16 * 64 + v / 2 ^ 6 % 64) * 64 + v % 64 = v := by omega
    simp only [Glyph.bytes, List.cons_append, List.nil_append]
    refine unicodeFromUtf8_lead (by omega) (by rw [hb]; exact hl) ?_ hm ?_ (show 0x800 ≤ v by omega)
    · simp only [List.length_cons]
      omega
    · simp only [continueCode_contByte, hc]
      rfl
  · have hx : v / 2 ^ 18 % 8 < 8 := Nat.mod_lt _ (by decide)
    have hb := toNat_lead hx (show 0xF0 + 8 ≤ 256 by decide)
    have hm : (UInt8.ofNat (v / 2 ^ 18 % 8 + 0xF0)).toNat &&& firstCodeMask 3 = v / 2 ^ 18 % 8 :=
      lead_bits 3 (m := 8) (by decide) (by decide) (by decide) hx
    have hl : leadTail (v / 2 ^ 18 % 8 + 0xF0) = some 3 := by
      rw [leadTail, if_neg (by omega), if_neg (by omega), if_pos (by omega)]
    have hc : ((v / 2 ^ 18 % 8 * 64 + v / 2 ^ 12 % 64) * 64 + v / 2 ^ 6 % 64) * 64 + v % 64 =
        v := by
      omega
    simp only [Glyph.bytes, List.cons_append, List.nil_append]
    refine unicodeFromUtf8_lead (by omega) (by rw [hb]; exact hl) ?_ hm ?_
      (show 0x10000 ≤ v by omega)
    · simp only [List.length_cons]
      omega
    · simp only [continueCode_contByte, hc]
      rfl

/-- The UTF-16 units of a character. -/
def utf16Char (c : Char) : List Nat :=
  if c.toNat < 0x10000 then [c.toNat] else [getHiSurrogate c.toNat, getLoSurrogate c.toNat]

def utf16 (cs : List Char) : List Nat := cs.flatMap utf16Char

theorem decodeUnits_char (n : Nat) (c : Char) (rest : Bytes) :
    decodeUnits (n + 1) ((Glyph.ofChar c).bytes ++ rest) = utf16Char c ++ decodeUnits n rest := by
  have hv := toNat_le c
  by_cases h : c.toNat < 0x80
  · have hb : (UInt8.ofNat (c.toNat % 128)).toNat = c.toNat := by
      rw [UInt8.toNat_ofNat']
      omega
    have hg : (Glyph.ofChar c).bytes = [UInt8.ofNat (c.toNat % 128)] := by
      rw [Glyph.ofChar, Glyph.ofCode, if_pos (by omega)]
      rfl
    rw [hg, List.singleton_append, decodeUnits, hb, if_pos h, utf16Char, if_pos (by omega)]
    rfl
  · have hdec := unicodeFromUtf8_char (Nat.le_of_not_lt h) rest
    have hhead : ¬(Glyph.ofChar c).head.toNat < 128 := by
      intro hlt
      rw [Glyph.bytes, List.cons_append, unicodeFromUtf8, if_pos hlt] at hdec
      have := congrArg Prod.fst (Option.some.inj hdec)
      simp only at this
      omega
    rw [Glyph.bytes, List.cons_append] at hdec ⊢
    rw [decodeUnits, if_neg hhead, hdec]
    simp only [utf16Char]
    split
    · rfl
    · rfl

theorem decodeUnits_utf8 {n : Nat} (cs : List Char) (rest : Bytes) :
    decodeUnits (cs.length + n) (utf8 cs ++ rest) = utf16 cs ++ decodeUnits n rest := by
  induction cs with
  | nil => rw [List.length_nil, Nat.zero_add]; rfl
  | cons c cs ih =>
    have h : utf8 (c :: cs) = (Glyph.ofChar c).bytes ++ utf8 cs := by
      rw [← utf8EncodeChar_eq]
      rfl
    rw [h, List.append_assoc, List.length_cons, Nat.add_right_comm, decodeUnits_char, ih]
    simp [utf16]

theorem isHiSurrogate_eq (c : Nat) : isHiSurrogate c = decide (0xD800 ≤ c ∧ c < 0xDC00) := by
  simp only [isHiSurrogate, Nat.shiftRight_eq_div_pow]
  exact decide_eq_decide.mpr (by omega)

theorem isLoSurrogate_eq (c : Nat) : isLoSurrogate c = decide (0xDC00 ≤ c ∧ c < 0xE000) := by
  simp only [isLoSurrogate, Nat.shiftRight_eq_div_pow]
  exact decide_eq_decide.mpr (by omega)

theorem getLoSurrogate_eq (c : Nat) : getLoSurrogate c = c % 1024 + 0xDC00 := by
  have hmask : c &&& 0x3FF = c % 1024 := and_mask (n := 10) c
  have hor : 0xDC00 ||| c % 1024 = 0xDC00 + c % 1024 :=
    or_eq_add 55 (show c % 1024 < 2 ^ 10 from Nat.mod_lt _ (by decide))
  rw [getLoSurrogate, hmask, Nat.or_comm, hor, Nat.add_comm]

/-- A unit that starts no pair. -/
theorem encodeUnits_single {c : Nat} (h : isHiSurrogate c = false) (us : List Nat) :
    encodeUnits (c :: us) = unicodeToUtf8 c ++ encodeUnits us := by
  have hascii : c < 0x80 → unicodeToUtf8 c = [UInt8.ofNat c] := fun hc => if_pos hc
  cases us with
  | nil =>
    simp only [encodeUnits, List.append_nil]
    split
    · rename_i hc
      exact (hascii hc).symm
    · rfl
  | cons c1 us =>
    simp only [encodeUnits, h]
    split
    · rename_i hc
      rw [hascii hc]
      rfl
    · simp

theorem encodeUnits_char (c : Char) (us : List Nat) :
    encodeUnits (utf16Char c ++ us) = (Glyph.ofChar c).bytes ++ encodeUnits us := by
  have hv := toNat_le c
  have hvalid : c.toNat < 0xD800 ∨ 0xDFFF < c.toNat := by
    rcases c.valid with h | ⟨h, _⟩
    · exact .inl h
    · exact .inr h
  rw [← unicodeToUtf8_toNat, utf16Char]
  split
  · rw [List.singleton_append, encodeUnits_single]
    rw [isHiSurrogate_eq]
    exact decide_eq_false (by omega)
  · have hhi : getHiSurrogate c.toNat = c.toNat / 1024 - 64 + 0xD800 := by
      rw [getHiSurrogate, Nat.shiftRight_eq_div_pow]
      rfl
    have hlo := getLoSurrogate_eq c.toNat
    have h1 : isHiSurrogate (getHiSurrogate c.toNat) = true := by
      rw [isHiSurrogate_eq]
      exact decide_eq_true (by omega)
    have h2 : isLoSurrogate (getLoSurrogate c.toNat) = true := by
      rw [isLoSurrogate_eq]
      exact decide_eq_true (by omega)
    have h3 : fromSurrogate (getHiSurrogate c.toNat) (getLoSurrogate c.toNat) = c.toNat := by
      unfold fromSurrogate
      omega
    simp only [List.cons_append, List.nil_append, encodeUnits, h1, h2, h3, and_self, ↓reduceIte]
    rw [if_neg (by omega)]

theorem encodeUnits_utf16 (cs : List Char) : encodeUnits (utf16 cs) = utf8 cs := by
  induction cs with
  | nil => rfl
  | cons c cs ih =>
    have h : utf8 (c :: cs) = (Glyph.ofChar c).bytes ++ utf8 cs := by
      rw [← utf8EncodeChar_eq]
      rfl
    rw [h, ← ih, ← encodeUnits_char]
    rfl

/-- The two loops of `JS_ToCStringLen2` agree on small units. -/
theorem encodeLatin1_eq {us : List Nat} (h : ∀ u ∈ us, u < 0x100) :
    encodeLatin1 us = encodeUnits us := by
  induction us with
  | nil => rfl
  | cons u us ih =>
    have hu := h u (List.mem_cons_self ..)
    have hhi : isHiSurrogate u = false := by
      rw [isHiSurrogate_eq]
      exact decide_eq_false (by omega)
    rw [encodeUnits_single hhi, ← ih fun u' hu' => h u' (List.mem_cons_of_mem _ hu'), encodeLatin1,
      List.flatMap_cons]
    congr 1
    rw [unicodeToUtf8]
    split
    · rfl
    · rw [if_pos (by omega)]

theorem toCStringLen_newStringLen (buf : Bytes) :
    toCStringLen (newStringLen buf) = encodeUnits (decodeUnits buf.length buf) := by
  rw [toCStringLen]
  split
  · rfl
  · rename_i hw
    apply encodeLatin1_eq
    intro u hu
    by_contra hge
    apply hw
    simp only [newStringLen, List.any_eq_true]
    exact ⟨u, hu, decide_eq_true (Nat.le_of_not_lt hge)⟩

/-! ## A text cut inside a character -/

/-- The replacement character. -/
def replacement : Char := Char.ofNat 0xFFFD

/-- The bytes of a character that is not ASCII. -/
theorem ofChar_shape {c : Char} (h : 0x80 ≤ c.toNat) :
    0xc0 ≤ (Glyph.ofChar c).head.toNat ∧
      leadTail (Glyph.ofChar c).head.toNat = some (Glyph.ofChar c).tail.length ∧
      ∀ b ∈ (Glyph.ofChar c).tail, isTailByte b = true := by
  have htail : ∀ x, isTailByte (contByte x) = true := by
    intro x
    have := toNat_contByte x
    exact decide_eq_true (by omega)
  unfold Glyph.ofChar Glyph.ofCode
  generalize c.toNat = v at h ⊢
  split_ifs with h1 h2 h3
  · omega
  · have hb := toNat_lead (Nat.mod_lt (v / 2 ^ 6) (show 0 < 32 by decide))
        (show 0xC0 + 32 ≤ 256 by decide)
    refine ⟨by simp only [hb]; omega, ?_, by simp [htail]⟩
    simp only [hb, leadTail]
    rw [if_pos (by omega)]
    rfl
  · have hb := toNat_lead (Nat.mod_lt (v / 2 ^ 12) (show 0 < 16 by decide))
        (show 0xE0 + 16 ≤ 256 by decide)
    refine ⟨by simp only [hb]; omega, ?_, by simp [htail]⟩
    simp only [hb, leadTail]
    rw [if_neg (by omega), if_pos (by omega)]
    rfl
  · have hb := toNat_lead (Nat.mod_lt (v / 2 ^ 18) (show 0 < 8 by decide))
        (show 0xF0 + 8 ≤ 256 by decide)
    refine ⟨by simp only [hb]; omega, ?_, by simp [htail]⟩
    simp only [hb, leadTail]
    rw [if_neg (by omega), if_neg (by omega), if_pos (by omega)]
    rfl

/-- Some but not all bytes of a character. -/
def PartOf (c : Char) (part : Bytes) : Prop :=
  part ≠ [] ∧ ∃ more, more ≠ [] ∧ part ++ more = (Glyph.ofChar c).bytes

/-- An incomplete character at the end becomes the replacement character. -/
theorem decodeUnits_part {c : Char} {part : Bytes} (h : PartOf c part) (n : Nat) :
    decodeUnits (n + 1) part = utf16 [replacement] := by
  obtain ⟨hne, more, hmore, heq⟩ := h
  obtain ⟨b, t, rfl⟩ := List.exists_cons_of_ne_nil hne
  rw [Glyph.bytes, List.cons_append, List.cons.injEq] at heq
  obtain ⟨rfl, htail⟩ := heq
  have hge : 0x80 ≤ c.toNat := by
    by_contra hlt
    have : (Glyph.ofChar c).tail = [] := by
      rw [Glyph.ofChar, Glyph.ofCode, if_pos (by omega)]
    rw [this] at htail
    exact hmore (List.append_eq_nil_iff.mp htail).2
  obtain ⟨hhead, hlead, hall⟩ := ofChar_shape hge
  have hshort : t.length < (Glyph.ofChar c).tail.length := by
    rw [← htail, List.length_append]
    have := List.length_pos_iff.mpr hmore
    omega
  have hnone : unicodeFromUtf8 ((Glyph.ofChar c).head :: t) = none := by
    simp only [unicodeFromUtf8, if_neg (show ¬(Glyph.ofChar c).head.toNat < 0x80 by omega), hlead,
      Option.bind_eq_bind, Option.bind_some, gt_iff_lt, hshort, ↓reduceIte]
  have hskip : skipInvalid ((Glyph.ofChar c).head :: t) = [] := by
    have h1 : isTailByte (Glyph.ofChar c).head = false := decide_eq_false (by omega)
    have h2 : t.dropWhile isTailByte = [] := by
      rw [List.dropWhile_eq_nil_iff]
      intro b hb
      exact hall b (by rw [← htail]; exact List.mem_append_left _ hb)
    simp only [skipInvalid, List.dropWhile_cons, h1, Bool.false_eq_true, ↓reduceIte, h2]
  have hnil : decodeUnits n [] = [] := by cases n <;> rfl
  rw [decodeUnits, if_neg (by omega), hnone, hskip]
  simp only [hnil]
  rfl

/-- A prefix of a text ends between two characters or inside one. -/
theorem take_utf8 (cs : List Char) (n : Nat) :
    ∃ pre post part, cs = pre ++ post ∧ (utf8 cs).take n = utf8 pre ++ part ∧
      (part = [] ∨ ∃ c post', post = c :: post' ∧ PartOf c part) := by
  induction cs generalizing n with
  | nil => exact ⟨[], [], [], rfl, by simp, .inl rfl⟩
  | cons c cs ih =>
    have h : utf8 (c :: cs) = (Glyph.ofChar c).bytes ++ utf8 cs := by
      rw [← utf8EncodeChar_eq]
      rfl
    by_cases h0 : n = 0
    · exact ⟨[], c :: cs, [], rfl, by simp [h0], .inl rfl⟩
    · by_cases hn : n < (Glyph.ofChar c).bytes.length
      · refine ⟨[], c :: cs, (Glyph.ofChar c).bytes.take n, rfl, ?_, .inr ⟨c, cs, rfl, ?_, ?_⟩⟩
        · rw [h, List.take_append_of_le_length (Nat.le_of_lt hn)]
          rfl
        · intro hnil
          have := congrArg List.length hnil
          rw [List.length_take, List.length_nil] at this
          omega
        · refine ⟨(Glyph.ofChar c).bytes.drop n, ?_, List.take_append_drop ..⟩
          intro hnil
          have := congrArg List.length hnil
          rw [List.length_drop, List.length_nil] at this
          omega
      · obtain ⟨pre, post, part, rfl, htake, hpart⟩ := ih (n - (Glyph.ofChar c).bytes.length)
        refine ⟨c :: pre, post, part, rfl, ?_, hpart⟩
        have hpre : utf8 (c :: pre) = (Glyph.ofChar c).bytes ++ utf8 pre := by
          rw [← utf8EncodeChar_eq]
          rfl
        rw [h, List.take_append, List.take_of_length_le (Nat.le_of_not_lt hn), htake, hpre,
          List.append_assoc]

/-- The characters that come back from a prefix. -/
def survivors (pre : List Char) (part : Bytes) : List Char :=
  if part = [] then pre else pre ++ [replacement]

theorem toCStringLen_prefix (pre : List Char) {part : Bytes}
    (h : part = [] ∨ ∃ c, PartOf c part) :
    toCStringLen (newStringLen (utf8 pre ++ part)) = utf8 (survivors pre part) := by
  have hle := length_le_length_utf8 pre
  rw [toCStringLen_newStringLen, List.length_append,
    show (utf8 pre).length + part.length = pre.length +
      ((utf8 pre).length - pre.length + part.length)
      by omega, decodeUnits_utf8]
  rcases h with rfl | ⟨c, hc⟩
  · have hnil : ∀ m, decodeUnits m [] = [] := by
      intro m
      cases m <;> rfl
    rw [hnil, List.append_nil, encodeUnits_utf16]
    rfl
  · have hpos := List.length_pos_iff.mpr hc.1
    obtain ⟨m, hm⟩ : ∃ m, (utf8 pre).length - pre.length + part.length = m + 1 :=
      ⟨(utf8 pre).length - pre.length + part.length - 1, by omega⟩
    rw [hm, decodeUnits_part hc, survivors, if_neg hc.1, ← encodeUnits_utf16]
    simp [utf16]

/-! ## The round trip -/

/-- `unwrap(wrap(s))` has the same content as `s`. -/
def JsRoundTrips (s : Text) : Prop := ∃ v, wrap s = .done v ∧ unwrap v = .done s.content

/-- ASCII, or ASCII and one replacement character at the end. -/
def JsSafe (cs : List Char) : Prop :=
  ∃ pre, (∀ c ∈ pre, c.toNat < 0x80) ∧ (cs = pre ∨ cs = pre ++ [replacement])

/-- Only ASCII texts have as many characters as bytes. -/
theorem utf8_length_eq_iff (cs : List Char) :
    (utf8 cs).length = cs.length ↔ ∀ c ∈ cs, c.toNat < 0x80 := by
  induction cs with
  | nil => simp
  | cons c cs ih =>
    have h : utf8 (c :: cs) = (Glyph.ofChar c).bytes ++ utf8 cs := by
      rw [← utf8EncodeChar_eq]
      rfl
    have hge := length_le_length_utf8 cs
    have hone : (Glyph.ofChar c).bytes.length = 1 ↔ c.toNat < 0x80 := by
      unfold Glyph.ofChar Glyph.ofCode Glyph.bytes
      split_ifs with h1 h2 h3 <;> simp <;> omega
    have hpos := (Glyph.ofChar c).length_bytes_pos
    rw [h, List.length_append, List.length_cons, List.forall_mem_cons, ← hone, ← ih]
    omega

/-- A part of a character is shorter than the character. -/
theorem PartOf.not_ascii {c : Char} {part : Bytes} (h : PartOf c part) : ¬c.toNat < 0x80 := by
  obtain ⟨hne, more, hmore, heq⟩ := h
  intro hlt
  have hlen := congrArg List.length heq
  have hone : (Glyph.ofChar c).bytes.length = 1 := by
    rw [Glyph.ofChar, Glyph.ofCode, if_pos (by omega)]
    rfl
  have := List.length_pos_iff.mpr hne
  have := List.length_pos_iff.mpr hmore
  rw [List.length_append] at hlen
  omega

/-- Cutting a text after as many bytes as it has characters. -/
theorem survivors_eq_iff {pre post : List Char} {part : Bytes}
    (hpart : part = [] ∨ ∃ c post', post = c :: post' ∧ PartOf c part)
    (hcut : (pre ++ post).length = (utf8 pre).length + part.length) :
    survivors pre part = pre ++ post ↔ JsSafe (pre ++ post) := by
  have hge := length_le_length_utf8 pre
  rw [List.length_append] at hcut
  constructor
  · intro heq
    rw [survivors] at heq
    split at heq
    · rename_i hnil
      have hpost : post = [] := List.self_eq_append_right.mp heq
      subst hpost hnil
      refine ⟨pre, (utf8_length_eq_iff pre).mp ?_, .inl (List.append_nil pre)⟩
      simp only [List.length_nil] at hcut
      omega
    · rename_i hne
      obtain rfl := List.append_cancel_left heq
      have hpos := List.length_pos_iff.mpr hne
      refine ⟨pre, (utf8_length_eq_iff pre).mp ?_, .inr rfl⟩
      rw [List.length_singleton] at hcut
      omega
  · rintro ⟨q, hq, heq | heq⟩
    · -- all characters are ASCII, so none is cut
      have hpre : ∀ c ∈ pre, c.toNat < 0x80 := fun c hc => hq c (heq ▸ List.mem_append_left _ hc)
      have hlen := (utf8_length_eq_iff pre).mpr hpre
      rcases hpart with rfl | ⟨c, post', rfl, hc⟩
      · have hpost : post = [] :=
          List.length_eq_zero_iff.mp (by simp only [List.length_nil] at hcut; omega)
        rw [survivors, if_pos rfl, hpost, List.append_nil]
      · exact absurd (hq c (heq ▸ List.mem_append_right _ (List.mem_cons_self ..))) hc.not_ascii
    · rcases List.eq_nil_or_concat post with rfl | ⟨post₀, x, rfl⟩
      · -- the last character takes three bytes
        rw [List.append_nil] at heq
        have hrep : (utf8 [replacement]).length = 3 := by decide
        have hqlen := length_le_length_utf8 q
        subst heq
        rw [utf8_append, List.length_append, List.length_append, List.length_singleton,
          List.length_nil] at hcut
        omega
      · rw [List.concat_eq_append, ← List.append_assoc] at heq
        obtain ⟨hq', hx⟩ := List.append_inj' heq rfl
        obtain rfl : x = replacement := List.singleton_inj.mp hx
        have hpre : ∀ c ∈ pre, c.toNat < 0x80 := fun c hc => hq c (hq' ▸ List.mem_append_left _ hc)
        have hlen := (utf8_length_eq_iff pre).mpr hpre
        rw [List.concat_eq_append] at hcut hpart ⊢
        rcases hpart with rfl | ⟨c, post', hpost, hc⟩
        · rw [List.length_append, List.length_singleton, List.length_nil] at hcut
          omega
        · cases post₀ with
          | nil => rw [survivors, if_neg hc.1, List.nil_append]
          | cons d post₀ =>
            obtain ⟨rfl, -⟩ := List.cons.inj hpost
            exact absurd (hq d (hq' ▸ List.mem_append_right _ (List.mem_cons_self ..))) hc.not_ascii

theorem wrap_whole {s : Text} (hw : s.Whole) {cs : List Char} (hc : s.content = utf8 cs)
    (hlen : cs.length < 2 ^ 31) : wrap s = .done (newStringLen ((utf8 cs).take cs.length)) := by
  have hcount : s.length = .done cs.length := by
    rw [(hw.holds (by rw [hc, utf8_eq_flat])).length_eq, List.length_map, if_pos hlen]
  have hmem : s.mem = utf8 cs ++ [0] := by rw [hw.mem_eq, hc]
  have hle := length_le_length_utf8 cs
  have hcb : s.cb = (utf8 cs).length := by rw [← hc, s.length_content]
  have hcstr : s.cStr = some (utf8 cs ++ [0]) := by
    rw [Text.cStr, if_neg (by simp [hmem]), if_neg (by rw [hw.offset_eq, hmem, hcb]; simp), hmem]
  rw [wrap, hcount, Outcome.bind_done, hcstr]
  simp only [List.length_append, List.length_singleton]
  rw [if_pos (by omega), List.take_append_of_le_length hle]

/-- Below `2^31` bytes the constructor takes all of them; up to `2^32` it fails. -/
theorem stringOf_eq {p : Bytes} (hz : 0 ∉ p) (hlen : p.length < 2 ^ 32) :
    stringOf p = if p.length < 2 ^ 31 then .done p else .fault := by
  have hstr : p.takeWhile (· ≠ 0) = p := by
    rw [List.takeWhile_eq_self_iff]
    intro b hb
    exact decide_eq_true fun h0 => hz (h0 ▸ hb)
  simp only [stringOf, hstr, ite_self]
  by_cases h : p.length < 2 ^ 31
  · have hi : int32 p.length = p.length := by
      unfold int32
      omega
    rw [hi, if_neg (by omega), if_pos h, Int.toNat_natCast, List.take_length]
  · have hi : int32 p.length < 0 := by
      unfold int32
      omega
    rw [if_pos hi, if_neg h]

theorem nulFree_survivors {pre post : List Char} (h : NulFree (pre ++ post)) (part : Bytes) :
    NulFree (survivors pre part) := by
  have hpre : NulFree pre := fun c hc => h c (List.mem_append_left _ hc)
  rw [survivors]
  split
  · exact hpre
  · intro c hc
    rcases List.mem_append.mp hc with hc | hc
    · exact hpre c hc
    · rw [List.mem_singleton.mp hc]
      decide

/-- A string survives the boundary exactly when it is shorter than `2^31` bytes
and ASCII, up to one replacement character at the end: `wrap` passes the number of
characters where `JS_NewStringLen` wants the number of bytes. -/
theorem jsString_roundTrips_iff {s : Text} (hw : s.Whole) {cs : List Char}
    (hc : s.content = utf8 cs) (hz : NulFree cs) :
    JsRoundTrips s ↔ (utf8 cs).length < 2 ^ 31 ∧ JsSafe cs := by
  by_cases hlen : cs.length < 2 ^ 31
  · obtain ⟨pre, post, part, rfl, htake, hpart⟩ := take_utf8 cs cs.length
    have hpart' : part = [] ∨ ∃ c, PartOf c part := by
      rcases hpart with h | ⟨c, _, _, h⟩
      · exact .inl h
      · exact .inr ⟨c, h⟩
    have hout := toCStringLen_prefix pre hpart'
    have hcut : (pre ++ post).length = (utf8 pre).length + part.length := by
      rw [← List.length_append, ← htake, List.length_take,
        Nat.min_eq_left (length_le_length_utf8 _)]
    have hsmall : (utf8 (survivors pre part)).length < 2 ^ 32 := by
      rw [survivors]
      split
      · omega
      · rw [utf8_append, List.length_append, show (utf8 [replacement]).length = 3 from by decide]
        omega
    have hunwrap := stringOf_eq (zero_notMem_utf8 (nulFree_survivors hz part)) hsmall
    have hiff : JsRoundTrips s ↔
        (utf8 (pre ++ post)).length < 2 ^ 31 ∧ survivors pre part = pre ++ post := by
      rw [JsRoundTrips, wrap_whole hw hc hlen, htake, hc]
      simp only [Outcome.done.injEq, exists_eq_left', unwrap, hout, hunwrap]
      constructor
      · intro h
        split at h
        · rename_i hlt
          have := utf8_injective (Outcome.done.inj h)
          exact ⟨this ▸ hlt, this⟩
        · cases h
      · rintro ⟨hlt, heq⟩
        rw [heq, if_pos hlt]
    rw [hiff, survivors_eq_iff hpart hcut]
  · have hcount : s.length = .fault := by
      rw [(hw.holds (by rw [hc, utf8_eq_flat])).length_eq, List.length_map, if_neg hlen]
    have hge := length_le_length_utf8 cs
    constructor
    · rintro ⟨v, hv, -⟩
      rw [wrap, hcount] at hv
      cases hv
    · rintro ⟨hlt, -⟩
      omega

/-- The text `ok`. -/
theorem jsString_roundTrips_ascii :
    JsRoundTrips (Text.whole (utf8 ['o', 'k']) (by decide)) ∧ JsSafe ['o', 'k'] := by
  have hsafe : JsSafe ['o', 'k'] := ⟨['o', 'k'], forall_mem_of_all rfl, .inl rfl⟩
  exact ⟨(jsString_roundTrips_iff (Text.whole_isWhole _ _) (Text.content_whole _ _) 
    (forall_mem_of_all rfl)).mpr ⟨by decide, hsafe⟩, hsafe⟩

/-- The text `é` comes back as the replacement character. -/
theorem jsString_not_roundTrips :
    ¬JsRoundTrips (Text.whole (utf8 [Char.ofNat 0xE9]) (by decide)) := by
  rintro ⟨v, hv, hu⟩
  rw [wrap_whole (Text.whole_isWhole _ _) (Text.content_whole _ _) (by decide)] at hv
  obtain rfl := Outcome.done.inj hv
  have hout : toCStringLen (newStringLen ((utf8 [Char.ofNat 0xE9]).take [Char.ofNat 0xE9].length)) =
      [0xEF, 0xBF, 0xBD] := by decide
  rw [unwrap, hout, Text.content_whole, stringOf_eq (by decide) (by decide)] at hu
  exact absurd (Outcome.done.inj hu) (by decide)

end Libacorn
