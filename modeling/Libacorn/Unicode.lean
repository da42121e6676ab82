import Libacorn.Glyph

/-!
# Well-formed texts

Every code point up to U+10FFFF is one glyph, `append(char32_t)` writes its
bytes and `readUtf8` reads it back (`Glyph.code_ofCode`, `encodeUtf8_eq`); on
Unicode scalar values these bytes are UTF-8 (`utf8EncodeChar_eq`). A whole
NUL-terminated buffer holding UTF-8 is therefore scanned as a list of
characters (`charReader`), which is where the results about the parser are
proved.
-/

namespace Libacorn

open Support

/-! ## Code points and glyphs -/

theorem or_eq_add {b i : Nat} (a : Nat) (h : b < 2 ^ i) : a * 2 ^ i ||| b = a * 2 ^ i + b := by
  rw [← Nat.shiftLeft_eq, Nat.shiftLeft_add_eq_or_of_lt h]

theorem and_mask {n : Nat} (x : Nat) : x &&& (2 ^ n - 1) = x % 2 ^ n :=
  Nat.and_two_pow_sub_one_eq_mod x n

theorem seqLen_lead1 (x : Nat) : 0 + 1 = seqLen (UInt8.ofNat (x % 128)) := by
  have h : ∀ y : Fin 128, 0 + 1 = seqLen (UInt8.ofNat y) := by decide
  exact h ⟨x % 128, Nat.mod_lt _ (by decide)⟩

theorem seqLen_lead2 (x : Nat) : 1 + 1 = seqLen (UInt8.ofNat (x % 32 + 0xC0)) := by
  have h : ∀ y : Fin 32, 1 + 1 = seqLen (UInt8.ofNat (y + 0xC0)) := by decide
  exact h ⟨x % 32, Nat.mod_lt _ (by decide)⟩

theorem seqLen_lead3 (x : Nat) : 2 + 1 = seqLen (UInt8.ofNat (x % 16 + 0xE0)) := by
  have h : ∀ y : Fin 16, 2 + 1 = seqLen (UInt8.ofNat (y + 0xE0)) := by decide
  exact h ⟨x % 16, Nat.mod_lt _ (by decide)⟩

theorem seqLen_lead4 (x : Nat) : 3 + 1 = seqLen (UInt8.ofNat (x % 8 + 0xF0)) := by
  have h : ∀ y : Fin 8, 3 + 1 = seqLen (UInt8.ofNat (y + 0xF0)) := by decide
  exact h ⟨x % 8, Nat.mod_lt _ (by decide)⟩

/-- A continuation byte. -/
def contByte (x : Nat) : UInt8 := UInt8.ofNat (x % 64 + 0x80)

/-- The glyph of a code point. -/
def Glyph.ofCode (v : Nat) : Glyph :=
  if v ≤ 0x7F then ⟨UInt8.ofNat (v % 128), [], seqLen_lead1 v⟩
  else if v ≤ 0x7FF then
    ⟨UInt8.ofNat (v / 2 ^ 6 % 32 + 0xC0), [contByte v], seqLen_lead2 _⟩
  else if v ≤ 0xFFFF then
    ⟨UInt8.ofNat (v / 2 ^ 12 % 16 + 0xE0), [contByte (v / 2 ^ 6), contByte v], seqLen_lead3 _⟩
  else
    ⟨UInt8.ofNat (v / 2 ^ 18 % 8 + 0xF0),
      [contByte (v / 2 ^ 12), contByte (v / 2 ^ 6), contByte v], seqLen_lead4 _⟩

theorem contByte_bits (x : Nat) : (contByte x).toNat &&& 0x3f = x % 64 := by
  rw [show (0x3f : Nat) = 2 ^ 6 - 1 from rfl, and_mask, contByte, UInt8.toNat_ofNat']
  omega

theorem lead_bits {x m k : Nat} (n : Nat) (hm : 2 ^ n ≤ m) (hd : 2 ^ n ∣ k) (hk : k + m ≤ 256)
    (hx : x < 2 ^ n) : (UInt8.ofNat (x + k)).toNat &&& (2 ^ n - 1) = x := by
  rw [and_mask, UInt8.toNat_ofNat', Nat.mod_eq_of_lt (show x + k < 2 ^ 8 by omega),
    Nat.add_mod, Nat.mod_eq_zero_of_dvd hd, Nat.add_zero, Nat.mod_mod, Nat.mod_eq_of_lt hx]

/-- `readUtf8` reads a code point back from its glyph. -/
theorem Glyph.code_ofCode {v : Nat} (hv : v ≤ 0x10FFFF) : (Glyph.ofCode v).code = v := by
  unfold Glyph.ofCode
  split_ifs with h1 h2 h3
  · simp only [Glyph.code, UInt8.toNat_ofNat']
    omega
  · have e : (UInt8.ofNat (v / 2 ^ 6 % 32 + 0xC0)).toNat &&& 0x1f = v / 2 ^ 6 % 32 :=
      lead_bits 5 (m := 32) (by decide) (by decide) (by decide) (Nat.mod_lt _ (by decide))
    simp only [Glyph.code, Text.codePoint2, e, contByte_bits, Nat.shiftLeft_eq]
    rw [or_eq_add _ (show v % 64 < 2 ^ 6 from Nat.mod_lt _ (by decide))]
    omega
  · have e : (UInt8.ofNat (v / 2 ^ 12 % 16 + 0xE0)).toNat &&& 0x0f = v / 2 ^ 12 % 16 :=
      lead_bits 4 (m := 16) (by decide) (by decide) (by decide) (Nat.mod_lt _ (by decide))
    simp only [Glyph.code, Text.codePoint3, e, contByte_bits, Nat.shiftLeft_eq]
    rw [or_eq_add _ (show v / 2 ^ 6 % 64 * 2 ^ 6 < 2 ^ 12 by omega),
      show v / 2 ^ 12 % 16 * 2 ^ 12 + v / 2 ^ 6 % 64 * 2 ^ 6 =
        (v / 2 ^ 12 % 16 * 2 ^ 6 + v / 2 ^ 6 % 64) * 2 ^ 6 by omega,
      or_eq_add _ (show v % 64 < 2 ^ 6 from Nat.mod_lt _ (by decide))]
    omega
  · have e : (UInt8.ofNat (v / 2 ^ 18 % 8 + 0xF0)).toNat &&& 0x07 = v / 2 ^ 18 % 8 :=
      lead_bits 3 (m := 8) (by decide) (by decide) (by decide) (Nat.mod_lt _ (by decide))
    simp only [Glyph.code, Text.codePoint4, e, contByte_bits, Nat.shiftLeft_eq]
    rw [or_eq_add _ (show v / 2 ^ 12 % 64 * 2 ^ 12 < 2 ^ 18 by omega),
      show v / 2 ^ 18 % 8 * 2 ^ 18 + v / 2 ^ 12 % 64 * 2 ^ 12 =
        (v / 2 ^ 18 % 8 * 2 ^ 6 + v / 2 ^ 12 % 64) * 2 ^ 12 by omega,
      or_eq_add _ (show v / 2 ^ 6 % 64 * 2 ^ 6 < 2 ^ 12 by omega),
      show (v / 2 ^ 18 % 8 * 2 ^ 6 + v / 2 ^ 12 % 64) * 2 ^ 12 + v / 2 ^ 6 % 64 * 2 ^ 6 =
        ((v / 2 ^ 18 % 8 * 2 ^ 6 + v / 2 ^ 12 % 64) * 2 ^ 6 + v / 2 ^ 6 % 64) * 2 ^ 6 by omega,
      or_eq_add _ (show v % 64 < 2 ^ 6 from Nat.mod_lt _ (by decide))]
    omega

theorem contByte_eq (x : Nat) : UInt8.ofNat (0x80 ||| x &&& 0x3f) = contByte x := by
  rw [show (0x3f : Nat) = 2 ^ 6 - 1 from rfl, and_mask, show (0x80 : Nat) = 2 * 2 ^ 6 from rfl,
    or_eq_add 2 (Nat.mod_lt _ (by decide)), Nat.add_comm]
  rfl

theorem lead_eq {v j m : Nat} (a i : Nat) (h : v / 2 ^ j < m) (hm : m ≤ 2 ^ i) :
    UInt8.ofNat (a * 2 ^ i ||| v >>> j) = UInt8.ofNat (v / 2 ^ j % m + a * 2 ^ i) := by
  rw [Nat.shiftRight_eq_div_pow, or_eq_add a (Nat.lt_of_lt_of_le h hm), Nat.mod_eq_of_lt h,
    Nat.add_comm]

/-- `append(char32_t)` writes the bytes of the glyph. -/
theorem encodeUtf8_eq {v : Nat} (hv : v ≤ 0x10FFFF) :
    encodeUtf8 v = some (Glyph.ofCode v).bytes := by
  unfold encodeUtf8 Glyph.ofCode
  split_ifs with h1 h2 h3
  · have e : UInt8.ofNat v = UInt8.ofNat (v % 128) := by
      rw [Nat.mod_eq_of_lt (show v < 128 by omega)]
    rw [e]
    rfl
  · have e : UInt8.ofNat (0xc0 ||| v >>> 6) = UInt8.ofNat (v / 2 ^ 6 % 32 + 0xc0) :=
      lead_eq 3 6 (by omega) (by decide)
    rw [contByte_eq, e]
    rfl
  · have e : UInt8.ofNat (0xe0 ||| v >>> 12) = UInt8.ofNat (v / 2 ^ 12 % 16 + 0xe0) :=
      lead_eq 7 5 (by omega) (by decide)
    rw [contByte_eq, contByte_eq, Nat.shiftRight_eq_div_pow v 6, e]
    rfl
  · have e : UInt8.ofNat (0xf0 ||| v >>> 18) = UInt8.ofNat (v / 2 ^ 18 % 8 + 0xf0) :=
      lead_eq 15 4 (by omega) (by decide)
    rw [contByte_eq, contByte_eq, contByte_eq, Nat.shiftRight_eq_div_pow v 6,
      Nat.shiftRight_eq_div_pow v 12, e]
    rfl

/-- The glyph of a Unicode scalar value. -/
def Glyph.ofChar (c : Char) : Glyph := Glyph.ofCode c.toNat

theorem toNat_le (c : Char) : c.toNat ≤ 0x10FFFF := by
  rcases c.valid with h | ⟨_, h⟩
  · exact Nat.le_trans (Nat.le_of_lt h) (by decide)
  · exact Nat.le_of_lt_succ h

@[simp] theorem Glyph.code_ofChar (c : Char) : (Glyph.ofChar c).code = c.toNat :=
  Glyph.code_ofCode (toNat_le c)

theorem encodeUtf8_toNat (c : Char) : encodeUtf8 c.toNat = some (Glyph.ofChar c).bytes :=
  encodeUtf8_eq (toNat_le c)

/-- The glyph's bytes are the UTF-8 encoding of the scalar value. -/
theorem utf8EncodeChar_eq (c : Char) : String.utf8EncodeChar c = (Glyph.ofChar c).bytes := by
  have hv := toNat_le c
  unfold String.utf8EncodeChar Glyph.ofChar Glyph.ofCode Glyph.bytes
  change (if c.toNat ≤ 0x7f then _ else if c.toNat ≤ 0x7ff then _
    else if c.toNat ≤ 0xffff then _ else _) = _
  split_ifs with h1 h2 h3
  · have e : UInt8.ofNat c.toNat = UInt8.ofNat (c.toNat % 128) := by
      rw [Nat.mod_eq_of_lt (show c.toNat < 128 by omega)]
    exact congrArg (fun b => [b]) e
  · rfl
  · rfl
  · rfl

/-- The UTF-8 encoding of a list of characters. -/
def utf8 (cs : List Char) : Bytes := cs.flatMap String.utf8EncodeChar

@[simp] theorem utf8_nil : utf8 [] = [] := rfl
@[simp] theorem utf8_append (cs cs' : List Char) : utf8 (cs ++ cs') = utf8 cs ++ utf8 cs' := by
  simp [utf8]

theorem utf8_eq_flat (cs : List Char) : utf8 cs = flat (cs.map Glyph.ofChar) := by
  induction cs with
  | nil => rfl
  | cons c cs ih =>
    have h : utf8 (c :: cs) = String.utf8EncodeChar c ++ utf8 cs := rfl
    rw [h, utf8EncodeChar_eq, ih]
    rfl

theorem utf8_singleton (c : Char) : utf8 [c] = (Glyph.ofChar c).bytes := by
  rw [utf8, List.flatMap_singleton, utf8EncodeChar_eq]

theorem utf8_cons (c : Char) (cs : List Char) : utf8 (c :: cs) = utf8 [c] ++ utf8 cs := by
  rw [← utf8_append]
  rfl

theorem utf8_eq_nil {cs : List Char} : utf8 cs = [] ↔ cs = [] := by
  constructor
  · intro h
    cases cs with
    | nil => rfl
    | cons c cs =>
      rw [utf8_eq_flat] at h
      cases h
  · rintro rfl
    rfl

theorem length_utf8_append (cs ds : List Char) :
    (utf8 (cs ++ ds)).length = (utf8 cs).length + (utf8 ds).length := by
  rw [utf8_append, List.length_append]

theorem Glyph.length_tail_le (g : Glyph) : g.tail.length ≤ 3 := by
  have := g.complete
  unfold seqLen at this
  split_ifs at this <;> omega

theorem length_utf8_le (cs : List Char) : (utf8 cs).length ≤ 4 * cs.length := by
  induction cs with
  | nil => exact Nat.le_refl 0
  | cons c cs ih =>
    have := (Glyph.ofChar c).length_tail_le
    rw [utf8_cons, List.length_append, utf8_singleton, Glyph.bytes, List.length_cons,
      List.length_cons]
    omega

/-- A character has at least one byte. -/
theorem length_le_length_utf8 (cs : List Char) : cs.length ≤ (utf8 cs).length := by
  rw [utf8_eq_flat]
  calc cs.length = (cs.map Glyph.ofChar).length := (List.length_map _).symm
    _ ≤ _ := length_le_length_flat _

/-! ## Scanning a list of characters -/

theorem toNat_lt_of_ascii {b : UInt8} (h : b &&& 128 = 0) : b.toNat < 128 := by
  have hall : ∀ i : Fin 256, UInt8.ofNat i &&& 128 = 0 → i.val < 128 := by decide +kernel
  have hb := hall ⟨b.toNat, b.toNat_lt⟩
  rw [UInt8.ofNat_toNat] at hb
  exact hb h

theorem isByte_ofChar (c : Char) {b : UInt8} (h : b &&& 128 = 0) :
    (Glyph.ofChar c).isByte b = decide (c.toNat = b.toNat) := by
  have hb := toNat_lt_of_ascii h
  by_cases h1 : c.toNat ≤ 0x7F
  · have e : UInt8.ofNat (c.toNat % 128) = b ↔ c.toNat = b.toNat := by
      rw [← UInt8.toNat_inj, UInt8.toNat_ofNat']
      omega
    simp [Glyph.isByte, Glyph.ofChar, Glyph.ofCode, h1, e]
  · have hne : c.toNat ≠ b.toNat := by omega
    simp only [Glyph.isByte, Glyph.ofChar, Glyph.ofCode, h1, hne, ↓reduceIte]
    split_ifs <;> simp

/-- The rest of the characters after a literal of ASCII bytes. -/
def matchChars : Bytes → List Char → Option (List Char)
  | [], cs => some cs
  | b :: l, c :: cs => if c.toNat = b.toNat then matchChars l cs else none
  | _ :: _, [] => none

def isWhitespaceChar (c : Char) : Bool := c = ' ' ∨ c = '\r' ∨ c = '\n' ∨ c = '\t'

/-- The scanning interface on the characters still ahead in a NUL-terminated text. -/
def charReader : Reader (List Char) where
  peekChar
    | [] => .done (0, [])
    | c :: cs => .done (c.toNat, c :: cs)
  readChar
    | [] => .done (0, [])
    | c :: cs => if c.toNat = 0 then .done (0, c :: cs) else .done (c.toNat, cs)
  skipChar ch
    | [] => .done (false, [])
    | c :: cs => if c.toNat = ch.toNat then .done (true, cs) else .done (false, c :: cs)
  skipString l cs :=
    match matchChars l cs with
    | some cs' => .done (true, cs')
    | none => .done (false, cs)
  skipWhitespace cs := .done ((), cs.dropWhile isWhitespaceChar)
  atEnd cs := .done (cs.isEmpty, cs)
  beforeEnd cs := .done (!cs.isEmpty, cs)

/-- The glyphs of the characters ahead. -/
def GlyphsOf (gs : List Glyph) (cs : List Char) : Prop := gs = cs.map Glyph.ofChar

theorem matchLit_ofChar {l : Bytes} (hl : ∀ b ∈ l, b &&& 128 = 0) (cs : List Char) :
    matchLit l (cs.map Glyph.ofChar) = (matchChars l cs).map (List.map Glyph.ofChar) := by
  induction l generalizing cs with
  | nil => rfl
  | cons b l ih =>
    cases cs with
    | nil => rfl
    | cons c cs =>
      have hb := isByte_ofChar c (hl b (List.mem_cons_self ..))
      have ih' := ih (fun b hb => hl b (List.mem_cons_of_mem _ hb)) cs
      by_cases h : c.toNat = b.toNat
      · simp [matchLit, matchChars, hb, h, ih']
      · simp [matchLit, matchChars, hb, h]

theorem isWhitespaceGlyph_ofChar (c : Char) :
    isWhitespaceGlyph (Glyph.ofChar c) = isWhitespaceChar c := by
  have h : ∀ d : Char, d.toNat < 128 → UInt8.ofNat d.toNat &&& 128 = 0 →
      ((Glyph.ofChar c).head = UInt8.ofNat d.toNat ∧ (Glyph.ofChar c).tail = [] ↔ c = d) := by
    intro d hd ha
    have := isByte_ofChar c ha
    simp only [Glyph.isByte, decide_eq_decide, UInt8.toNat_ofNat'] at this
    rw [this, Nat.mod_eq_of_lt (by omega), Char.toNat_inj]
  simp only [isWhitespaceGlyph, isWhitespaceChar, Text.isWhitespace, decide_eq_true_eq,
    decide_eq_decide, or_and_right]
  rw [h ' ' (by decide) (by decide), h '\r' (by decide) (by decide), h '\n' (by decide) (by decide),
    h '\t' (by decide) (by decide)]

theorem dropWhile_ofChar (cs : List Char) :
    (cs.map Glyph.ofChar).dropWhile isWhitespaceGlyph =
      (cs.dropWhile isWhitespaceChar).map Glyph.ofChar := by
  induction cs with
  | nil => rfl
  | cons c cs ih =>
    simp only [List.map_cons, List.dropWhile_cons, isWhitespaceGlyph_ofChar]
    split
    · exact ih
    · rfl

/-- The glyphs of a list of characters are scanned as that list. -/
theorem glyph_sim_char (json : Bool) :
    ReaderSim (probedChars json) GlyphsOf (glyphReader 0) charReader where
  peekChar := by
    rintro _ (_ | ⟨c, cs⟩) rfl
    · exact ⟨rfl, rfl⟩
    · exact ⟨Glyph.code_ofChar c, rfl⟩
  readChar := by
    rintro _ (_ | ⟨c, cs⟩) rfl
    · exact ⟨rfl, rfl⟩
    · have hz := isByte_ofChar c (b := 0) (by decide)
      simp only [List.map_cons, glyphReader, charReader, hz, UInt8.toNat_zero, decide_eq_true_eq]
      split
      · exact ⟨rfl, rfl⟩
      · exact ⟨Glyph.code_ofChar c, rfl⟩
  skipChar := by
    intro ch hch
    have ha := probedChars_ascii json ch hch
    rintro _ (_ | ⟨c, cs⟩) rfl
    · exact ⟨rfl, rfl⟩
    · simp only [List.map_cons, glyphReader, charReader, isByte_ofChar c ha, decide_eq_true_eq]
      split <;> exact ⟨rfl, rfl⟩
  skipString := by
    intro l hl
    have ha : ∀ b ∈ l, b &&& 128 = 0 := probedStrings_ascii l hl
    rintro _ cs rfl
    simp only [glyphReader, charReader, matchLit_ofChar ha]
    cases matchChars l cs with
    | none => exact ⟨rfl, rfl⟩
    | some cs' => exact ⟨rfl, rfl⟩
  skipWhitespace := by
    rintro _ cs rfl
    exact ⟨rfl, dropWhile_ofChar cs⟩
  atEnd := by
    rintro _ (_ | ⟨c, cs⟩) rfl <;> exact ⟨rfl, rfl⟩
  beforeEnd := by
    rintro _ (_ | ⟨c, cs⟩) rfl <;> exact ⟨rfl, rfl⟩

/-! ## Whole buffers -/

theorem Text.Whole.holds {s : Text} (hw : s.Whole) {gs : List Glyph} (h : s.content = flat gs) :
    Holds s gs .nul where
  mem := ⟨[], by rw [hw.offset_eq, hw.mem_eq, h]; rfl⟩
  cb := by rw [← h, s.length_content]
  room := s.cb_lt

theorem nul_not_probed (json : Bool) : Glyph.nul.head ∉ probedChars json := by
  cases json <;> decide

/-- A whole buffer is scanned as its glyphs. -/
theorem Text.Whole.sim_glyph {s : Text} (hw : s.Whole) {gs : List Glyph} (h : s.content = flat gs)
    (json : Bool) : ReaderSim (probedChars json) (At gs) s.reader (glyphReader 0) :=
  text_sim_glyph (probedChars_ascii json) (hw.holds h) (nul_not_probed json)

/-- A position between two characters of the text. -/
def CharBoundary (w : Bytes) (o : Nat) : Prop :=
  ∃ pre post : List Char, w = utf8 (pre ++ post) ∧ o = (utf8 pre).length

theorem CharBoundary.le {w : Bytes} {o : Nat} (h : CharBoundary w o) : o ≤ w.length := by
  obtain ⟨pre, post, rfl, rfl⟩ := h
  simp

theorem CharBoundary.of_boundary {cs : List Char} {o : Nat}
    (h : Boundary (cs.map Glyph.ofChar) o) : CharBoundary (utf8 cs) o := by
  obtain ⟨pre, post, hcs, rfl⟩ := h
  obtain ⟨p, q, rfl, rfl, rfl⟩ := List.map_eq_append_iff.mp hcs
  exact ⟨p, q, rfl, by rw [utf8_eq_flat]⟩

/-- A cursor after which the characters `cs` remain. -/
structure Cursor.Before (c : Cursor) (w : Bytes) (cs : List Char) : Prop where
  it_add : c.it + (utf8 cs).length = w.length
  seen : ∀ o ∈ c.seen, CharBoundary w o

theorem Cursor.Before.of_at {all gs : List Glyph} {cs cs' : List Char} {c : Cursor}
    (hall : all = cs.map Glyph.ofChar) (h : At all c gs) (hg : GlyphsOf gs cs') :
    c.Before (utf8 cs) cs' where
  it_add := by
    have := h.it_add
    rw [hg, hall, ← utf8_eq_flat, ← utf8_eq_flat] at this
    exact this
  seen o ho := CharBoundary.of_boundary (hall ▸ h.seen o ho)

section Whole

variable [Fpu] {s : Text} {cs : List Char}

/-- What the parser returns on the characters it returns on the buffer, with
the cursor before the same characters. -/
theorem Text.Whole.parse_eq_done (hw : s.Whole) (hc : s.content = utf8 cs) {flags : Flags}
    {fuel : Nat} {v : CVal} {rest : List Char}
    (h : Libacorn.parse charReader fuel flags cs = .done (v, rest)) :
    ∃ c : Cursor, s.parse flags fuel = .done (v, c) ∧ c.Before s.content rest := by
  have hg := parse_sim (glyph_sim_char flags.json) fuel flags rfl
  have ht := parse_sim (hw.sim_glyph (hc.trans (utf8_eq_flat cs)) flags.json) fuel flags rfl
  obtain ⟨gs, hgs, hrel⟩ := hg.done_of_done (s := cs.map Glyph.ofChar) rfl h
  obtain ⟨c, hcur, hat⟩ := ht.done_of_done (At.start _) hgs
  exact ⟨c, hcur, hc ▸ Cursor.Before.of_at rfl hat hrel⟩

/-- What the parser returns on the buffer it returns on the characters. -/
theorem Text.Whole.parse_chars (hw : s.Whole) (hc : s.content = utf8 cs) {flags : Flags}
    {fuel : Nat} {v : CVal} {c : Cursor} (h : s.parse flags fuel = .done (v, c)) :
    ∃ rest, Libacorn.parse charReader fuel flags cs = .done (v, rest) := by
  have hg := parse_sim (glyph_sim_char flags.json) fuel flags rfl
  have ht := parse_sim (hw.sim_glyph (hc.trans (utf8_eq_flat cs)) flags.json) fuel flags rfl
  obtain ⟨gs, hgs, -⟩ := ht.done_of_done_left (At.start _) h
  obtain ⟨rest, hrest, -⟩ := hg.done_of_done_left (s := cs.map Glyph.ofChar) (t := cs) rfl hgs
  exact ⟨rest, hrest⟩

/-- `parseNumber` at the position after the characters `before`. -/
theorem Text.Whole.parseNumber_eq_done (hw : s.Whole) {before : List Char}
    (hc : s.content = utf8 (before ++ cs)) {fuel : Nat} {v : CVal} {rest : List Char}
    (h : Libacorn.parseNumber charReader fuel cs = .done (v, rest)) :
    ∃ c : Cursor, s.parseNumber (utf8 before).length fuel = .done (v, c) ∧
      c.Before s.content rest := by
  have hprobed : numberChars ⊆ probedChars false := numberChars_subset false
  have hg := parseNumber_sim (glyph_sim_char false) hprobed fuel
  have ht := parseNumber_sim (hw.sim_glyph (hc.trans (utf8_eq_flat _)) false) hprobed fuel
  have hsplit : (before ++ cs).map Glyph.ofChar = before.map Glyph.ofChar ++ cs.map Glyph.ofChar :=
    List.map_append
  have hstart : At ((before ++ cs).map Glyph.ofChar) ⟨(utf8 before).length, [(utf8 before).length]⟩
      (cs.map Glyph.ofChar) := by
    constructor
    · exact ⟨_, hsplit, by rw [utf8_eq_flat]⟩
    · intro o ho
      rw [List.mem_singleton.mp ho, utf8_eq_flat]
      exact ⟨_, _, hsplit, rfl⟩
  obtain ⟨gs, hgs, hrel⟩ := hg.done_of_done (s := cs.map Glyph.ofChar) rfl h
  obtain ⟨c, hcur, hat⟩ := ht.done_of_done hstart hgs
  exact ⟨c, hcur, hc ▸ Cursor.Before.of_at rfl hat hrel⟩

/-- The parser runs out of fuel on the buffer exactly when it does on the characters. -/
theorem Text.Whole.parse_eq_timeout_iff (hw : s.Whole) (hc : s.content = utf8 cs) {flags : Flags}
    {fuel : Nat} :
    s.parse flags fuel = .timeout ↔ Libacorn.parse charReader fuel flags cs = .timeout := by
  have hg := parse_sim (glyph_sim_char flags.json) fuel flags rfl
  have ht := parse_sim (hw.sim_glyph (hc.trans (utf8_eq_flat cs)) flags.json) fuel flags rfl
  have h1 := ht.timeout_iff (At.start _)
  have h2 := hg.timeout_iff (s := cs.map Glyph.ofChar) (t := cs) rfl
  exact h1.trans h2

end Whole

end Libacorn
