import Mathlib.Tactic.Common
import Libacorn.Parse

/-!
# Scanning a buffer: base/string.cpp

`readUtf8`, `peekChar`, `readChar`, `skipChar`, `skipString` and
`skipWhitespace`, on what a string handle can see: the bytes of the allocation
behind `_buf` and the slice `[_offset, _offset + _cb)` of it. A read outside
the allocation is a fault. The cursor keeps every position it has had, so that
a result can speak about each step of a run.
-/

namespace Libacorn

open Support

/-- A property of all elements of a list, by evaluation. -/
theorem forall_mem_of_all {α : Type} {p : α → Prop} [DecidablePred p] {l : List α}
    (h : (l.all fun a => decide (p a)) = true) : ∀ a ∈ l, p a := by
  intro a ha
  exact of_decide_eq_true (List.all_eq_true.mp h a ha)

/-- A property of all bytes, by evaluation. -/
theorem forall_byte {p : UInt8 → Prop} (h : ∀ i : Fin 256, p (UInt8.ofNat i)) (b : UInt8) :
    p b := by
  have hb := h ⟨b.toNat, b.toNat_lt⟩
  rwa [UInt8.ofNat_toNat] at hb

/-- A string handle together with the allocation it points into. A handle
without a buffer has `mem = []`. -/
structure Text where
  /-- the allocation behind `_buf`, terminator included -/
  mem : Bytes
  offset : Nat
  cb : Nat
  /-- `_type == kTypeStatic` -/
  static : Bool
  cb_lt : cb < 2 ^ 32
  fits : offset + cb ≤ mem.length

/-- The bytes `[_offset, _offset + _cb)`. -/
def Text.content (s : Text) : Bytes := (s.mem.drop s.offset).take s.cb

theorem Text.length_content (s : Text) : s.content.length = s.cb := by
  have := s.fits
  simp [Text.content]
  omega

/-- A heap string that is the whole of its NUL-terminated buffer. -/
structure Text.Whole (s : Text) : Prop where
  offset_eq : s.offset = 0
  mem_eq : s.mem = s.content ++ [0]
  heap : s.static = false

/-- The whole NUL-terminated buffer with content `w`. -/
def Text.whole (w : Bytes) (h : w.length < 2 ^ 32) : Text where
  mem := w ++ [0]
  offset := 0
  cb := w.length
  static := false
  cb_lt := h
  fits := by simp

theorem Text.content_whole (w : Bytes) (h : w.length < 2 ^ 32) : (Text.whole w h).content = w := by
  simp [Text.content, Text.whole]

theorem Text.whole_isWhole (w : Bytes) (h : w.length < 2 ^ 32) : (Text.whole w h).Whole :=
  ⟨rfl, by rw [Text.content_whole]; rfl, rfl⟩

/-- The cursor, and the positions it has had, newest first. -/
structure Cursor where
  it : Nat
  seen : List Nat
  deriving DecidableEq, Repr

/-- A cursor at the start of the text. -/
def Cursor.start : Cursor := ⟨0, [0]⟩

def Cursor.moveTo (c : Cursor) (o : Nat) : Cursor := ⟨o, o :: c.seen⟩

@[simp] theorem Cursor.moveTo_it (c : Cursor) (o : Nat) : (c.moveTo o).it = o := rfl
@[simp] theorem Cursor.moveTo_seen (c : Cursor) (o : Nat) :
    (c.moveTo o).seen = o :: c.seen := rfl

/-- Conversion to `uint32_t`. -/
def u32 (n : Nat) : Nat := n % 2 ^ 32

theorem u32_of_lt {n : Nat} (h : n < 2 ^ 32) : u32 n = n := Nat.mod_eq_of_lt h

/-- The difference of two `uint32_t`. -/
def u32Sub (a b : Nat) : Nat := u32 (if b ≤ a then a - b else a + (2 ^ 32 - b))

theorem u32Sub_of_le {a b : Nat} (h : b ≤ a) : u32Sub a b = u32 (a - b) := by rw [u32Sub, if_pos h]

namespace Text

variable (s : Text)

/-- `start()[o]` -/
def byte (o : Nat) : Outcome UInt8 :=
  match s.mem[s.offset + o]? with
  | some b => .done b
  | none => .fault

/-! ## readUtf8 -/

def codePoint2 (b0 b1 : UInt8) : Nat :=
  ((b0.toNat &&& 0x1f) <<< 6) ||| (b1.toNat &&& 0x3f)

def codePoint3 (b0 b1 b2 : UInt8) : Nat :=
  ((b0.toNat &&& 0x0f) <<< 12) ||| ((b1.toNat &&& 0x3f) <<< 6) ||| (b2.toNat &&& 0x3f)

def codePoint4 (b0 b1 b2 b3 : UInt8) : Nat :=
  ((b0.toNat &&& 0x07) <<< 18) ||| ((b1.toNat &&& 0x3f) <<< 12) ||| ((b2.toNat &&& 0x3f) <<< 6) |||
    (b3.toNat &&& 0x3f)

/-- `readUtf8(start(), offset)`: the code point and the new offset. -/
def readUtf8 (offset : Nat) : Outcome (Nat × Nat) :=
  (s.byte offset).bind fun firstByte =>
  if firstByte &&& 128 ≠ 0 then
    (s.byte (u32 (offset + 1))).bind fun secondByte =>
    if firstByte &&& 32 ≠ 0 then
      (s.byte (u32 (offset + 2))).bind fun thirdByte =>
      if firstByte &&& 16 ≠ 0 then
        (s.byte (u32 (offset + 3))).bind fun fourthByte =>
        .done (codePoint4 firstByte secondByte thirdByte fourthByte, u32 (offset + 4))
      else .done (codePoint3 firstByte secondByte thirdByte, u32 (offset + 3))
    else .done (codePoint2 firstByte secondByte, u32 (offset + 2))
  else if firstByte ≠ 0 then .done (firstByte.toNat, u32 (offset + 1))
  else .done (0, offset)

def peekChar : Scan Cursor Nat := fun c =>
  (s.readUtf8 c.it).bind fun r => .done (r.1, c)

def readChar : Scan Cursor Nat := fun c =>
  if c.it ≥ s.cb then .done (0, c)
  else (s.readUtf8 c.it).bind fun r => .done (r.1, c.moveTo r.2)

/-! ## Skipping -/

def skipChar (ch : UInt8) : Scan Cursor Bool := fun c =>
  (s.byte c.it).bind fun b =>
  if b = ch then .done (true, c.moveTo (u32 (c.it + 1))) else .done (false, c)

/-- The bytes `[start() + o, start() + o + n)`, as `memcmp` reads them. -/
def bytes (o n : Nat) : Outcome Bytes :=
  if s.offset + o + n ≤ s.mem.length then .done ((s.mem.drop (s.offset + o)).take n) else .fault

/-- The bound check `cb > _cb - offset` is in `uint32_t`. -/
def skipString (str : Bytes) : Scan Cursor Bool := fun c =>
  if str.length > u32 (s.cb + (2 ^ 32 - c.it)) then .done (false, c)
  else (s.bytes c.it str.length).bind fun bs =>
    if bs = str then .done (true, c.moveTo (u32 (c.it + str.length))) else .done (false, c)

def isWhitespace (b : UInt8) : Bool :=
  b = UInt8.ofNat ' '.toNat ∨ b = UInt8.ofNat '\r'.toNat ∨ b = UInt8.ofNat '\n'.toNat ∨
    b = UInt8.ofNat '\t'.toNat

/-- At most `n` more steps; `_cb - offset` of them always suffice. -/
def skipWhitespaceLoop : Nat → Scan Cursor Unit
  | 0 => pure ()
  | n + 1 => fun c =>
    if c.it < s.cb then
      (s.byte c.it).bind fun ch =>
      if isWhitespace ch then skipWhitespaceLoop n (c.moveTo (u32 (c.it + 1))) else .done ((), c)
    else .done ((), c)

def skipWhitespace : Scan Cursor Unit := fun c => s.skipWhitespaceLoop (s.cb - c.it) c

/-- The parser's view of the string. -/
def reader : Reader Cursor where
  peekChar := s.peekChar
  readChar := s.readChar
  skipChar := s.skipChar
  skipString := s.skipString
  skipWhitespace := s.skipWhitespace
  atEnd := fun c => .done (decide (c.it = s.cb), c)
  beforeEnd := fun c => .done (decide (c.it < s.cb), c)

end Text

/-- `val::parse(str, flags)`, with the final cursor. -/
def Text.parse [Fpu] (s : Text) (flags : Flags) (fuel : Nat) : Outcome (CVal × Cursor) :=
  Libacorn.parse s.reader fuel flags Cursor.start

/-- `val::parseNumber(str, offset)`, with the final cursor. -/
def Text.parseNumber [Fpu] (s : Text) (offset fuel : Nat) : Outcome (CVal × Cursor) :=
  Libacorn.parseNumber s.reader fuel ⟨offset, [offset]⟩

/-- `val::parse(str, flags)` returns. -/
def Text.Terminates [Fpu] (s : Text) (flags : Flags) : Prop :=
  ∃ fuel r, s.parse flags fuel = .done r

end Libacorn
