import Mathlib.Tactic.Common
import Libacorn.Support.Scan
import Libacorn.Val

/-!
# The parser of base/val.cpp

`skipWhitespaceAndComments`, `skipSpacesAndTabs`, `parseString`,
`val::parseNumber` and `val::parse`, written over a `Reader`: the scanning
interface of `class string`, with the cursor (`uint32_t& it`) as its state.
`Text.lean` implements the interface on a buffer, `Glyph.lean` on abstract
texts.

Every loop of the source takes fuel, so a loop that never ends shows as
`Outcome.timeout` for every amount of it. Log lines are not modelled.
-/

namespace Libacorn

open Support

/-- A val whose strings are contents. -/
abbrev CVal := Val Bytes

/-! ## The scanning interface -/

/-- What the parser calls on a `const string&` and its cursor. -/
structure Reader (σ : Type) where
  peekChar : Scan σ Nat
  readChar : Scan σ Nat
  skipChar : UInt8 → Scan σ Bool
  skipString : Bytes → Scan σ Bool
  skipWhitespace : Scan σ Unit
  /-- `it == str.end()` -/
  atEnd : Scan σ Bool
  /-- `it < str.lengthInBytes()` -/
  beforeEnd : Scan σ Bool

/-- The bytes of an ASCII literal. -/
def lit (cs : List Char) : Bytes := cs.map fun c => UInt8.ofNat c.toNat

variable {σ : Type} (r : Reader σ)

/-! ## Whitespace and comments -/

def skipComment : Nat → Scan σ Unit
  | 0 => Scan.timeout
  | n + 1 => do
    if ← r.atEnd then pure () else
    let ch ← r.peekChar
    if ch = '\r'.toNat ∨ ch = '\n'.toNat then pure () else
    let _ ← r.readChar
    skipComment n

/-- `ch=='#' || (ch=='/' && str.skipString(it, "//"))` -/
def startsComment (ch : Nat) : Scan σ Bool :=
  if ch = '#'.toNat then pure true
  else if ch = '/'.toNat then r.skipString (lit ['/', '/'])
  else pure false

/-- A comment starts only after a line break seen by the same call. -/
def skipWhitespaceAndComments : Nat → Bool → Scan σ Unit
  | 0, _ => Scan.timeout
  | n + 1, newLine => do
    if ← r.atEnd then pure () else
    let ch ← r.peekChar
    if ch = '\r'.toNat ∨ ch = '\n'.toNat then
      let _ ← r.readChar
      skipWhitespaceAndComments n true
    else if ch = ' '.toNat ∨ ch = '\t'.toNat then
      let _ ← r.readChar
      skipWhitespaceAndComments n newLine
    else if newLine then
      if ← startsComment r ch then
        skipComment r n
        skipWhitespaceAndComments n newLine
      else pure ()
    else pure ()

def skipSpacesAndTabs : Nat → Scan σ Unit
  | 0 => Scan.timeout
  | n + 1 => do
    if ← r.beforeEnd then
      let ch ← r.peekChar
      if ch = ' '.toNat ∨ ch = '\t'.toNat then
        let _ ← r.readChar
        skipSpacesAndTabs n
      else pure ()
    else pure ()

/-! ## Strings -/

/-- The bytes `string::append(char32_t)` adds; above U+10FFFF it asserts. -/
def encodeUtf8 (ch : Nat) : Option Bytes :=
  if ch ≤ 0x7F then
    some [UInt8.ofNat ch]
  else if ch ≤ 0x7FF then
    some [UInt8.ofNat (0xC0 ||| ch >>> 6), UInt8.ofNat (0x80 ||| ch &&& 0x3f)]
  else if ch ≤ 0xFFFF then
    some [UInt8.ofNat (0xE0 ||| ch >>> 12), UInt8.ofNat (0x80 ||| (ch >>> 6) &&& 0x3f),
      UInt8.ofNat (0x80 ||| ch &&& 0x3f)]
  else if ch ≤ 0x10FFFF then
    some [UInt8.ofNat (0xF0 ||| ch >>> 18), UInt8.ofNat (0x80 ||| (ch >>> 12) &&& 0x3f),
      UInt8.ofNat (0x80 ||| (ch >>> 6) &&& 0x3f), UInt8.ofNat (0x80 ||| ch &&& 0x3f)]
  else none

def appendChar (str : Bytes) (ch : Nat) : Scan σ Bytes :=
  match encodeUtf8 ch with
  | some bs => pure (str ++ bs)
  | none => Scan.fault

/-- The characters that end an unquoted string. -/
def endsBareString (ch : Nat) : Bool :=
  ch = '\n'.toNat ∨ ch = '\r'.toNat ∨ ch = ' '.toNat ∨ ch = ','.toNat ∨ ch = ':'.toNat ∨
    ch = '}'.toNat

def legalEscape (quoted : Bool) (ch : Nat) : Bool :=
  ch = '\"'.toNat ∨ ch = '\''.toNat ∨ ch = '\\'.toNat ∨ ch = 'n'.toNat ∨
    (quoted = false ∧ (ch = ','.toNat ∨ ch = ':'.toNat ∨ ch = '}'.toNat))

/-- The loop of `parseString`; `endquote` only decides about a warning. -/
def parseStringLoop (quoted : Bool) : Nat → Bytes → Scan σ Bytes
  | 0, _ => Scan.timeout
  | n + 1, str => do
    if ← r.beforeEnd then
      let ch ← r.peekChar
      if quoted = false ∧ endsBareString ch then pure str else
      let ch ← r.readChar
      if ch = 0 then pure str
      else if quoted ∧ ch = '\"'.toNat then pure str
      else if ch = '\\'.toNat then
        let ch ← r.readChar
        if legalEscape quoted ch then
          let str' ← appendChar str (if ch = 'n'.toNat then '\n'.toNat else ch)
          parseStringLoop quoted n str'
        else parseStringLoop quoted n str
      else
        let str' ← appendChar str ch
        parseStringLoop quoted n str'
    else pure str

def parseString (n : Nat) : Scan σ Bytes := do
  let ch ← r.peekChar
  if ch = '\"'.toNat then
    let _ ← r.readChar
    parseStringLoop r true n []
  else parseStringLoop r false n []

/-! ## Numbers -/

/-- The floating-point operations of the target, on bit patterns. -/
class Fpu where
  i64ToF64 : BitVec 64 → BitVec 64
  div : BitVec 64 → Nat → BitVec 64
  mul : Nat → BitVec 64 → BitVec 64
  add : BitVec 64 → BitVec 64 → BitVec 64
  neg : BitVec 64 → BitVec 64
  lt : BitVec 64 → BitVec 64 → Bool
  f64ToF32 : BitVec 64 → BitVec 32
  i32ToF32 : BitVec 32 → BitVec 32
  i64ToF32 : BitVec 64 → BitVec 32
  scaleF32 : BitVec 32 → Nat → BitVec 32
  scaleF64 : BitVec 64 → Nat → BitVec 64

/-- The IEEE operations of the host. -/
@[reducible] def Fpu.ieee : Fpu where
  i64ToF64 i := (Int64.ofBitVec i).toFloat.toBits.toBitVec
  div x n := (Float.ofBits ⟨x⟩ / Float.ofNat n).toBits.toBitVec
  mul n x := (Float.ofNat n * Float.ofBits ⟨x⟩).toBits.toBitVec
  add x y := (Float.ofBits ⟨x⟩ + Float.ofBits ⟨y⟩).toBits.toBitVec
  neg x := (-Float.ofBits ⟨x⟩).toBits.toBitVec
  lt x y := decide (Float.ofBits ⟨x⟩ < Float.ofBits ⟨y⟩)
  f64ToF32 x := (Float.ofBits ⟨x⟩).toFloat32.toBits.toBitVec
  i32ToF32 i := (Int32.ofBitVec i).toFloat32.toBits.toBitVec
  i64ToF32 i := (Int64.ofBitVec i).toFloat32.toBits.toBitVec
  scaleF32 x n := (Float32.ofBits ⟨x⟩ * Float32.ofNat n).toBits.toBitVec
  scaleF64 x n := (Float.ofBits ⟨x⟩ * Float.ofNat n).toBits.toBitVec

def isZeroF64 (x : BitVec 64) : Bool := x.toNat % 2 ^ 63 = 0

/-- `1.0`, `FLT_MIN` and `FLT_MAX` as doubles. -/
def oneF64 : BitVec 64 := 0x3FF0000000000000#64
def fltMin : BitVec 64 := 0x3810000000000000#64
def fltMax : BitVec 64 := 0x47EFFFFFE0000000#64

/-- The union of the local `val` while digits are read (`u`, read as `_i64` or
as `_f64`), with the locals `isFloat` and `fraction`. -/
structure NumState where
  u : BitVec 64
  isFloat : Bool
  fraction : BitVec 64
  deriving DecidableEq, Repr

def isBaseDigit (base ch : Nat) : Bool :=
  ('0'.toNat ≤ ch ∧ ch ≤ '9'.toNat) ∨
    (base = 16 ∧ (('a'.toNat ≤ ch ∧ ch ≤ 'f'.toNat) ∨ ('A'.toNat ≤ ch ∧ ch ≤ 'F'.toNat)))

def digitValue (ch : Nat) : Nat :=
  if 'a'.toNat ≤ ch ∧ ch ≤ 'f'.toNat then ch + 10 - 'a'.toNat
  else if 'A'.toNat ≤ ch ∧ ch ≤ 'F'.toNat then ch + 10 - 'A'.toNat
  else ch - '0'.toNat

/-- Leading signs, each optionally followed by whitespace; the result is `neg`. -/
def parseSigns : Nat → Bool → Scan σ Bool
  | 0, _ => Scan.timeout
  | n + 1, neg => do
    let ch ← r.peekChar
    if ch = '+'.toNat ∨ ch = '-'.toNat then
      let _ ← r.readChar
      r.skipWhitespace
      parseSigns n (if ch = '-'.toNat then !neg else neg)
    else pure neg

/-- The optional `0x`; the result is `base`. -/
def parseBase : Scan σ Nat := do
  if ← r.skipChar (UInt8.ofNat '0'.toNat) then
    if ← r.skipChar (UInt8.ofNat 'x'.toNat) then pure 16 else pure 10
  else pure 10

section Fpu
variable [Fpu]

def NumState.digit (s : NumState) (base d : Nat) : NumState :=
  if isZeroF64 s.fraction then { s with u := s.u * BitVec.ofNat 64 base + BitVec.ofNat 64 d }
  else
    let fraction := Fpu.div s.fraction base
    { s with fraction := fraction, u := Fpu.add s.u (Fpu.mul d fraction) }

def NumState.point (s : NumState) : NumState :=
  { u := Fpu.i64ToF64 s.u, isFloat := true, fraction := oneF64 }

def parseDigits (base : Nat) : Nat → NumState → Scan σ NumState
  | 0, _ => Scan.timeout
  | n + 1, s => do
    let ch ← r.peekChar
    if isBaseDigit base ch then
      let _ ← r.readChar
      parseDigits base n (s.digit base (digitValue ch))
    else if ch = '.'.toNat then
      let _ ← r.readChar
      parseDigits base n s.point
    else pure s

/-- Apply the sign, then choose 64 or 32 bits. -/
def NumState.toVal (s : NumState) (neg : Bool) : CVal :=
  if s.isFloat then
    let f := if neg then Fpu.neg s.u else s.u
    if Fpu.lt f fltMin ∨ Fpu.lt fltMax f then .float64 f else .float32 (Fpu.f64ToF32 f)
  else
    let i := if neg then -s.u else s.u
    if i.toInt < -2 ^ 31 ∨ i.toInt > 2 ^ 31 - 1 then .int64 i else .int32 (i.setWidth 32)

def numberFloatVal : CVal → BitVec 32
  | .int32 i => Fpu.i32ToF32 i
  | .int64 i => Fpu.i64ToF32 i
  | .float32 f => f
  | .float64 f => Fpu.f64ToF32 f
  | _ => 0

/-- `val *= mul` in the member of its type. -/
def scaleNumber (mul : Nat) : CVal → CVal
  | .int32 i => .int32 (i * BitVec.ofNat 32 mul)
  | .int64 i => .int64 (i * BitVec.ofNat 64 mul)
  | .float32 f => .float32 (Fpu.scaleF32 f mul)
  | .float64 f => .float64 (Fpu.scaleF64 f mul)
  | v => v

/-- Measurement suffixes, then KB, MB and GB. -/
def parseSuffix (v : CVal) : Scan σ CVal := do
  if ← r.skipChar (UInt8.ofNat '%'.toNat) then pure (.measurement (numberFloatVal v) .PC)
  else if ← r.skipString (lit ['p', 't']) then pure (.measurement (numberFloatVal v) .PT)
  else if ← r.skipString (lit ['e', 'm']) then pure (.measurement (numberFloatVal v) .EM)
  else if ← r.skipString (lit ['p', 'x']) then pure (.measurement (numberFloatVal v) .PX)
  else if ← r.skipString (lit ['K', 'B']) then pure (scaleNumber 1024 v)
  else if ← r.skipString (lit ['M', 'B']) then pure (scaleNumber (1024 * 1024) v)
  else if ← r.skipString (lit ['G', 'B']) then pure (scaleNumber (1024 * 1024 * 1024) v)
  else pure v

def parseNumber (n : Nat) : Scan σ CVal := do
  let neg ← parseSigns r n false
  let base ← parseBase r
  let s ← parseDigits r base n { u := 0, isFloat := false, fraction := 0 }
  parseSuffix r (s.toVal neg)

/-! ## Values -/

/-- `PARSEFLAG_JSON` and `PARSEFLAG_IN_IMPLICIT_ARRAY`. -/
structure Flags where
  json : Bool
  inImplicitArray : Bool
  deriving DecidableEq, Repr

def Flags.config : Flags := ⟨false, false⟩
def Flags.jsonOnly : Flags := ⟨true, false⟩

def isNumberStart (ch : Nat) : Bool :=
  ('0'.toNat ≤ ch ∧ ch ≤ '9'.toNat) ∨ ch = '-'.toNat ∨ ch = '+'.toNat ∨ ch = '.'.toNat

def parseKeyword (ch : Nat) : Scan σ (Option CVal) := do
  if ch = 'n'.toNat then
    if ← r.skipString (lit ['n', 'u', 'l', 'l']) then pure (some .empty) else pure none
  else if ch = 't'.toNat then
    if ← r.skipString (lit ['t', 'r', 'u', 'e']) then pure (some (.int32 1)) else pure none
  else if ch = 'f'.toNat then
    if ← r.skipString (lit ['f', 'a', 'l', 's', 'e']) then pure (some (.int32 0)) else pure none
  else pure none

/-- JSON object fields are separated by commas. -/
def skipFieldComma (json : Bool) : Scan σ Unit :=
  if json then do
    if ← r.skipChar (UInt8.ofNat ','.toNat) then r.skipWhitespace else pure ()
  else pure ()

/-- The loop over the fields of a map. `value` parses a field's value and `k` is
the scanners' fuel. The second result is true for an early `return v`. -/
def parseFields (json : Bool) (value : Scan σ CVal) (k : Nat) :
    Nat → List (Bytes × CVal) → Scan σ (List (Bytes × CVal) × Bool)
  | 0, _ => Scan.timeout
  | n + 1, fields => do
    let ch ← r.peekChar
    if ch = '}'.toNat then pure (fields, false) else
    if ← r.beforeEnd then
      skipWhitespaceAndComments r k false
      let fieldName ← parseString r k
      if fieldName = [] then pure (fields, true) else
      skipWhitespaceAndComments r k false
      let colon ← r.readChar
      if colon ≠ ':'.toNat then pure (fields, true) else
      let fieldValue ← value
      skipWhitespaceAndComments r k false
      skipFieldComma r json
      parseFields json value k n (OrderedMap.assign fieldName fieldValue fields)
    else pure (fields, false)

def parseElements (value : Scan σ CVal) (k : Nat) : Nat → List CVal → Scan σ (List CVal)
  | 0, _ => Scan.timeout
  | n + 1, vec => do
    let ch ← r.peekChar
    if ch = ']'.toNat then pure vec else
    if ← r.beforeEnd then
      let element ← value
      skipWhitespaceAndComments r k false
      let sep ← r.peekChar
      if sep = ','.toNat then
        let _ ← r.readChar
        parseElements value k n (vec ++ [element])
      else pure (vec ++ [element])
    else pure vec

/-- The characters that end an implicit array. -/
def endsImplicitArray (ch : Nat) : Bool :=
  ch = 0 ∨ ch = ']'.toNat ∨ ch = '}'.toNat ∨ ch = ','.toNat ∨ ch = '\r'.toNat ∨ ch = '\n'.toNat

/-- The elements a val contributes as the start of an implicit array. -/
def asElements : CVal → List CVal
  | .array vec => vec
  | v => [v]

/-- The loop that turns space-separated values into an array. The source's
`if (ch == ',') it++` cannot fire: a comma has just left the loop. -/
def parseImplicit (value : Scan σ CVal) (k : Nat) : Nat → CVal → Scan σ CVal
  | 0, _ => Scan.timeout
  | n + 1, v => do
    skipSpacesAndTabs r k
    let ch ← r.peekChar
    if endsImplicitArray ch then pure v else
    let elem ← value
    parseImplicit value k n (.array (asElements v ++ [elem]))

/-- `val::parse` up to the implicit-array loop: `value` is the recursive call
with the same flags, and `rest` what the function does with the val so far. -/
def parseValue (json : Bool) (value : Scan σ CVal) (rest : CVal → Scan σ CVal) (n : Nat) :
    Scan σ CVal := do
  if ← r.beforeEnd then
    skipWhitespaceAndComments r n false
    let ch ← r.peekChar
    if ch = '{'.toNat then
      let _ ← r.readChar
      skipWhitespaceAndComments r n false
      let fields ← parseFields r json value n n []
      if fields.2 then pure (.map fields.1) else
      let _ ← r.readChar
      rest (.map fields.1)
    else if ch = '['.toNat then
      let _ ← r.readChar
      skipWhitespaceAndComments r n false
      let vec ← parseElements r value n n []
      let _ ← r.skipChar (UInt8.ofNat ']'.toNat)
      rest (.array vec)
    else if isNumberStart ch then
      let v ← parseNumber r n
      rest v
    else
      let keyword ← parseKeyword r ch
      match keyword with
      | some v => rest v
      | none =>
        let str ← parseString r n
        rest (.string str)
  else pure .empty

def parse : Nat → Flags → Scan σ CVal
  | 0, _ => Scan.timeout
  | n + 1, flags =>
    parseValue r flags.json (parse n flags)
      (fun v =>
        if flags.json = false ∧ flags.inImplicitArray = false then
          parseImplicit r (parse n { flags with inImplicitArray := true }) n n v
        else pure v) n

end Fpu

end Libacorn
