import Libacorn.Document

/-!
# Printing JSON: `val::toJson` of base/val.cpp

`toJson` prints a val whose strings are handles on buffers: each one goes through `c_str()`
and `printf`'s `%s`. The sizes it calculates with are of type `int` and `uint32_t`: where a
text fits (`Val.Fits`) it is the one without a bound (`Val.jsonText`), and elsewhere there is
none (`Val.toJson_eq_some`). A val of integers, plain strings, arrays and maps prints as a
document (`JsonVal.exists_doc`), so the results about documents apply to it.
-/

namespace Libacorn

open Support

/-! ## Printing -/

/-- The bytes from the pointer `c_str()` returns to the end of its allocation.
The header of a heap buffer counts every byte but the terminator. -/
def Text.cStr (s : Text) : Option Bytes :=
  if s.mem = [] then none
  else if s.static = false ∧ s.offset + s.cb < s.mem.length - 1 then some (s.content ++ [0])
  else some s.mem

/-- What `%s` prints. -/
def cString (p : Bytes) : Option Bytes := if 0 ∈ p then some (p.takeWhile (· ≠ 0)) else none

/-- `printf`'s `%f`; an argument of type `float` is promoted. -/
class FormatF where
  f32 : BitVec 32 → Bytes
  f64 : BitVec 64 → Bytes

/-- The format `\"%s\"`. -/
def quoteBytes (b : Bytes) : Bytes := utf8 ['\"'] ++ b ++ utf8 ['\"']

def MeasureUnit.szUnit : MeasureUnit → List Char
  | .PX => ['p', 'x']
  | .PT => ['p', 't']
  | .EM => ['e', 'm']
  | .PC => ['p', 'c']
  | .undeclared _ => ['?', '?']

/-- What `measurement::toString` prints. -/
def measurementToString [FormatF] (unitVal : BitVec 32) (unit : MeasureUnit) : Bytes :=
  FormatF.f32 unitVal ++ utf8 unit.szUnit

/-! ### Sizes -/

/-- The `int` that `vsnprintf` returns for a text of this length; `none` is a negative one. -/
def vsnprintf (length : Nat) : Option Nat := if length < 2 ^ 31 then some length else none

/-- The passes of `string::format` from a buffer of `size` bytes on; where the `int` overflows
they never end. -/
def formatPasses (text : Bytes) (size : Nat) (hsize : 0 < size) : Option Bytes :=
  match vsnprintf text.length with
  | some n =>
    if n < size then some text
    else if n + 1 < 2 ^ 31 then formatPasses text (n + 1) (Nat.succ_pos n)
    else none
  | none =>
    if size * 2 < 2 ^ 31 then formatPasses text (size * 2) (Nat.mul_pos hsize Nat.two_pos)
    else none
termination_by 2 ^ 31 - size

/-- `string::format`, which prints `text` by the format `fmt`. -/
def format (fmt : List Char) (text : Bytes) : Option Bytes :=
  formatPasses text (fmt.length * 2 + 50) (Nat.succ_pos _)

/-- `append(p)` on a string of a buffer of its own, by contents. A size that an `int32_t` does
not hold is negative, and `strlen` calculates it no better; a sum that a `uint32_t` does not
hold gives too small a buffer. -/
def appendBytes (str p : Bytes) : Option Bytes :=
  if p.length < 2 ^ 31 ∧ str.length + p.length < 2 ^ 32 then some (str ++ p) else none

/-! ### toJson -/

/-- `if (it != begin) s.append(",")` -/
def appendSeparator (first : Bool) (s : Bytes) : Option Bytes :=
  if first then some s else appendBytes s (utf8 [','])

mutual

/-- The content of the string `val::toJson` returns. `none` is an assertion, a pointer that
must not be read or a size that overflows. -/
def Val.toJson [FormatF] : Val Text → Option Bytes
  | .empty => some []
  | .int32 i => format ['%', 'd'] (utf8 (decimal i.toInt))
  | .uint32 u => format ['%', 'u'] (utf8 (decimal u.toNat))
  | .int64 i => format ['%', 'l', 'd'] (utf8 (decimal i.toInt))
  | .uint64 u => format ['%', 'l', 'u'] (utf8 (decimal u.toNat))
  | .float32 f => format ['%', 'f'] (FormatF.f32 f)
  | .float64 f => format ['%', 'f'] (FormatF.f64 f)
  | .string s => do
    let p ← s.cStr.bind cString
    format ['\"', '%', 's', '\"'] (quoteBytes p)
  | .measurement unitVal unit => do
    let p ← format ['%', 'f', '%', 's'] (measurementToString unitVal unit)
    format ['\"', '%', 's', '\"'] (quoteBytes p)
  | .bytearray _ => some []
  | .array vec => do
    let s ← Val.elementsToJson true vec (utf8 ['['])
    appendBytes s (utf8 [']'])
  | .map fields => do
    let s ← Val.fieldsToJson true fields (utf8 ['{'])
    appendBytes s (utf8 ['}'])
  | .object _ => none
  | .error _ _ => none
  | .raw _ _ => none

/-- The loop over `_vec`, with the text so far. -/
def Val.elementsToJson [FormatF] (first : Bool) : List (Val Text) → Bytes → Option Bytes
  | [], s => some s
  | elem :: vec, s => do
    let s ← appendSeparator first s
    let text ← elem.toJson
    let s ← appendBytes s text
    Val.elementsToJson false vec s

/-- The loop over `_map`, with the text so far. -/
def Val.fieldsToJson [FormatF] (first : Bool) : List (Text × Val Text) → Bytes → Option Bytes
  | [], s => some s
  | (name, value) :: fields, s => do
    let s ← appendSeparator first s
    let p ← name.cStr.bind cString
    let key ← format ['\"', '%', 's', '\"', ':'] (quoteBytes p ++ utf8 [':'])
    let s ← appendBytes s key
    let text ← value.toJson
    let s ← appendBytes s text
    Val.fieldsToJson false fields s

end

/-! ## The text without a bound -/

def separator (first : Bool) : Bytes := if first then [] else utf8 [',']

mutual

/-- What `toJson` prints where no size overflows. -/
def Val.jsonText [FormatF] : Val Text → Option Bytes
  | .empty => some []
  | .int32 i => some (utf8 (decimal i.toInt))
  | .uint32 u => some (utf8 (decimal u.toNat))
  | .int64 i => some (utf8 (decimal i.toInt))
  | .uint64 u => some (utf8 (decimal u.toNat))
  | .float32 f => some (FormatF.f32 f)
  | .float64 f => some (FormatF.f64 f)
  | .string s => (s.cStr.bind cString).map quoteBytes
  | .measurement unitVal unit => some (quoteBytes (measurementToString unitVal unit))
  | .bytearray _ => some []
  | .array vec => (Val.elementsText true vec).map fun s => utf8 ['['] ++ s ++ utf8 [']']
  | .map fields => (Val.fieldsText true fields).map fun s => utf8 ['{'] ++ s ++ utf8 ['}']
  | .object _ => none
  | .error _ _ => none
  | .raw _ _ => none

def Val.elementsText [FormatF] (first : Bool) : List (Val Text) → Option Bytes
  | [] => some []
  | elem :: vec => do
    let s ← elem.jsonText
    let rest ← Val.elementsText false vec
    return separator first ++ s ++ rest

def Val.fieldsText [FormatF] (first : Bool) : List (Text × Val Text) → Option Bytes
  | [] => some []
  | (name, value) :: fields => do
    let key ← name.cStr.bind cString
    let s ← value.jsonText
    let rest ← Val.fieldsText false fields
    return separator first ++ (quoteBytes key ++ utf8 [':']) ++ s ++ rest

end

def Val.jsonSize [FormatF] (v : Val Text) : Nat := (v.jsonText.getD []).length

/-- What `%s` prints of the string. -/
def Text.printedSize (s : Text) : Nat := ((s.cStr.bind cString).getD []).length

mutual

/-- The sizes of the val's text and of its parts fit the integers that calculate with them:
what `format` prints has a size after it, what is appended fits an `int32_t`, and the text
of a container fits a `uint32_t`. -/
def Val.Fits [FormatF] : Val Text → Prop
  | .empty | .int32 _ | .uint32 _ | .int64 _ | .uint64 _ => True
  | .float32 f => (FormatF.f32 f).length + 1 < 2 ^ 31
  | .float64 f => (FormatF.f64 f).length + 1 < 2 ^ 31
  | .string s => s.printedSize + 3 < 2 ^ 31
  | .measurement unitVal unit => (measurementToString unitVal unit).length + 3 < 2 ^ 31
  | .array vec => Val.ElementsFit vec ∧ (Val.array vec).jsonSize < 2 ^ 32
  | .map fields => Val.FieldsFit fields ∧ (Val.map fields).jsonSize < 2 ^ 32
  | .bytearray _ | .object _ | .error _ _ | .raw _ _ => True

def Val.ElementsFit [FormatF] : List (Val Text) → Prop
  | [] => True
  | elem :: vec => elem.Fits ∧ elem.jsonSize < 2 ^ 31 ∧ Val.ElementsFit vec

def Val.FieldsFit [FormatF] : List (Text × Val Text) → Prop
  | [] => True
  | (name, value) :: fields =>
    name.printedSize + 4 < 2 ^ 31 ∧ value.Fits ∧ value.jsonSize < 2 ^ 31 ∧ Val.FieldsFit fields

end

/-! ### Both agree where the sizes fit -/

theorem formatPasses_eq (text : Bytes) {size : Nat} (hsize : 0 < size) (hlt : size < 2 ^ 31) :
    formatPasses text size hsize = if text.length + 1 < 2 ^ 31 then some text else none := by
  fun_induction formatPasses text size hsize with
  | case1 size hsize n hn h =>
    obtain ⟨-, hlen⟩ := Option.ite_none_right_eq_some.mp hn
    cases hlen
    rw [if_pos (by omega)]
  | case2 size hsize n hn h hnext ih =>
    exact ih hnext
  | case3 size hsize n hn h hover =>
    obtain ⟨-, hlen⟩ := Option.ite_none_right_eq_some.mp hn
    cases hlen
    rw [if_neg hover]
  | case4 size hsize hn hnext ih =>
    exact ih hnext
  | case5 size hsize hn hover =>
    have hlong : ¬text.length < 2 ^ 31 := by
      intro h
      rw [vsnprintf, if_pos h] at hn
      cases hn
    rw [if_neg (by omega)]

theorem format_eq_some {fmt : List Char} (hfmt : fmt.length < 2 ^ 29) {text t : Bytes} :
    format fmt text = some t ↔ text.length + 1 < 2 ^ 31 ∧ text = t := by
  rw [format, formatPasses_eq text _ (by omega), Option.ite_none_right_eq_some, Option.some_inj]

theorem appendBytes_eq_some {str p t : Bytes} :
    appendBytes str p = some t ↔ p.length < 2 ^ 31 ∧ t.length < 2 ^ 32 ∧ t = str ++ p := by
  rw [appendBytes, Option.ite_none_right_eq_some, Option.some_inj, and_assoc]
  constructor
  · rintro ⟨hp, hsum, rfl⟩
    exact ⟨hp, by rwa [List.length_append], rfl⟩
  · rintro ⟨hp, hsum, rfl⟩
    exact ⟨hp, by rwa [List.length_append] at hsum, rfl⟩

theorem appendSeparator_eq_some {first : Bool} {s t : Bytes} (hs : s.length < 2 ^ 32) :
    appendSeparator first s = some t ↔ t.length < 2 ^ 32 ∧ t = s ++ separator first := by
  cases first with
  | true =>
    rw [appendSeparator, if_pos rfl, separator, if_pos rfl, List.append_nil, Option.some_inj]
    constructor
    · rintro rfl
      exact ⟨hs, rfl⟩
    · rintro ⟨-, rfl⟩
      rfl
  | false =>
    rw [appendSeparator, if_neg Bool.false_ne_true, appendBytes_eq_some, separator,
      if_neg Bool.false_ne_true, and_iff_right (by decide)]

/-- Integers of 64 bits have few digits. -/
theorem length_decimal_le {i : Int} (h : i.natAbs < 10 ^ 20) : (utf8 (decimal i)).length ≤ 84 := by
  have hdigits : ∀ n : Nat, n < 10 ^ 20 → (Nat.toDigits 10 n).length ≤ 20 := fun n hn =>
    (Nat.length_toDigits_le_iff (by decide) (by decide)).mpr hn
  have hle : (decimal i).length ≤ 21 := by
    cases i with
    | ofNat n =>
      have := hdigits n h
      rw [decimal]
      omega
    | negSucc n =>
      have := hdigits (n + 1) h
      rw [decimal, List.length_cons]
      omega
  have := length_utf8_le (decimal i)
  omega

theorem format_decimal {fmt : List Char} (hfmt : fmt.length < 2 ^ 29) {i : Int}
    (h : i.natAbs < 10 ^ 20) :
    format fmt (utf8 (decimal i)) = some (utf8 (decimal i)) := by
  have := length_decimal_le h
  exact (format_eq_some hfmt).mpr ⟨by omega, rfl⟩

theorem length_quoteBytes (b : Bytes) : (quoteBytes b).length = b.length + 2 := by
  have hquote : (utf8 ['\"']).length = 1 := by decide
  rw [quoteBytes, List.length_append, List.length_append, hquote]
  omega

theorem format_quoted {fmt : List Char} (hfmt : fmt.length < 2 ^ 29) {s : Text} {t : Bytes} :
    (s.cStr.bind cString).bind (fun p => format fmt (quoteBytes p)) = some t ↔
      (s.cStr.bind cString).map quoteBytes = some t ∧ s.printedSize + 3 < 2 ^ 31 := by
  rw [Text.printedSize]
  cases s.cStr.bind cString with
  | none => simp
  | some p =>
    rw [Option.bind_some, format_eq_some hfmt, length_quoteBytes, Option.map_some, Option.some_inj,
      and_comm]
    rfl

mutual

/-- `toJson` prints the text exactly where all sizes fit. -/
theorem Val.toJson_eq_some [FormatF] : ∀ (v : Val Text) {t : Bytes},
    v.toJson = some t ↔ v.jsonText = some t ∧ v.Fits
  | .empty, t => by simp [Val.toJson, Val.jsonText, Val.Fits]
  | .bytearray b, t => by simp [Val.toJson, Val.jsonText, Val.Fits]
  | .object id, t => by simp [Val.toJson, Val.jsonText]
  | .error code msg, t => by simp [Val.toJson, Val.jsonText]
  | .raw tag bits, t => by simp [Val.toJson, Val.jsonText]
  | .int32 i, t => by
    have := BitVec.toInt_lt (x := i)
    have := BitVec.le_toInt (x := i)
    rw [Val.toJson, Val.jsonText, Val.Fits, format_decimal (by decide) (by omega), and_true]
  | .int64 i, t => by
    have := BitVec.toInt_lt (x := i)
    have := BitVec.le_toInt (x := i)
    rw [Val.toJson, Val.jsonText, Val.Fits, format_decimal (by decide) (by omega), and_true]
  | .uint32 u, t => by
    have := u.isLt
    rw [Val.toJson, Val.jsonText, Val.Fits, format_decimal (by decide) (by omega), and_true]
  | .uint64 u, t => by
    have := u.isLt
    rw [Val.toJson, Val.jsonText, Val.Fits, format_decimal (by decide) (by omega), and_true]
  | .float32 f, t => by
    rw [Val.toJson, Val.jsonText, Val.Fits, format_eq_some (by decide), Option.some_inj, and_comm]
  | .float64 f, t => by
    rw [Val.toJson, Val.jsonText, Val.Fits, format_eq_some (by decide), Option.some_inj, and_comm]
  | .string s, t => by
    rw [Val.toJson, Val.jsonText, Val.Fits]
    exact format_quoted (by decide)
  | .measurement unitVal unit, t => by
    rw [Val.toJson, Val.jsonText, Val.Fits]
    simp only [Option.bind_eq_bind, Option.bind_eq_some_iff,
      format_eq_some (by decide : ['%', 'f', '%', 's'].length < 2 ^ 29),
      format_eq_some (by decide : ['\"', '%', 's', '\"'].length < 2 ^ 29), Option.some_inj]
    constructor
    · rintro ⟨p, ⟨-, rfl⟩, hlen, rfl⟩
      rw [length_quoteBytes] at hlen
      exact ⟨rfl, hlen⟩
    · rintro ⟨rfl, hlen⟩
      exact ⟨_, ⟨by omega, rfl⟩, by rwa [length_quoteBytes], rfl⟩
  | .array vec, t => by
    have hopen : (utf8 ['[']).length < 2 ^ 32 := by decide
    have hclose : (utf8 [']']).length < 2 ^ 31 := by decide
    rw [Val.toJson, Val.Fits, Val.jsonSize, Val.jsonText]
    simp only [Option.bind_eq_bind, Option.bind_eq_some_iff, Option.map_eq_some_iff,
      appendBytes_eq_some, Val.elementsToJson_eq_some vec hopen]
    constructor
    · rintro ⟨s, ⟨u, hu, rfl, hfit, -⟩, -, hlen, rfl⟩
      refine ⟨⟨u, hu, rfl⟩, hfit, ?_⟩
      rw [hu]
      exact hlen
    · rintro ⟨⟨u, hu, rfl⟩, hfit, hlen⟩
      rw [hu] at hlen
      refine ⟨_, ⟨u, hu, rfl, hfit, ?_⟩, hclose, hlen, rfl⟩
      exact Nat.lt_of_le_of_lt (List.prefix_append _ (utf8 [']'])).length_le hlen
  | .map fields, t => by
    have hopen : (utf8 ['{']).length < 2 ^ 32 := by decide
    have hclose : (utf8 ['}']).length < 2 ^ 31 := by decide
    rw [Val.toJson, Val.Fits, Val.jsonSize, Val.jsonText]
    simp only [Option.bind_eq_bind, Option.bind_eq_some_iff, Option.map_eq_some_iff,
      appendBytes_eq_some, Val.fieldsToJson_eq_some fields hopen]
    constructor
    · rintro ⟨s, ⟨u, hu, rfl, hfit, -⟩, -, hlen, rfl⟩
      refine ⟨⟨u, hu, rfl⟩, hfit, ?_⟩
      rw [hu]
      exact hlen
    · rintro ⟨⟨u, hu, rfl⟩, hfit, hlen⟩
      rw [hu] at hlen
      refine ⟨_, ⟨u, hu, rfl, hfit, ?_⟩, hclose, hlen, rfl⟩
      exact Nat.lt_of_le_of_lt (List.prefix_append _ (utf8 ['}'])).length_le hlen

theorem Val.elementsToJson_eq_some [FormatF] :
    ∀ (vec : List (Val Text)) {first : Bool} {s t : Bytes},
    s.length < 2 ^ 32 → (Val.elementsToJson first vec s = some t ↔
      ∃ u, Val.elementsText first vec = some u ∧ t = s ++ u ∧ Val.ElementsFit vec ∧
        t.length < 2 ^ 32)
  | [], first, s, t, hs => by
    rw [Val.elementsToJson, Val.elementsText, Val.ElementsFit]
    constructor
    · intro h
      obtain rfl := Option.some.inj h
      exact ⟨[], rfl, (List.append_nil s).symm, trivial, hs⟩
    · rintro ⟨u, hu, rfl, -, -⟩
      obtain rfl := Option.some.inj hu
      rw [List.append_nil]
  | elem :: vec, first, s, t, hs => by
    rw [Val.elementsToJson, Val.elementsText, Val.ElementsFit]
    simp only [Option.bind_eq_bind, Option.bind_eq_some_iff, appendSeparator_eq_some hs,
      appendBytes_eq_some, Val.toJson_eq_some elem, Option.pure_def, Option.some_inj]
    constructor
    · rintro ⟨s₁, ⟨-, rfl⟩, text, ⟨htext, hfit⟩, s₂, ⟨hsize, hlen, rfl⟩, hrest⟩
      obtain ⟨rest, hu, rfl, hfits, hlt⟩ := (Val.elementsToJson_eq_some vec hlen).mp hrest
      refine ⟨_, ⟨text, htext, rest, hu, rfl⟩, ?_, ⟨hfit, ?_, hfits⟩, hlt⟩
      · simp only [List.append_assoc]
      · rw [Val.jsonSize, htext]
        exact hsize
    · rintro ⟨u, ⟨text, htext, rest, hrest, rfl⟩, rfl, ⟨hfit, hsize, hfits⟩, hlt⟩
      rw [Val.jsonSize, htext] at hsize
      simp only [List.length_append] at hlt
      have hlen : (s ++ separator first ++ text).length < 2 ^ 32 := by
        simp only [List.length_append]
        omega
      refine ⟨_, ⟨?_, rfl⟩, text, ⟨htext, hfit⟩, _, ⟨hsize, hlen, rfl⟩, ?_⟩
      · rw [List.length_append]
        omega
      · refine (Val.elementsToJson_eq_some vec hlen).mpr ⟨rest, hrest, ?_, hfits, ?_⟩
        · simp only [List.append_assoc]
        · simp only [List.length_append]
          omega

theorem Val.fieldsToJson_eq_some [FormatF] :
    ∀ (fields : List (Text × Val Text)) {first : Bool} {s t : Bytes},
    s.length < 2 ^ 32 → (Val.fieldsToJson first fields s = some t ↔
      ∃ u, Val.fieldsText first fields = some u ∧ t = s ++ u ∧ Val.FieldsFit fields ∧
        t.length < 2 ^ 32)
  | [], first, s, t, hs => by
    rw [Val.fieldsToJson, Val.fieldsText, Val.FieldsFit]
    constructor
    · intro h
      obtain rfl := Option.some.inj h
      exact ⟨[], rfl, (List.append_nil s).symm, trivial, hs⟩
    · rintro ⟨u, hu, rfl, -, -⟩
      obtain rfl := Option.some.inj hu
      rw [List.append_nil]
  | (name, value) :: fields, first, s, t, hs => by
    have hcolon : (utf8 [':']).length = 1 := by decide
    rw [Val.fieldsToJson, Val.fieldsText, Val.FieldsFit, Text.printedSize]
    generalize name.cStr.bind cString = printed
    simp only [Option.bind_eq_bind, Option.bind_eq_some_iff, appendSeparator_eq_some hs,
      appendBytes_eq_some, format_eq_some (by decide : ['\"', '%', 's', '\"', ':'].length < 2 ^ 29),
      Val.toJson_eq_some value, Option.pure_def,
      Option.some_inj]
    constructor
    · rintro ⟨s₁, ⟨-, rfl⟩, p, rfl, key, ⟨hkey, rfl⟩, s₂, ⟨-, hlen₂, rfl⟩, text, ⟨htext, hfit⟩, s₃,
        ⟨hsize, hlen, rfl⟩, hrest⟩
      obtain ⟨rest, hu, rfl, hfits, hlt⟩ := (Val.fieldsToJson_eq_some fields hlen).mp hrest
      rw [List.length_append, length_quoteBytes, hcolon] at hkey
      refine ⟨_, ⟨p, rfl, text, htext, rest, hu, rfl⟩, ?_, ⟨hkey, hfit, ?_, hfits⟩, hlt⟩
      · simp only [List.append_assoc]
      · rw [Val.jsonSize, htext]
        exact hsize
    · rintro ⟨u, ⟨p, rfl, text, htext, rest, hrest, rfl⟩, rfl, ⟨hkey, hfit, hsize, hfits⟩, hlt⟩
      rw [Val.jsonSize, htext] at hsize
      have hkey : (quoteBytes p ++ utf8 [':']).length + 1 < 2 ^ 31 := by
        rw [List.length_append, length_quoteBytes, hcolon]
        exact hkey
      simp only [List.length_append] at hlt
      have hlen₂ : (s ++ separator first ++ (quoteBytes p ++ utf8 [':'])).length < 2 ^ 32 := by
        simp only [List.length_append]
        omega
      have hlen : (s ++ separator first ++ (quoteBytes p ++ utf8 [':']) ++ text).length <
          2 ^ 32 := by
        simp only [List.length_append]
        omega
      refine ⟨_, ⟨?_, rfl⟩, p, rfl, _, ⟨hkey, rfl⟩, _, ⟨by omega, hlen₂, rfl⟩, text, ⟨htext, hfit⟩,
        _, ⟨hsize, hlen, rfl⟩, ?_⟩
      · rw [List.length_append]
        omega
      · refine (Val.fieldsToJson_eq_some fields hlen).mpr ⟨rest, hrest, ?_, hfits, ?_⟩
        · simp only [List.append_assoc]
        · simp only [List.length_append]
          omega

end

mutual

/-- The val with each string replaced by its content. -/
def Val.content : Val Text → CVal
  | .empty => .empty
  | .int32 i => .int32 i
  | .int64 i => .int64 i
  | .uint32 u => .uint32 u
  | .uint64 u => .uint64 u
  | .float32 f => .float32 f
  | .float64 f => .float64 f
  | .measurement unitVal unit => .measurement unitVal unit
  | .string s => .string s.content
  | .bytearray b => .bytearray b
  | .array vec => .array (Val.contents vec)
  | .map fields => .map (Val.fieldContents fields)
  | .object id => .object id
  | .error code msg => .error code msg.content
  | .raw tag bits => .raw tag bits

def Val.contents : List (Val Text) → List CVal
  | [] => []
  | v :: vec => v.content :: Val.contents vec

def Val.fieldContents : List (Text × Val Text) → List (Bytes × CVal)
  | [] => []
  | (name, v) :: fields => (name.content, v.content) :: Val.fieldContents fields

end

/-! ## Vals that JSON can carry -/

/-- A string in a NUL-terminated buffer of its own, without double quote,
backslash and NUL. -/
structure Text.Plain (s : Text) : Prop where
  offset_eq : s.offset = 0
  mem_eq : s.mem = s.content ++ [0]
  chars : ∃ cs, s.content = utf8 cs ∧ IsPlain cs

/-- Integers by the width `parse` chooses, plain strings, arrays and maps. -/
inductive JsonVal : Val Text → Prop
  | int32 (i : BitVec 32) : JsonVal (.int32 i)
  | int64 {i : BitVec 64} (hout : i.toInt < -2 ^ 31 ∨ i.toInt > 2 ^ 31 - 1)
      (hmin : -2 ^ 63 < i.toInt) : JsonVal (.int64 i)
  | string {s : Text} (h : s.Plain) : JsonVal (.string s)
  | array {vec : List (Val Text)} (h : ∀ v ∈ vec, JsonVal v) : JsonVal (.array vec)
  | map {fields : List (Text × Val Text)}
      (hs : fields.Pairwise fun f g => f.1.content < g.1.content)
      (hk : ∀ f ∈ fields, f.1.Plain ∧ f.1.content ≠ []) (h : ∀ f ∈ fields, JsonVal f.2) :
      JsonVal (.map fields)

theorem zero_notMem_bytes {v : Nat} (h : v ≠ 0) : 0 ∉ (Glyph.ofCode v).bytes := by
  have hcont : ∀ x, contByte x ≠ 0 := by
    intro x e
    have := congrArg UInt8.toNat e
    simp [contByte] at this
    omega
  have hlead : ∀ {x m k : Nat}, 0 < m → 0 < k → k + m ≤ 256 → UInt8.ofNat (x % m + k) ≠ 0 := by
    intro x m k hm hk hle e
    have := congrArg UInt8.toNat e
    have hx := Nat.mod_lt x hm
    rw [UInt8.toNat_ofNat', Nat.mod_eq_of_lt (show x % m + k < 2 ^ 8 by omega), UInt8.toNat_zero]
      at this
    omega
  unfold Glyph.ofCode
  split_ifs with h1 h2 h3
  · intro hm
    have e := congrArg UInt8.toNat (List.mem_singleton.mp hm)
    rw [UInt8.toNat_ofNat', UInt8.toNat_zero] at e
    omega
  · simp only [Glyph.bytes, List.mem_cons, List.not_mem_nil, or_false, not_or]
    exact ⟨(hlead (by decide) (by decide) (by decide)).symm, (hcont _).symm⟩
  · simp only [Glyph.bytes, List.mem_cons, List.not_mem_nil, or_false, not_or]
    exact ⟨(hlead (by decide) (by decide) (by decide)).symm, (hcont _).symm, (hcont _).symm⟩
  · simp only [Glyph.bytes, List.mem_cons, List.not_mem_nil, or_false, not_or]
    exact ⟨(hlead (by decide) (by decide) (by decide)).symm, (hcont _).symm, (hcont _).symm,
      (hcont _).symm⟩

/-- NUL-free characters have no zero byte. -/
theorem zero_notMem_utf8 {cs : List Char} (h : NulFree cs) : 0 ∉ utf8 cs := by
  induction cs with
  | nil => exact List.not_mem_nil
  | cons c cs ih =>
    have hc := zero_notMem_bytes h.head
    rw [utf8_cons, List.mem_append, not_or]
    refine ⟨?_, ih h.tail⟩
    rw [utf8_singleton]
    exact hc

/-- `c_str()` of a string in its own buffer prints its content. -/
theorem Text.printed {s : Text} (hoffset : s.offset = 0) (hmem : s.mem = s.content ++ [0])
    {cs : List Char} (hc : s.content = utf8 cs) (hfree : NulFree cs) :
    s.cStr.bind cString = some s.content := by
  have hz : 0 ∉ s.content := hc ▸ zero_notMem_utf8 hfree
  have hlen : s.mem.length - 1 = s.cb := by
    rw [hmem, List.length_append, s.length_content]
    rfl
  have hcstr : s.cStr = some (s.content ++ [0]) := by
    have hne : s.mem ≠ [] := by
      rw [hmem]
      simp
    rw [Text.cStr, if_neg hne, if_neg (by rw [hlen, hoffset]; omega), hmem]
  have htake : (s.content ++ [0]).takeWhile (· ≠ 0) = s.content := by
    rw [List.takeWhile_append_of_pos]
    · simp
    · intro b hb
      simp only [ne_eq, decide_not, Bool.not_eq_eq_eq_not, Bool.not_true, decide_eq_false_iff_not]
      rintro rfl
      exact hz hb
  rw [hcstr, Option.bind_some, cString, if_pos (by simp), htake]

theorem Text.Plain.printed {s : Text} (h : s.Plain) : s.cStr.bind cString = some s.content := by
  obtain ⟨cs, hcs, hp⟩ := h.chars
  exact Text.printed h.offset_eq h.mem_eq hcs fun c hc => (hp c hc).2.2

/-! ## Vals as documents -/

theorem intVal_int32 (i : BitVec 32) : intVal i.toInt = .int32 i := by
  have h1 := BitVec.toInt_lt (x := i)
  have h2 := BitVec.le_toInt (x := i)
  rw [intVal, if_neg (by omega), BitVec.ofInt_toInt]

theorem intVal_int64 {i : BitVec 64} (h : i.toInt < -2 ^ 31 ∨ i.toInt > 2 ^ 31 - 1) :
    intVal i.toInt = .int64 i := by
  rw [intVal, if_pos h, BitVec.ofInt_toInt]

theorem utf8_enclosed (c d : Char) (cs : List Char) :
    utf8 (c :: cs ++ [d]) = utf8 [c] ++ utf8 cs ++ utf8 [d] := by
  rw [utf8_append, utf8_cons]

theorem utf8_quote (cs : List Char) : utf8 (quote cs) = quoteBytes (utf8 cs) :=
  utf8_enclosed '\"' '\"' cs

theorem comma_of_length {α β : Type} {as : List α} {bs : List β} (h : as.length = bs.length) :
    comma as = comma bs := by
  cases as with
  | nil =>
    cases bs with
    | nil => rfl
    | cons b bs => cases h
  | cons a as =>
    cases bs with
    | nil => cases h
    | cons b bs => rfl

theorem fieldContents_eq_map (fields : List (Text × Val Text)) :
    Val.fieldContents fields = fields.map fun f => (f.1.content, f.2.content) := by
  induction fields with
  | nil => simp [Val.fieldContents]
  | cons f fields ih => simp [Val.fieldContents, ih]

/-- The fields of a val are in key order already. -/
theorem ofFields_fieldContents {fields : List (Text × Val Text)}
    (hs : fields.Pairwise fun f g => f.1.content < g.1.content) :
    ((Val.fieldContents fields).map Prod.fst).Nodup ∧
      OrderedMap.ofFields (Val.fieldContents fields) = Val.fieldContents fields := by
  have hsort : OrderedMap.Sorted (Val.fieldContents fields) := by
    rw [fieldContents_eq_map]
    exact List.pairwise_map.mpr hs
  have hnodup : ((Val.fieldContents fields).map Prod.fst).Nodup := by
    apply List.pairwise_map.mpr
    exact hsort.imp fun h => ne_of_lt h
  refine ⟨hnodup, ?_⟩
  rw [← OrderedMap.assignAll_eq_ofFields _ hnodup]
  exact OrderedMap.assignAll_of_sorted [] _ hsort

/-- The val prints as a document that stands for its content. -/
def PrintsAs [FormatF] (v : Val Text) (d : Doc) : Prop :=
  d.Ok true ∧ v.jsonText = some (utf8 (d.render true)) ∧ d.toVal = v.content

section Print
variable [FormatF]

theorem elementsText_false (vec : List (Val Text)) :
    Val.elementsText false vec =
      (Val.elementsText true vec).map fun s => utf8 (comma vec) ++ s := by
  cases vec with
  | nil => rfl
  | cons v vec =>
    simp only [Val.elementsText]
    cases v.jsonText with
    | none => rfl
    | some s =>
      cases Val.elementsText false vec with
      | none => rfl
      | some rest => simp [separator, comma]

theorem fieldsText_false (fields : List (Text × Val Text)) :
    Val.fieldsText false fields =
      (Val.fieldsText true fields).map fun s => utf8 (comma fields) ++ s := by
  cases fields with
  | nil => rfl
  | cons f fields =>
    simp only [Val.fieldsText]
    cases f.1.cStr.bind cString with
    | none => rfl
    | some key =>
      cases f.2.jsonText with
      | none => rfl
      | some s =>
        cases Val.fieldsText false fields with
        | none => rfl
        | some rest => simp [separator, comma]

/-- The elements of an array print as the elements of a document. -/
theorem exists_docs {vec : List (Val Text)} (h : ∀ v ∈ vec, ∃ d, PrintsAs v d) :
    ∃ ds : List Doc, ds.length = vec.length ∧ (∀ d ∈ ds, d.Ok true) ∧
      Val.elementsText true vec = some (utf8 (Doc.renderElements true ds)) ∧
      Doc.toVals ds = Val.contents vec := by
  induction vec with
  | nil =>
    refine ⟨[], rfl, ?_, by simp [Val.elementsText, Doc.renderElements],
      by simp [Doc.toVals, Val.contents]⟩
    intro d hd
    cases hd
  | cons v vec ih =>
    obtain ⟨d, hok, hj, hv⟩ := h v (List.mem_cons_self ..)
    obtain ⟨ds, hl, hoks, hjs, hvs⟩ := ih fun v hv => h v (List.mem_cons_of_mem _ hv)
    refine ⟨d :: ds, by simp [hl], ?_, ?_, ?_⟩
    · intro e he
      rcases List.mem_cons.mp he with rfl | he
      · exact hok
      · exact hoks e he
    · rw [Val.elementsText, hj, elementsText_false, hjs, ← comma_of_length hl]
      simp [separator, Doc.renderElements]
    · rw [Doc.toVals, Val.contents, hv, hvs]

/-- The fields of a map print as the fields of a document. -/
theorem exists_docFields {fields : List (Text × Val Text)}
    (hk : ∀ f ∈ fields, f.1.Plain ∧ f.1.content ≠ []) (h : ∀ f ∈ fields, ∃ d, PrintsAs f.2 d) :
    ∃ fs : List (List Char × Doc), fs.length = fields.length ∧
      (∀ f ∈ fs, f.1 ≠ [] ∧ IsKey true f.1) ∧ (∀ f ∈ fs, f.2.Ok true) ∧
      Val.fieldsText true fields = some (utf8 (Doc.renderFields true fs)) ∧
      Doc.toFields fs = Val.fieldContents fields := by
  induction fields with
  | nil =>
    refine ⟨[], rfl, ?_, ?_, by simp [Val.fieldsText, Doc.renderFields],
      by simp [Doc.toFields, Val.fieldContents]⟩
    · intro f hf
      cases hf
    · intro f hf
      cases hf
  | cons f fields ih =>
    obtain ⟨d, hok, hj, hv⟩ := h f (List.mem_cons_self ..)
    obtain ⟨hplain, hne⟩ := hk f (List.mem_cons_self ..)
    obtain ⟨k, hkey, hkp⟩ := hplain.chars
    obtain ⟨fs, hl, hks, hoks, hjs, hvs⟩ := ih (fun f hf => hk f (List.mem_cons_of_mem _ hf))
      fun f hf => h f (List.mem_cons_of_mem _ hf)
    refine ⟨(k, d) :: fs, by simp [hl], ?_, ?_, ?_, ?_⟩
    · intro e he
      rcases List.mem_cons.mp he with rfl | he
      · refine ⟨?_, hkp⟩
        rintro rfl
        exact hne hkey
      · exact hks e he
    · intro e he
      rcases List.mem_cons.mp he with rfl | he
      · exact hok
      · exact hoks e he
    · rw [Val.fieldsText, hplain.printed, hj, fieldsText_false, hjs, ← comma_of_length hl, hkey]
      simp only [Doc.renderFields, renderKey, fieldEnd, utf8_append, utf8_quote]
      simp [separator]
    · rw [Doc.toFields, Val.fieldContents, hv, hvs, hkey]

/-- Every val that JSON can carry prints as a document. -/
theorem JsonVal.exists_doc {v : Val Text} (h : JsonVal v) : ∃ d, PrintsAs v d := by
  induction h with
  | int32 i =>
    have h1 := BitVec.toInt_lt (x := i)
    have h2 := BitVec.le_toInt (x := i)
    refine ⟨.int i.toInt, .int (by omega) (by omega), by rw [Val.jsonText, Doc.render], ?_⟩
    rw [Doc.toVal, Val.content, intVal_int32]
  | @int64 i hout hmin =>
    refine ⟨.int i.toInt, .int hmin BitVec.toInt_lt, by rw [Val.jsonText, Doc.render], ?_⟩
    rw [Doc.toVal, Val.content, intVal_int64 hout]
  | @string s h =>
    obtain ⟨cs, hcs, hp⟩ := h.chars
    refine ⟨.str cs, .str hp, ?_, ?_⟩
    · rw [Val.jsonText, h.printed, hcs, Doc.render, utf8_quote]
      rfl
    · rw [Doc.toVal, Val.content, hcs]
  | array _ ih =>
    obtain ⟨ds, -, hok, hj, hv⟩ := exists_docs ih
    refine ⟨.arr ds, .arr hok, ?_, ?_⟩
    · rw [Val.jsonText, hj, Doc.render, utf8_enclosed]
      rfl
    · rw [Doc.toVal, Val.content, hv]
  | map hs hk _ ih =>
    obtain ⟨fs, -, hkeys, hok, hj, hv⟩ := exists_docFields hk ih
    obtain ⟨hnodup, hsort⟩ := ofFields_fieldContents hs
    rw [← hv, toFields_keys] at hnodup
    refine ⟨.map fs, .map hnodup.of_map hkeys hok, ?_, ?_⟩
    · rw [Val.jsonText, hj, Doc.render, mapStart, List.cons_append, List.nil_append, utf8_enclosed]
      rfl
    · rw [Doc.toVal, Val.content, hv, hsort]

theorem JsonVal.length_lt {v : Val Text} (h : JsonVal v) (hfit : v.Fits) {text : Bytes}
    (htext : v.jsonText = some text) : text.length < 2 ^ 32 := by
  cases h with
  | int32 i =>
    have := BitVec.toInt_lt (x := i)
    have := BitVec.le_toInt (x := i)
    have := length_decimal_le (i := i.toInt) (by omega)
    obtain rfl := Option.some.inj htext
    omega
  | @int64 i hout hmin =>
    have := BitVec.toInt_lt (x := i)
    have := length_decimal_le (i := i.toInt) (by omega)
    obtain rfl := Option.some.inj htext
    omega
  | @string s hs =>
    rw [Val.jsonText, hs.printed] at htext
    rw [Val.Fits, Text.printedSize, hs.printed, Option.getD_some] at hfit
    obtain rfl := Option.some.inj htext
    rw [length_quoteBytes]
    omega
  | array hs =>
    rw [Val.Fits, Val.jsonSize, htext] at hfit
    exact hfit.2
  | map hs hk hv =>
    rw [Val.Fits, Val.jsonSize, htext] at hfit
    exact hfit.2

/-- JSON printing and parsing agree: where the sizes fit, `toJson` succeeds, and on a whole
buffer that holds what it printed `parse` returns the val's content with the cursor at the
end. Elsewhere nothing is printed. -/
theorem json_parse_toJson [Fpu] {v : Val Text} (h : JsonVal v) :
    (v.Fits → ∃ text, v.toJson = some text ∧ text.length < 2 ^ 32 ∧
      ∀ s : Text, s.Whole → s.content = text →
        ∃ fuel c, s.parse .jsonOnly fuel = .done (v.content, c) ∧ c.it = s.cb) ∧
    (¬v.Fits → v.toJson = none) := by
  obtain ⟨d, hok, hj, hv⟩ := h.exists_doc
  constructor
  · intro hfit
    refine ⟨_, (Val.toJson_eq_some v).mpr ⟨hj, hfit⟩, h.length_lt hfit hj, ?_⟩
    intro s hw hc
    rw [← hv]
    exact hok.parse_text hw hc
  · intro hfit
    cases htext : v.toJson with
    | none => rfl
    | some text => exact (hfit ((Val.toJson_eq_some v).mp htext).2).elim

end Print

/-- The format function of the host. -/
@[reducible] def FormatF.host : FormatF where
  f32 x := utf8 (Float32.ofBits ⟨x⟩).toFloat.toString.toList
  f64 x := utf8 (Float.ofBits ⟨x⟩).toString.toList

theorem plain_whole {cs : List Char} (h : IsPlain cs) (hl : (utf8 cs).length < 2 ^ 32) :
    (Text.whole (utf8 cs) hl).Plain where
  offset_eq := rfl
  mem_eq := (Text.whole_isWhole _ hl).mem_eq
  chars := ⟨cs, Text.content_whole _ hl, h⟩

/-- A map of an array with both integer widths and of a string. -/
theorem json_parse_toJson_map :
    ∃ fuel c, @Text.parse .ieee
      (.whole (utf8 ['{', '\"', 'z', '\"', ':', '[', '-', '5', ',', '2', '1', '4', '7', '4', '8',
        '3', '6', '4', '8', ']', ',', '\"', 'é', '\"', ':', '\"', 'x', '\"', '}']) (by decide))
      .jsonOnly fuel =
        .done (.map [([0x7A], .array [.int32 (-5), .int64 2147483648]),
          ([0xC3, 0xA9], .string [0x78])], c) ∧ c.it = 30 := by
  let _ := Fpu.ieee
  let _ := FormatF.host
  have hz : IsPlain ['z'] := forall_mem_of_all rfl
  have he : IsPlain ['é'] := forall_mem_of_all rfl
  have hx : IsPlain ['x'] := forall_mem_of_all rfl
  have harr : JsonVal (.array [.int32 (-5), .int64 2147483648]) := by
    apply JsonVal.array
    intro v hv
    rcases List.mem_cons.mp hv with rfl | hv
    · exact .int32 _
    · obtain rfl := List.mem_singleton.mp hv
      exact .int64 (by decide) (by decide)
  have hval : JsonVal (.map
      [(.whole (utf8 ['z']) (by decide), .array [.int32 (-5), .int64 2147483648]),
        (.whole (utf8 ['é']) (by decide), .string (.whole (utf8 ['x']) (by decide)))]) := by
    apply JsonVal.map
    · decide
    · intro f hf
      rcases List.mem_cons.mp hf with rfl | hf
      · exact ⟨plain_whole hz _, by decide⟩
      · obtain rfl := List.mem_singleton.mp hf
        exact ⟨plain_whole he _, by decide⟩
    · intro f hf
      rcases List.mem_cons.mp hf with rfl | hf
      · exact harr
      · obtain rfl := List.mem_singleton.mp hf
        exact .string (plain_whole hx _)
  obtain ⟨text, ht, -, h⟩ := (json_parse_toJson hval).1
    ⟨⟨by decide, ⟨⟨trivial, by decide, trivial, by decide, trivial⟩, by decide⟩, by decide,
      by decide, by unfold Val.Fits; decide, by decide, trivial⟩, by decide⟩
  have htext := ((Val.toJson_eq_some _).mp ht).1
  exact h _ (Text.whole_isWhole _ _) ((Text.content_whole _ _).trans (Option.some.inj htext))

theorem toJson_long [FormatF] {s : Text} (h : s.Plain) (hlen : 2 ^ 31 ≤ s.cb + 3) :
    (Val.string s).toJson = none := by
  cases htext : (Val.string s).toJson with
  | none => rfl
  | some text =>
    have hfit := ((Val.toJson_eq_some _).mp htext).2
    rw [Val.Fits, Text.printedSize, h.printed, Option.getD_some, s.length_content] at hfit
    omega

theorem utf8_replicate (n : Nat) : utf8 (List.replicate n 'a') = List.replicate n 0x61 := by
  induction n with
  | zero => rfl
  | succ n ih =>
    rw [List.replicate_succ, utf8_cons, ih]
    rfl

/-- A string whose length with its quotes is the greatest `int`. -/
theorem json_parse_toJson_overflows :
    ∃ s : Text, s.cb = 2 ^ 31 - 3 ∧ JsonVal (.string s) ∧ @Val.toJson .host (.string s) = none := by
  have hlen : (List.replicate (2 ^ 31 - 3) (0x61 : UInt8)).length = 2 ^ 31 - 3 :=
    List.length_replicate
  have hplain : (Text.whole (List.replicate (2 ^ 31 - 3) 0x61) (by omega)).Plain := by
    refine ⟨rfl, (Text.whole_isWhole _ _).mem_eq, List.replicate (2 ^ 31 - 3) 'a', ?_, ?_⟩
    · rw [Text.content_whole, utf8_replicate]
    · intro c hc
      obtain rfl := List.eq_of_mem_replicate hc
      decide
  have hlong : 2 ^ 31 ≤ (List.replicate (2 ^ 31 - 3) (0x61 : UInt8)).length + 3 := by omega
  exact ⟨_, hlen, .string hplain, @toJson_long .host _ hplain hlong⟩

/-! ## Integers of any width -/

/-- Reading the text gives an integer val that denotes `i`. -/
def ReadsInteger [Fpu] (s : Text) (i : Int) : Prop :=
  ∃ fuel v c, s.parse .jsonOnly fuel = .done (v, c) ∧ v.integer? = some i

theorem toJson_integer [FormatF] {v : Val Text} {i : Int} (h : v.integer? = some i) :
    v.toJson = some (utf8 (decimal i)) := by
  cases v with
  | int32 _ =>
    cases h
    exact (Val.toJson_eq_some _).mpr ⟨rfl, trivial⟩
  | int64 _ =>
    cases h
    exact (Val.toJson_eq_some _).mpr ⟨rfl, trivial⟩
  | uint32 _ =>
    cases h
    exact (Val.toJson_eq_some _).mpr ⟨rfl, trivial⟩
  | uint64 _ =>
    cases h
    exact (Val.toJson_eq_some _).mpr ⟨rfl, trivial⟩
  | _ => cases h

/-- The digits are read modulo 2^64, as a signed number. -/
theorem readsInteger_eq [Fpu] {s : Text} (hw : s.Whole) {i : Int}
    (hc : s.content = utf8 (decimal i)) :
    ReadsInteger s i ↔ i.bmod (2 ^ 64) = i := by
  have hz : NulFree (decimal i ++ []) := by
    rw [List.append_nil]
    exact nulFree_decimal i
  have hnil : NulFree [] := fun c hc => nomatch hc
  have hread : parse charReader ((decimal i).length + 3) .jsonOnly (decimal i ++ []) =
      .done (intVal (i.bmod (2 ^ 64)), []) := by
    apply parse_of_parseValue Stops.nil hnil (Nat.succ_pos _)
    exact parseValue_decimal i (by simp) hz Stops.nil
  rw [List.append_nil] at hread
  obtain ⟨c, hrun, -⟩ := hw.parse_eq_done hc hread
  have hlow := Int.le_bmod (x := i) (m := 2 ^ 64) (by omega)
  have hhigh := Int.bmod_lt (x := i) (m := 2 ^ 64) (by omega)
  have hvalue : (intVal (i.bmod (2 ^ 64))).integer? = some (i.bmod (2 ^ 64)) :=
    intVal_integer? (by omega) (by omega)
  constructor
  · rintro ⟨fuel, v, c', hrun', hv⟩
    cases parse_returns_unique s.reader .jsonOnly ⟨fuel, hrun'⟩ ⟨_, hrun⟩
    exact Option.some_inj.mp (hvalue.symm.trans hv)
  · intro hi
    exact ⟨_, _, c, hrun, hvalue.trans (congrArg some hi)⟩

/-- JSON keeps an integer val, unless it is a UINT64 from 2^63 on. -/
theorem json_integer_iff [Fpu] [FormatF] {v : Val Text} {i : Int} (hv : v.integer? = some i)
    {s : Text} (hw : s.Whole) (hs : v.toJson = some s.content) :
    ReadsInteger s i ↔ ∀ u, v = .uint64 u → u.toNat < 2 ^ 63 := by
  rw [toJson_integer hv] at hs
  rw [readsInteger_eq hw (Option.some_inj.mp hs).symm]
  cases v with
  | int32 n =>
    cases hv
    have hlow := BitVec.le_toInt n
    have hhigh := BitVec.toInt_lt (x := n)
    exact iff_of_true (bmod_eq_self_64 (by omega) (by omega)) nofun
  | int64 n =>
    cases hv
    have hlow := BitVec.le_toInt n
    have hhigh := BitVec.toInt_lt (x := n)
    exact iff_of_true (bmod_eq_self_64 (by omega) (by omega)) nofun
  | uint32 n =>
    cases hv
    have hhigh := n.isLt
    exact iff_of_true (bmod_eq_self_64 (by omega) (by omega)) nofun
  | uint64 n =>
    cases hv
    constructor
    · intro h u hu
      cases hu
      have hhigh := Int.bmod_lt (x := (n.toNat : Int)) (m := 2 ^ 64) (by omega)
      rw [h] at hhigh
      omega
    · intro h
      have hhigh := h n rfl
      exact bmod_eq_self_64 (by omega) (by omega)
  | _ => cases hv

/-- The least INT64. -/
theorem json_integer_least :
    @ReadsInteger .ieee (.whole (utf8 (decimal (-2 ^ 63))) (by decide)) (-2 ^ 63) := by
  let _ := Fpu.ieee
  let _ := FormatF.host
  have hleast : (Val.int64 (BitVec.intMin 64) : Val Text).integer? = some (-2 ^ 63) := by decide
  have hjson : (Val.int64 (BitVec.intMin 64) : Val Text).toJson =
      some (Text.whole (utf8 (decimal (-2 ^ 63))) (by decide)).content := by
    rw [Text.content_whole]
    exact toJson_integer hleast
  exact (json_integer_iff hleast (Text.whole_isWhole _ _) hjson).mpr nofun

/-- The greatest UINT64 is read as -1. -/
theorem json_integer_greatest_fails :
    (@Val.toJson .host (.uint64 (BitVec.allOnes 64)) = some (utf8 (decimal (2 ^ 64 - 1)))) ∧
      ¬@ReadsInteger .ieee (.whole (utf8 (decimal (2 ^ 64 - 1))) (by decide)) (2 ^ 64 - 1) := by
  let _ := Fpu.ieee
  let _ := FormatF.host
  refine ⟨toJson_integer (by decide), ?_⟩
  intro h
  have hwrap := (readsInteger_eq (Text.whole_isWhole _ _) (Text.content_whole _ _)).mp h
  revert hwrap
  decide

end Libacorn
