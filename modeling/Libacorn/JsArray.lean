import Mathlib.Data.Nat.Bitwise
import Libacorn.JsString

/-!
# Vals across the JavaScript boundary

`qjs::js_traits<acorn::val>` of libacorn.h, on vals and on the JavaScript values that
`wrap` makes. `wrap` passes the index of an element to `JS_DefinePropertyValue` as if it
were an atom, and small atoms are predefined names: no array with elements survives
(`jsVal_survives_iff`).

Absent elements read as undefined: the prototype of arrays has no elements of its own.
-/

namespace Libacorn

open Support

/-! ## Atoms -/

/-- A `JSAtom`. -/
abbrev JsAtom : Type := BitVec 32

/-- The names of js/quickjs-atom.h up to `length`; the first is the atom 1. -/
def atomNames : List String :=
  ["null", "false", "true", "if", "else", "return", "var", "this", "delete", "void", "typeof",
    "new", "in", "instanceof", "do", "while", "for", "break", "continue", "switch", "case",
    "default",
    "throw", "try", "catch", "finally", "function", "debugger", "with", "class", "const", "enum",
    "export", "extends", "import", "super", "implements", "interface", "let", "package", "private",
    "protected", "public", "static", "yield", "await", "", "length"]

/-- `JS_ATOM_length` -/
def atomLength : Nat := atomNames.length

/-- `__JS_AtomIsTaggedInt` -/
def atomIsTaggedInt (a : JsAtom) : Bool := a &&& 0x80000000#32 ≠ 0

/-- `__JS_AtomToUInt32` -/
def atomToUInt32 (a : JsAtom) : Nat := (a &&& ~~~0x80000000#32).toNat

/-- What the atom table has under an atom without tag. -/
inductive AtomEntry where
  | free
  | name
  | index (k : Nat)

/-- A property: an element, `length`, or a name. -/
inductive Property where
  | index (k : Nat)
  | length
  | name (a : JsAtom)
  deriving DecidableEq

/-- The JavaScript values without objects other than arrays. An array has a length and its
other own properties. -/
inductive JsVal where
  | undefined
  | null
  | bool (b : Bool)
  | int (i : BitVec 32)
  | float64 (bits : BitVec 64)
  | bigUint64 (u : BitVec 64)
  | string (s : JsString)
  | array (length : Nat) (props : List (Property × JsVal))

/-- What the atom table has behind `length`. A number below `2^31` is a tagged atom and has
no entry. -/
class JsRuntime where
  entry : JsAtom → AtomEntry
  large : ∀ {a k}, entry a = .index k → 2 ^ 31 ≤ k ∧ k < 2 ^ 32 - 1

/-- The property that an atom names, or a fault where the table has no atom. -/
def propertyOf [JsRuntime] (a : JsAtom) : Outcome Property :=
  if atomIsTaggedInt a then .done (.index (atomToUInt32 a))
  else if a.toNat = atomLength then .done .length
  else if a.toNat < atomLength then .done (.name a)
  else
    match JsRuntime.entry a with
    | .free => .fault
    | .name => .done (.name a)
    | .index k => .done (.index k)

/-! ## Arrays of js/quickjs.c -/

/-- An own property is added or changed. -/
def assignProperty (p : Property) (v : JsVal) :
    List (Property × JsVal) → List (Property × JsVal)
  | [] => [(p, v)]
  | (q, w) :: props => if q = p then (p, v) :: props else (q, w) :: assignProperty p v props

/-- `JS_DefineProperty` on an array with a value and the flags `JS_PROP_C_W_E`. The length of
an array is not configurable (`check_define_prop_flags`): the exception leaves the array as it
is. -/
def defineProperty (p : Property) (v : JsVal) (length : Nat) (props : List (Property × JsVal)) :
    Nat × List (Property × JsVal) :=
  match p with
  | .index k => (max length (k + 1), assignProperty p v props)
  | .length => (length, props)
  | .name _ => (length, assignProperty p v props)

/-- `JS_NewUint32` -/
def newUint32 (u : BitVec 32) : JsVal :=
  if u.toNat ≤ 0x7fffffff then .int u else .float64 (UInt32.ofBitVec u).toFloat.toBits.toBitVec

/-- `JS_NewInt64` -/
def newInt64 (i : BitVec 64) : JsVal :=
  if i = (i.truncate 32).signExtend 64 then .int (i.truncate 32)
  else .float64 (Int64.ofBitVec i).toFloat.toBits.toBitVec

/-- `JS_NewFloat64`: an int where that has the same bits. -/
def newFloat64 (d : Float) : JsVal :=
  if d ≥ -2147483648 ∧ d ≤ 2147483647 then
    if d.toInt32.toFloat.toBits = d.toBits then .int d.toInt32.toBitVec
    else .float64 d.toBits.toBitVec
  else .float64 d.toBits.toBitVec

/-! ## js_traits<acorn::val> -/

mutual

/-- `wrap`; `none` is an assertion that fails. -/
def wrapVal [JsRuntime] : Val Text → Outcome (Option JsVal)
  | .empty => .done (some .undefined)
  | .int32 i => .done (some (.int i))
  | .uint32 u => .done (some (newUint32 u))
  | .int64 i => .done (some (newInt64 i))
  | .uint64 u => .done (some (.bigUint64 u))
  | .float32 f => .done (some (newFloat64 (Float32.ofBits (UInt32.ofBitVec f)).toFloat))
  | .float64 f => .done (some (newFloat64 (Float.ofBits (UInt64.ofBitVec f))))
  | .string s => (wrap s).bind fun v => .done (some (.string v))
  | .array vec => wrapElements 0 vec 0 []
  | _ => .done none

/-- The loop over `_vec`, with the `int` that counts. -/
def wrapElements [JsRuntime] (i : Nat) :
    List (Val Text) → Nat → List (Property × JsVal) → Outcome (Option JsVal)
  | [], length, props => .done (some (.array length props))
  | v :: vec, length, props =>
    (wrapVal v).bind fun r =>
      match r with
      | none => .done none
      | some w =>
        if i + 1 < 2 ^ 31 then
          (propertyOf (BitVec.ofNat 32 i)).bind fun p =>
            let a := defineProperty p w length props
            wrapElements (i + 1) vec a.1 a.2
        else .fault

end

/-- The val of a number, which is an integer where it can be. -/
def unwrapFloat64 (d : Float) : Outcome CVal :=
  if d.floor == d then
    if d ≥ -9223372036854775808 ∧ d < 9223372036854775808 then
      let i64 := d.toInt64
      if i64.toInt ≥ -0x7fffffffffffffff then
        if i64.toInt ≥ -0x7fffffff ∧ i64.toInt ≤ 0x7fffffff then .done (.int32 i64.toInt32.toBitVec)
        else .done (.int64 i64.toBitVec)
      else .done (.float64 d.toBits.toBitVec)
    else .fault
  else .done (.float64 d.toBits.toBitVec)

/-- The vals at the indices from `k` on. -/
def collect (get : Nat → Outcome (Option CVal)) (k : Nat) : Nat → Outcome (Option (List CVal))
  | 0 => .done (some [])
  | n + 1 => (get k).bind fun r =>
    match r with
    | none => .done none
    | some v => (collect get (k + 1) n).bind fun rs => .done (rs.map fun vs => v :: vs)

mutual

/-- `unwrap`; `none` is an assertion that fails. -/
def unwrapVal : JsVal → Outcome (Option CVal)
  | .undefined => .done (some .empty)
  | .null => .done (some .empty)
  | .bool b => .done (some (.int32 (BitVec.ofNat 32 b.toNat)))
  | .int i => .done (some (.int32 i))
  | .float64 bits =>
    (unwrapFloat64 (Float.ofBits (UInt64.ofBitVec bits))).bind fun v => .done (some v)
  | .bigUint64 _ => .done none
  | .string s => (unwrap s).bind fun s => .done (some (.string s))
  | .array length props =>
    (collect (fun k => ((unwrapProps props).lookup (.index k)).getD (.done (some .empty))) 0
      length).bind fun vs => .done (vs.map .array)

/-- The properties with what `unwrap` makes of them. -/
def unwrapProps : List (Property × JsVal) → List (Property × Outcome (Option CVal))
  | [] => []
  | (p, v) :: props => (p, unwrapVal v) :: unwrapProps props

end

/-! ## What the loop leaves -/

theorem atomIsTaggedInt_small {i : Nat} (h : i < 2 ^ 31) :
    atomIsTaggedInt (BitVec.ofNat 32 i) = false := by
  have hbit : i &&& 2 ^ 31 = 0 := by
    rw [Nat.and_comm, Nat.two_pow_and, Nat.testBit_lt_two_pow h]
    rfl
  have hand : BitVec.ofNat 32 i &&& 0x80000000#32 = 0 := by
    apply BitVec.eq_of_toNat_eq
    rw [BitVec.toNat_and, BitVec.toNat_ofNat, Nat.mod_eq_of_lt (by omega)]
    exact hbit
  rw [atomIsTaggedInt, hand]
  rfl

section Loop

variable [JsRuntime]

/-- The property of a small atom is no element below `2^31`. -/
theorem propertyOf_small {i k : Nat} (hi : i < 2 ^ 31)
    (h : propertyOf (BitVec.ofNat 32 i) = .done (.index k)) :
    2 ^ 31 ≤ k := by
  rw [propertyOf, atomIsTaggedInt_small hi, if_neg Bool.false_ne_true] at h
  split at h
  next => cases h
  next =>
    split at h
    next => cases h
    next =>
      split at h
      next => cases h
      next => cases h
      next l hl =>
        cases h
        exact (JsRuntime.large hl).1

/-- The length stays 0 until an element beyond `2^31` is there. -/
def Hollow (length : Nat) : Prop := length = 0 ∨ 2 ^ 31 < length

/-- One step of the loop. -/
theorem Hollow.define {length i : Nat} (h : Hollow length) (w : JsVal)
    (props : List (Property × JsVal)) {p : Property} (hi : i < 2 ^ 31)
    (hp : propertyOf (BitVec.ofNat 32 i) = .done p) :
    Hollow (defineProperty p w length props).1 := by
  cases p with
  | length => exact h
  | name a => exact h
  | index k =>
    have hk := propertyOf_small hi hp
    exact Or.inr (Nat.lt_of_lt_of_le (by omega) (Nat.le_max_right length (k + 1)))

theorem wrapElements_hollow {i : Nat} {vec : List (Val Text)} {length : Nat}
    {props : List (Property × JsVal)} {w : JsVal} (h : Hollow length) (hi : i < 2 ^ 31)
    (hrun : wrapElements i vec length props = .done (some w)) :
    i + vec.length < 2 ^ 31 ∧ ∃ len ps, w = .array len ps ∧ Hollow len := by
  induction vec generalizing i length props with
  | nil =>
    rw [wrapElements] at hrun
    cases hrun
    exact ⟨hi, length, props, rfl, h⟩
  | cons v vec ih =>
    rw [wrapElements] at hrun
    obtain ⟨r, hr, hrun⟩ := Outcome.bind_eq_done hrun
    cases r with
    | none => cases hrun
    | some w' =>
      simp only at hrun
      split at hrun
      next hnext =>
        obtain ⟨p, hp, hrun⟩ := Outcome.bind_eq_done hrun
        obtain ⟨hlt, hw⟩ := ih (h.define w' props hi hp) hnext hrun
        rw [List.length_cons]
        exact ⟨by omega, hw⟩
      next => cases hrun

end Loop

/-- What is collected has an element for each index. -/
theorem length_collect {get : Nat → Outcome (Option CVal)} {k n : Nat} {vs : List CVal}
    (h : collect get k n = .done (some vs)) : vs.length = n := by
  induction n generalizing k vs with
  | zero =>
    cases h
    rfl
  | succ n ih =>
    obtain ⟨r, -, h⟩ := Outcome.bind_eq_done h
    cases r with
    | none => cases h
    | some u =>
      obtain ⟨rs, hrs, h⟩ := Outcome.bind_eq_done h
      cases rs with
      | none => cases h
      | some us =>
        cases h
        exact congrArg (· + 1) (ih hrs)

/-! ## Nothing but the empty array -/

/-- `unwrap(ctx, wrap(ctx, v))` is `v`. -/
def JsSurvives [JsRuntime] (v : Val Text) : Prop :=
  ∃ w, wrapVal v = .done (some w) ∧ unwrapVal w = .done (some v.content)

/-- Built from EMPTY, INT32 and ARRAY. -/
inductive ArrayVal : Val Text → Prop
  | empty : ArrayVal .empty
  | int32 (i : BitVec 32) : ArrayVal (.int32 i)
  | array {vec : List (Val Text)} (h : ∀ v ∈ vec, ArrayVal v) : ArrayVal (.array vec)

theorem length_contents (vec : List (Val Text)) : (Val.contents vec).length = vec.length := by
  induction vec with
  | nil => rfl
  | cons v vec ih => exact congrArg (· + 1) ih

theorem not_survives_array [JsRuntime] {vec : List (Val Text)} (hne : vec ≠ []) :
    ¬JsSurvives (.array vec) := by
  rintro ⟨w, hw, hu⟩
  rw [wrapVal] at hw
  obtain ⟨hlt, len, props, rfl, hollow⟩ := wrapElements_hollow (Or.inl rfl) (by decide) hw
  rw [unwrapVal] at hu
  obtain ⟨r, hr, hu⟩ := Outcome.bind_eq_done hu
  cases r with
  | none => cases hu
  | some vs =>
    obtain rfl : vs = Val.contents vec := by
      cases hu
      rfl
    have hlen := length_collect hr
    rw [length_contents] at hlen
    rcases hollow with h | h
    · exact hne (List.length_eq_zero_iff.mp (hlen.trans h))
    · omega

/-- Of the vals built from EMPTY, INT32 and ARRAY just those without elements survive. -/
theorem jsVal_survives_iff [JsRuntime] {v : Val Text} (h : ArrayVal v) :
    JsSurvives v ↔ ∀ vec, v = .array vec → vec = [] := by
  constructor
  · rintro hs vec rfl
    by_contra hne
    exact not_survives_array hne hs
  · intro hnone
    cases h with
    | empty => exact ⟨.undefined, rfl, rfl⟩
    | int32 i => exact ⟨.int i, rfl, rfl⟩
    | @array vec _ =>
      rw [hnone vec rfl]
      exact ⟨.array 0 [], rfl, rfl⟩

/-- A runtime without further atoms. -/
@[reducible] def JsRuntime.plain : JsRuntime where
  entry _ := .name
  large := nofun

/-- The number 7. -/
theorem jsVal_survives_int : @JsSurvives .plain (.int32 7) :=
  (@jsVal_survives_iff .plain _ (.int32 7)).mpr nofun

/-- The array with the number 5 comes back empty. -/
theorem jsVal_not_survives :
    ArrayVal (.array [.int32 5]) ∧ ¬@JsSurvives .plain (.array [.int32 5]) := by
  refine ⟨.array ?_, ?_⟩
  · intro v hv
    rw [List.mem_singleton.mp hv]
    exact .int32 5
  · rintro ⟨w, hw, hu⟩
    have hnull : @wrapVal .plain (.array [.int32 5]) =
        .done (some (.array 0 [(.name 0, .int 5)])) := rfl
    cases hnull.symm.trans hw
    cases hu

end Libacorn
