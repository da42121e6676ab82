import Mathlib.Tactic.Common
import Mathlib.Algebra.Group.Nat.Defs
import Mathlib.Algebra.Group.Int.Defs
import Mathlib.Algebra.GroupWithZero.Nat
import Mathlib.Data.List.Lex
import Libacorn.Support.OrderedMap

/-!
# The value type of base/val.h

`Val σ` is the discriminated union, generic in the type `σ` of its strings:
`Val Bytes` holds string contents, and a val whose strings carry their buffer
representation is a `Val` over that representation.

Keys of a `map` stand in the order of `string::operator<`, which `compare_neg_iff`
identifies with the lexicographic order of the contents.
-/

namespace Libacorn

/-- The content of a string or bytearray. -/
abbrev Bytes := List UInt8

/-! ## string::compare -/

instance byteEq : LawfulBEq UInt8 := inferInstance

instance byteOrder : LinearOrder UInt8 where
  le_refl := UInt8.le_refl
  le_trans _ _ _ := UInt8.le_trans
  le_antisymm _ _ := UInt8.le_antisymm
  le_total := UInt8.le_total
  lt_iff_le_not_ge a b := by
    simp only [UInt8.lt_iff_toNat_lt, UInt8.le_iff_toNat_le]
    omega
  toDecidableLE := inferInstance
  toDecidableEq := inferInstance
  toDecidableLT := inferInstance

/-- `memcmp` over two blocks of the same size: the first difference, as unsigned bytes. -/
def memcmp : Bytes → Bytes → Int
  | a :: as, b :: bs => if a = b then memcmp as bs else (a.toNat : Int) - b.toNat
  | _, _ => 0

/-- `string::compare`, on contents. -/
def compare (a b : Bytes) : Int :=
  let cb := min a.length b.length
  let r := memcmp (a.take cb) (b.take cb)
  if r ≠ 0 then r
  else if a.length < b.length then -1
  else if b.length < a.length then 1
  else 0

theorem compare_cons_self (x : UInt8) (a b : Bytes) : compare (x :: a) (x :: b) = compare a b := by
  simp [compare, memcmp, Nat.add_min_add_right]

theorem compare_cons_of_ne {x y : UInt8} (h : x ≠ y) (a b : Bytes) :
    compare (x :: a) (y :: b) = (x.toNat : Int) - y.toNat := by
  have hne : (x.toNat : Int) - y.toNat ≠ 0 := by
    intro e
    exact h (UInt8.toNat_inj.mp (by omega))
  simp [compare, memcmp, Nat.add_min_add_right, h, hne]

/-- `string::operator<` is the lexicographic order by unsigned byte, a proper prefix first. -/
theorem compare_neg_iff (a b : Bytes) : compare a b < 0 ↔ a < b := by
  induction a generalizing b with
  | nil =>
    cases b with
    | nil => simp [compare, memcmp]
    | cons y b => simp [compare, memcmp]
  | cons x a ih =>
    cases b with
    | nil => simp [compare, memcmp]
    | cons y b =>
      by_cases h : x = y
      · subst h
        rw [compare_cons_self, ih, List.cons_lt_cons_iff]
        simp
      · rw [compare_cons_of_ne h, List.cons_lt_cons_iff]
        simp only [h, false_and, or_false, UInt8.lt_iff_toNat_lt]
        omega

theorem compare_eq_zero_iff (a b : Bytes) : compare a b = 0 ↔ a = b := by
  induction a generalizing b with
  | nil =>
    cases b with
    | nil => simp [compare, memcmp]
    | cons y b => simp [compare, memcmp]
  | cons x a ih =>
    cases b with
    | nil => simp [compare, memcmp]
    | cons y b =>
      by_cases h : x = y
      · subst h
        rw [compare_cons_self, ih, List.cons.injEq]
        simp
      · rw [compare_cons_of_ne h, List.cons.injEq, ← UInt8.toNat_inj]
        rw [← UInt8.toNat_inj] at h
        omega

theorem compare_pos_iff (a b : Bytes) : 0 < compare a b ↔ b < a := by
  have hneg := compare_neg_iff a b
  have hzero := compare_eq_zero_iff a b
  constructor
  · intro h
    apply lt_of_not_ge
    intro hle
    rcases lt_or_eq_of_le hle with hlt | heq
    · have := hneg.mpr hlt
      omega
    · have := hzero.mpr heq
      omega
  · intro h
    have h1 : ¬compare a b < 0 := fun hc => lt_asymm h (hneg.mp hc)
    have h2 : compare a b ≠ 0 := fun hc => ne_of_gt h (hzero.mp hc)
    omega

/-! ## val -/

/-- `measurement::unit`. An object of the enumeration can hold any bits of its
storage, so the undeclared values have a case of their own. -/
inductive MeasureUnit where
  | PX
  | PT
  | EM
  | PC
  | undeclared (bits : BitVec 32)
  deriving DecidableEq, Repr

/-- The storage of a unit. -/
def MeasureUnit.toBits : MeasureUnit → BitVec 32
  | .PX => 0
  | .PT => 1
  | .EM => 2
  | .PC => 3
  | .undeclared bits => bits

/-- The unit read back from its storage. -/
def MeasureUnit.ofBits (bits : BitVec 32) : MeasureUnit :=
  if bits = 0 then .PX
  else if bits = 1 then .PT
  else if bits = 2 then .EM
  else if bits = 3 then .PC
  else .undeclared bits

/-- One of the four declared enumerators. -/
def MeasureUnit.Declared : MeasureUnit → Prop
  | .undeclared _ => False
  | _ => True

theorem MeasureUnit.toBits_ofBits (bits : BitVec 32) : (ofBits bits).toBits = bits := by
  unfold ofBits
  split_ifs with h0 h1 h2 h3 <;> simp_all [toBits]

theorem MeasureUnit.ofBits_toBits {u : MeasureUnit} (h : u.Declared) : ofBits u.toBits = u := by
  cases u with
  | undeclared _ => exact h.elim
  | _ => rfl

/-- `enum val::type`. -/
inductive Tag where
  | EMPTY
  | INT32
  | INT64
  | UINT32
  | UINT64
  | FLOAT32
  | FLOAT64
  | MEASUREMENT
  | STRING
  | BYTEARRAY
  | ARRAY
  | MAP
  | OBJECT
  | ERROR
  deriving DecidableEq, Repr

/-- The enumerators in declaration order. -/
def Tag.all : List Tag :=
  [.EMPTY, .INT32, .INT64, .UINT32, .UINT64, .FLOAT32, .FLOAT64, .MEASUREMENT, .STRING,
    .BYTEARRAY, .ARRAY, .MAP, .OBJECT, .ERROR]

/-- The value an enumerator is stored as. -/
def Tag.code (t : Tag) : Nat := Tag.all.idxOf t

/-- The enumerator stored as `n`, if there is one. -/
def Tag.ofCode (n : Nat) : Option Tag := Tag.all[n]?

theorem Tag.ofCode_code (t : Tag) : Tag.ofCode t.code = some t := by cases t <;> rfl

theorem Tag.code_of_ofCode {n : Nat} {t : Tag} (h : Tag.ofCode n = some t) : n = t.code := by
  obtain ⟨hlt, rfl⟩ := List.getElem?_eq_some_iff.mp h
  have hnodup : Tag.all.Nodup := by decide
  exact (hnodup.idxOf_getElem n hlt).symm

theorem Tag.code_lt (t : Tag) : t.code < 14 := by cases t <;> decide

/-- `class val`. Floating-point payloads are bit patterns. `raw` is a val whose
tag and union were written without building the payload: the tag is not a
declared one, or the pointer member does not point at an object. -/
inductive Val (σ : Type) where
  | empty
  | int32 (i : BitVec 32)
  | int64 (i : BitVec 64)
  | uint32 (u : BitVec 32)
  | uint64 (u : BitVec 64)
  | float32 (bits : BitVec 32)
  | float64 (bits : BitVec 64)
  | measurement (unitVal : BitVec 32) (unit : MeasureUnit)
  | string (s : σ)
  | bytearray (b : Bytes)
  | array (vec : List (Val σ))
  | map (fields : List (σ × Val σ))
  | object (id : Nat)
  | error (code : BitVec 32) (msg : σ)
  | raw (tag : BitVec 32) (bits : BitVec 64)

/-- `val::type`, as stored. -/
def Val.type {σ : Type} : Val σ → BitVec 32
  | .empty => BitVec.ofNat 32 Tag.EMPTY.code
  | .int32 _ => BitVec.ofNat 32 Tag.INT32.code
  | .int64 _ => BitVec.ofNat 32 Tag.INT64.code
  | .uint32 _ => BitVec.ofNat 32 Tag.UINT32.code
  | .uint64 _ => BitVec.ofNat 32 Tag.UINT64.code
  | .float32 _ => BitVec.ofNat 32 Tag.FLOAT32.code
  | .float64 _ => BitVec.ofNat 32 Tag.FLOAT64.code
  | .measurement _ _ => BitVec.ofNat 32 Tag.MEASUREMENT.code
  | .string _ => BitVec.ofNat 32 Tag.STRING.code
  | .bytearray _ => BitVec.ofNat 32 Tag.BYTEARRAY.code
  | .array _ => BitVec.ofNat 32 Tag.ARRAY.code
  | .map _ => BitVec.ofNat 32 Tag.MAP.code
  | .object _ => BitVec.ofNat 32 Tag.OBJECT.code
  | .error _ _ => BitVec.ofNat 32 Tag.ERROR.code
  | .raw tag _ => tag

end Libacorn
