import Libacorn.Json

/-!
# The union of base/val.h

`Val` has one constructor per tag, so tag and payload cannot disagree. Here a
val is what the class declares: a tag beside a union, and the union remembers
which member was last written. Reading another member is `Access.misread`.

The switches over the tag are written as the source has them, the fall-through
of `doubleVal` included. Pointer members hold what they point at, `none` for
NULL. Warnings are not modelled.
-/

namespace Libacorn

open Support

/-! ## Accesses -/

/-- How code that reads the union ends: `misread` has read a member that was not
the last one written, `abort` has failed an assertion or followed NULL. -/
inductive Access (α : Type) where
  | ok (a : α)
  | misread
  | abort
  deriving DecidableEq, Repr

namespace Access

variable {α β : Type}

def bind (x : Access α) (f : α → Access β) : Access β :=
  match x with
  | .ok a => f a
  | .misread => .misread
  | .abort => .abort

instance : Monad Access where
  pure := .ok
  bind := bind

@[simp] theorem ok_bind (a : α) (f : α → Access β) : (ok a >>= f) = f a := rfl

/-- `*p` -/
def deref : Option α → Access α
  | some a => .ok a
  | none => .abort

@[simp] theorem deref_some (a : α) : deref (some a) = .ok a := rfl

end Access

/-! ## The class -/

/-- The union, by the member last written; `none` before the first write. -/
inductive Union (ν : Type) where
  | none
  | i32 (i : BitVec 32)
  | i64 (i : BitVec 64)
  | u32 (u : BitVec 32)
  | u64 (u : BitVec 64)
  | f32 (bits : BitVec 32)
  | f64 (bits : BitVec 64)
  | measurement (unitVal : BitVec 32) (unit : MeasureUnit)
  | str (p : Option Bytes)
  | bytearray (p : Option Bytes)
  | vec (p : Option (List ν))
  | map (p : Option (List (Bytes × ν)))
  | obj (p : Option Nat)
  | err (p : Option (BitVec 32 × Bytes))

namespace Union

variable {ν : Type}

def readI32 : Union ν → Access (BitVec 32)
  | .i32 i => .ok i
  | _ => .misread

def readI64 : Union ν → Access (BitVec 64)
  | .i64 i => .ok i
  | _ => .misread

def readU32 : Union ν → Access (BitVec 32)
  | .u32 u => .ok u
  | _ => .misread

def readU64 : Union ν → Access (BitVec 64)
  | .u64 u => .ok u
  | _ => .misread

def readF32 : Union ν → Access (BitVec 32)
  | .f32 bits => .ok bits
  | _ => .misread

def readF64 : Union ν → Access (BitVec 64)
  | .f64 bits => .ok bits
  | _ => .misread

def readMeasurement : Union ν → Access (BitVec 32 × MeasureUnit)
  | .measurement unitVal unit => .ok (unitVal, unit)
  | _ => .misread

def readStr : Union ν → Access (Option Bytes)
  | .str p => .ok p
  | _ => .misread

def readBytearray : Union ν → Access (Option Bytes)
  | .bytearray p => .ok p
  | _ => .misread

def readVec : Union ν → Access (Option (List ν))
  | .vec p => .ok p
  | _ => .misread

def readMap : Union ν → Access (Option (List (Bytes × ν)))
  | .map p => .ok p
  | _ => .misread

def readObj : Union ν → Access (Option Nat)
  | .obj p => .ok p
  | _ => .misread

def readErr : Union ν → Access (Option (BitVec 32 × Bytes))
  | .err p => .ok p
  | _ => .misread

end Union

/-- `class val`: the tag and the union. -/
inductive UVal where
  | mk (type : Tag) (u : Union UVal)

namespace UVal

def type : UVal → Tag
  | ⟨type, _⟩ => type

def u : UVal → Union UVal
  | ⟨_, u⟩ => u

/-- `val::isNumeric` -/
def isNumeric (v : UVal) : Bool :=
  v.type = .INT32 ∨ v.type = .INT64 ∨ v.type = .UINT32 ∨ v.type = .UINT64 ∨ v.type = .FLOAT32 ∨
    v.type = .FLOAT64 ∨ v.type = .MEASUREMENT

def isEmpty (v : UVal) : Bool := v.type = .EMPTY

def isArray (v : UVal) : Bool := v.type = .ARRAY

end UVal

/-! ## Accessors -/

/-- What the accessors use of the target besides `Fpu` and `%f`: the remaining
conversions, `atoi` and `atof`, and the two globals of `measurement::value`. -/
class Target extends Fpu, FormatF where
  i32ToF64 : BitVec 32 → BitVec 64
  u32ToF32 : BitVec 32 → BitVec 32
  u32ToF64 : BitVec 32 → BitVec 64
  u64ToF32 : BitVec 64 → BitVec 32
  u64ToF64 : BitVec 64 → BitVec 64
  f32ToF64 : BitVec 32 → BitVec 64
  f32ToI32 : BitVec 32 → BitVec 32
  f64ToI32 : BitVec 64 → BitVec 32
  mulF32 : BitVec 32 → BitVec 32 → BitVec 32
  divF32 : BitVec 32 → Nat → BitVec 32
  atoi : Bytes → BitVec 32
  atof : Bytes → BitVec 64
  backingScaleFactor : BitVec 32
  systemFontSize : BitVec 32
  /-- `Object::getRamCost`, which is virtual. -/
  objectRamCost : Nat → BitVec 32

/-- `x == 0` for a float. -/
def isZeroF32 (x : BitVec 32) : Bool := x.toNat % 2 ^ 31 = 0

/-- The operations of the host; `atoi` and `atof` of a string of digits. -/
@[reducible] def Target.host : Target where
  toFpu := Fpu.ieee
  toFormatF := FormatF.host
  i32ToF64 i := (Int32.ofBitVec i).toFloat.toBits.toBitVec
  u32ToF32 u := (UInt32.ofBitVec u).toFloat32.toBits.toBitVec
  u32ToF64 u := (UInt32.ofBitVec u).toFloat.toBits.toBitVec
  u64ToF32 u := (UInt64.ofBitVec u).toFloat32.toBits.toBitVec
  u64ToF64 u := (UInt64.ofBitVec u).toFloat.toBits.toBitVec
  f32ToF64 x := (Float32.ofBits ⟨x⟩).toFloat.toBits.toBitVec
  f32ToI32 x := (Float32.ofBits ⟨x⟩).toInt32.toBitVec
  f64ToI32 x := (Float.ofBits ⟨x⟩).toInt32.toBitVec
  mulF32 x y := (Float32.ofBits ⟨x⟩ * Float32.ofBits ⟨y⟩).toBits.toBitVec
  divF32 x n := (Float32.ofBits ⟨x⟩ / Float32.ofNat n).toBits.toBitVec
  atoi s := BitVec.ofNat 32 (s.foldl (fun n b => 10 * n + digitValue b.toNat) 0)
  atof s := (Float.ofNat (s.foldl (fun n b => 10 * n + digitValue b.toNat) 0)).toBits.toBitVec
  backingScaleFactor := (Float32.ofNat 1).toBits.toBitVec
  systemFontSize := (Float32.ofNat 16).toBits.toBitVec
  objectRamCost _ := 0

/-- What `c_str()` shows of a string that ends its buffer. -/
def untilNul (s : Bytes) : Bytes := s.takeWhile (· ≠ 0)

section Target
variable [Target]

/-- `measurement::value` -/
def measurementValue (m : BitVec 32 × MeasureUnit) : BitVec 32 :=
  match m.2 with
  | .PX => m.1
  | .PT => Target.mulF32 m.1 Target.backingScaleFactor
  | .EM => Target.mulF32 m.1 Target.systemFontSize
  | .PC => Target.divF32 m.1 100
  | .undeclared _ => m.1

namespace UVal

def intVal (v : UVal) : Access (BitVec 32) :=
  match v.type with
  | .EMPTY => return 0
  | .INT32 => v.u.readI32
  | .INT64 => do return (← v.u.readI64).setWidth 32
  | .UINT32 => v.u.readU32
  | .UINT64 => do return (← v.u.readU64).setWidth 32
  | .FLOAT32 => do return Target.f32ToI32 (← v.u.readF32)
  | .FLOAT64 => do return Target.f64ToI32 (← v.u.readF64)
  | .STRING => do return Target.atoi (untilNul (← Access.deref (← v.u.readStr)))
  | .MEASUREMENT => do return Target.f32ToI32 (measurementValue (← v.u.readMeasurement))
  | _ => return 0

def boolVal (v : UVal) : Access Bool :=
  match v.type with
  | .EMPTY => return false
  | .INT32 => do return (← v.u.readI32) ≠ 0
  | .INT64 => do return (← v.u.readI64) ≠ 0
  | .UINT32 => do return (← v.u.readU32) ≠ 0
  | .UINT64 => do return (← v.u.readU64) ≠ 0
  | .FLOAT32 => do return !isZeroF32 (← v.u.readF32)
  | .FLOAT64 => do return !isZeroF64 (← v.u.readF64)
  | .STRING => do
    let s ← Access.deref (← v.u.readStr)
    if compare s (lit ['f', 'a', 'l', 's', 'e']) = 0 then return false
    else if compare s (lit ['t', 'r', 'u', 'e']) = 0 then return true
    else return false
  | .MEASUREMENT => do return !isZeroF32 (measurementValue (← v.u.readMeasurement))
  | _ => return false

def floatVal (v : UVal) : Access (BitVec 32) :=
  match v.type with
  | .EMPTY => return 0
  | .INT32 => do return Fpu.i32ToF32 (← v.u.readI32)
  | .INT64 => do return Fpu.i64ToF32 (← v.u.readI64)
  | .UINT32 => do return Target.u32ToF32 (← v.u.readU32)
  | .UINT64 => do return Target.u64ToF32 (← v.u.readU64)
  | .FLOAT32 => v.u.readF32
  | .FLOAT64 => do return Fpu.f64ToF32 (← v.u.readF64)
  | .MEASUREMENT => do return measurementValue (← v.u.readMeasurement)
  | .STRING => do return Fpu.f64ToF32 (Target.atof (untilNul (← Access.deref (← v.u.readStr))))
  | _ => return 0

/-- `return atof(_str->c_str());` -/
def atofVal (v : UVal) : Access (BitVec 64) := do
  return Target.atof (untilNul (← Access.deref (← v.u.readStr)))

def doubleVal (v : UVal) : Access (BitVec 64) :=
  match v.type with
  | .EMPTY => return 0
  | .INT32 => do return Target.i32ToF64 (← v.u.readI32)
  | .INT64 => do return Fpu.i64ToF64 (← v.u.readI64)
  | .UINT32 => do return Target.u32ToF64 (← v.u.readU32)
  | .UINT64 => do return Target.u64ToF64 (← v.u.readU64)
  | .FLOAT32 => do return Target.f32ToF64 (← v.u.readF32)
  | .FLOAT64 => v.u.readF64
  | .MEASUREMENT => do
    -- `case MEASUREMENT: _measurement.value();` has no `return`
    let _ := measurementValue (← v.u.readMeasurement)
    v.atofVal
  | .STRING => v.atofVal
  | _ => return 0

def measurementVal (v : UVal) : Access (BitVec 32 × MeasureUnit) :=
  if v.type = .MEASUREMENT then v.u.readMeasurement
  else if v.isNumeric then do return (← v.floatVal, .PT)
  else return (0, .PX)

def stringVal (v : UVal) : Access Bytes :=
  match v.type with
  | .EMPTY => return []
  | .INT32 => do return utf8 (decimal (← v.u.readI32).toInt)
  | .INT64 => do return utf8 (decimal (← v.u.readI64).toInt)
  | .UINT32 => do return utf8 (decimal (← v.u.readU32).toNat)
  | .UINT64 => do return utf8 (decimal (← v.u.readU64).toNat)
  | .FLOAT32 => do return FormatF.f32 (← v.u.readF32)
  | .FLOAT64 => do return FormatF.f64 (← v.u.readF64)
  | .STRING => do Access.deref (← v.u.readStr)
  | _ => return []

end UVal

/-! ## toJson and getRamCost -/

-- A case of its own for each container lets the loops recurse on the payload.
mutual

/-- `val::toJson` -/
def UVal.toJson : UVal → Access Bytes
  | ⟨.EMPTY, _⟩ => return []
  | ⟨.INT32, u⟩ => do return utf8 (decimal (← u.readI32).toInt)
  | ⟨.UINT32, u⟩ => do return utf8 (decimal (← u.readU32).toNat)
  | ⟨.INT64, u⟩ => do return utf8 (decimal (← u.readI64).toInt)
  | ⟨.UINT64, u⟩ => do return utf8 (decimal (← u.readU64).toNat)
  | ⟨.FLOAT32, u⟩ => do return FormatF.f32 (← u.readF32)
  | ⟨.FLOAT64, u⟩ => do return FormatF.f64 (← u.readF64)
  | ⟨.STRING, u⟩ => do return quoteBytes (untilNul (← Access.deref (← u.readStr)))
  | ⟨.MEASUREMENT, u⟩ => do
    let m ← u.readMeasurement
    return quoteBytes (measurementToString m.1 m.2)
  | ⟨.BYTEARRAY, _⟩ => return []
  | ⟨.ARRAY, .vec (some vec)⟩ => do
    return utf8 ['['] ++ (← UVal.elementsToJson true vec) ++ utf8 [']']
  | ⟨.ARRAY, u⟩ => do
    let _ ← u.readVec
    return utf8 ['[', ']']
  | ⟨.MAP, .map (some fields)⟩ => do
    return utf8 ['{'] ++ (← UVal.fieldsToJson true fields) ++ utf8 ['}']
  | ⟨.MAP, u⟩ => do
    let _ ← u.readMap
    return utf8 ['{', '}']
  | ⟨.OBJECT, _⟩ => .abort
  | ⟨.ERROR, _⟩ => .abort

/-- The loop over `_vec`. -/
def UVal.elementsToJson (first : Bool) : List UVal → Access Bytes
  | [] => return []
  | elem :: vec => do
    let s ← elem.toJson
    return separator first ++ s ++ (← UVal.elementsToJson false vec)

/-- The loop over `_map`. -/
def UVal.fieldsToJson (first : Bool) : List (Bytes × UVal) → Access Bytes
  | [] => return []
  | (name, value) :: fields => do
    let s ← value.toJson
    return separator first ++ (quoteBytes (untilNul name) ++ utf8 [':']) ++ s ++
      (← UVal.fieldsToJson false fields)

end

/-- `sizeof(val)` -/
def sizeofVal : BitVec 32 := 16

mutual

/-- `val::getRamCost` -/
def UVal.getRamCost : UVal → Access (BitVec 32)
  | ⟨.EMPTY, _⟩ => return sizeofVal
  | ⟨.INT32, _⟩ => return sizeofVal + 4
  | ⟨.UINT32, _⟩ => return sizeofVal + 4
  | ⟨.INT64, _⟩ => return sizeofVal + 8
  | ⟨.UINT64, _⟩ => return sizeofVal + 8
  | ⟨.FLOAT32, _⟩ => return sizeofVal + 4
  | ⟨.FLOAT64, _⟩ => return sizeofVal + 8
  | ⟨.STRING, u⟩ => do
    return sizeofVal + BitVec.ofNat 32 (← Access.deref (← u.readStr)).length
  | ⟨.BYTEARRAY, u⟩ => do
    return sizeofVal + BitVec.ofNat 32 (← Access.deref (← u.readBytearray)).length
  | ⟨.OBJECT, u⟩ => do
    return sizeofVal + Target.objectRamCost (← Access.deref (← u.readObj))
  | ⟨.ARRAY, .vec (some vec)⟩ => do return sizeofVal + (← UVal.elementsRamCost vec)
  | ⟨.ARRAY, u⟩ => do
    let _ ← u.readVec
    return sizeofVal
  | ⟨.MAP, .map (some fields)⟩ => do return sizeofVal + (← UVal.fieldsRamCost fields)
  | ⟨.MAP, u⟩ => do
    let _ ← u.readMap
    return sizeofVal
  | ⟨.MEASUREMENT, _⟩ => return sizeofVal
  | ⟨.ERROR, _⟩ => return sizeofVal

def UVal.elementsRamCost : List UVal → Access (BitVec 32)
  | [] => return 0
  | elem :: vec => do
    let cost ← elem.getRamCost
    return cost + (← UVal.elementsRamCost vec)

def UVal.fieldsRamCost : List (Bytes × UVal) → Access (BitVec 32)
  | [] => return 0
  | (name, value) :: fields => do
    let cost ← value.getRamCost
    return BitVec.ofNat 32 name.length + cost + (← UVal.fieldsRamCost fields)

end

end Target

/-! ## Copying -/

mutual

/-- The switch of `val::assign`, with the type it sets. `dst` is the union of the
destination, which an empty source leaves as it is. -/
def UVal.copyTo (dst : Union UVal) : UVal → Access UVal
  | ⟨.EMPTY, _⟩ => return ⟨.EMPTY, dst⟩
  | ⟨.INT32, u⟩ => do return ⟨.INT32, .i32 (← u.readI32)⟩
  | ⟨.INT64, u⟩ => do return ⟨.INT64, .i64 (← u.readI64)⟩
  | ⟨.UINT32, u⟩ => do return ⟨.UINT32, .u32 (← u.readU32)⟩
  | ⟨.UINT64, u⟩ => do return ⟨.UINT64, .u64 (← u.readU64)⟩
  | ⟨.FLOAT32, u⟩ => do return ⟨.FLOAT32, .f32 (← u.readF32)⟩
  | ⟨.FLOAT64, u⟩ => do return ⟨.FLOAT64, .f64 (← u.readF64)⟩
  | ⟨.STRING, u⟩ => do return ⟨.STRING, .str (some (← Access.deref (← u.readStr)))⟩
  | ⟨.MEASUREMENT, u⟩ => do
    let m ← u.readMeasurement
    return ⟨.MEASUREMENT, .measurement m.1 m.2⟩
  | ⟨.BYTEARRAY, u⟩ => do
    return ⟨.BYTEARRAY, .bytearray (some (← Access.deref (← u.readBytearray)))⟩
  | ⟨.ARRAY, .vec (some vec)⟩ => do return ⟨.ARRAY, .vec (some (← UVal.copyElements vec))⟩
  | ⟨.ARRAY, u⟩ => do
    let _ ← Access.deref (← u.readVec)
    .abort
  | ⟨.MAP, .map (some fields)⟩ => do return ⟨.MAP, .map (some (← UVal.copyFields fields))⟩
  | ⟨.MAP, u⟩ => do
    let _ ← Access.deref (← u.readMap)
    .abort
  | ⟨.OBJECT, u⟩ => do return ⟨.OBJECT, .obj (← u.readObj)⟩
  | ⟨.ERROR, u⟩ => do return ⟨.ERROR, .err (some (← Access.deref (← u.readErr)))⟩

/-- `val(const val&)` on each element. It delegates to `val(var.type)`, which is
the `int32_t` constructor, so `assign` finds the tag in `_i32`. -/
def UVal.copyElements : List UVal → Access (List UVal)
  | [] => return []
  | elem :: vec => do
    let elem' ← elem.copyTo (.i32 (BitVec.ofNat 32 elem.type.code))
    return elem' :: (← UVal.copyElements vec)

def UVal.copyFields : List (Bytes × UVal) → Access (List (Bytes × UVal))
  | [] => return []
  | (name, value) :: fields => do
    let value' ← value.copyTo (.i32 (BitVec.ofNat 32 value.type.code))
    return (name, value') :: (← UVal.copyFields fields)

end

/-! ## Destruction -/

mutual

/-- `val::~val` -/
def UVal.destroy : UVal → Access Unit
  | ⟨.STRING, u⟩ => do
    let _ ← u.readStr
  | ⟨.BYTEARRAY, u⟩ => do
    let _ ← u.readBytearray
  | ⟨.ARRAY, .vec (some vec)⟩ => UVal.destroyElements vec
  | ⟨.ARRAY, u⟩ => do
    let _ ← u.readVec
  | ⟨.MAP, .map (some fields)⟩ => UVal.destroyFields fields
  | ⟨.MAP, u⟩ => do
    let _ ← u.readMap
  | ⟨.OBJECT, u⟩ => do
    let _ ← Access.deref (← u.readObj)
  | ⟨.ERROR, u⟩ => do
    let _ ← u.readErr
  | ⟨_, _⟩ => return ()

def UVal.destroyElements : List UVal → Access Unit
  | [] => return ()
  | elem :: vec => do
    elem.destroy
    UVal.destroyElements vec

def UVal.destroyFields : List (Bytes × UVal) → Access Unit
  | [] => return ()
  | (_, value) :: fields => do
    value.destroy
    UVal.destroyFields fields

end

namespace UVal

/-- The first half of `setType`: a pointer member is deleted and set to NULL. -/
def release (v : UVal) : Access (Union UVal) :=
  match v.type with
  | .STRING => do
    v.destroy
    return .str none
  | .BYTEARRAY => do
    v.destroy
    return .bytearray none
  | .ARRAY => do
    v.destroy
    return .vec none
  | .MAP => do
    v.destroy
    return .map none
  | .OBJECT => do
    let _ ← v.u.readObj
    return .obj none
  | .ERROR => do
    v.destroy
    return .err none
  | _ => return v.u

/-- The second half: a pointer member other than `_obj` gets a new object. -/
def allocate (newType : Tag) (u : Union UVal) : Union UVal :=
  match newType with
  | .STRING => .str (some [])
  | .BYTEARRAY => .bytearray (some [])
  | .ARRAY => .vec (some [])
  | .MAP => .map (some [])
  | .ERROR => .err (some (0, []))
  | _ => u

def setType (v : UVal) (newType : Tag) : Access UVal :=
  if v.type = newType then return v
  else do return ⟨newType, allocate newType (← v.release)⟩

/-! ## Constructors -/

/-- `val::val()` -/
def empty : UVal := ⟨.EMPTY, .none⟩
def ofInt32 (i : BitVec 32) : UVal := ⟨.INT32, .i32 i⟩
def ofInt64 (i : BitVec 64) : UVal := ⟨.INT64, .i64 i⟩
def ofUInt32 (u : BitVec 32) : UVal := ⟨.UINT32, .u32 u⟩
def ofUInt64 (u : BitVec 64) : UVal := ⟨.UINT64, .u64 u⟩
def ofFloat (bits : BitVec 32) : UVal := ⟨.FLOAT32, .f32 bits⟩
def ofDouble (bits : BitVec 64) : UVal := ⟨.FLOAT64, .f64 bits⟩
/-- `val(const string&)`, and `val(const char(&)[N])` on the array's string. -/
def ofString (s : Bytes) : UVal := ⟨.STRING, .str (some s)⟩
def ofMeasurement (unitVal : BitVec 32) (unit : MeasureUnit) : UVal :=
  ⟨.MEASUREMENT, .measurement unitVal unit⟩
def ofBytearray (b : Bytes) : UVal := ⟨.BYTEARRAY, .bytearray (some b)⟩
/-- Both object constructors: `new sp<T>(obj)`. -/
def ofObject (id : Nat) : UVal := ⟨.OBJECT, .obj (some id)⟩
def ofError (code : BitVec 32) (msg : Bytes) : UVal := ⟨.ERROR, .err (some (code, msg))⟩

/-- `val(const vector<val>&)` -/
def ofVector (vec : List UVal) : Access UVal := do
  return ⟨.ARRAY, .vec (some (← copyElements vec))⟩

/-- `val(const val&)` -/
def copy (v : UVal) : Access UVal := v.copyTo (.i32 (BitVec.ofNat 32 v.type.code))

/-- `for (auto it : vals) _map->insert(it)`: each pair is copied twice. -/
def insertPairs (fields : List (Bytes × UVal)) :
    List (Bytes × UVal) → Access (List (Bytes × UVal))
  | [] => return fields
  | (key, value) :: vals => do
    let it ← value.copy
    let node ← it.copy
    insertPairs (OrderedMap.insert key node fields) vals

/-- `val(const vector<pair<string,val>>&)` -/
def ofPairs (vals : List (Bytes × UVal)) : Access UVal := do
  return ⟨.MAP, .map (some (← insertPairs [] vals))⟩

/-! ## Moving -/

/-- The val `val(val&& var)` makes, when the union keeps its member. -/
def moveTo (var : UVal) : UVal := ⟨var.type, var.u⟩

/-- `var` afterwards. -/
def movedFrom (_var : UVal) : UVal := ⟨.EMPTY, .f64 0⟩

/-- `val(val&& var)` to the letter: whatever the tag, the new union is written
through `_f64`, with the bits `f64` that `var._f64` reads. -/
def moveF64 (var : UVal) (f64 : BitVec 64) : UVal := ⟨var.type, .f64 f64⟩

/-! ## Assignment -/

/-- `operator=` from another val. -/
def assign (v src : UVal) : Access UVal := do
  let v ← v.setType .EMPTY
  src.copyTo v.u

/-- `v = v`: `setType` has emptied the source too. -/
def assignSelf (v : UVal) : Access UVal := do
  let v ← v.setType .EMPTY
  v.copyTo v.u

def setInt32 (v : UVal) (i : BitVec 32) : Access UVal := do
  let v ← v.setType .INT32
  return ⟨v.type, .i32 i⟩

def setDouble (v : UVal) (d : BitVec 64) : Access UVal := do
  let v ← v.setType .FLOAT64
  return ⟨v.type, .f64 d⟩

def setString (v : UVal) (p : Bytes) : Access UVal := do
  let v ← v.setType .STRING
  let _ ← Access.deref (← v.u.readStr)
  return ⟨v.type, .str (some p)⟩

/-- `append`, so a bytearray keeps the bytes it had. -/
def setByteArray (v : UVal) (p : Bytes) : Access UVal := do
  let v ← v.setType .BYTEARRAY
  let b ← Access.deref (← v.u.readBytearray)
  return ⟨v.type, .bytearray (some (b ++ p))⟩

/-- `if (type==EMPTY) setType(newType); assert(type==newType);` -/
def require (v : UVal) (newType : Tag) : Access UVal := do
  let v ← (if v.isEmpty then v.setType newType else pure v)
  if v.type = newType then return v else .abort

/-- `_map->find(key)` -/
def findField (key : Bytes) (fields : List (Bytes × UVal)) : Option UVal :=
  (fields.find? fun field => field.1 = key).map Prod.snd

/-- `set(const string&, const val&)` -/
def set (v : UVal) (key : Bytes) (value : UVal) : Access UVal := do
  let v ← v.require .MAP
  let fields ← Access.deref (← v.u.readMap)
  let node ← value.copy
  match findField key fields with
  | none => return ⟨v.type, .map (some (OrderedMap.assign key node fields))⟩
  | some field => do
    let field ← field.assign value
    return ⟨v.type, .map (some (OrderedMap.assign key field fields))⟩

/-- `(*_map)[key] = value` -/
def assignField (v : UVal) (key : Bytes) (value : UVal) : Access UVal := do
  let fields ← Access.deref (← v.u.readMap)
  let field ← ((findField key fields).getD empty).assign value
  return ⟨v.type, .map (some (OrderedMap.assign key field fields))⟩

/-- `set(const string&, ISerializeToVal*)`: `value` is what `toVal` has filled,
`none` for a null object. -/
def setObject (v : UVal) (key : Bytes) (value : Option UVal) : Access UVal := do
  let v ← v.require .MAP
  match value with
  | none => return v
  | some value => v.assignField key value

/-- `_vec->push_back(v)` of a val made or moved there. -/
def pushBack (v elem : UVal) : Access UVal := do
  let vec ← Access.deref (← v.u.readVec)
  return ⟨v.type, .vec (some (vec ++ [elem]))⟩

/-- `std::move` of a `const val&` copies. -/
def appendVal (v elem : UVal) : Access UVal := do
  let v ← v.require .ARRAY
  v.pushBack (← elem.copy)

end UVal

end Libacorn
