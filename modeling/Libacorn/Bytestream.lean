import Libacorn.Support.Codec
import Libacorn.Memory
import Libacorn.Parse

/-!
# base/bytestream.cpp

The stream over a growing allocation, and the two recursive functions that
write and read a val. The target is little-endian with 64-bit pointers. Memory
that was never written holds the bytes of `Uninit`, and an access outside an
allocation is a fault.

`encode` is the format the writer produces.
-/

namespace Libacorn

open Support

/-- Conversion to `size_t`. -/
def sizeT (i : Int) : Nat := (i % 2 ^ 64).toNat

/-- Conversion to `int32_t`. -/
def int32 (n : Nat) : Int := (n + 2 ^ 31) % 2 ^ 32 - 2 ^ 31

/-! ## The stream -/

/-- `class bytestream`: the allocation behind `_p`, the `int32_t` member `_cb` of
its base class, and the two offsets. -/
structure Bytestream where
  mem : Bytes
  cb : Int
  offsetRead : Nat
  offsetWrite : Nat

namespace Bytestream

/-- `bytestream()` -/
def fresh : Bytestream := ⟨[], 0, 0, 0⟩

/-- `bytestream(bytearray& src)` -/
def ofBytearray (src : Bytes) : Bytestream := ⟨src, int32 src.length, 0, 0⟩

/-- `getWrittenBytes`. A negative `(int)offsetWrite` is no size that can be allocated. -/
def getWrittenBytes (s : Bytestream) : Option Bytes :=
  let cb := int32 s.offsetWrite
  if 0 ≤ cb ∧ cb ≤ s.mem.length then some (s.mem.take cb.toNat) else none

def setWriteOffset (offset : Nat) (s : Bytestream) : Bytestream := { s with offsetWrite := offset }

/-- The comparison is one of `size_t`. -/
def eof (s : Bytestream) : Bool := decide (s.offsetRead ≥ sizeT s.cb)

def hasMoreToRead (s : Bytestream) : Bool := decide (s.offsetRead < sizeT s.cb)

section Uninit
variable [Uninit]

/-- The new allocation of `writeBytes`, with the old bytes copied. -/
def grow (newCb : Nat) : Scan Bytestream Unit := fun s =>
  if sizeT s.cb ≤ s.mem.length ∧ sizeT s.cb ≤ newCb then
    .done ((), { s with
      mem := s.mem.take (sizeT s.cb) ++ Uninit.block (newCb - sizeT s.cb)
      cb := int32 newCb })
  else .fault

/-- `memcpy(_p+offsetWrite, bytes, cb)`, and the new offset. -/
def copyIn (bytes : Bytes) : Scan Bytestream Unit := fun s =>
  if s.offsetWrite + bytes.length ≤ s.mem.length then
    .done ((), { s with
      mem := overwrite s.mem s.offsetWrite bytes
      offsetWrite := s.offsetWrite + bytes.length })
  else .fault

/-- The allocation grows in steps of 256 bytes; the mask has 32 bits. -/
def writeBytes (bytes : Bytes) : Scan Bytestream Bool := fun s =>
  let cbFree := sizeT (s.cb - s.offsetWrite)
  let newCb := (sizeT (s.cb + (bytes.length - cbFree : Int)) + 255) &&& 0xffffff00
  (do
    if bytes.length > cbFree then grow newCb else pure ()
    copyIn bytes
    pure true : Scan Bytestream Bool) s

end Uninit

/-- The bytes copied; the source returns whether there were `cb` of them. -/
def readBytes (cb : Nat) : Scan Bytestream Bytes := fun s =>
  let cbRead := min cb (sizeT (s.cb - s.offsetRead))
  if s.offsetRead + cbRead ≤ s.mem.length then
    .done ((s.mem.drop s.offsetRead).take cbRead, { s with offsetRead := s.offsetRead + cbRead })
  else .fault

/-! ## Writing a val -/

section Write
variable [Uninit]

/-- `write` for strings and bytearrays. -/
def writeString (b : Bytes) : Scan Bytestream Bool := do
  if ← writeBytes (leBytes 4 b.length) then writeBytes b else pure false

def writeTyped (type : BitVec 32) (payload : Scan Bytestream Bool) : Scan Bytestream Bool := do
  if ← writeBytes (leBytes 4 type.toNat) then payload else pure false

mutual

/-- The switch of `write<val>`. -/
def writePayload : CVal → Scan Bytestream Bool
  | .empty => pure true
  | .int32 i => writeBytes (leBytes 4 i.toNat)
  | .int64 i => writeBytes (leBytes 8 i.toNat)
  | .uint32 u => writeBytes (leBytes 4 u.toNat)
  | .uint64 u => writeBytes (leBytes 8 u.toNat)
  | .float32 f => writeBytes (leBytes 4 f.toNat)
  | .float64 f => writeBytes (leBytes 8 f.toNat)
  | .string s => writeString s
  | .measurement unitVal unit => do
    if ← writeBytes (leBytes 4 unitVal.toNat) then writeBytes (leBytes 2 unit.toBits.toNat)
    else pure false
  | .bytearray b => writeString b
  | .array vec => do
    if ← writeBytes (leBytes 4 vec.length) then writeElements vec else pure false
  | .map fields => do
    if ← writeBytes (leBytes 4 fields.length) then writeFields fields else pure false
  | .object _ => Scan.fault
  | .error code msg => do
    let _ ← writeBytes (leBytes 4 code.toNat)
    let _ ← writeString msg
    pure true
  -- no payload to follow: an undeclared tag, or a pointer that points at nothing
  | .raw tag _ => if Tag.ofCode tag.toNat = none then pure false else Scan.fault

def writeElements : List CVal → Scan Bytestream Bool
  | [] => pure true
  | v :: vec => do
    if ← writeTyped v.type (writePayload v) then writeElements vec else pure false

def writeFields : List (Bytes × CVal) → Scan Bytestream Bool
  | [] => pure true
  | (key, v) :: fields => do
    if ← writeString key then
      if ← writeTyped v.type (writePayload v) then writeFields fields else pure false
    else pure false

end

/-- `bytestream::write<val>` -/
def writeVal (v : CVal) : Scan Bytestream Bool := writeTyped v.type (writePayload v)

end Write

/-! ## Reading a val -/

end Bytestream

/-- The tags whose member is a pointer that `~val` and `setType` delete. -/
def Tag.owns : Tag → Bool
  | .STRING => true
  | .BYTEARRAY => true
  | .ARRAY => true
  | .MAP => true
  | .OBJECT => true
  | .ERROR => true
  | _ => false

mutual

/-- `~val` deletes only what was allocated: no pointer member was overwritten. -/
def Val.destructs : CVal → Bool
  | .array vec => Val.destructsElements vec
  | .map fields => Val.destructsFields fields
  | .raw tag _ => (Tag.ofCode tag.toNat).all (!·.owns)
  | _ => true

def Val.destructsElements : List CVal → Bool
  | [] => true
  | v :: vec => v.destructs && Val.destructsElements vec

def Val.destructsFields : List (Bytes × CVal) → Bool
  | [] => true
  | (_, v) :: fields => v.destructs && Val.destructsFields fields

end

/-- The number in the union, as stored. -/
def Val.bits : CVal → Nat
  | .int32 i => i.toNat
  | .int64 i => i.toNat
  | .uint32 u => u.toNat
  | .uint64 u => u.toNat
  | .float32 f => f.toNat
  | .float64 f => f.toNat
  | .raw _ bits => bits.toNat
  | _ => 0

section SetType
variable [Uninit]

/-- The union after `setType` has changed the type: a new object behind a
pointer, else what the memory held. -/
def Val.ofType (newType : BitVec 32) : CVal :=
  match Tag.ofCode newType.toNat with
  | some .EMPTY => .empty
  | some .STRING => .string []
  | some .BYTEARRAY => .bytearray []
  | some .ARRAY => .array []
  | some .MAP => .map []
  | some .ERROR => .error 0 []
  | _ => .raw newType (BitVec.ofNat 64 (ofLe (Uninit.block 8)))

/-- `val::setType` -/
def Val.setType (newType : BitVec 32) (v : CVal) : Outcome CVal :=
  if v.type = newType then .done v
  else if v.destructs then .done (Val.ofType newType)
  else .fault

end SetType

/-- What the reader of a val calls on its stream: the bytes that were there, at
most the given number. -/
class ByteSource (σ : Type) where
  readBytes : Nat → Scan σ Bytes

instance : ByteSource Bytestream where
  readBytes := Bytestream.readBytes

namespace Bytestream

section Reader
variable {σ : Type} [ByteSource σ]

/-- An integer of `k` bytes, if they are there. -/
def readLe (k : Nat) : Scan σ (Option Nat) := do
  let bytes ← ByteSource.readBytes k
  pure (if bytes.length = k then some (ofLe bytes) else none)

/-- The low bytes of `old` overwritten. -/
def patch (old : Nat) (bytes : Bytes) : Nat :=
  ofLe bytes + old / 256 ^ bytes.length * 256 ^ bytes.length

/-- `readBytes` into a member of `k` bytes. A member without a value has one when
all its bytes are there. -/
def readMember (k : Nat) (member : Nat → CVal) (v : CVal) : Scan σ (Bool × CVal) := do
  let bytes ← ByteSource.readBytes k
  if bytes.length = k then pure (true, member (ofLe bytes))
  else
    let x := patch v.bits bytes
    pure (false, match v with
      | .raw tag _ => .raw tag (BitVec.ofNat 64 x)
      | _ => member x)

/-- `read(v._str)` and `read(v._bytearray)`: the argument is a pointer, so `read`
is the template for plain data and overwrites the pointer. -/
def readPointer (tag : Tag) (v : CVal) : Scan σ (Bool × CVal) := do
  let bytes ← ByteSource.readBytes 8
  pure (decide (bytes.length = 8),
    if bytes = [] then v else .raw (BitVec.ofNat 32 tag.code) (BitVec.ofNat 64 (ofLe bytes)))

/-- A new element: `push_back` copies it when it was read, and at the end of the
block it is destroyed. Both follow its pointer. -/
def readElements (elem : Scan σ (Bool × CVal)) :
    Nat → List CVal → Scan σ (Bool × List CVal)
  | 0, vec => pure (true, vec)
  | num + 1, vec => do
    let r ← elem
    if r.2.destructs then
      if r.1 then readElements elem num (vec ++ [r.2]) else pure (false, vec)
    else Scan.fault

section Read
variable [Uninit]

/-- `read<string>`: the content of the string and the result. `alloc` calls `clear`,
which passes the old buffer to `buf_release`, also that of a literal. -/
def readString (literal : Bool) : Scan σ (Bytes × Bool) := do
  match ← readLe 4 with
  | none => pure ([], false)
  | some cb =>
    if literal then Scan.fault
    else
      let bytes ← ByteSource.readBytes cb
      pure (bytes ++ Uninit.block (cb - bytes.length), decide (bytes.length = cb))

/-- A string without a buffer, or with one of its own. -/
theorem readString_new : (readString false : Scan σ (Bytes × Bool)) = (do
    match ← readLe 4 with
    | none => pure ([], false)
    | some cb =>
      let bytes ← ByteSource.readBytes cb
      pure (bytes ++ Uninit.block (cb - bytes.length), decide (bytes.length = cb))) := rfl

/-- As for elements; `insert` keeps the value of a key that is there. -/
def readFields (value : Scan σ (Bool × CVal)) :
    Nat → List (Bytes × CVal) → Scan σ (Bool × List (Bytes × CVal))
  | 0, fields => pure (true, fields)
  | num + 1, fields => do
    let key ← readString false
    if key.2 = false then pure (false, fields)
    else
      let r ← value
      if r.2.destructs then
        if r.1 then readFields value num (OrderedMap.insert key.1 r.2 fields)
        else pure (false, fields)
      else Scan.fault

/-- Only the two low bytes of the unit are read. -/
def readMeasurement (v : CVal) : Scan σ (Bool × CVal) := do
  match ← readLe 4 with
  | none => pure (false, v)
  | some f =>
    let bytes ← ByteSource.readBytes 2
    if bytes.length = 2 then
      let unit := ofLe bytes + Uninit.unit.toNat / 2 ^ 16 * 2 ^ 16
      pure (true, .measurement (BitVec.ofNat 32 f) (.ofBits (BitVec.ofNat 32 unit)))
    else pure (false, v)

/-- The results of the two reads are not looked at. The old code is `code`, and
`literal` says that the old message is a string literal. -/
def readError (literal : Bool) (code : BitVec 32) : Scan σ (Bool × CVal) := do
  let bytes ← ByteSource.readBytes 4
  let msg ← readString literal
  pure (true, .error (BitVec.ofNat 32 (patch code.toNat bytes)) msg.1)

/-- The switch of `read<val>`, into a val that has the type `tag`; `value` reads
into a new val. -/
def readPayload (literal : Bool) (value : Scan σ (Bool × CVal)) (v : CVal) :
    Tag → Scan σ (Bool × CVal)
  | .EMPTY => pure (true, v)
  | .INT32 => readMember 4 (fun x => .int32 (BitVec.ofNat 32 x)) v
  | .INT64 => readMember 8 (fun x => .int64 (BitVec.ofNat 64 x)) v
  | .UINT32 => readMember 4 (fun x => .uint32 (BitVec.ofNat 32 x)) v
  | .UINT64 => readMember 8 (fun x => .uint64 (BitVec.ofNat 64 x)) v
  | .FLOAT32 => readMember 4 (fun x => .float32 (BitVec.ofNat 32 x)) v
  | .FLOAT64 => readMember 8 (fun x => .float64 (BitVec.ofNat 64 x)) v
  | .STRING => readPointer .STRING v
  | .MEASUREMENT => readMeasurement v
  | .BYTEARRAY => readPointer .BYTEARRAY v
  | .ARRAY => do
    match ← readLe 4 with
    | none => pure (false, v)
    | some num =>
      match v with
      | .array vec =>
        let r ← readElements value num vec
        pure (r.1, .array r.2)
      | _ => Scan.fault
  | .MAP => do
    match ← readLe 4 with
    | none => pure (false, v)
    | some num =>
      match v with
      | .map fields =>
        let r ← readFields value num fields
        pure (r.1, .map r.2)
      | _ => Scan.fault
  | .OBJECT => Scan.fault
  | .ERROR =>
    match v with
    | .error code _ => readError literal code
    | _ => Scan.fault

/-- `bytestream::read<val>` into `v`: the result, and `v` after it. The fuel bounds
the nesting. `literal` says that `v` is an ERROR whose message is a string literal;
the `error` that `setType` makes has a message without a buffer. -/
def readInto : Bool → Nat → CVal → Scan σ (Bool × CVal)
  | _, 0, _ => Scan.timeout
  | literal, n + 1, v => do
    match ← readLe 4 with
    | none => pure (false, v)
    | some type =>
      let same := decide (v.type = BitVec.ofNat 32 type)
      let v ← Scan.ofOutcome (v.setType (BitVec.ofNat 32 type))
      match Tag.ofCode type with
      | none => pure (false, v)
      | some tag => readPayload (literal && same) (readInto false n .empty) v tag

/-- `bytestream::read<val>` into a new val, `none` when it returns false. -/
def readVal (n : Nat) : Scan σ (Option CVal) := do
  let r ← readInto false n .empty
  pure (if r.1 then some r.2 else none)

end Read

end Reader

end Bytestream

/-! ## The format -/

mutual

/-- The bytes after the tag. -/
def Val.payload : CVal → Bytes
  | .empty => []
  | .int32 i => leBytes 4 i.toNat
  | .int64 i => leBytes 8 i.toNat
  | .uint32 u => leBytes 4 u.toNat
  | .uint64 u => leBytes 8 u.toNat
  | .float32 f => leBytes 4 f.toNat
  | .float64 f => leBytes 8 f.toNat
  | .string s => leBytes 4 s.length ++ s
  | .measurement unitVal unit => leBytes 4 unitVal.toNat ++ leBytes 2 unit.toBits.toNat
  | .bytearray b => leBytes 4 b.length ++ b
  | .array vec => leBytes 4 vec.length ++ Val.encodeElements vec
  | .map fields => leBytes 4 fields.length ++ Val.encodeFields fields
  | .object _ => []
  | .error code msg => leBytes 4 code.toNat ++ (leBytes 4 msg.length ++ msg)
  | .raw _ _ => []

def Val.encodeElements : List CVal → Bytes
  | [] => []
  | v :: vec => (leBytes 4 v.type.toNat ++ v.payload) ++ Val.encodeElements vec

def Val.encodeFields : List (Bytes × CVal) → Bytes
  | [] => []
  | (key, v) :: fields =>
    (leBytes 4 key.length ++ key) ++
      ((leBytes 4 v.type.toNat ++ v.payload) ++ Val.encodeFields fields)

end

/-- The encoding of a val: its tag, then its payload. -/
def Val.encode (v : CVal) : Bytes := leBytes 4 v.type.toNat ++ v.payload

end Libacorn
