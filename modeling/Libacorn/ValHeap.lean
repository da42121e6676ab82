import Libacorn.Support.Ownership
import Libacorn.Bytestream

/-!
# base/val.cpp, with its pointers

A val in memory is its type and the eight bytes of its union. The members that own
something are addresses of blocks; `delete`, `new` and the copies are steps of a
heap in which no address is used twice, so that an access to a freed block is a
fault. `_obj` points at a `sp<Object>`, of which the model keeps the object it holds.

The fuel bounds the nesting of vals.
-/

namespace Libacorn.ValHeap

open Support

/-- A val: `type`, and the union as a number. -/
structure Slot where
  type : Tag
  word : Nat
  deriving DecidableEq, Repr

/-- What a pointer member points at; 0 is the null object. -/
inductive Block where
  | string (s : Bytes)
  | bytearray (b : Bytes)
  | vector (vec : List Slot)
  | map (fields : List (Bytes × Slot))
  | sp (obj : Nat)
  | error (code : BitVec 32) (msg : Bytes)

namespace Block

def type : Block → Tag
  | .string _ => .STRING
  | .bytearray _ => .BYTEARRAY
  | .vector _ => .ARRAY
  | .map _ => .MAP
  | .sp _ => .OBJECT
  | .error _ _ => .ERROR

/-- The vals in a block. -/
def children : Block → List Slot
  | .vector vec => vec
  | .map fields => fields.map Prod.snd
  | _ => []

/-- The block with other vals, in the same places. -/
def withChildren : Block → List Slot → Block
  | .vector _, l => .vector l
  | .map fields, l => .map ((fields.map Prod.fst).zip l)
  | b, _ => b

/-- The value of a block, from the values of the vals in it. -/
def value : Block → List CVal → CVal
  | .string s, _ => .string s
  | .bytearray b, _ => .bytearray b
  | .vector _, vs => .array vs
  | .map fields, vs => .map ((fields.map Prod.fst).zip vs)
  | .sp obj, _ => .object obj
  | .error code msg, _ => .error code msg

end Block

abbrev Heap := BlockHeap Block

/-! ## ~val -/

def destroyAll (destroy : Slot → Heap → Outcome Heap) : List Slot → Heap → Outcome Heap
  | [], H => .done H
  | c :: l, H => (destroy c H).bind (destroyAll destroy l)

/-- `delete` of a member that owns a block; a null pointer is nothing to delete. -/
def deleteMember (destroy : Slot → Heap → Outcome Heap) (s : Slot) (H : Heap) : Outcome Heap :=
  if s.word = 0 then .done H
  else
    match H.blocks s.word with
    | some b => if b.type = s.type then destroyAll destroy b.children (H.free s.word) else .fault
    | none => .fault

/-- `_obj->reset()`: the `sp` stays. -/
def reset (s : Slot) (H : Heap) : Outcome Heap :=
  match H.blocks s.word with
  | some (.sp _) => .done (H.put s.word (.sp 0))
  | _ => .fault

/-- `val::~val` -/
def destroy : Nat → Slot → Heap → Outcome Heap
  | 0, _, _ => .timeout
  | n + 1, s, H =>
    match s.type with
    | .STRING => deleteMember (destroy n) s H
    | .BYTEARRAY => deleteMember (destroy n) s H
    | .ARRAY => deleteMember (destroy n) s H
    | .MAP => deleteMember (destroy n) s H
    | .OBJECT => reset s H
    | .ERROR => deleteMember (destroy n) s H
    | _ => .done H

/-! ## setType -/

/-- `delete _obj` -/
def deleteObj (s : Slot) (H : Heap) : Outcome Heap :=
  if s.word = 0 then .done H
  else
    match H.blocks s.word with
    | some (.sp _) => .done (H.free s.word)
    | _ => .fault

/-- The first half of `setType`: the pointer is deleted and set to null. -/
def release (n : Nat) (s : Slot) (H : Heap) : Outcome (Nat × Heap) :=
  match s.type with
  | .STRING => (deleteMember (destroy n) s H).bind fun H => .done (0, H)
  | .BYTEARRAY => (deleteMember (destroy n) s H).bind fun H => .done (0, H)
  | .ARRAY => (deleteMember (destroy n) s H).bind fun H => .done (0, H)
  | .MAP => (deleteMember (destroy n) s H).bind fun H => .done (0, H)
  | .OBJECT => (deleteObj s H).bind fun H => .done (0, H)
  | .ERROR => (deleteMember (destroy n) s H).bind fun H => .done (0, H)
  | _ => .done (s.word, H)

/-- The types for which `setType` allocates a member. -/
def newBlock : Tag → Option Block
  | .STRING => some (.string [])
  | .BYTEARRAY => some (.bytearray [])
  | .ARRAY => some (.vector [])
  | .MAP => some (.map [])
  | .ERROR => some (.error 0 [])
  | _ => none

/-- The second half of `setType`. -/
def acquire (newType : Tag) (word : Nat) (H : Heap) : Slot × Heap :=
  match newBlock newType with
  | some b => (⟨newType, H.next⟩, H.alloc b)
  | none => (⟨newType, word⟩, H)

/-- `val::setType` -/
def setType (n : Nat) (newType : Tag) (s : Slot) (H : Heap) : Outcome (Slot × Heap) :=
  if s.type = newType then .done (s, H)
  else (release n s H).bind fun r => .done (acquire newType r.1 r.2)

/-! ## Copies -/

/-- The low `k` bytes of the union are overwritten. -/
def setLow (k : Nat) (word new : Nat) : Nat := word / 256 ^ k * 256 ^ k + new % 256 ^ k

def copyAll (copy : Slot → Heap → Outcome (Slot × Heap)) :
    List Slot → Heap → Outcome (List Slot × Heap)
  | [], H => .done ([], H)
  | c :: l, H =>
    (copy c H).bind fun r => (copyAll copy l r.2).bind fun rs => .done (r.1 :: rs.1, rs.2)

/-- `new string(*src._str)` and its like: a new block with copies of the vals in it. -/
def copyBlock (copy : Slot → Heap → Outcome (Slot × Heap)) (src : Slot) (H : Heap) :
    Outcome (Slot × Heap) :=
  match H.blocks src.word with
  | some b =>
    if b.type = src.type then
      (copyAll copy b.children H).bind fun r =>
        .done (⟨src.type, r.2.next⟩, r.2.alloc (b.withChildren r.1))
    else .fault
  | none => .fault

/-- The switch of `val::assign`, into a val that is EMPTY with `word` in its union.
An element is copied by `val(const val&)`, which starts as `val(var.type)`, an INT32. -/
def copyMember : Nat → Slot → Nat → Heap → Outcome (Slot × Heap)
  | 0, _, _, _ => .timeout
  | n + 1, src, word, H =>
    match src.type with
    | .EMPTY => .done (⟨.EMPTY, word⟩, H)
    | .INT32 => .done (⟨.INT32, setLow 4 word src.word⟩, H)
    | .INT64 => .done (⟨.INT64, setLow 8 word src.word⟩, H)
    | .UINT32 => .done (⟨.UINT32, setLow 4 word src.word⟩, H)
    | .UINT64 => .done (⟨.UINT64, setLow 8 word src.word⟩, H)
    | .FLOAT32 => .done (⟨.FLOAT32, setLow 4 word src.word⟩, H)
    | .FLOAT64 => .done (⟨.FLOAT64, setLow 8 word src.word⟩, H)
    | .STRING => copyBlock (fun c => copyMember n c c.type.code) src H
    | .MEASUREMENT => .done (⟨.MEASUREMENT, setLow 8 word src.word⟩, H)
    | .BYTEARRAY => copyBlock (fun c => copyMember n c c.type.code) src H
    | .ARRAY => copyBlock (fun c => copyMember n c c.type.code) src H
    | .MAP => copyBlock (fun c => copyMember n c c.type.code) src H
    | .OBJECT => .done (⟨.OBJECT, src.word⟩, H)
    | .ERROR => copyBlock (fun c => copyMember n c c.type.code) src H

/-! ## Variables and references -/

/-- A `val&`: a variable, or a val in a block. -/
inductive Ref where
  | var (i : Nat)
  | elem (p k : Nat)
  deriving DecidableEq, Repr

/-- The memory of a program: the heap, and the variables that exist. -/
structure State where
  heap : Heap
  vars : Nat → Option Slot

namespace State

def load (S : State) : Ref → Option Slot
  | .var i => S.vars i
  | .elem p k => (S.heap.blocks p).bind fun b => b.children[k]?

def store (S : State) (x : Ref) (s : Slot) : State :=
  match x with
  | .var i => { S with vars := Function.update S.vars i (some s) }
  | .elem p k =>
    match S.heap.blocks p with
    | some b => { S with heap := S.heap.put p (b.withChildren (b.children.set k s)) }
    | none => S

def withHeap (S : State) (H : Heap) : State := { S with heap := H }

/-- `val::assign` and `operator=` -/
def assign (n : Nat) (dst src : Ref) (S : State) : Outcome State :=
  match S.load dst with
  | none => .fault
  | some v =>
    (setType n .EMPTY v S.heap).bind fun r =>
      let S₁ := (S.withHeap r.2).store dst r.1
      match S₁.load src with
      | none => .fault
      | some s =>
        (copyMember n s r.1.word S₁.heap).bind fun r => .done ((S₁.withHeap r.2).store dst r.1)

/-- The constructors that take a number or nothing: a new variable. -/
def createNumber (i : Nat) (type : Tag) (word : Nat) (S : State) : State :=
  S.store (.var i) ⟨type, word⟩

/-- The constructors that take a string, a bytearray, an error or an object. -/
def createMember (i : Nat) (b : Block) (S : State) : State :=
  (S.withHeap (S.heap.alloc b)).store (.var i) ⟨b.type, S.heap.next⟩

/-- `val::val(const val&)`, a new variable. -/
def construct (n i : Nat) (src : Ref) (S : State) : Outcome State :=
  match S.load src with
  | none => .fault
  | some s =>
    (copyMember n s s.type.code S.heap).bind fun r => .done ((S.withHeap r.2).store (.var i) r.1)

/-! ## Operations on a val

An assertion that fails ends the program: the result is `none`. -/

/-- `setType` -/
def retype (n : Nat) (x : Ref) (newType : Tag) (S : State) : Outcome State :=
  match S.load x with
  | none => .fault
  | some a => (setType n newType a S.heap).bind fun r => .done ((S.withHeap r.2).store x r.1)

/-- `if (type==EMPTY) setType(newType);` -/
def ensure (n : Nat) (x : Ref) (newType : Tag) (S : State) : Outcome State :=
  match S.load x with
  | none => .fault
  | some a => if a.type = .EMPTY then retype n x newType S else .done S

/-- The index of a key in a map. -/
def position (key : Bytes) (fields : List (Bytes × Slot)) : Option Nat :=
  fields.findIdx? fun f => f.1 == key

/-- The pair that `emplace` makes of its arguments when it does so before it looks
for the key, and that is destroyed when the key is there. The standard leaves open
whether it is made. -/
def emplaceTemporary (builds : Bool) (n : Nat) (src : Ref) (S : State) : Outcome State :=
  if builds then
    match S.load src with
    | none => .fault
    | some s =>
      (copyMember n s s.type.code S.heap).bind fun r =>
        (destroy n r.1 r.2).bind fun H => .done (S.withHeap H)
  else .done S

/-- The new entry that `emplace` makes. -/
def emplaceEntry (n p : Nat) (fields : List (Bytes × Slot)) (key : Bytes) (src : Ref) (S : State) :
    Outcome State :=
  match S.load src with
  | none => .fault
  | some s =>
    (copyMember n s s.type.code S.heap).bind fun r =>
      .done (S.withHeap (r.2.put p (.map (OrderedMap.insert key r.1 fields))))

/-- `val::set` on the map behind `p`. -/
def setField (builds : Bool) (n p : Nat) (key : Bytes) (src : Ref) (S : State) : Outcome State :=
  match S.heap.blocks p with
  | some (.map fields) =>
    match position key fields with
    | some k => (emplaceTemporary builds n src S).bind (assign n (.elem p k) src)
    | none => emplaceEntry n p fields key src S
  | _ => .fault

def set (builds : Bool) (n : Nat) (x : Ref) (key : Bytes) (src : Ref) (S : State) :
    Outcome (Option State) :=
  (ensure n x .MAP S).bind fun S =>
    match S.load x with
    | some a =>
      if a.type = .MAP then (setField builds n a.word key src S).bind fun S => .done (some S)
      else .done none
    | none => .fault

/-- `_map->erase(key)` -/
def eraseField (n p : Nat) (key : Bytes) (S : State) : Outcome State :=
  match S.heap.blocks p with
  | some (.map fields) =>
    match position key fields with
    | some k =>
      match fields[k]? with
      | some f =>
        (destroy n f.2 S.heap).bind fun H =>
          .done (S.withHeap (H.put p (.map (fields.eraseIdx k))))
      | none => .done S
    | none => .done S
  | _ => .fault

def unset (n : Nat) (x : Ref) (key : Bytes) (S : State) : Outcome (Option State) :=
  match S.load x with
  | some a =>
    if a.type = .EMPTY then .done (some S)
    else if a.type = .MAP then (eraseField n a.word key S).bind fun S => .done (some S)
    else .done none
  | none => .fault

/-- `_vec->push_back(v)` -/
def pushBack (n p : Nat) (src : Ref) (S : State) : Outcome State :=
  match S.heap.blocks p with
  | some (.vector vec) =>
    match S.load src with
    | none => .fault
    | some s =>
      (copyMember n s s.type.code S.heap).bind fun r =>
        .done (S.withHeap (r.2.put p (.vector (vec ++ [r.1]))))
  | _ => .fault

def appendVal (n : Nat) (x src : Ref) (S : State) : Outcome (Option State) :=
  (ensure n x .ARRAY S).bind fun S =>
    match S.load x with
    | some a =>
      if a.type = .ARRAY then (pushBack n a.word src S).bind fun S => .done (some S)
      else .done none
    | none => .fault

/-- `val::clear` -/
def clear (n : Nat) (x : Ref) (S : State) : Outcome State := retype n x .EMPTY S

/-- The variable ends. -/
def destruct (n i : Nat) (S : State) : Outcome State :=
  match S.vars i with
  | some a => (destroy n a S.heap).bind fun H => .done ⟨H, Function.update S.vars i none⟩
  | none => .fault

end State

/-- An operation on a val. -/
inductive Op where
  | setType (newType : Tag)
  | assign (src : Ref)
  | set (key : Bytes) (src : Ref)
  | unset (key : Bytes)
  | appendVal (src : Ref)
  | clear
  | destruct

/-- A step on the val at `x`; only a variable is destructed. -/
def Op.step (builds : Bool) (n : Nat) (x : Ref) (S : State) : Op → Outcome (Option State)
  | .setType newType => (S.retype n x newType).bind fun S => .done (some S)
  | .assign src => (S.assign n x src).bind fun S => .done (some S)
  | .set key src => S.set builds n x key src
  | .unset key => S.unset n x key
  | .appendVal src => S.appendVal n x src
  | .clear => (S.clear n x).bind fun S => .done (some S)
  | .destruct =>
    match x with
    | .var i => (S.destruct n i).bind fun S => .done (some S)
    | .elem _ _ => .fault

/-- Operations on the val at `x`, up to the first assertion that fails. -/
def run (builds : Bool) (n : Nat) (x : Ref) : List Op → State → Outcome (Option State)
  | [], S => .done (some S)
  | op :: ops, S => (op.step builds n x S).bind fun r =>
    match r with
    | some S => run builds n x ops S
    | none => .done none

/-! ## What a val shows -/

def viewAll (view : Slot → Option CVal) : List Slot → Option (List CVal)
  | [] => some []
  | c :: l => (view c).bind fun v => (viewAll view l).map fun vs => v :: vs

/-- The value of a val, with `object` for what the pointer of an OBJECT shows. -/
def viewWith (object : Nat → Option CVal) (H : Heap) : Nat → Slot → Option CVal
  | 0, _ => none
  | n + 1, s =>
    match s.type with
    | .EMPTY => some .empty
    | .INT32 => some (.int32 (BitVec.ofNat 32 s.word))
    | .INT64 => some (.int64 (BitVec.ofNat 64 s.word))
    | .UINT32 => some (.uint32 (BitVec.ofNat 32 s.word))
    | .UINT64 => some (.uint64 (BitVec.ofNat 64 s.word))
    | .FLOAT32 => some (.float32 (BitVec.ofNat 32 s.word))
    | .FLOAT64 => some (.float64 (BitVec.ofNat 64 s.word))
    | .MEASUREMENT => some (.measurement (BitVec.ofNat 32 s.word)
        (.ofBits (BitVec.ofNat 32 (s.word / 2 ^ 32))))
    | .OBJECT => object s.word
    | _ =>
      match H.blocks s.word with
      | some b =>
        if b.type = s.type then (viewAll (viewWith object H n) b.children).map b.value else none
      | none => none

/-- `objectVal`: the object that the `sp` holds. -/
def objectVal (H : Heap) (p : Nat) : Option CVal :=
  if p = 0 then some (.object 0)
  else
    match H.blocks p with
    | some (.sp obj) => some (.object obj)
    | _ => none

/-- What can be seen of a val: its type, its payload, its elements and objects. It is
`none` where freed memory would be read. -/
def view (n : Nat) (H : Heap) (s : Slot) : Option CVal := viewWith (objectVal H) H n s

end Libacorn.ValHeap
