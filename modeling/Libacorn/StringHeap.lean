import Libacorn.Support.RefHeap
import Libacorn.Memory
import Libacorn.Text

/-!
# Buffers and handles of base/string.cpp

The reference-counted buffers behind `class string`, the operations on one
handle, and the system of all handles with its operations. Assertions are
compiled out. A step that the language leaves undefined is a `Fault`; `realloc`
always moves the block.
-/

namespace Libacorn

open Support

namespace StringHeap

/-- Why a step is undefined. -/
inductive Fault where
  /-- a null pointer is used -/
  | null
  /-- a freed buffer is used -/
  | freed
  /-- an access outside a block -/
  | bounds
  /-- a literal is passed to `buf_release` -/
  | releaseStatic
  /-- a literal is written to, or taken for a buffer with a header -/
  | static
  /-- signed overflow -/
  | overflow
  /-- the operation names no live handle -/
  | noHandle
  deriving DecidableEq, Repr

/-! ## Buffers -/

/-- A buffer with its header, without the count. -/
structure Buf where
  cb : Nat
  cap : Nat
  /-- the characters and the byte for the terminator -/
  bytes : Bytes
  cap_eq : cap = cb
  size : bytes.length = cb + 1
  lt : cb < 2 ^ 32

/-- `char* _buf`. A literal is its characters; a terminator follows them. -/
inductive Ptr where
  | null
  | heap (id : Nat)
  | lit (m : Bytes)
  deriving DecidableEq, Repr

abbrev Heap := RefHeap Buf

/-- Conversion to `uint32_t`. -/
def toU32 (i : Int) : Nat := (i % 2 ^ 32).toNat

def read (H : Heap) (p : Ptr) (o n : Nat) : Except Fault Bytes :=
  match p with
  | .null => if n = 0 then .ok [] else .error .null
  | .lit m => if o + n ≤ m.length + 1 then .ok (((m ++ [0]).drop o).take n) else .error .bounds
  | .heap i =>
    match H.get? i with
    | none => .error .freed
    | some b => if o + n ≤ b.bytes.length then .ok ((b.bytes.drop o).take n) else .error .bounds

def Buf.write (b : Buf) (o : Nat) (bytes : Bytes) (h : o + bytes.length ≤ b.bytes.length) : Buf :=
  { b with bytes := overwrite b.bytes o bytes, size := (length_overwrite h).trans b.size }

def write (H : Heap) (p : Ptr) (o : Nat) (bytes : Bytes) : Except Fault Heap :=
  match p with
  | .null => .error .null
  | .lit _ => .error .static
  | .heap i =>
    match H.get? i with
    | none => .error .freed
    | some b =>
      if h : o + bytes.length ≤ b.bytes.length then .ok (H.modify i (b.write o bytes h))
      else .error .bounds

def bufRetain (H : Heap) : Ptr → Except Fault Heap
  | .null => .error .null
  | .lit _ => .error .static
  | .heap i =>
    match H.retain i with
    | none => .error .freed
    | some H' => .ok H'

def bufRelease (H : Heap) : Ptr → Except Fault Heap
  | .null => .error .null
  | .lit _ => .error .releaseStatic
  | .heap i =>
    match H.release i with
    | none => .error .freed
    | some H' => .ok H'

section Alloc
variable [Uninit]

/-- A block for `n` characters that starts with the bytes of an old one. -/
def Buf.sized (old : Bytes) (n : Nat) : Buf where
  cb := u32 n
  cap := u32 n
  bytes := old.take (u32 n + 1) ++ Uninit.block (u32 n + 1 - old.length)
  cap_eq := rfl
  size := by
    simp [Uninit.length_block]
    omega
  lt := Nat.mod_lt _ (by decide)

def bufNew (H : Heap) (cb : Nat) : Heap × Ptr := (H.alloc (Buf.sized [] cb), .heap H.next)

def bufRealloc (H : Heap) (p : Ptr) (cbDelta : Int) : Except Fault (Heap × Ptr) :=
  match p with
  | .null => .ok (bufNew H (toU32 cbDelta))
  | .lit _ => .error .static
  | .heap i =>
    match H.move i fun b => Buf.sized b.bytes (toU32 (b.cap + cbDelta)) with
    | none => .error .freed
    | some H' => .ok (H', .heap H.next)

end Alloc

/-! ## Handles -/

/-- `kTypeStandard` and `kTypeStatic`; `kTypeTiny` is not used. -/
inductive BufType where
  | Standard
  | Static
  deriving DecidableEq, Repr

/-- The members of `class string`; `_offset` has 24 bits. -/
structure Handle where
  buf : Ptr
  cb : Nat
  offset : Nat
  type : BufType
  deriving DecidableEq, Repr

def Handle.empty : Handle := ⟨.null, 0, 0, .Standard⟩

/-- `string(const char(&p)[N])` and `static_str` -/
def Handle.literal (m : Bytes) : Handle := ⟨.lit m, m.length, 0, .Static⟩

/-- `_buf && _type==kTypeStandard` -/
def Handle.counted (h : Handle) : Bool := h.buf ≠ .null ∧ h.type = .Standard

/-- `if (_buf && _type==kTypeStandard) buf_retain(_buf)` -/
def retainOwn (H : Heap) (h : Handle) : Except Fault Heap :=
  if h.counted then bufRetain H h.buf else pure H

def releaseOwn (H : Heap) (h : Handle) : Except Fault Heap :=
  if h.counted then bufRelease H h.buf else pure H

/-- `string(const string& s)` -/
def copyOf (H : Heap) (s : Handle) : Except Fault (Heap × Handle) := do
  let H ← retainOwn H s
  return (H, s)

/-- `string(const string& s, uint32_t offsetFrom, uint32_t offsetTo)` -/
def sliceOf (H : Heap) (s : Handle) (offsetFrom offsetTo : Nat) : Except Fault (Heap × Handle) := do
  let H ← if s.type = .Standard then bufRetain H s.buf else pure H
  return (H,
    { s with cb := u32Sub offsetTo offsetFrom, offset := (s.offset + offsetFrom) % 2 ^ 24 })

def substr (H : Heap) (s : Handle) (fromOff toOff : Nat) : Except Fault (Heap × Handle) :=
  sliceOf H s (min s.cb (min fromOff toOff)) (min s.cb (max fromOff toOff))

def destroy (H : Heap) (h : Handle) : Except Fault Heap := releaseOwn H h

/-- `string::operator=(const string&)` -/
def assignFrom (H : Heap) (h str : Handle) : Except Fault (Heap × Handle) := do
  let H ← releaseOwn H h
  let H ← retainOwn H str
  return (H, str)

def clear (H : Heap) (h : Handle) : Except Fault (Heap × Handle) :=
  if h.buf = .null then pure (H, h)
  else do
    let H ← bufRelease H h.buf
    return (H, { h with buf := .null, cb := 0, offset := 0 })

/-- `staticVal` is another handle. -/
def mutateToStatic (H : Heap) (h staticVal : Handle) : Except Fault (Heap × Handle) := do
  let (H, _) ← clear H h
  return (H, staticVal)

section Alloc
variable [Uninit]

/-- `buf_new(_cb)`, and `memcpy` of the content into it. -/
def copyContent (H : Heap) (h : Handle) : Except Fault (Heap × Ptr) := do
  let (H, buf) := bufNew H h.cb
  let bytes ← read H h.buf h.offset h.cb
  let H ← write H buf 0 bytes
  return (H, buf)

def prepareToModify (H : Heap) (h : Handle) : Except Fault (Heap × Handle) :=
  match h.type with
  | .Static => do
    let (H, buf) ← copyContent H h
    return (H, { h with buf := buf, offset := 0, type := .Standard })
  | .Standard =>
    match h.buf with
    | .null => .error .null
    | .lit _ => .error .static
    | .heap i =>
      match H.cells i with
      | none => .error .freed
      | some c =>
        if c.refs > 1 then do
          let H ← bufRelease H h.buf
          let (H, buf) ← copyContent H h
          return (H, { h with buf := buf, offset := 0 })
        else pure (H, h)

/-- `p` is null, or the `cb` bytes it points at. -/
def assign (H : Heap) (h : Handle) (p : Option Bytes) : Except Fault (Heap × Handle) := do
  let H ← releaseOwn H h
  match p with
  | some p =>
    let (H, buf) := bufNew H p.length
    let H ← write H buf 0 p
    let H ← write H buf p.length [0]
    return (H, { h with buf := buf, cb := p.length, offset := 0 })
  | none => return (H, { h with buf := .null, cb := 0, offset := 0 })

def alloc (H : Heap) (h : Handle) (cb : Nat) : Except Fault (Heap × Handle) := do
  let (H, h) ← clear H h
  let (H, buf) := bufNew H cb
  let H ← write H buf cb [0]
  return (H, { h with buf := buf, cb := cb, offset := 0 })

/-- The handle after the call; the result is its `_buf`. -/
def cStr (H : Heap) (h : Handle) : Except Fault (Heap × Handle) :=
  if h.counted then
    match h.buf with
    | .null => .error .null
    | .lit _ => .error .static
    | .heap i =>
      match H.get? i with
      | none => .error .freed
      | some hdr =>
        if u32 (h.offset + h.cb) < hdr.cb then do
          let (H, newbuf) ← copyContent H h
          let H ← write H newbuf h.cb [0]
          let H ← bufRelease H h.buf
          return (H, { h with buf := newbuf, offset := 0 })
        else pure (H, h)
  else pure (H, h)

def erase (H : Heap) (h : Handle) (fromOff toOff : Nat) : Except Fault (Heap × Handle) :=
  let fromByteOffset := min h.cb (min fromOff toOff)
  let toByteOffset := min h.cb (max fromOff toOff)
  let cbToErase := toByteOffset - fromByteOffset
  if cbToErase = 0 then pure (H, h)
  else do
    let (H, h) ← prepareToModify H h
    let tail ← read H h.buf (h.offset + toByteOffset) (h.cb - toByteOffset)
    let H ← write H h.buf (h.offset + fromByteOffset) tail
    let cb := h.cb - cbToErase
    -- the terminator goes to `_buf[_cb]`, not to `start()[_cb]`
    let H ← write H h.buf cb [0]
    let (H, buf) ← bufRealloc H h.buf (-cbToErase)
    return (H, { h with buf := buf, cb := cb })

def insert (H : Heap) (h : Handle) (byteOffset : Nat) (p : Bytes) :
    Except Fault (Heap × Handle) :=
  if p = [] then pure (H, h)
  else if h.buf = .null then assign H h (some p)
  else do
    let (H, h) ← prepareToModify H h
    let (H, buf) ← bufRealloc H h.buf p.length
    let insertPoint := h.offset + byteOffset
    let tail ← read H buf insertPoint (toU32 (h.cb - byteOffset))
    let H ← write H buf (insertPoint + p.length) tail
    let H ← write H buf insertPoint p
    let cb := u32 (h.cb + p.length)
    let H ← write H buf (h.offset + cb) [0]
    return (H, { h with buf := buf, cb := cb })

end Alloc

/-- `memcmp(start() + o, q.start(), q._cb) == 0` -/
def sameBytes (H : Heap) (h : Handle) (o : Nat) (q : Handle) : Except Fault Bool := do
  let own ← read H h.buf (h.offset + o) q.cb
  let other ← read H q.buf q.offset q.cb
  return own = other

def hasPrefix (H : Heap) (h q : Handle) : Except Fault Bool :=
  if q.cb > h.cb then pure false else sameBytes H h 0 q

/-- The signed difference `ci` is negative from `2^31` on. -/
def hasSuffix (H : Heap) (h q : Handle) : Except Fault Bool :=
  let s := toU32 (h.cb - q.cb)
  if 2 ^ 31 ≤ s then pure false else sameBytes H h s q

section Alloc
variable [Uninit]

def hadPrefix (H : Heap) (h q : Handle) : Except Fault ((Heap × Handle) × Bool) := do
  if ← hasPrefix H h q then
    let r ← erase H h 0 q.cb
    return (r, true)
  else return ((H, h), false)

def hadSuffix (H : Heap) (h q : Handle) : Except Fault ((Heap × Handle) × Bool) := do
  if ← hasSuffix H h q then
    let r ← erase H h (toU32 (h.cb - q.cb)) h.cb
    return (r, true)
  else return ((H, h), false)

end Alloc

/-- `strchr(chars, c)` also finds the terminator of `chars`. -/
def inSet (chars : Bytes) (c : UInt8) : Bool := c ∈ chars ∨ c = 0

/-- The first loop of `trim`. Its `int32_t` counter overflows in the step past
`2^31 - 1` bytes. -/
def countLead (chars content : Bytes) : Except Fault Nat :=
  let cLead := (content.takeWhile (inSet chars)).length
  if 2 ^ 31 - 1 ≤ cLead ∧ 2 ^ 31 ≤ content.length then .error .overflow else .ok cLead

/-- The second loop of `trim`, down to the end of the first; it starts at a
negative index when there are more than `2^31` bytes. -/
def countTrail (chars content : Bytes) (cLead : Nat) : Nat :=
  if content.length ≤ 2 ^ 31 then
    ((content.drop (cLead + 1)).reverse.takeWhile (inSet chars)).length
  else 0

def trim (H : Heap) (h : Handle) (chars : Bytes) : Except Fault (Heap × Handle) := do
  let content ← read H h.buf h.offset h.cb
  let cLead ← countLead chars content
  let cTrail := countTrail chars content cLead
  if cLead + cTrail > 0 then
    -- `*this = substr(..)`: the temporary is destroyed after the assignment
    let (H, temp) ← substr H h cLead (h.cb - cTrail)
    let (H, h) ← assignFrom H h temp
    let H ← destroy H temp
    return (H, h)
  else return (H, h)

/-! ## The system of all handles -/

/-- The heap and the handles ever made; `none` is a destroyed one. -/
structure State where
  heap : Heap
  handles : List (Option Handle)

namespace State

def init : State := ⟨RefHeap.empty, []⟩

def handle? (S : State) (k : Nat) : Option Handle := S.handles[k]?.join

def get (S : State) (k : Nat) : Except Fault Handle :=
  match S.handle? k with
  | some h => .ok h
  | none => .error .noHandle

def push (S : State) (r : Heap × Handle) : State := ⟨r.1, S.handles ++ [some r.2]⟩

def put (S : State) (k : Nat) (r : Heap × Handle) : State := ⟨r.1, S.handles.set k (some r.2)⟩

def drop (S : State) (k : Nat) (H : Heap) : State := ⟨H, S.handles.set k none⟩

end State

inductive Op where
  /-- `string()` -/
  | empty
  /-- `string("..")` -/
  | literal (m : Bytes)
  /-- `string(p, cb)` -/
  | bytes (p : Option Bytes)
  /-- `string(s)` -/
  | copy (s : Nat)
  /-- `string(std::move(other))` -/
  | move (other : Nat)
  | substr (s fromOff toOff : Nat)
  /-- `operator=(const string&)` -/
  | assignFrom (h str : Nat)
  | insert (h byteOffset : Nat) (p : Bytes)
  | append (h : Nat) (p : Bytes)
  | erase (h fromOff toOff : Nat)
  | trim (h : Nat) (chars : Bytes)
  | cStr (h : Nat)
  | destroy (h : Nat)
  | clear (h : Nat)
  /-- `assign(p, cb)` -/
  | assign (h : Nat) (p : Option Bytes)
  /-- `operator=(const char*)`, with the bytes before the terminator -/
  | assignChars (h : Nat) (s : Option Bytes)
  | mutateToStatic (h staticVal : Nat)
  | alloc (h cb : Nat)
  deriving DecidableEq, Repr

section Step
variable [Uninit]

def step (S : State) : Op → Except Fault State
  | .empty => pure (S.push (S.heap, .empty))
  | .literal m => pure (S.push (S.heap, .literal m))
  | .bytes p => do
    let r ← assign S.heap .empty p
    return S.push r
  | .copy s => do
    let h ← S.get s
    let r ← copyOf S.heap h
    return S.push r
  | .move other => do
    let h ← S.get other
    return (S.put other (S.heap, .empty)).push (S.heap, h)
  | .substr s fromOff toOff => do
    let h ← S.get s
    let r ← substr S.heap h fromOff toOff
    return S.push r
  | .assignFrom k str => do
    let h ← S.get k
    let s ← S.get str
    let r ← assignFrom S.heap h s
    return S.put k r
  | .insert k byteOffset p => do
    let h ← S.get k
    let r ← insert S.heap h byteOffset p
    return S.put k r
  | .append k p => do
    let h ← S.get k
    let r ← insert S.heap h h.cb p
    return S.put k r
  | .erase k fromOff toOff => do
    let h ← S.get k
    let r ← erase S.heap h fromOff toOff
    return S.put k r
  | .trim k chars => do
    let h ← S.get k
    let r ← trim S.heap h chars
    return S.put k r
  | .cStr k => do
    let h ← S.get k
    let r ← cStr S.heap h
    return S.put k r
  | .destroy k => do
    let h ← S.get k
    let H ← destroy S.heap h
    return S.drop k H
  | .clear k => do
    let h ← S.get k
    let r ← clear S.heap h
    return S.put k r
  | .assign k p => do
    let h ← S.get k
    let r ← assign S.heap h p
    return S.put k r
  | .assignChars k s => do
    let h ← S.get k
    let r ← assign S.heap h s
    return S.put k r
  | .mutateToStatic k staticVal => do
    let h ← S.get k
    let s ← S.get staticVal
    -- the members of `staticVal` are read after `clear()`
    let r ← if k = staticVal then clear S.heap h else mutateToStatic S.heap h s
    return S.put k r
  | .alloc k cb => do
    let h ← S.get k
    let r ← alloc S.heap h cb
    return S.put k r

end Step

end StringHeap

end Libacorn
