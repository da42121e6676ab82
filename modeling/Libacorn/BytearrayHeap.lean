import Mathlib.Algebra.Order.Group.Multiset
import Mathlib.Algebra.BigOperators.Group.List.Basic
import Libacorn.Support.RefHeap
import Libacorn.Bytearray

/-!
# Many arrays in one memory: base/bytearray.h and base/bytearray.cpp

The members of an array are a pointer and a size; what is passed to it may be the memory of
another array, or its own. `State` has all arrays of a program, and the blocks that were detached
from them. Each call on an array does what it does to one that holds its bytes, and leaves the
blocks of the others.
-/

namespace Libacorn.Bytearray

open Support

/-! ## The memory -/

/-- The blocks that `malloc` returned; every block has one reference. -/
abbrev Memory := RefHeap Bytes

/-- `_p` and `_cb` -/
structure Obj where
  p : Option Nat
  cb : Nat

def Obj.null : Obj := ⟨none, 0⟩

/-- The block behind a pointer; a null pointer has no bytes. -/
def load (H : Memory) : Option Nat → Outcome Bytes
  | none => .done []
  | some i =>
    match H.get? i with
    | some block => .done block
    | none => .fault

def store (H : Memory) (p : Option Nat) (block : Bytes) : Memory :=
  match p with
  | none => H
  | some i => H.modify i block

/-- `free(p)` -/
def free (H : Memory) : Option Nat → Outcome Memory
  | none => .done H
  | some i =>
    match H.release i with
    | some H => .done H
    | none => .fault

section Source

variable [Uninit]

/-- `malloc(size)` -/
def malloc (H : Memory) (size : Nat) : Memory × Option Nat :=
  (H.alloc (Uninit.block size), some H.next)

/-- `realloc(p, size)`; the old pointer is not valid any more. -/
def reallocAt (H : Memory) (p : Option Nat) (size : Nat) : Outcome (Memory × Option Nat) :=
  match p with
  | none => .done (malloc H size)
  | some i =>
    match H.move i fun block => realloc block size with
    | some H' => .done (H', some H.next)
    | none => .fault

/-! ## bytearray.cpp -/

/-- The pointer and the size that are passed: memory of the caller, or the members of an array. -/
inductive Passed where
  | bytes (b : Bytes)
  | members (a : Obj)

def Passed.cb : Passed → Nat
  | .bytes b => b.length
  | .members a => a.cb

def Passed.isNull : Passed → Bool
  | .bytes _ => false
  | .members a => a.p.isNone

/-- The bytes that are read. -/
def Passed.read (H : Memory) : Passed → Outcome Bytes
  | .bytes b => .done b
  | .members a =>
    if a.cb = 0 then .done []
    else
      (load H a.p).bind fun block =>
        if a.cb ≤ block.length then .done (block.take a.cb) else .fault

/-- `memcpy(p + dst, src, cb)` -/
def memcpyAt (H : Memory) (p : Option Nat) (dst : Nat) (src : Passed) : Outcome Memory :=
  (src.read H).bind fun bytes =>
  (load H p).bind fun block =>
  (memcpy block dst bytes).bind fun block => .done (store H p block)

/-- `assign(p, cb)` -/
def Obj.assign (H : Memory) (a : Obj) (src : Passed) : Outcome (Memory × Obj) :=
  (free H a.p).bind fun H =>
  if src.isNull then .done (H, .null)
  else
    let r := malloc H src.cb
    (memcpyAt r.1 r.2 0 src).bind fun H => .done (H, ⟨r.2, src.cb⟩)

/-- `append(p, cb)` -/
def Obj.append (H : Memory) (a : Obj) (src : Passed) : Outcome (Memory × Obj) :=
  if src.cb = 0 then .done (H, a)
  else
    let newCb := a.cb + src.cb
    if newCb + 1 < 2 ^ 31 then
      (reallocAt H a.p (newCb + 1)).bind fun r =>
      (memcpyAt r.1 r.2 a.cb src).bind fun H => .done (H, ⟨r.2, newCb⟩)
    else .fault

/-- `insert(offset, p, cb)`; behind the end a negative number of bytes is moved. -/
def Obj.insert (H : Memory) (a : Obj) (offset : Nat) (src : Passed) : Outcome (Memory × Obj) :=
  if src.cb = 0 then .done (H, a)
  else
    let newCb := a.cb + src.cb
    if newCb < 2 ^ 31 ∧ offset ≤ a.cb then
      (reallocAt H a.p newCb).bind fun r =>
      (load r.1 r.2).bind fun block =>
      (memmove block (offset + src.cb) offset (a.cb - offset)).bind fun block =>
      (memcpyAt (store r.1 r.2 block) r.2 offset src).bind fun H => .done (H, ⟨r.2, newCb⟩)
    else .fault

/-- `erase(offset, cb)`; with more bytes than there are a negative number is moved. -/
def Obj.erase (H : Memory) (a : Obj) (offset cb : Nat) : Outcome (Memory × Obj) :=
  if cb ≤ a.cb then
    (load H a.p).bind fun block =>
    (memmove block offset 0 (a.cb - cb)).bind fun block =>
    (reallocAt (store H a.p block) a.p (a.cb - cb)).bind fun r => .done (r.1, ⟨r.2, a.cb - cb⟩)
  else .fault

/-- `resize(newSize)` -/
def Obj.resize (H : Memory) (a : Obj) (newSize : Nat) : Outcome (Memory × Obj) :=
  (reallocAt H a.p newSize).bind fun r => .done (r.1, ⟨r.2, newSize⟩)

/-- `clear()` -/
def Obj.clear (H : Memory) (a : Obj) : Outcome (Memory × Obj) :=
  match a.p with
  | none => .done (H, a)
  | some i => (free H (some i)).bind fun H => .done (H, .null)

/-! ## Programs -/

/-- What a program has under an index: an array, a block that was detached from one, or nothing any
more. -/
inductive Slot (α : Type) where
  | gone
  | array (a : α)
  | held (a : α)

/-- What is passed: bytes of the caller, or `data()` and `size()` of an array. -/
inductive Arg where
  | bytes (b : Bytes)
  | array (l : Nat)

inductive Call where
  | empty
  | sized (cb : Nat)
  | ofBytes (b : Bytes)
  | copy (k : Nat)
  | move (k : Nat)
  | plus (k l : Nat)
  | assign (k : Nat) (src : Arg)
  | append (k : Nat) (src : Arg)
  | insert (k offset : Nat) (src : Arg)
  | erase (k offset cb : Nat)
  | resize (k newSize : Nat)
  | clear (k : Nat)
  | detach (k : Nat)
  | assignNoCopy (k j : Nat)
  | free (j : Nat)
  | destroy (k : Nat)

structure State where
  mem : Memory
  slots : List (Slot Obj)

/-- A size is passed as an `int32_t`. -/
def size (n : Nat) : Outcome Nat := if n < 2 ^ 31 then .done n else .fault

/-- The array under an index. -/
def array {α : Type} (slots : List (Slot α)) (k : Nat) : Outcome α :=
  match slots[k]? with
  | some (.array a) => .done a
  | _ => .fault

/-- The detached block under an index. -/
def held {α : Type} (slots : List (Slot α)) (j : Nat) : Outcome α :=
  match slots[j]? with
  | some (.held a) => .done a
  | _ => .fault

namespace State

def init : State := ⟨RefHeap.empty, []⟩

def push (S : State) (r : Memory × Obj) : State := ⟨r.1, S.slots ++ [.array r.2]⟩

def put (S : State) (k : Nat) (r : Memory × Obj) : State := ⟨r.1, S.slots.set k (.array r.2)⟩

def passed (S : State) : Arg → Outcome Passed
  | .bytes b => (size b.length).bind fun _ => .done (.bytes b)
  | .array l => (array S.slots l).bind fun a => .done (.members a)

/-- A call on the array under an index. -/
def on (S : State) (k : Nat) (f : Obj → Outcome (Memory × Obj)) : Outcome State :=
  (array S.slots k).bind fun a => (f a).bind fun r => .done (S.put k r)

def step (S : State) : Call → Outcome State
  | .empty => .done (S.push (S.mem, .null))
  | .sized cb => (size cb).bind fun cb =>
    .done (S.push ((malloc S.mem cb).1, ⟨(malloc S.mem cb).2, cb⟩))
  | .ofBytes b => (S.passed (.bytes b)).bind fun src =>
    (Obj.null.assign S.mem src).bind fun r => .done (S.push r)
  | .copy k => (array S.slots k).bind fun a =>
    (Obj.null.assign S.mem (.members a)).bind fun r => .done (S.push r)
  | .move k => (array S.slots k).bind fun a => .done ((S.put k (S.mem, .null)).push (S.mem, a))
  | .plus k l =>
    (array S.slots k).bind fun a => (array S.slots l).bind fun b =>
    (Obj.null.assign S.mem (.members a)).bind fun r =>
    (r.2.append r.1 (.members b)).bind fun r => .done (S.push r)
  | .assign k src => S.on k fun a => (S.passed src).bind fun src => a.assign S.mem src
  | .append k src => S.on k fun a => (S.passed src).bind fun src => a.append S.mem src
  | .insert k offset src => S.on k fun a => (S.passed src).bind fun src => a.insert S.mem offset src
  | .erase k offset cb => S.on k fun a => a.erase S.mem offset cb
  | .resize k newSize => S.on k fun a => (size newSize).bind fun newSize => a.resize S.mem newSize
  | .clear k => S.on k fun a => a.clear S.mem
  | .detach k =>
    (array S.slots k).bind fun a => .done ⟨S.mem, S.slots.set k (.array .null) ++ [.held a]⟩
  | .assignNoCopy k j =>
    (array S.slots k).bind fun a => (held S.slots j).bind fun b =>
    (Bytearray.free S.mem a.p).bind fun H => .done ⟨H, (S.slots.set j .gone).set k (.array b)⟩
  | .free j =>
    (held S.slots j).bind fun b =>
    (Bytearray.free S.mem b.p).bind fun H => .done ⟨H, S.slots.set j .gone⟩
  | .destroy k =>
    (array S.slots k).bind fun a =>
    (Bytearray.free S.mem a.p).bind fun H => .done ⟨H, S.slots.set k .gone⟩

def run (S : State) : List Call → Outcome State
  | [] => .done S
  | c :: calls => (S.step c).bind fun S => S.run calls

end State

/-! ## Arrays that hold their bytes -/

/-- What is passed is the array itself, or a copy of its bytes. -/
def source (vs : List (Slot Bytearray)) (k : Nat) : Arg → Outcome Source
  | .bytes b => (size b.length).bind fun _ => .done (.other b)
  | .array l => (array vs l).bind fun a => .done (if k = l then .self else .other a.content)

/-- Bytes of its own are gone when `assign` copies them. -/
def reassign (src : Source) (a : Bytearray) : Outcome Bytearray :=
  match src with
  | .other bytes => a.assign bytes
  | .self => if a.cb = 0 then .done empty else .fault

def onValue (vs : List (Slot Bytearray)) (k : Nat) (f : Bytearray → Outcome Bytearray) :
    Outcome (List (Slot Bytearray)) :=
  (array vs k).bind fun a => (f a).bind fun a => .done (vs.set k (.array a))

def stepValues (vs : List (Slot Bytearray)) : Call → Outcome (List (Slot Bytearray))
  | .empty => .done (vs ++ [.array empty])
  | .sized cb => (size cb).bind fun cb => .done (vs ++ [.array ⟨Uninit.block cb, cb⟩])
  | .ofBytes b => (size b.length).bind fun _ =>
    (empty.assign b).bind fun a => .done (vs ++ [.array a])
  | .copy k =>
    (array vs k).bind fun a => (empty.assign a.content).bind fun a => .done (vs ++ [.array a])
  | .move k => (array vs k).bind fun a => .done (vs.set k (.array empty) ++ [.array a])
  | .plus k l =>
    (array vs k).bind fun a => (array vs l).bind fun b =>
    (empty.assign a.content).bind fun r =>
    (Bytearray.append (.other b.content) r).bind fun r => .done (vs ++ [.array r])
  | .assign k src => onValue vs k fun a => (source vs k src).bind fun src => reassign src a
  | .append k src => onValue vs k fun a => (source vs k src).bind fun src => append src a
  | .insert k offset src => onValue vs k fun a => (source vs k src).bind fun src =>
    if (src.bytes a).length = 0 then .done a
    else if offset ≤ a.cb then insert offset src a else .fault
  | .erase k offset cb => onValue vs k fun a => if cb ≤ a.cb then a.erase offset cb else .fault
  | .resize k newSize => onValue vs k fun a =>
    (size newSize).bind fun newSize => .done ⟨realloc a.block newSize, newSize⟩
  | .clear k => onValue vs k Bytearray.clear
  | .detach k => (array vs k).bind fun a => .done (vs.set k (.array empty) ++ [.held a])
  | .assignNoCopy k j =>
    (array vs k).bind fun _ => (held vs j).bind fun b => .done ((vs.set j .gone).set k (.array b))
  | .free j => (held vs j).bind fun _ => .done (vs.set j .gone)
  | .destroy k => (array vs k).bind fun _ => .done (vs.set k .gone)

def runValues (vs : List (Slot Bytearray)) : List Call → Outcome (List (Slot Bytearray))
  | [] => .done vs
  | c :: calls => (stepValues vs c).bind fun vs => runValues vs calls

end Source

/-! ## Owners -/

/-- The references of a pointer. -/
def own : Option Nat → Multiset Nat
  | none => 0
  | some i => {i}

def Slot.owned : Slot Obj → Multiset Nat
  | .gone => 0
  | .array a => own a.p
  | .held a => own a.p

/-- The references of all arrays and detached blocks. -/
def owners (slots : List (Slot Obj)) : Multiset Nat := (slots.map Slot.owned).sum

/-- The live blocks are those of `M`, and each has one owner. -/
structure Sound (H : Memory) (M : Multiset Nat) : Prop where
  owned : H.Owned M
  nodup : M.Nodup

/-- The block behind a pointer that is not dangling. -/
def blockAt (H : Memory) (p : Option Nat) : Bytes := (p.bind H.get?).getD []

/-- The array that the members stand for. -/
def view (H : Memory) (a : Obj) : Bytearray := ⟨blockAt H a.p, a.cb⟩

def Slot.map {α β : Type} (f : α → β) : Slot α → Slot β
  | .gone => .gone
  | .array a => .array (f a)
  | .held a => .held (f a)

/-- The blocks of `M` are as before. -/
def Same (H H' : Memory) (M : Multiset Nat) : Prop := ∀ i ∈ M, H'.get? i = H.get? i

section Memory

variable {H H' : Memory} {M : Multiset Nat} {p : Option Nat} {block bytes : Bytes}

theorem Same.trans {H'' : Memory} (h : Same H H' M) (h' : Same H' H'' M) : Same H H'' M :=
  fun i hi => (h' i hi).trans (h i hi)

theorem Same.blockAt (h : Same H H' M) (hp : own p ≤ M) : blockAt H' p = blockAt H p := by
  cases p with
  | none => rfl
  | some i =>
    show (H'.get? i).getD [] = (H.get? i).getD []
    rw [h i (Multiset.singleton_le.mp hp)]

theorem Sound.load (h : Sound H M) (hp : own p ≤ M) : load H p = .done (blockAt H p) := by
  cases p with
  | none => rfl
  | some i =>
    obtain ⟨c, hc, -⟩ := h.owned.exists_cell (Multiset.singleton_le.mp hp)
    have hget : H.get? i = some c.data := by
      rw [RefHeap.get?, hc]
      rfl
    simp only [Bytearray.load, Bytearray.blockAt, Option.bind_some, hget, Option.getD_some]

theorem Sound.free (h : Sound H (own p + M)) :
    ∃ H', free H p = .done H' ∧ Sound H' M ∧ Same H H' M ∧ H'.next = H.next := by
  cases p with
  | none => exact ⟨H, rfl, (zero_add M) ▸ h, fun _ _ => rfl, rfl⟩
  | some i =>
    have hi : i ∉ M := (Multiset.nodup_cons.mp h.nodup).1
    obtain ⟨H', hr, ho, hsame⟩ := RefHeap.Owned.release (i := i) (M := M) h.owned
      (by rw [Multiset.count_eq_zero_of_notMem hi]; decide)
    refine ⟨H', ?_, ⟨ho, (Multiset.nodup_cons.mp h.nodup).2⟩, hsame, RefHeap.release_next hr⟩
    rw [Bytearray.free, hr]

/-- Behind a pointer that was freed nothing can be read. -/
theorem Sound.load_dangling {i : Nat} (h : Sound H M) (hi : i ∉ M) :
    Bytearray.load H (some i) = .fault := by
  cases hget : H.get? i with
  | none => rw [Bytearray.load, hget]
  | some block => exact (hi (h.owned.mem_of_get? hget)).elim

theorem Sound.store (h : Sound H (own p + M)) (hp : p = none → block = []) :
    Sound (store H p block) (own p + M) ∧ Bytearray.blockAt (store H p block) p = block ∧
      Same H (store H p block) M := by
  cases p with
  | none =>
    rw [hp rfl]
    exact ⟨h, rfl, fun _ _ => rfl⟩
  | some i =>
    have hi : i ∉ M := (Multiset.nodup_cons.mp h.nodup).1
    obtain ⟨c, hc, -⟩ := h.owned.exists_cell (Multiset.mem_cons_self i M)
    have hget : H.get? i = some c.data := by
      rw [RefHeap.get?, hc]
      rfl
    refine ⟨⟨h.owned.modify block (Multiset.mem_cons_self i M), h.nodup⟩, ?_, ?_⟩
    · show ((H.modify i block).get? i).getD [] = block
      rw [RefHeap.modify_get?_self H block hget]
      rfl
    · intro j hj
      apply RefHeap.modify_get?_of_ne
      rintro rfl
      exact hi hj

variable [Uninit]

theorem Sound.malloc (h : Sound H M) (size : Nat) :
    Sound (malloc H size).1 (own (malloc H size).2 + M) ∧
      Bytearray.blockAt (malloc H size).1 (malloc H size).2 = Uninit.block size ∧
        Same H (malloc H size).1 M := by
  refine ⟨⟨h.owned.alloc _, Multiset.nodup_cons.mpr ⟨h.owned.next_notMem, h.nodup⟩⟩, ?_, ?_⟩
  · show ((H.alloc (Uninit.block size)).get? H.next).getD [] = Uninit.block size
    rw [RefHeap.alloc_get?_next]
    rfl
  · intro i hi
    exact RefHeap.alloc_get?_of_ne H _ (h.owned.ne_next hi)

/-- The new block starts with the bytes of the old one, which is gone. -/
theorem Sound.reallocAt (h : Sound H (own p + M)) (size : Nat) :
    ∃ H' q, reallocAt H p size = .done (H', q) ∧ Sound H' (own q + M) ∧ q.isSome = true ∧
      Bytearray.blockAt H' q = realloc (Bytearray.blockAt H p) size ∧ Same H H' M ∧
      ∀ i, p = some i → Bytearray.load H' (some i) = .fault := by
  cases p with
  | none =>
    obtain ⟨hs, hb, hsame⟩ := Sound.malloc ((zero_add M) ▸ h) size
    have hnull : Uninit.block size = realloc [] size := by
      rw [realloc, List.take_nil, List.nil_append]
      rfl
    refine ⟨_, _, rfl, hs, rfl, hb.trans hnull, hsame, ?_⟩
    intro i hi
    cases hi
  | some i =>
    have hi : i ∉ M := (Multiset.nodup_cons.mp h.nodup).1
    obtain ⟨H', b, hget, hmove, ho, hnew, hsame⟩ := RefHeap.Owned.move (i := i) (M := M) h.owned hi
      fun block => realloc block size
    have hnext : H.next ∉ i ::ₘ M := h.owned.next_notMem
    have hs : Sound H' (own (some H.next) + M) :=
      ⟨ho, Multiset.nodup_cons.mpr
        ⟨fun hm => hnext (Multiset.mem_cons_of_mem hm), (Multiset.nodup_cons.mp h.nodup).2⟩⟩
    refine ⟨H', some H.next, by rw [Bytearray.reallocAt, hmove], hs, rfl, ?_, hsame, ?_⟩
    · show (H'.get? H.next).getD [] = realloc ((H.get? i).getD []) size
      rw [hnew, hget]
      rfl
    · rintro _ ⟨⟩
      apply hs.load_dangling
      intro hm
      rcases Multiset.mem_cons.mp hm with rfl | hm
      · exact hnext (Multiset.mem_cons_self _ M)
      · exact hi hm

end Memory

/-- A size that fits, or none. -/
theorem size_cases (n : Nat) : size n = .done n ∧ n < 2 ^ 31 ∨ size n = .fault ∧ ¬n < 2 ^ 31 := by
  by_cases h : n < 2 ^ 31
  · exact Or.inl ⟨if_pos h, h⟩
  · exact Or.inr ⟨if_neg h, h⟩

/-! ## One array -/

/-- The size is not larger than the block. -/
def Fits (H : Memory) (a : Obj) : Prop := a.cb ≤ (blockAt H a.p).length

/-- A call that changes an array, or makes one, does what it does to an array that holds its bytes,
and leaves the blocks of `M`. -/
inductive Becomes (H : Memory) (M : Multiset Nat) : Outcome (Memory × Obj) → Outcome Bytearray →
  Prop
  | fault : Becomes H M .fault .fault
  | done {H' : Memory} {a : Obj} {v : Bytearray} (sound : Sound H' (own a.p + M))
    (same : Same H H' M)
      (fits : Fits H' a) (hv : view H' a = v) : Becomes H M (.done (H', a)) (.done v)

/-- What is passed to the array `a`. -/
inductive Given (H : Memory) (M : Multiset Nat) (a : Obj) : Passed → Source → Prop
  | bytes (b : Bytes) : Given H M a (.bytes b) (.other b)
  | other {b : Obj} (hb : own b.p ≤ M) (fits : Fits H b) :
    Given H M a (.members b) (.other (view H b).content)
  | self : Given H M a (.members a) .self

section Calls

variable {H H' : Memory} {M : Multiset Nat} {a b : Obj} {p : Option Nat} {src : Passed} {v : Source}
  {bytes : Bytes}
  {dst n : Nat}

theorem Becomes.weaken {r : Outcome (Memory × Obj)} {w : Outcome Bytearray} (h : Becomes H' M r w)
    (hsame : Same H H' M) : Becomes H M r w := by
  cases h with
  | fault => exact .fault
  | done sound same fits hv => exact .done sound (hsame.trans same) fits hv

theorem Fits.length_content (h : Fits H a) : (view H a).content.length = a.cb := by
  rw [content, List.length_take]
  exact Nat.min_eq_left h

theorem Given.cb_eq (h : Given H M a src v) (hf : Fits H a) :
    src.cb = (v.bytes (view H a)).length := by
  cases h with
  | bytes b => rfl
  | other hb fits => exact fits.length_content.symm
  | self => exact hf.length_content.symm

/-- The bytes of another array can be read as long as its block is left. -/
theorem read_members (hs : Sound H' (own p + M)) (hsame : Same H H' M) (hb : own b.p ≤ M)
    (hf : Fits H b) :
    (Passed.members b).read H' = .done (view H b).content := by
  have hle : own b.p ≤ own p + M := hb.trans (Multiset.le_add_left M (own p))
  rw [Passed.read, hs.load hle, hsame.blockAt hb]
  by_cases h0 : b.cb = 0
  · rw [if_pos h0, content, view, h0]
    rfl
  · rw [if_neg h0, Outcome.bind_done, if_pos (show b.cb ≤ (blockAt H b.p).length from hf)]
    rfl

/-- Its own bytes cannot, when its block is gone. -/
theorem read_dangling (hf : Fits H a) (h0 : a.cb ≠ 0)
    (hgone : ∀ i, a.p = some i → load H' (some i) = .fault) :
    (Passed.members a).read H' = .fault := by
  rw [Passed.read, if_neg h0]
  cases hp : a.p with
  | none =>
    rw [Fits, hp] at hf
    exact (h0 (Nat.le_zero.mp hf)).elim
  | some i =>
    rw [hgone i hp]
    rfl

/-- The last step of the calls that copy bytes into the block. -/
theorem becomes_memcpyAt (dst : Nat) (hs : Sound H (own p + M)) (hp : p.isSome = true)
    (hr : src.read H = .done bytes) (hn : n ≤ (blockAt H p).length) :
    Becomes H M ((memcpyAt H p dst src).bind fun H => .done (H, ⟨p, n⟩))
      ((memcpy (blockAt H p) dst bytes).bind fun block => .done ⟨block, n⟩) := by
  rw [memcpyAt, hr, Outcome.bind_done, hs.load (Multiset.le_add_right _ _), Outcome.bind_done,
    memcpy]
  split
  next hroom =>
    have hnull : p = none → overwrite (blockAt H p) dst bytes = [] := by
      rintro rfl
      cases hp
    obtain ⟨hs', hb, hsame⟩ := hs.store hnull
    apply Becomes.done hs' hsame
    · rw [Fits, hb, length_overwrite hroom]
      exact hn
    · rw [view, hb]
  next => exact .fault

theorem becomes_read_fault {H₀ : Memory} (hr : src.read H = .fault) :
    Becomes H₀ M ((memcpyAt H p dst src).bind fun H => .done (H, ⟨p, n⟩)) .fault := by
  rw [memcpyAt, hr]
  exact .fault

theorem Sound.null (hs : Sound H M) : Sound H (own Obj.null.p + M) := (zero_add M).symm ▸ hs

theorem becomes_null (hs : Sound H M) : Becomes H M (.done (H, .null)) (.done empty) :=
  .done hs.null (fun _ _ => rfl) (Nat.le_refl 0) rfl

theorem becomes_clear (hs : Sound H (own a.p + M)) (hf : Fits H a) :
    Becomes H M (a.clear H) (clear (view H a)) := by
  rw [Obj.clear, clear]
  cases hp : a.p with
  | none =>
    rw [Fits, hp] at hf
    have hcb : a.cb = 0 := Nat.le_zero.mp hf
    obtain ⟨p, cb⟩ := a
    obtain rfl : p = none := hp
    obtain rfl : cb = 0 := hcb
    exact .done hs (fun _ _ => rfl) (Nat.le_refl 0) rfl
  | some i =>
    rw [hp] at hs
    obtain ⟨H', hrun, hs', hsame, -⟩ := hs.free
    simp only [hrun, Outcome.bind_done]
    exact (becomes_null hs').weaken hsame

variable [Uninit]

theorem becomes_append (hs : Sound H (own a.p + M)) (hf : Fits H a) (hg : Given H M a src v) :
    Becomes H M (a.append H src) (append v (view H a)) := by
  have hcb := hg.cb_eq hf
  rw [Obj.append, append, ← hcb]
  dsimp only
  by_cases h0 : src.cb = 0
  · rw [if_pos h0, if_pos h0]
    exact .done hs (fun _ _ => rfl) hf rfl
  · rw [if_neg h0, if_neg h0, view]
    split
    next hlt =>
      obtain ⟨H', q, hrun, hs', hq, hblock, hsame, hgone⟩ := hs.reallocAt (a.cb + src.cb + 1)
      rw [hrun, Outcome.bind_done]
      apply Becomes.weaken _ hsame
      have hlen : a.cb + src.cb ≤ (blockAt H' q).length := by
        rw [hblock, length_realloc]
        exact Nat.le_succ _
      cases hg with
      | bytes b =>
        have hcopy := becomes_memcpyAt a.cb hs' hq
            (show (Passed.bytes b).read H' = .done b from rfl) hlen
        rwa [hblock] at hcopy
      | @other b hb hfb =>
        have hcopy := becomes_memcpyAt a.cb hs' hq (read_members hs' hsame hb hfb) hlen
        rwa [hblock] at hcopy
      | self => exact becomes_read_fault (read_dangling hf h0 hgone)
    next => exact .fault

theorem becomes_insert {offset : Nat} (hs : Sound H (own a.p + M)) (hf : Fits H a)
    (hg : Given H M a src v) :
    Becomes H M (a.insert H offset src) (if (v.bytes (view H a)).length = 0 then .done (view H a)
      else if offset ≤ (view H a).cb then insert offset v (view H a) else .fault) := by
  have hcb := hg.cb_eq hf
  rw [Obj.insert, insert, ← hcb]
  dsimp only
  by_cases h0 : src.cb = 0
  · rw [if_pos h0, if_pos h0]
    exact .done hs (fun _ _ => rfl) hf rfl
  · rw [if_neg h0, if_neg h0, if_neg h0, view]
    by_cases hoff : offset ≤ a.cb
    · rw [if_pos hoff]
      by_cases hlt : a.cb + src.cb < 2 ^ 31
      · rw [if_pos ⟨hlt, hoff⟩, if_pos hlt]
        obtain ⟨H', q, hrun, hs', hq, hblock, hsame, hgone⟩ := hs.reallocAt (a.cb + src.cb)
        have hlen : a.cb + src.cb ≤ (blockAt H' q).length := by
          rw [hblock, length_realloc]
        rw [hrun, Outcome.bind_done, hs'.load (Multiset.le_add_right _ _), Outcome.bind_done,
          hblock, memmove]
        rw [hblock] at hlen
        split
        next hroom =>
          -- the tail is moved before the bytes are copied
          generalize hmoved : overwrite (realloc (blockAt H a.p) (a.cb + src.cb)) (offset + src.cb)
            _ = moved
          have hmlen : a.cb + src.cb ≤ moved.length := by
            rw [← hmoved, length_overwrite]
            · exact hlen
            · rw [List.length_take]
              omega
          have hnull : q = none → moved = [] := by
            rintro rfl
            cases hq
          obtain ⟨hs'', hb, hsame'⟩ := hs'.store hnull
          rw [Outcome.bind_done, Outcome.bind_done]
          apply Becomes.weaken _ (hsame.trans hsame')
          rw [← hb] at hmlen
          cases hg with
          | bytes b =>
            have hcopy := becomes_memcpyAt offset hs'' hq
                (show (Passed.bytes b).read _ = .done b from rfl) hmlen
            rwa [hb] at hcopy
          | @other b hb' hfb =>
            have hcopy := becomes_memcpyAt offset hs'' hq
              (read_members hs'' (hsame.trans hsame') hb' hfb) hmlen
            rwa [hb] at hcopy
          | self =>
            apply becomes_read_fault (read_dangling hf h0 _)
            intro i hi
            obtain ⟨j, rfl⟩ := Option.isSome_iff_exists.mp hq
            apply hs''.load_dangling
            intro hm
            have hgi := hgone i hi
            rw [hs'.load (p := some i) (Multiset.singleton_le.mpr hm)] at hgi
            cases hgi
        next => exact .fault
      · rw [if_neg fun h => hlt h.1, if_neg hlt]
        exact .fault
    · rw [if_neg fun h => hoff h.2, if_neg hoff]
      exact .fault

theorem becomes_erase {offset cb : Nat} (hs : Sound H (own a.p + M)) :
    Becomes H M (a.erase H offset cb) (if cb ≤ (view H a).cb then erase offset cb (view H a) else
      .fault) := by
  rw [Obj.erase, erase, view]
  split
  next =>
    rw [hs.load (Multiset.le_add_right _ _), Outcome.bind_done, memmove]
    split
    next hroom =>
      have hnull : a.p = none →
          overwrite (blockAt H a.p) offset (((blockAt H a.p).drop 0).take (a.cb - cb)) = [] := by
        intro hp
        apply List.eq_nil_of_length_eq_zero
        rw [length_overwrite (by rw [List.length_take]; omega), hp]
        rfl
      obtain ⟨hs', hb, hsame⟩ := hs.store hnull
      obtain ⟨H', q, hrun, hs'', -, hblock, hsame', -⟩ := hs'.reallocAt (a.cb - cb)
      rw [Outcome.bind_done, Outcome.bind_done, hrun, Outcome.bind_done]
      apply Becomes.done hs'' (hsame.trans hsame')
      · rw [Fits, hblock, length_realloc]
      · rw [view, hblock, hb]
    next => exact .fault
  next => exact .fault

theorem becomes_resize (hs : Sound H (own a.p + M)) (newSize : Nat) :
    Becomes H M ((size newSize).bind fun n => a.resize H n)
      ((size newSize).bind fun n => .done ⟨realloc (view H a).block n, n⟩) := by
  rcases size_cases newSize with ⟨hn, -⟩ | ⟨hn, -⟩
  on_goal 2 =>
    rw [hn]
    exact .fault
  rw [hn, Outcome.bind_done, Outcome.bind_done]
  obtain ⟨H', q, hrun, hs', -, hblock, hsame, -⟩ := hs.reallocAt newSize
  rw [Obj.resize, hrun, Outcome.bind_done]
  apply Becomes.done hs' hsame
  · rw [Fits, hblock, length_realloc]
  · rw [view, hblock]
    rfl

omit [Uninit] in
/-- Bytes that fill the block. -/
theorem overwrite_all {mem : Bytes} (h : bytes.length = mem.length) :
    overwrite mem 0 bytes = bytes := by
  rw [overwrite, List.take_zero, List.nil_append, Nat.zero_add, h, List.drop_length,
    List.append_nil]

/-- A new block for bytes that can be read. -/
theorem becomes_copy (hs : Sound H M) (hr : src.read (malloc H src.cb).1 = .done bytes)
    (hcb : src.cb = bytes.length) :
    Becomes H M ((memcpyAt (malloc H src.cb).1 (malloc H src.cb).2 0 src).bind fun H' =>
      .done (H', ⟨(malloc H src.cb).2, src.cb⟩)) (.done ⟨bytes, bytes.length⟩) := by
  obtain ⟨hs', hblock, hsame⟩ := hs.malloc src.cb
  have hlen : (blockAt (malloc H src.cb).1 (malloc H src.cb).2).length = src.cb := by
    rw [hblock, Uninit.length_block]
  have hcopy := becomes_memcpyAt 0 hs' rfl hr hlen.ge
  rw [memcpy, if_pos (by omega), Outcome.bind_done, overwrite_all (by omega), hcb] at hcopy
  rw [hcb] at hsame ⊢
  exact hcopy.weaken hsame

theorem becomes_assign (hs : Sound H (own a.p + M)) (hf : Fits H a) (hg : Given H M a src v) :
    Becomes H M (a.assign H src) (reassign v (view H a)) := by
  obtain ⟨H', hrun, hs', hsame, hnext⟩ := hs.free
  rw [Obj.assign, hrun, Outcome.bind_done]
  apply Becomes.weaken _ hsame
  cases hg with
  | bytes b => exact becomes_copy hs' (show (Passed.bytes b).read _ = .done b from rfl) rfl
  | @other b hb hfb =>
    rw [reassign, assign]
    split
    next hnull =>
      have hp : b.p = none := Option.isNone_iff_eq_none.mp hnull
      have hempty : (view H b).content = [] := by
        apply List.eq_nil_of_length_eq_zero
        rw [Fits, hp] at hfb
        rw [Fits.length_content (by rw [Fits, hp]; exact hfb)]
        exact Nat.le_zero.mp hfb
      rw [hempty]
      exact becomes_null hs'
    next =>
      have hread := read_members (hs'.malloc b.cb).1 (hsame.trans (hs'.malloc b.cb).2.2) hb hfb
      exact becomes_copy hs' hread hfb.length_content.symm
  | self =>
    rw [reassign]
    split
    next hnull =>
      have hp : a.p = none := Option.isNone_iff_eq_none.mp hnull
      have h0 : (view H a).cb = 0 := by
        rw [Fits, hp] at hf
        exact Nat.le_zero.mp hf
      rw [if_pos h0]
      exact becomes_null hs'
    next =>
      by_cases h0 : a.cb = 0
      · rw [if_pos (show (view H a).cb = 0 from h0)]
        have hread : (Passed.members a).read (malloc H' (Passed.members a).cb).1 = .done [] := by
          rw [Passed.read, if_pos h0]
        exact becomes_copy hs' hread h0
      · rw [if_neg (show ¬(view H a).cb = 0 from h0)]
        apply becomes_read_fault (read_dangling hf h0 _)
        intro i hi
        rw [hi] at hs
        apply (hs'.malloc a.cb).1.load_dangling
        intro hm
        rcases Multiset.mem_cons.mp hm with hi' | hm
        · exact hs.owned.ne_next (Multiset.mem_cons_self i M) (hi'.trans hnext)
        · exact (Multiset.nodup_cons.mp hs.nodup).1 hm

end Calls

end Libacorn.Bytearray
