import Libacorn.Support.Scan
import Libacorn.Memory

/-!
# base/bytearray.cpp

A `bytearray` against the list of its bytes. `erase` moves the bytes from the
start of the block, not those behind the range, so that it removes the range
only where the two are the same (`refines_iff`).
-/

namespace Libacorn

open Support

/-- `class bytearray`: `_cb`, and the allocation behind `_p`. A null pointer is no bytes. -/
structure Bytearray where
  block : Bytes
  cb : Nat

namespace Bytearray

/-- `bytearray()` -/
def empty : Bytearray := ⟨[], 0⟩

/-- The `size()` bytes at `data()`. -/
def content (a : Bytearray) : Bytes := a.block.take a.cb

/-! ## The source -/

/-- `memmove(_p + dst, _p + src, n)`, inside the allocation. -/
def memmove (block : Bytes) (dst src n : Nat) : Outcome Bytes :=
  if src + n ≤ block.length ∧ dst + n ≤ block.length then
    .done (overwrite block dst ((block.drop src).take n))
  else .fault

/-- `memcpy(_p + dst, bytes, |bytes|)`, inside the allocation. -/
def memcpy (block : Bytes) (dst : Nat) (bytes : Bytes) : Outcome Bytes :=
  if dst + bytes.length ≤ block.length then .done (overwrite block dst bytes) else .fault

/-- The bytes that are passed: those of another array, or those of the receiver. -/
inductive Source where
  | other (bytes : Bytes)
  | self

def Source.bytes (a : Bytearray) : Source → Bytes
  | .other bytes => bytes
  | .self => a.content

/-- The bytes behind the pointer that was passed, when `_p` has been reallocated. -/
def Source.afterRealloc : Source → Outcome Bytes
  | .other bytes => .done bytes
  | .self => .fault

section Source
variable [Uninit]

/-- `realloc(_p, size)` -/
def realloc (block : Bytes) (size : Nat) : Bytes :=
  block.take size ++ Uninit.block (size - block.length)

/-- The sum `newCb+1` is an `int`. -/
def append (src : Source) (a : Bytearray) : Outcome Bytearray :=
  let cb := (src.bytes a).length
  if cb = 0 then .done a
  else
    let newCb := a.cb + cb
    if newCb + 1 < 2 ^ 31 then
      src.afterRealloc.bind fun bytes =>
      (memcpy (realloc a.block (newCb + 1)) a.cb bytes).bind fun block => .done ⟨block, newCb⟩
    else .fault

/-- The offset is not behind the end. -/
def insert (offset : Nat) (src : Source) (a : Bytearray) : Outcome Bytearray :=
  let cb := (src.bytes a).length
  if cb = 0 then .done a
  else
    let newCb := a.cb + cb
    if newCb < 2 ^ 31 then
      let cbToMove := a.cb - offset
      (memmove (realloc a.block newCb) (offset + cb) offset cbToMove).bind fun block =>
      src.afterRealloc.bind fun bytes =>
      (memcpy block offset bytes).bind fun block => .done ⟨block, newCb⟩
    else .fault

/-- There are at least `cb` bytes. -/
def erase (offset cb : Nat) (a : Bytearray) : Outcome Bytearray :=
  (memmove a.block offset 0 (a.cb - cb)).bind fun block =>
  .done ⟨realloc block (a.cb - cb), a.cb - cb⟩

/-- `assign(p, cb)`, with the bytes of another array. -/
def assign (bytes : Bytes) (_ : Bytearray) : Outcome Bytearray := .done ⟨bytes, bytes.length⟩

def clear (_ : Bytearray) : Outcome Bytearray := .done empty

end Source

/-! ## Runs -/

inductive Op where
  | append (src : Source)
  | insert (offset : Nat) (src : Source)
  | erase (offset cb : Nat)
  | assign (bytes : Bytes)
  | clear

def step [Uninit] (a : Bytearray) : Op → Outcome Bytearray
  | .append src => a.append src
  | .insert offset src => a.insert offset src
  | .erase offset cb => a.erase offset cb
  | .assign bytes => a.assign bytes
  | .clear => a.clear

def Source.list (w : Bytes) : Source → Bytes
  | .other bytes => bytes
  | .self => w

/-- The operation on the list of bytes. -/
def Op.onList (w : Bytes) : Op → Bytes
  | .append src => w ++ src.list w
  | .insert offset src => w.take offset ++ src.list w ++ w.drop offset
  | .erase offset cb => w.take offset ++ w.drop (offset + cb)
  | .assign bytes => bytes
  | .clear => []

/-- The range lies in the list. -/
def Op.InRange (w : Bytes) : Op → Prop
  | .insert offset _ => offset ≤ w.length
  | .erase offset cb => offset + cb ≤ w.length
  | _ => True

/-- The ranges of a run lie in the list, which stays below `2^31` bytes. -/
def AllInRange : Bytes → List Op → Prop
  | _, [] => True
  | w, op :: ops => op.InRange w ∧ (op.onList w).length < 2 ^ 31 ∧ AllInRange (op.onList w) ops

/-- Every step stays inside the allocation and does what it does to the list. -/
def Refines [Uninit] : Bytearray → List Op → Prop
  | _, [] => True
  | a, op :: ops => ∃ a', a.step op = .done a' ∧ a'.content = op.onList a.content ∧ Refines a' ops

/-- The receiver is not passed to itself, unless it is empty; an array that bytes are appended to
ends below `2^31 - 1`; the bytes that `erase` moves fit behind the offset, and those of them that
it keeps there are the ones behind the range. -/
def Meets (a : Bytearray) : Op → Prop
  | .append src =>
    (src.bytes a).length = 0 ∨ (a.cb + (src.bytes a).length + 1 < 2 ^ 31 ∧ src ≠ .self)
  | .insert _ src => (src.bytes a).length = 0 ∨ src ≠ .self
  | .erase offset cb => offset + (a.cb - cb) ≤ a.block.length ∧
      a.content.take (a.cb - cb - offset) = a.content.drop (offset + cb)
  | .assign _ => True
  | .clear => True

/-- Every step is made in such a state. -/
def AllMeet [Uninit] : Bytearray → List Op → Prop
  | _, [] => True
  | a, op :: ops => Meets a op ∧ ∀ a', a.step op = .done a' → AllMeet a' ops

/-! ## One step -/

/-- The allocation has room for the content. -/
structure WF (a : Bytearray) : Prop where
  le : a.cb ≤ a.block.length
  lt : a.cb < 2 ^ 31

section Steps

variable {a a' : Bytearray} {block bytes w : Bytes} {src : Source} {offset cb size k : Nat}
  {op : Op}

theorem WF.empty : WF empty := ⟨Nat.le_refl 0, by decide⟩

theorem WF.length_content (h : WF a) : a.content.length = a.cb := by
  rw [content, List.length_take, Nat.min_eq_left h.le]

theorem Source.list_content (src : Source) : src.list a.content = src.bytes a := by
  cases src with
  | other bytes => rfl
  | self => rfl

variable [Uninit]

theorem length_realloc : (realloc block size).length = size := by
  rw [realloc, List.length_append, List.length_take, Uninit.length_block]
  omega

theorem take_realloc (hk : k ≤ size) (hle : k ≤ block.length) :
    (realloc block size).take k = block.take k := by
  rw [realloc, List.take_append_of_le_length (by rw [List.length_take]; omega), List.take_take,
    Nat.min_eq_left hk]

theorem append_other (h : WF a) (hn : bytes.length ≠ 0) (hlt : a.cb + bytes.length + 1 < 2 ^ 31) :
    ∃ a', a.append (.other bytes) = .done a' ∧ WF a' ∧ a'.content = a.content ++ bytes := by
  have hle := h.le
  have hroom : a.cb + bytes.length ≤ (realloc a.block (a.cb + bytes.length + 1)).length := by
    rw [length_realloc]
    exact Nat.le_succ _
  refine ⟨⟨overwrite (realloc a.block (a.cb + bytes.length + 1)) a.cb bytes, a.cb + bytes.length⟩,
    ?_, ⟨?_, ?_⟩, ?_⟩
  · simp only [append, Source.bytes, Source.afterRealloc, memcpy, hn, hlt, hroom, ↓reduceIte,
      Outcome.bind_done]
  · exact hroom.trans_eq (length_overwrite hroom).symm
  · exact Nat.lt_of_succ_lt hlt
  · rw [content, take_overwrite hroom, take_realloc (by omega) hle, content]

theorem insert_other (h : WF a) (hn : bytes.length ≠ 0) (hoff : offset ≤ a.cb)
    (hlt : a.cb + bytes.length < 2 ^ 31) :
    ∃ a', a.insert offset (.other bytes) = .done a' ∧ WF a' ∧
      a'.content = a.content.take offset ++ bytes ++ a.content.drop offset := by
  have hle := h.le
  obtain ⟨mem, hmem⟩ : ∃ mem, mem = realloc a.block (a.cb + bytes.length) := ⟨_, rfl⟩
  have hlen : mem.length = a.cb + bytes.length := by
    rw [hmem, length_realloc]
  have htake : mem.take a.cb = a.content := by
    rw [hmem, take_realloc (Nat.le_add_right ..) hle, content]
  obtain ⟨tail, htail⟩ : ∃ tail, tail = (mem.drop offset).take (a.cb - offset) := ⟨_, rfl⟩
  have htaillen : tail.length = a.cb - offset := by
    rw [htail, List.length_take, List.length_drop]
    omega
  have htail' : tail = a.content.drop offset := by
    rw [htail, ← htake, List.drop_take]
  have hmoved : overwrite mem (offset + bytes.length) tail =
      mem.take (offset + bytes.length) ++ tail := by
    rw [overwrite, List.drop_eq_nil_of_le (by omega), List.append_nil]
  have htakelen : (mem.take (offset + bytes.length)).length = offset + bytes.length := by
    rw [List.length_take]
    omega
  have hcopied : overwrite (mem.take (offset + bytes.length) ++ tail) offset bytes =
      a.content.take offset ++ bytes ++ a.content.drop offset := by
    rw [overwrite, List.drop_left' htakelen, List.take_append_of_le_length (by omega),
      List.take_take, Nat.min_eq_left (Nat.le_add_right ..), ← htail', ← htake, List.take_take,
      Nat.min_eq_left hoff]
  have hsize : (a.content.take offset ++ bytes ++ a.content.drop offset).length =
      a.cb + bytes.length := by
    rw [List.length_append, List.length_append, List.length_take, List.length_drop,
      h.length_content]
    omega
  refine ⟨⟨a.content.take offset ++ bytes ++ a.content.drop offset, a.cb + bytes.length⟩, ?_,
    ⟨?_, hlt⟩, ?_⟩
  · have hmove : memmove mem (offset + bytes.length) offset (a.cb - offset) =
        .done (mem.take (offset + bytes.length) ++ tail) := by
      rw [memmove, if_pos (by omega), ← htail, hmoved]
    have hcopy : memcpy (mem.take (offset + bytes.length) ++ tail) offset bytes =
        .done (a.content.take offset ++ bytes ++ a.content.drop offset) := by
      rw [memcpy, if_pos (by rw [List.length_append]; omega), hcopied]
    simp only [insert, Source.bytes, Source.afterRealloc, hn, hlt, ↓reduceIte, ← hmem, hmove, hcopy,
      Outcome.bind_done]
  · exact hsize.ge
  · rw [content]
    exact List.take_of_length_le hsize.le

omit [Uninit] in
/-- The start of the block, copied behind its first bytes. -/
theorem take_overwrite_moved {n : Nat} (hoff : offset ≤ n) (hroom : offset + n ≤ block.length) :
    (overwrite block offset (block.take n)).take n = block.take offset ++
      block.take (n - offset) := by
  have hk : n - offset ≤ (block.take n).length := by
    rw [List.length_take]
    omega
  have hpart := take_overwrite_part (show offset ≤ block.length by omega) hk
  rwa [Nat.add_sub_cancel' hoff, List.take_take, Nat.min_eq_left (Nat.sub_le ..)] at hpart

/-- What `erase` keeps: the bytes before the offset, and from there the first ones again. -/
theorem erase_eq (h : WF a) (hin : offset + cb ≤ a.cb)
    (hroom : offset + (a.cb - cb) ≤ a.block.length) :
    ∃ a', a.erase offset cb = .done a' ∧ WF a' ∧
      a'.content = a.content.take offset ++ a.content.take (a.cb - cb - offset) := by
  have hle := h.le
  have hlt := h.lt
  have hfits : offset + (a.block.take (a.cb - cb)).length ≤ a.block.length := by
    rw [List.length_take]
    omega
  have hmove : memmove a.block offset 0 (a.cb - cb) =
      .done (overwrite a.block offset (a.block.take (a.cb - cb))) := by
    rw [memmove, if_pos (by omega), List.drop_zero]
  have hkept : a.cb - cb ≤ (overwrite a.block offset (a.block.take (a.cb - cb))).length := by
    rw [length_overwrite hfits]
    omega
  refine ⟨⟨realloc (overwrite a.block offset (a.block.take (a.cb - cb))) (a.cb - cb), a.cb - cb⟩,
    ?_, ⟨?_, ?_⟩, ?_⟩
  · rw [erase, hmove]
    rfl
  · exact length_realloc.ge
  · exact Nat.lt_of_le_of_lt (Nat.sub_le ..) hlt
  · calc
      (realloc (overwrite a.block offset (a.block.take (a.cb - cb))) (a.cb - cb)).take (a.cb - cb)
      _ = a.block.take offset ++ a.block.take (a.cb - cb - offset) := by
          rw [take_realloc (Nat.le_refl _) hkept, take_overwrite_moved (by omega) hroom]
      _ = a.content.take offset ++ a.content.take (a.cb - cb - offset) := by
          rw [content, List.take_take, List.take_take,
            Nat.min_eq_left (show offset ≤ a.cb by omega),
            Nat.min_eq_left (show a.cb - cb - offset ≤ a.cb by omega)]

theorem erase_outside (hout : ¬offset + (a.cb - cb) ≤ a.block.length) :
    a.erase offset cb = .fault := by
  rw [erase, memmove, if_neg fun h => hout h.2]
  rfl

theorem append_nothing (hn : (src.bytes a).length = 0) : a.append src = .done a := by
  rw [append, if_pos hn]

theorem insert_nothing (hn : (src.bytes a).length = 0) : a.insert offset src = .done a := by
  rw [insert, if_pos hn]

theorem append_self (hn : (Source.self.bytes a).length ≠ 0) : a.append .self = .fault := by
  simp only [append, hn, ↓reduceIte, Source.afterRealloc]
  split_ifs
  · rfl
  · rfl

theorem insert_self (hn : (Source.self.bytes a).length ≠ 0) : a.insert offset .self = .fault := by
  simp only [insert, hn, ↓reduceIte, Source.afterRealloc, memmove]
  split_ifs
  · rfl
  · rfl
  · rfl

/-- A step in such a state does what it does to the list. -/
theorem step_of_meets (h : WF a) (hin : op.InRange a.content)
    (hsize : (op.onList a.content).length < 2 ^ 31) (hm : Meets a op) :
    ∃ a', a.step op = .done a' ∧ WF a' ∧ a'.content = op.onList a.content := by
  have hlen := h.length_content
  cases op with
  | append src =>
    rw [Op.onList, src.list_content]
    by_cases hn : (src.bytes a).length = 0
    · exact ⟨a, append_nothing hn, h, by rw [List.length_eq_zero_iff.mp hn, List.append_nil]⟩
    · rcases hm with h0 | ⟨hlt, hself⟩
      · exact absurd h0 hn
      · cases src with
        | other bytes => exact append_other h hn hlt
        | self => exact absurd rfl hself
  | insert offset src =>
    rw [Op.onList, src.list_content] at hsize ⊢
    by_cases hn : (src.bytes a).length = 0
    · refine ⟨a, insert_nothing hn, h, ?_⟩
      rw [List.length_eq_zero_iff.mp hn, List.append_nil, List.take_append_drop]
    · rcases hm with h0 | hself
      · exact absurd h0 hn
      · cases src with
        | other bytes =>
          have hoff : offset ≤ a.content.length := hin
          simp only [Source.bytes, List.length_append, List.length_take, List.length_drop] at hsize
          exact insert_other h hn (by omega) (by omega)
        | self => exact absurd rfl hself
  | erase offset cb =>
    obtain ⟨hroom, hsame⟩ := hm
    have hin' : offset + cb ≤ a.content.length := hin
    obtain ⟨a', hok, hw, hcont⟩ := erase_eq h (by omega) hroom
    exact ⟨a', hok, hw, by rw [hcont, hsame, Op.onList]⟩
  | assign bytes => exact ⟨_, rfl, ⟨Nat.le_refl _, hsize⟩, List.take_length⟩
  | clear => exact ⟨_, rfl, .empty, rfl⟩

/-- In another state it goes outside the allocation, overflows, uses a freed block or keeps the
wrong bytes. -/
theorem meets_of_step (h : WF a) (hin : op.InRange a.content) (hok : a.step op = .done a')
    (hcont : a'.content = op.onList a.content) : Meets a op := by
  have hlen := h.length_content
  cases op with
  | append src =>
    by_cases hn : (src.bytes a).length = 0
    · exact .inl hn
    · refine .inr ⟨?_, ?_⟩
      · by_contra hbig
        simp only [step, append, hn, hbig, ↓reduceIte, reduceCtorEq] at hok
      · rintro rfl
        cases (append_self hn).symm.trans hok
  | insert offset src =>
    by_cases hn : (src.bytes a).length = 0
    · exact .inl hn
    · refine .inr ?_
      rintro rfl
      cases (insert_self hn).symm.trans hok
  | erase offset cb =>
    have hin' : offset + cb ≤ a.content.length := hin
    by_cases hroom : offset + (a.cb - cb) ≤ a.block.length
    · refine ⟨hroom, ?_⟩
      obtain ⟨a₁, hok₁, -, hcont₁⟩ := erase_eq h (by omega) hroom
      obtain rfl := Outcome.done.inj (hok₁.symm.trans hok)
      exact List.append_cancel_left (hcont₁.symm.trans hcont)
    · cases (erase_outside hroom).symm.trans hok
  | assign bytes => trivial
  | clear => trivial

end Steps

/-! ## All steps -/

theorem onList_erase_insert {w b : Bytes} {offset : Nat} (hoff : offset ≤ w.length) :
    (Op.erase offset b.length).onList ((Op.insert offset (.other b)).onList w) = w := by
  have hlen : (w.take offset).length = offset := by
    rw [List.length_take, Nat.min_eq_left hoff]
  simp only [Op.onList, Source.list, List.append_assoc]
  rw [List.take_left' hlen, ← List.append_assoc,
    List.drop_left' (show (w.take offset ++ b).length = offset + b.length by
      rw [List.length_append, hlen]),
    List.take_append_drop]

section Runs

variable [Uninit] {a : Bytearray}

theorem refines_iff_of_wf (h : WF a) {ops : List Op} (hin : AllInRange a.content ops) :
    Refines a ops ↔ AllMeet a ops := by
  induction ops generalizing a with
  | nil => exact Iff.rfl
  | cons op ops ih =>
    obtain ⟨hop, hsize, hrest⟩ := hin
    constructor
    · rintro ⟨a', hok, hcont, href⟩
      have hm := meets_of_step h hop hok hcont
      obtain ⟨a₁, hok₁, hw, -⟩ := step_of_meets h hop hsize hm
      refine ⟨hm, ?_⟩
      intro a₂ hok₂
      obtain rfl := Outcome.done.inj (hok₁.symm.trans hok₂)
      obtain rfl := Outcome.done.inj (hok₁.symm.trans hok)
      rw [← hcont] at hrest
      exact (ih hw hrest).mp href
    · rintro ⟨hm, hall⟩
      obtain ⟨a', hok, hw, hcont⟩ := step_of_meets h hop hsize hm
      rw [← hcont] at hrest
      exact ⟨a', hok, hcont, (ih hw hrest).mpr (hall a' hok)⟩

end Runs

/-- From an empty array on every step does what it does to the list exactly when all steps are made
in states where they can; on the list, erasing what was inserted restores it. -/
theorem refines_iff [Uninit] {ops : List Op} (hin : AllInRange [] ops) :
    (Refines empty ops ↔ AllMeet empty ops) ∧
      ∀ (w b : Bytes) (offset : Nat), offset ≤ w.length →
        (Op.erase offset b.length).onList ((Op.insert offset (.other b)).onList w) = w :=
  ⟨refines_iff_of_wf .empty hin, fun _ _ _ hoff => onList_erase_insert hoff⟩

/-- A range is inserted and erased again, and the last bytes are erased. -/
theorem refines_ends :
    letI := zeroMemory
    Refines empty [.append (.other [1, 1, 1]), .insert 1 (.other [1]), .erase 1 1,
    .append (.other [2, 3]), .erase 3 2, .clear] := by
  let _ := zeroMemory
  have hin : AllInRange [] [.append (.other [1, 1, 1]), .insert 1 (.other [1]), .erase 1 1,
      .append (.other [2, 3]), .erase 3 2, .clear] :=
    ⟨trivial, by decide, show 1 ≤ 3 by decide, by decide, show 1 + 1 ≤ 4 by decide, by
      decide, trivial, by decide, show 3 + 2 ≤ 5 by decide, by decide, trivial, by decide, trivial⟩
  have h₁ : empty.step (.append (.other [1, 1, 1])) = .done ⟨[1, 1, 1, 0], 3⟩ := rfl
  have h₂ : (Bytearray.mk [1, 1, 1, 0] 3).step (.insert 1 (.other [1])) = .done ⟨[1, 1, 1, 1], 4⟩ :=
    rfl
  have h₃ : (Bytearray.mk [1, 1, 1, 1] 4).step (.erase 1 1) = .done ⟨[1, 1, 1], 3⟩ := rfl
  have h₄ : (Bytearray.mk [1, 1, 1] 3).step (.append (.other [2, 3])) =
      .done ⟨[1, 1, 1, 2, 3, 0], 5⟩ := rfl
  have h₅ : (Bytearray.mk [1, 1, 1, 2, 3, 0] 5).step (.erase 3 2) = .done ⟨[1, 1, 1], 3⟩ := rfl
  have next {a a₁ a₂ : Bytearray} {op : Op} (h : a.step op = .done a₁) (h' : a.step op = .done a₂) :
      a₂ = a₁ :=
    Outcome.done.inj (h'.symm.trans h)
  apply (refines_iff hin).1.mpr
  refine ⟨.inr ⟨by decide, nofun⟩, fun a h => next h₁ h ▸ ?_⟩
  refine ⟨.inr nofun, fun a h => next h₂ h ▸ ?_⟩
  refine ⟨⟨by decide, by decide⟩, fun a h => next h₃ h ▸ ?_⟩
  refine ⟨.inr ⟨by decide, nofun⟩, fun a h => next h₄ h ▸ ?_⟩
  refine ⟨⟨by decide, by decide⟩, fun a h => next h₅ h ▸ ?_⟩
  exact ⟨trivial, fun _ _ => trivial⟩

/-- The first of three bytes is erased. -/
theorem erase_first_fails :
    letI := zeroMemory
    AllInRange [] [.append (.other [1, 2, 3]), .erase 0 1] ∧
      ¬Refines empty [.append (.other [1, 2, 3]), .erase 0 1] := by
  let _ := zeroMemory
  refine ⟨⟨trivial, by decide, show 0 + 1 ≤ 3 by decide, by decide, trivial⟩, ?_⟩
  rintro ⟨a, ha, -, b, hb, hcont, -⟩
  cases ha
  cases hb
  cases hcont

end Bytearray

end Libacorn
