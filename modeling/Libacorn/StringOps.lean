import Mathlib.Data.Multiset.AddSub
import Libacorn.StringHeap

/-!
# What each string operation does

The rules for the operations on one handle: a handle that is well-formed and
whose reference is counted stays so, and nothing changes behind the references
`rest` of all other handles.
-/

namespace Libacorn

open Support

namespace StringHeap

@[simp] theorem ok_bind {α β : Type} (a : α) (f : α → Except Fault β) : (.ok a >>= f) = f a := rfl

@[simp] theorem error_bind {α β : Type} (e : Fault) (f : α → Except Fault β) :
    (.error e >>= f) = .error e := rfl

theorem bind_eq_ok {α β : Type} {x : Except Fault α} {f : α → Except Fault β} {b : β}
    (h : (x >>= f) = .ok b) : ∃ a, x = .ok a ∧ f a = .ok b := by
  cases x with
  | error e => cases h
  | ok a => exact ⟨a, rfl, h⟩

/-! ## Well-formed handles -/

/-- The block behind a pointer, terminator included. -/
def memory (H : Heap) : Ptr → Bytes
  | .null => []
  | .lit m => m ++ [0]
  | .heap i => ((H.get? i).map Buf.bytes).getD []

/-- The bytes `[_offset, _offset + _cb)`. -/
def content (H : Heap) (h : Handle) : Bytes := ((memory H h.buf).drop h.offset).take h.cb

/-- The buffers a handle is counted in. -/
def own (h : Handle) : Multiset Nat :=
  match h.type, h.buf with
  | .Standard, .heap i => {i}
  | _, _ => 0

/-- The type fits the buffer, the range lies inside it, and a handle on the whole
of a buffer finds a terminator after it. -/
inductive WF (H : Heap) (h : Handle) : Prop
  | null (hb : h.buf = .null) (hcb : h.cb = 0) (ho : h.offset = 0)
  | lit {m : Bytes} (hb : h.buf = .lit m) (ht : h.type = .Static) (hle : h.offset + h.cb ≤ m.length)
      (hm : m.length < 2 ^ 32)
  | heap {i : Nat} {b : Buf} (hb : h.buf = .heap i) (ht : h.type = .Standard)
      (hget : H.get? i = some b) (hle : h.offset + h.cb ≤ b.cb)
      (hz : h.offset = 0 → h.cb = b.cb → b.bytes[b.cb]? = some 0)

/-- The contents behind these references are the same in both heaps. -/
def Frame (H H' : Heap) (rest : Multiset Nat) : Prop := ∀ i ∈ rest, H'.get? i = H.get? i

theorem Frame.refl (H : Heap) (rest : Multiset Nat) : Frame H H rest := fun _ _ => rfl

theorem Frame.trans {H₁ H₂ H₃ : Heap} {rest : Multiset Nat} (h : Frame H₁ H₂ rest)
    (h' : Frame H₂ H₃ rest) : Frame H₁ H₃ rest :=
  fun i hi => (h' i hi).trans (h i hi)

theorem Frame.mono {H H' : Heap} {rest rest' : Multiset Nat} (h : Frame H H' rest')
    (hle : rest ≤ rest') : Frame H H' rest :=
  fun i hi => h i (Multiset.mem_of_le hle hi)

section Handles

variable {H H' : Heap} {h : Handle} {rest : Multiset Nat} {i : Nat}

theorem own_heap (hb : h.buf = .heap i) (ht : h.type = .Standard) : own h = {i} := by
  simp [own, hb, ht]

theorem own_of_not_heap (hb : ∀ i, h.buf ≠ .heap i) : own h = 0 := by
  cases hbuf : h.buf with
  | heap i => exact absurd hbuf (hb i)
  | null => simp [own, hbuf]
  | lit m => simp [own, hbuf]

/-- A handle whose reference is among `rest` keeps its shape and its content. -/
theorem WF.of_frame (hw : WF H h) (hown : own h ≤ rest) (hf : Frame H H' rest) :
    WF H' h ∧ content H' h = content H h := by
  cases hw with
  | null hb hcb ho => exact ⟨.null hb hcb ho, by simp [content, hb, memory]⟩
  | lit hb ht hle hm => exact ⟨.lit hb ht hle hm, by simp [content, hb, memory]⟩
  | @heap i b hb ht hget hle hz =>
    rw [own_heap hb ht] at hown
    have hsame := hf i (Multiset.singleton_le.mp hown)
    exact ⟨.heap hb ht (hsame.trans hget) hle hz, by simp [content, hb, memory, hsame]⟩

/-- What an operation on one handle leaves. -/
structure Keeps (H : Heap) (rest : Multiset Nat) (r : Heap × Handle) : Prop where
  wf : WF r.1 r.2
  owned : r.1.Owned (own r.2 + rest)
  frame : Frame H r.1 rest

theorem Keeps.heap {H : Heap} {rest : Multiset Nat} {r : Heap × Handle} {i : Nat} {b : Buf}
    (hb : r.2.buf = .heap i) (ht : r.2.type = .Standard) (hget : r.1.get? i = some b)
    (hle : r.2.offset + r.2.cb ≤ b.cb)
    (hz : r.2.offset = 0 → r.2.cb = b.cb → b.bytes[b.cb]? = some 0)
    (hO : r.1.Owned (i ::ₘ rest)) (hf : Frame H r.1 rest) : Keeps H rest r where
  wf := .heap hb ht hget hle hz
  owned := by
    rw [own_heap hb ht, Multiset.singleton_add]
    exact hO
  frame := hf

theorem Keeps.of_own_zero {H : Heap} {rest : Multiset Nat} {r : Heap × Handle} (hw : WF r.1 r.2)
    (h0 : own r.2 = 0) (hO : r.1.Owned rest) (hf : Frame H r.1 rest) : Keeps H rest r where
  wf := hw
  owned := by
    rw [h0, Multiset.zero_add]
    exact hO
  frame := hf

theorem WF.cb_lt (hw : WF H h) : h.cb < 2 ^ 32 := by
  cases hw with
  | null hb hcb ho => omega
  | lit hb ht hle hm => omega
  | @heap i b hb ht hget hle hz =>
    have := b.lt
    omega

/-- The range of a handle lies in its block. -/
theorem WF.range (hw : WF H h) : h.offset + h.cb ≤ (memory H h.buf).length := by
  cases hw with
  | null hb hcb ho => simp [hcb, ho]
  | lit hb ht hle hm =>
    simp only [hb, memory, List.length_append, List.length_singleton]
    omega
  | @heap i b hb ht hget hle hz =>
    have := b.size
    simp only [hb, memory, hget, Option.map_some, Option.getD_some]
    omega

theorem WF.type_eq (hw : WF H h) (hb : h.buf = .heap i) : h.type = .Standard := by
  cases hw with
  | null hb' => rw [hb] at hb'; cases hb'
  | lit hb' => rw [hb] at hb'; cases hb'
  | heap hb' ht => exact ht

/-- The content can be read. -/
theorem WF.read_eq (hw : WF H h) : read H h.buf h.offset h.cb = .ok (content H h) := by
  cases hw with
  | null hb hcb ho => simp [read, content, hb, hcb]
  | lit hb ht hle hm =>
    simp only [read, content, memory, hb]
    exact if_pos (by omega)
  | @heap i b hb ht hget hle hz =>
    simp only [read, content, memory, hb, hget]
    exact if_pos (by rw [b.size]; omega)

theorem WF.length_content (hw : WF H h) : (content H h).length = h.cb := by
  cases hw with
  | null hb hcb ho => simp [content, hb, memory, hcb]
  | lit hb ht hle hm =>
    simp [content, memory, hb]
    omega
  | @heap i b hb ht hget hle hz =>
    have := b.size
    simp [content, memory, hb, hget]
    omega

/-- A counted handle points at a live buffer, any other owns nothing. -/
theorem WF.of_counted (hw : WF H h) (hc : h.counted = true) :
    ∃ i b, h.buf = .heap i ∧ h.type = .Standard ∧ H.get? i = some b ∧ h.offset + h.cb ≤ b.cb ∧
      (h.offset = 0 → h.cb = b.cb → b.bytes[b.cb]? = some 0) := by
  cases hw with
  | null hb => simp [Handle.counted, hb] at hc
  | lit hb ht => simp [Handle.counted, ht] at hc
  | heap hb ht hget hle hz => exact ⟨_, _, hb, ht, hget, hle, hz⟩

theorem WF.own_eq_zero (hw : WF H h) (hc : ¬h.counted = true) : own h = 0 := by
  cases hw with
  | null hb => exact own_of_not_heap (by simp [hb])
  | lit hb => exact own_of_not_heap (by simp [hb])
  | heap hb ht => simp [Handle.counted, hb, ht] at hc

/-! ## Sharing and dropping a reference -/

theorem bufRelease_heap (hO : H.Owned (i ::ₘ rest)) (hc : rest.count i + 1 < 2 ^ 32) :
    ∃ H', bufRelease H (.heap i) = .ok H' ∧ H'.Owned rest ∧ Frame H H' rest := by
  obtain ⟨H', hr, hO', hf⟩ := hO.release hc
  exact ⟨H', by simp [bufRelease, hr], hO', hf⟩

theorem releaseOwn_keeps (hw : WF H h) (hO : H.Owned (own h + rest)) (hc : rest.card + 1 < 2 ^ 32) :
    ∃ H', releaseOwn H h = .ok H' ∧ H'.Owned rest ∧ Frame H H' rest := by
  by_cases hcount : h.counted = true
  · obtain ⟨i, b, hb, ht, -⟩ := hw.of_counted hcount
    rw [own_heap hb ht, Multiset.singleton_add] at hO
    rw [releaseOwn, if_pos hcount, hb]
    exact bufRelease_heap hO (by have := rest.count_le_card i; omega)
  · rw [hw.own_eq_zero hcount, Multiset.zero_add] at hO
    exact ⟨H, if_neg hcount, hO, Frame.refl H rest⟩

theorem bufRetain_heap (hO : H.Owned rest) (hi : i ∈ rest) (hc : rest.card + 1 < 2 ^ 32) :
    ∃ H', bufRetain H (.heap i) = .ok H' ∧ H'.Owned (i ::ₘ rest) ∧ ∀ j, H'.get? j = H.get? j := by
  obtain ⟨H', hr, hO', hf⟩ := hO.retain hi (by have := rest.count_le_card i; omega)
  exact ⟨H', by simp [bufRetain, hr], hO', hf⟩

theorem retainOwn_keeps (hw : WF H h) (hown : own h ≤ rest) (hO : H.Owned rest)
    (hc : rest.card + 1 < 2 ^ 32) :
    ∃ H', retainOwn H h = .ok H' ∧ Keeps H rest (H', h) := by
  by_cases hcount : h.counted = true
  · obtain ⟨i, b, hb, ht, hget, hle, hz⟩ := hw.of_counted hcount
    rw [own_heap hb ht, Multiset.singleton_le] at hown
    obtain ⟨H', hr, hO', hf⟩ := bufRetain_heap hO hown hc
    refine ⟨H', by rw [retainOwn, if_pos hcount, hb]; exact hr, ?_⟩
    exact Keeps.heap hb ht ((hf i).trans hget) hle hz hO' fun j _ => hf j
  · have hzero := hw.own_eq_zero hcount
    exact ⟨H, if_neg hcount, Keeps.of_own_zero hw hzero hO (Frame.refl H rest)⟩

theorem copyOf_keeps (hw : WF H h) (hown : own h ≤ rest) (hO : H.Owned rest)
    (hc : rest.card + 1 < 2 ^ 32) : ∃ r, copyOf H h = .ok r ∧ r.2 = h ∧ Keeps H rest r := by
  obtain ⟨H', hr, hk⟩ := retainOwn_keeps hw hown hO hc
  refine ⟨(H', h), ?_, rfl, hk⟩
  rw [copyOf, hr]
  rfl

/-- A handle on part of the range of another. -/
theorem WF.slice (hw : WF H h) {a b : Nat} (hab : a ≤ b) (hb : b ≤ h.cb) :
    WF H { h with cb := u32 (b - a), offset := (h.offset + a) % 2 ^ 24 } := by
  have hcb := hw.cb_lt
  have hu : u32 (b - a) = b - a := u32_of_lt (by omega)
  have ho : (h.offset + a) % 2 ^ 24 ≤ h.offset + a := Nat.mod_le _ _
  cases hw with
  | null hbuf hz hoff =>
    exact .null hbuf (by simp only [hu]; omega) (by simp only; omega)
  | lit hbuf ht hle hm => exact .lit hbuf ht (by simp only [hu]; omega) hm
  | heap hbuf ht hget hle hz =>
    refine .heap hbuf ht hget (by simp only [hu]; omega) ?_
    simp only [hu]
    intro h0 hlen
    exact hz (by omega) (by omega)

theorem sliceOf_keeps (hw : WF H h) (hbuf : h.buf ≠ .null) (hown : own h ≤ rest)
    (hO : H.Owned rest) (hc : rest.card + 1 < 2 ^ 32) {a b : Nat} (hab : a ≤ b) (hb : b ≤ h.cb) :
    ∃ r, sliceOf H h a b = .ok r ∧ Keeps H rest r ∧
      r.2 = { h with cb := u32 (b - a), offset := (h.offset + a) % 2 ^ 24 } ∧
      ∀ i, r.1.get? i = H.get? i := by
  have hs := hw.slice hab hb
  by_cases ht : h.type = .Standard
  · cases hw with
    | null hb' => exact absurd hb' hbuf
    | lit hb' ht' => rw [ht] at ht'; cases ht'
    | @heap i b' hb' ht' hget hle hz =>
      have hi : i ∈ rest := by
        rw [own_heap hb' ht', Multiset.singleton_le] at hown
        exact hown
      obtain ⟨H', hr, hO', hf⟩ := bufRetain_heap hO hi hc
      refine ⟨(H', _), by rw [sliceOf, if_pos ht, hb', hr, u32Sub_of_le hab]; rfl, ?_, rfl, hf⟩
      cases hs with
      | null hn => rw [hb'] at hn; cases hn
      | lit hl => rw [hb'] at hl; cases hl
      | heap h1 h2 h3 h4 h5 =>
        obtain rfl := Ptr.heap.inj (hb'.symm.trans h1)
        exact Keeps.heap h1 h2 ((hf i).trans h3) h4 h5 hO' fun j _ => hf j
  · refine ⟨(H, _), by rw [sliceOf, if_neg ht, u32Sub_of_le hab]; rfl, ?_, rfl, fun _ => rfl⟩
    apply Keeps.of_own_zero hs ?_ hO (Frame.refl H rest)
    cases htype : h.type with
    | Standard => exact absurd htype ht
    | Static => rfl

/-- `operator=` from another handle. -/
theorem assignFrom_keeps {s : Handle} (hw : WF H h) (hO : H.Owned (own h + rest)) (hs : WF H s)
    (hown : own s ≤ rest) (hc : rest.card + 1 < 2 ^ 32) :
    ∃ r, assignFrom H h s = .ok r ∧ r.2 = s ∧ Keeps H rest r := by
  obtain ⟨H₁, h₁, hO₁, hf₁⟩ := releaseOwn_keeps hw hO hc
  obtain ⟨H₂, h₂, hk⟩ := retainOwn_keeps (hs.of_frame hown hf₁).1 hown hO₁ hc
  refine ⟨(H₂, s), ?_, rfl, hk.wf, hk.owned, hf₁.trans hk.frame⟩
  rw [assignFrom, h₁]
  exact congrArg (· >>= fun H => pure (H, s)) h₂

theorem clear_keeps (hw : WF H h) (hO : H.Owned (own h + rest)) (hc : rest.card + 1 < 2 ^ 32)
    (hlit : ∀ m, h.buf ≠ .lit m) :
    ∃ H', clear H h = .ok (H', { h with buf := .null, cb := 0, offset := 0 }) ∧ H'.Owned rest ∧
      Frame H H' rest := by
  cases hw with
  | null hb hcb ho =>
    have hown : own h = 0 := own_of_not_heap (by simp [hb])
    rw [hown, Multiset.zero_add] at hO
    refine ⟨H, ?_, hO, Frame.refl H rest⟩
    rw [clear, if_pos hb, ← hb, ← hcb]
    nth_rewrite 2 [hcb]
    rw [← ho]
    rfl
  | lit hb => exact absurd hb (hlit _)
  | @heap i b hb ht =>
    rw [own_heap hb ht, Multiset.singleton_add] at hO
    obtain ⟨H', hr, hO', hf⟩ := bufRelease_heap hO (by have := rest.count_le_card i; omega)
    refine ⟨H', ?_, hO', hf⟩
    rw [clear, if_neg (by simp [hb]), hb, hr]
    rfl

/-- The handle a `clear` leaves. -/
theorem wf_cleared (H : Heap) (h : Handle) : WF H { h with buf := .null, cb := 0, offset := 0 } :=
  .null rfl rfl rfl

theorem own_cleared (h : Handle) : own { h with buf := .null, cb := 0, offset := 0 } = 0 :=
  own_of_not_heap (by simp)

/-- `mutateToStatic` from another handle, one that has no counted buffer. -/
theorem mutateToStatic_keeps {s : Handle} (hw : WF H h) (hO : H.Owned (own h + rest))
    (hc : rest.card + 1 < 2 ^ 32) (hlit : ∀ m, h.buf ≠ .lit m) (hs : WF H s)
    (hheap : ∀ i, s.buf ≠ .heap i) :
    ∃ r, mutateToStatic H h s = .ok r ∧ r.2 = s ∧ Keeps H rest r := by
  obtain ⟨H', hcl, hO', hf⟩ := clear_keeps hw hO hc hlit
  have hown : own s = 0 := own_of_not_heap hheap
  have hs' := (hs.of_frame (by rw [hown]; exact Multiset.zero_le _) hf).1
  refine ⟨(H', s), ?_, rfl, Keeps.of_own_zero hs' hown hO' hf⟩
  rw [mutateToStatic, hcl]
  rfl

/-! ## New buffers -/

/-- Writing to a buffer no other handle points at. -/
theorem write_keeps {b : Buf} (hget : H.get? i = some b) (hO : H.Owned (i ::ₘ rest)) (hi : i ∉ rest)
    {o : Nat} {bytes : Bytes} (hle : o + bytes.length ≤ b.cb + 1) :
    ∃ H' b', write H (.heap i) o bytes = .ok H' ∧ H'.Owned (i ::ₘ rest) ∧ Frame H H' rest ∧
      H'.get? i = some b' ∧ b'.cb = b.cb ∧ b'.bytes = overwrite b.bytes o bytes := by
  have hle' : o + bytes.length ≤ b.bytes.length := by rw [b.size]; exact hle
  refine ⟨H.modify i (b.write o bytes hle'), b.write o bytes hle', by simp [write, hget, hle'],
    hO.modify _ (Multiset.mem_cons_self i rest), ?_, H.modify_get?_self _ hget, rfl, rfl⟩
  intro j hj
  have hne : j ≠ i := by
    rintro rfl
    exact hi hj
  exact H.modify_get?_of_ne _ hne

theorem read_heap {b : Buf} (hget : H.get? i = some b) {o n : Nat} (hle : o + n ≤ b.cb + 1) :
    read H (.heap i) o n = .ok ((b.bytes.drop o).take n) := by
  simp only [read, hget]
  exact if_pos (by rw [b.size]; exact hle)

theorem overwrite_terminator {mem : Bytes} {o : Nat} (h : o < mem.length) :
    (overwrite mem o [0])[o]? = some 0 := by
  rw [overwrite, List.append_assoc, List.getElem?_append_right (by simp), List.length_take,
    Nat.min_eq_left (by omega), Nat.sub_self]
  rfl

theorem toU32_of_nonneg {x : Int} (h0 : 0 ≤ x) (h : x < 2 ^ 32) : toU32 x = x.toNat := by
  rw [toU32, Int.emod_eq_of_lt h0 h]

theorem toU32_sub {a b : Nat} (hle : a ≤ b) (h : b < 2 ^ 32) : toU32 ((b : Int) - a) = b - a := by
  rw [toU32_of_nonneg (by omega) (by omega)]
  omega

/-! ## Handles alone on their buffer -/

/-- The size of the buffer that `prepareToModify` leaves: a copy has the size of
the content, a buffer of one's own is kept. -/
def preparedSize (H : Heap) (h : Handle) : Nat :=
  match h.type, h.buf with
  | .Standard, .heap i =>
    match H.cells i with
    | some c => if c.refs > 1 then h.cb else c.data.cb
    | none => h.cb
  | _, _ => h.cb

/-- A handle that is the only one on its buffer. -/
structure Sole (H : Heap) (rest : Multiset Nat) (H' : Heap) (h : Handle) (i : Nat) (b : Buf) :
    Prop where
  buf : h.buf = .heap i
  type : h.type = .Standard
  get : H'.get? i = some b
  owned : H'.Owned (i ::ₘ rest)
  notMem : i ∉ rest
  frame : Frame H H' rest
  le : h.offset + h.cb ≤ b.cb

theorem Sole.preparedSize_eq {H' : Heap} {b : Buf} (hs : Sole H rest H' h i b) :
    preparedSize H' h = b.cb := by
  obtain ⟨c, hcell, hrefs⟩ := hs.owned.exists_cell (Multiset.mem_cons_self i rest)
  rw [Multiset.count_cons_self, Multiset.count_eq_zero_of_notMem hs.notMem] at hrefs
  have hdata : c.data = b := by
    have hget := hs.get
    rw [RefHeap.get?, hcell] at hget
    exact Option.some.inj hget
  simp only [preparedSize, hs.type, hs.buf, hcell, hrefs, hdata]
  exact if_neg (by decide)

/-- A terminator follows the content. -/
def Terminated (H : Heap) (h : Handle) : Prop := (memory H h.buf)[h.offset + h.cb]? = some 0

/-- A handle on a buffer of its own with content `w`, which the next modification
keeps at the given size. -/
structure Built (H : Heap) (rest : Multiset Nat) (r : Heap × Handle) (w : Bytes) (size : Nat) :
    Prop where
  keeps : Keeps H rest r
  type : r.2.type = .Standard
  buf : r.2.buf ≠ .null
  terminated : Terminated r.1 r.2
  size : preparedSize r.1 r.2 = size
  content : content r.1 r.2 = w

theorem Sole.memory_eq {H' : Heap} {b : Buf} (hs : Sole H rest H' h i b) :
    memory H' h.buf = b.bytes := by
  simp only [memory, hs.buf, hs.get, Option.map_some, Option.getD_some]

theorem Sole.keeps {H' : Heap} {b : Buf} (hs : Sole H rest H' h i b)
    (hz : h.offset = 0 → h.cb = b.cb → b.bytes[b.cb]? = some 0) : Keeps H rest (H', h) :=
  Keeps.heap hs.buf hs.type hs.get hs.le hz hs.owned hs.frame

/-- The handle is alone on a terminated buffer. -/
theorem Sole.built {H' : Heap} {b : Buf} (hs : Sole H rest H' h i b) (ht : Terminated H' h)
    {w : Bytes} (hw : StringHeap.content H' h = w) : Built H rest (H', h) w b.cb where
  keeps := by
    apply hs.keeps
    intro h0 hcb
    rw [Terminated, hs.memory_eq, h0, hcb, Nat.zero_add] at ht
    exact ht
  type := hs.type
  buf := by
    simp only [hs.buf]
    nofun
  terminated := ht
  size := hs.preparedSize_eq
  content := hw

/-! ## Allocating -/

section Alloc
variable [Uninit]

theorem bufNew_keeps (hO : H.Owned rest) (cb : Nat) :
    (H.alloc (Buf.sized [] cb)).Owned (H.next ::ₘ rest) ∧ H.next ∉ rest ∧
      Frame H (H.alloc (Buf.sized [] cb)) rest := by
  refine ⟨hO.alloc _, hO.next_notMem, ?_⟩
  intro j hj
  exact H.alloc_get?_of_ne _ (hO.ne_next hj)

/-- The block moves, with as many of its bytes as the new size leaves room for. -/
theorem bufRealloc_keeps {b : Buf} (hget : H.get? i = some b) (hO : H.Owned (i ::ₘ rest))
    (hi : i ∉ rest) (cbDelta : Int) :
    ∃ H' b', bufRealloc H (.heap i) cbDelta = .ok (H', .heap H.next) ∧
      H'.Owned (H.next ::ₘ rest) ∧ H.next ∉ rest ∧ Frame H H' rest ∧
      H'.get? H.next = some b' ∧ b'.cb = toU32 (b.cb + cbDelta) ∧
      b'.bytes = b.bytes.take (b'.cb + 1) ++ Uninit.block (b'.cb + 1 - b.bytes.length) := by
  obtain ⟨H', c, hc, hm, hO', hnew, hf⟩ :=
    hO.move hi fun b => Buf.sized b.bytes (toU32 (b.cap + cbDelta))
  obtain rfl := Option.some.inj (hget.symm.trans hc)
  have hn : H.next ∉ rest := fun hmem => hO.next_notMem (Multiset.mem_cons_of_mem hmem)
  have hu : u32 (toU32 (b.cap + cbDelta)) = toU32 (b.cb + cbDelta) := by
    rw [b.cap_eq]
    apply u32_of_lt
    unfold toU32
    omega
  refine ⟨H', _, by simp [bufRealloc, hm], hO', hn, hf, hnew, hu, rfl⟩

/-- The content is copied into a buffer of its own size. -/
theorem copyContent_keeps (hw : WF H h) (hown : own h ≤ rest) (hO : H.Owned rest) :
    ∃ H' b, copyContent H h = .ok (H', .heap H.next) ∧ H'.Owned (H.next ::ₘ rest) ∧
      H.next ∉ rest ∧ Frame H H' rest ∧ H'.get? H.next = some b ∧ b.cb = h.cb ∧
      b.bytes.take h.cb = content H h := by
  obtain ⟨hO₁, hn, hf₁⟩ := bufNew_keeps hO h.cb
  obtain ⟨hw₁, hcont⟩ := hw.of_frame hown hf₁
  have hlen := hw.length_content
  have hcb : (Buf.sized [] h.cb).cb = h.cb := u32_of_lt hw.cb_lt
  have hle : 0 + (content H h).length ≤ (Buf.sized [] h.cb).cb + 1 := by omega
  obtain ⟨H₂, b, hwr, hO₂, hf₂, hget, hb, hbytes⟩ :=
    write_keeps (H.alloc_get?_next (Buf.sized [] h.cb)) hO₁ hn hle
  refine ⟨H₂, b, ?_, hO₂, hn, hf₁.trans hf₂, hget, hb.trans hcb, ?_⟩
  · simp only [copyContent, bufNew, hw₁.read_eq, hcont, ok_bind, hwr]
    rfl
  · have ht := take_overwrite (hle.trans_eq (Buf.sized [] h.cb).size.symm)
    rw [hlen, Nat.zero_add, List.take_zero, List.nil_append] at ht
    rw [hbytes]
    exact ht

/-! ## Modifying -/

theorem prepareToModify_sole (hw : WF H h) (hO : H.Owned (own h + rest)) (hbuf : h.buf ≠ .null)
    (hc : rest.card + 1 < 2 ^ 32) :
    ∃ H' h' i b, prepareToModify H h = .ok (H', h') ∧ Sole H rest H' h' i b ∧ h'.cb = h.cb ∧
      b.cb = preparedSize H h ∧ content H' h' = content H h := by
  -- a copy, made in any heap where the content is still there
  have hcopy : ∀ {H₁ : Heap}, WF H₁ h → own h ≤ rest → H₁.Owned rest →
      Frame H H₁ rest → content H₁ h = content H h →
      ∃ H₂ b, copyContent H₁ h = .ok (H₂, .heap H₁.next) ∧
        Sole H rest H₂ { h with buf := .heap H₁.next, offset := 0, type := .Standard } H₁.next b ∧
        b.cb = h.cb ∧
        content H₂ { h with buf := .heap H₁.next, offset := 0, type := .Standard } =
          content H h := by
    intro H₁ hw₁ hown hO₁ hf₁ hcont
    obtain ⟨H₂, b, hcp, hO₂, hn, hf₂, hget, hcb, htake⟩ := copyContent_keeps hw₁ hown hO₁
    refine ⟨H₂, b, hcp, ⟨rfl, rfl, hget, hO₂, hn, hf₁.trans hf₂, ?_⟩, hcb, ?_⟩
    · simp only
      omega
    · simp only [content, memory, hget, Option.map_some, Option.getD_some, List.drop_zero]
      rw [htake, hcont]
      rfl
  cases hw with
  | null hb => exact absurd hb hbuf
  | lit hb ht hle hm =>
    have hown : own h = 0 := own_of_not_heap (by simp [hb])
    rw [hown, Multiset.zero_add] at hO
    obtain ⟨H₂, b, hcp, hsole, hcb, hcont⟩ :=
      hcopy (.lit hb ht hle hm) (by rw [hown]; exact Multiset.zero_le _) hO
        (Frame.refl H rest) rfl
    refine ⟨_, _, _, b, ?_, hsole, rfl, ?_, hcont⟩
    · simp only [prepareToModify, ht, hcp, ok_bind]
      rfl
    · rw [hcb, preparedSize, ht]
  | @heap i b hb ht hget hle hz =>
    rw [own_heap hb ht, Multiset.singleton_add] at hO
    obtain ⟨c, hcell, hrefs⟩ := hO.exists_cell (Multiset.mem_cons_self i rest)
    rw [Multiset.count_cons_self] at hrefs
    have hdata : c.data = b := by
      rw [RefHeap.get?, hcell] at hget
      exact Option.some.inj hget
    by_cases hshared : c.refs > 1
    · have hmem : i ∈ rest := Multiset.count_pos.mp (by omega)
      have hown : own h ≤ rest := by
        rw [own_heap hb ht]
        exact Multiset.singleton_le.mpr hmem
      obtain ⟨H₁, hrel, hO₁, hf₁⟩ :=
        bufRelease_heap hO (by have := rest.count_le_card i; omega)
      obtain ⟨hw₁, hcont₁⟩ := (WF.heap hb ht hget hle hz).of_frame hown hf₁
      obtain ⟨H₂, b₂, hcp, hsole, hcb, hcont⟩ :=
        hcopy hw₁ hown hO₁ hf₁ hcont₁
      refine ⟨_, _, _, b₂, ?_, hsole, rfl, ?_, hcont⟩
      · simp only [prepareToModify, ht, hb, hcell, hshared, ↓reduceIte, hrel, ok_bind, hcp]
        rfl
      · rw [hcb, preparedSize, ht, hb]
        simp only [hcell, hshared, ↓reduceIte]
    · refine ⟨H, h, i, b, ?_, ⟨hb, ht, hget, hO, ?_, Frame.refl H rest, hle⟩, rfl, ?_, rfl⟩
      · simp only [prepareToModify, ht, hb, hcell, hshared, ↓reduceIte]
        rfl
      · exact Multiset.count_eq_zero.mp (by omega)
      · rw [preparedSize, ht, hb]
        simp only [hcell, hshared, ↓reduceIte, hdata]

/-- `insert` of at least one byte at an offset inside the string: the handle is alone on a
buffer that has grown by the new bytes, at the offset that `prepareToModify` left. -/
theorem insert_spec (hw : WF H h) (hO : H.Owned (own h + rest)) (hbuf : h.buf ≠ .null)
    (hc : rest.card + 1 < 2 ^ 32) {byteOffset : Nat} (hoff : byteOffset ≤ h.cb) {p : Bytes}
    (hp : p ≠ []) (hfit : preparedSize H h + p.length < 2 ^ 32) :
    ∃ H' h' i b, insert H h byteOffset p = .ok (H', h') ∧ Sole H rest H' h' i b ∧
      b.cb = preparedSize H h + p.length ∧ Terminated H' h' ∧
      content H' h' = (content H h).take byteOffset ++ p ++ (content H h).drop byteOffset ∧
      ∃ H₁ h₁, prepareToModify H h = .ok (H₁, h₁) ∧ h'.offset = h₁.offset := by
  obtain ⟨H₁, h₁, i, b, hprep, hsole, hcb, hsize, hcont⟩ := prepareToModify_sole hw hO hbuf hc
  have hle := hsole.le
  rw [← hsize] at hfit ⊢
  obtain ⟨H₂, b₂, hre, hO₂, hn, hf₂, hget₂, hb₂, hbytes₂⟩ :=
    bufRealloc_keeps hsole.get hsole.owned hsole.notMem (p.length : Int)
  rw [toU32_of_nonneg (by omega) (by omega)] at hb₂
  have hs₂ := b₂.size
  have hmove : toU32 ((h₁.cb : Int) - byteOffset) = h₁.cb - byteOffset :=
    toU32_sub (by omega) (by rw [hcb]; exact hw.cb_lt)
  -- the tail moves up, the new bytes and the terminator follow
  have hread := read_heap hget₂ (o := h₁.offset + byteOffset) (n := h₁.cb - byteOffset) (by omega)
  obtain ⟨tail, htail⟩ : ∃ t, t = (b₂.bytes.drop (h₁.offset + byteOffset)).take
      (h₁.cb - byteOffset) :=
    ⟨_, rfl⟩
  have htl : tail.length ≤ h₁.cb - byteOffset := by
    rw [htail]
    exact List.length_take_le ..
  rw [← htail] at hread
  obtain ⟨H₃, b₃, hw₃, hO₃, hf₃, hget₃, hb₃, hbytes₃⟩ := write_keeps hget₂ hO₂ hn
    (show h₁.offset + byteOffset + p.length + tail.length ≤ b₂.cb + 1 by omega)
  obtain ⟨H₄, b₄, hw₄, hO₄, hf₄, hget₄, hb₄, hbytes₄⟩ := write_keeps hget₃ hO₃ hn
    (show h₁.offset + byteOffset + p.length ≤ b₃.cb + 1 by omega)
  have hu : u32 (h₁.cb + p.length) = h₁.cb + p.length := u32_of_lt (by omega)
  obtain ⟨H₅, b₅, hw₅, hO₅, hf₅, hget₅, hb₅, hbytes⟩ := write_keeps hget₄ hO₄ hn
    (show h₁.offset + (h₁.cb + p.length) + [(0 : UInt8)].length ≤ b₄.cb + 1 by
      rw [List.length_singleton]
      omega)
  have hsole₅ : Sole H rest H₅ { h₁ with buf := .heap H₁.next, cb := h₁.cb + p.length } H₁.next
      b₅ :=
    ⟨rfl, hsole.type, hget₅, hO₅, hn, hsole.frame.trans (hf₂.trans (hf₃.trans (hf₄.trans hf₅))), by
      simp only
      omega⟩
  refine ⟨H₅, _, H₁.next, b₅, ?_, hsole₅, by omega, ?_, ?_, H₁, h₁, hprep, rfl⟩
  · simp only [insert, hp, ↓reduceIte, hbuf, hprep, ok_bind, hsole.buf, hre, hmove, hread, hw₃, hw₄,
      hu, hw₅]
    rfl
  · rw [Terminated, hsole₅.memory_eq, hbytes]
    exact overwrite_terminator (by rw [b₄.size]; omega)
  · have hs := b.size
    have hall : b.bytes.take (b₂.cb + 1) = b.bytes := List.take_of_length_le (by omega)
    have hold : (b₂.bytes.drop h₁.offset).take h₁.cb = content H h := by
      rw [← hcont, content, hsole.memory_eq, hbytes₂, hall, List.drop_append_of_le_length
        (by omega), List.take_append_of_le_length (by rw [List.length_drop]; omega)]
    have hnew := content_overwrite (show byteOffset ≤ h₁.cb by omega)
      (show h₁.offset + h₁.cb + p.length + 1 ≤ b₂.bytes.length by omega)
    rw [hold, ← htail, ← hbytes₃, ← hbytes₄, ← hbytes] at hnew
    rw [content, hsole₅.memory_eq]
    exact hnew

theorem insert_keeps (hw : WF H h) (hO : H.Owned (own h + rest)) (hbuf : h.buf ≠ .null)
    (hc : rest.card + 1 < 2 ^ 32) {byteOffset : Nat} (hoff : byteOffset ≤ h.cb) {p : Bytes}
    (hp : p ≠ []) (hfit : preparedSize H h + p.length < 2 ^ 32) :
    ∃ r, insert H h byteOffset p = .ok r ∧
      Built H rest r ((content H h).take byteOffset ++ p ++ (content H h).drop byteOffset)
        (preparedSize H h + p.length) := by
  obtain ⟨H', h', i, b, hins, hsole, hb, hterm, hcont, -⟩ := insert_spec hw hO hbuf hc hoff hp hfit
  exact ⟨(H', h'), hins, hb ▸ hsole.built hterm hcont⟩

/-- The new size wraps around and the new bytes do not fit. -/
theorem insert_overflow (hw : WF H h) (hO : H.Owned (own h + rest)) (hbuf : h.buf ≠ .null)
    (hc : rest.card + 1 < 2 ^ 32) {byteOffset : Nat} (hoff : byteOffset ≤ h.cb) {p : Bytes}
    (hp : p ≠ []) (hlen : p.length < 2 ^ 31) (hbig : 2 ^ 32 ≤ preparedSize H h + p.length) :
    insert H h byteOffset p = .error .bounds := by
  obtain ⟨H₁, h₁, i, b, hprep, hsole, hcb, hsize, -⟩ := prepareToModify_sole hw hO hbuf hc
  have hle := hsole.le
  have hlt := b.lt
  rw [← hsize] at hbig
  obtain ⟨H₂, b₂, hre, hO₂, hn, hf₂, hget₂, hb₂, -⟩ :=
    bufRealloc_keeps hsole.get hsole.owned hsole.notMem (p.length : Int)
  have hb₂' : b₂.cb + 2 ^ 32 = b.cb + p.length := by
    unfold toU32 at hb₂
    omega
  have hmove : toU32 ((h₁.cb : Int) - byteOffset) = h₁.cb - byteOffset :=
    toU32_sub (by omega) (by rw [hcb]; exact hw.cb_lt)
  have hs₂ := b₂.size
  simp only [insert, hp, ↓reduceIte, hbuf, hprep, ok_bind, hsole.buf, hre, hmove]
  by_cases hr : h₁.offset + byteOffset + (h₁.cb - byteOffset) ≤ b₂.cb + 1
  · have htl : ((b₂.bytes.drop (h₁.offset + byteOffset)).take (h₁.cb - byteOffset)).length =
        h₁.cb - byteOffset := by
      rw [List.length_take, List.length_drop]
      omega
    rw [read_heap hget₂ hr, ok_bind]
    by_cases hw₃ : h₁.offset + byteOffset + p.length + (h₁.cb - byteOffset) ≤ b₂.cb + 1
    · -- only an empty string at the start of a block of the largest size gets this far
      obtain ⟨H₃, b₃, hw₃, hO₃, hf₃, hget₃, hb₃, -⟩ := write_keeps hget₂ hO₂ hn
        (show h₁.offset + byteOffset + p.length + _ ≤ b₂.cb + 1 by rw [htl]; exact hw₃)
      obtain ⟨H₄, b₄, hw₄, hO₄, hf₄, hget₄, hb₄, -⟩ := write_keeps hget₃ hO₃ hn
        (show h₁.offset + byteOffset + p.length ≤ b₃.cb + 1 by omega)
      have hu : u32 (h₁.cb + p.length) = h₁.cb + p.length := u32_of_lt (by omega)
      have hs₄ := b₄.size
      rw [hw₃, ok_bind, hw₄, ok_bind, hu]
      have hw₅ : write H₄ (.heap H₁.next) (h₁.offset + (h₁.cb + p.length)) [0] =
          .error .bounds := by
        simp only [write, hget₄, List.length_singleton]
        exact dif_neg (by omega)
      rw [hw₅]
      rfl
    · have hwr : write H₂ (.heap H₁.next) (h₁.offset + byteOffset + p.length)
          ((b₂.bytes.drop (h₁.offset + byteOffset)).take (h₁.cb - byteOffset)) =
          .error .bounds := by
        simp only [write, hget₂, htl]
        exact dif_neg (by omega)
      rw [hwr]
      rfl
  · have hrd : read H₂ (.heap H₁.next) (h₁.offset + byteOffset) (h₁.cb - byteOffset) =
        .error .bounds := by
      simp only [read, hget₂]
      exact if_neg (by omega)
    rw [hrd]
    rfl

/-- `erase` of at least one byte: the handle is alone on its buffer, at the offset that
`prepareToModify` left, and the terminator goes to the `_cb`-th byte of the buffer. -/
theorem erase_spec (hw : WF H h) (hO : H.Owned (own h + rest)) (hc : rest.card + 1 < 2 ^ 32)
    {fromOff toOff lo hi : Nat} (hlo : lo = min h.cb (min fromOff toOff))
    (hhi : hi = min h.cb (max fromOff toOff)) (hn : hi - lo ≠ 0) :
    ∃ H' h' i b, erase H h fromOff toOff = .ok (H', h') ∧ Sole H rest H' h' i b ∧
      h'.cb = h.cb - (hi - lo) ∧ b.bytes[h'.cb]? = some 0 ∧ b.cb = preparedSize H h - (hi - lo) ∧
      ∃ H₁ h₁, prepareToModify H h = .ok (H₁, h₁) ∧ h'.offset = h₁.offset ∧
        content H' h' = strayTerminator h₁.offset
          ((content H h).take lo ++ (content H h).drop hi) := by
  have hbuf : h.buf ≠ .null := by
    intro hb
    cases hw with
    | null _ hcb => omega
    | lit hb' => rw [hb] at hb'; cases hb'
    | heap hb' => rw [hb] at hb'; cases hb'
  obtain ⟨H₁, h₁, i, b, hprep, hsole, hcb, hsize, hcont⟩ := prepareToModify_sole hw hO hbuf hc
  have hle := hsole.le
  have hlt := b.lt
  have hread := read_heap hsole.get (o := h₁.offset + hi) (n := h₁.cb - hi) (by omega)
  obtain ⟨tail, htail⟩ : ∃ t, t = (b.bytes.drop (h₁.offset + hi)).take (h₁.cb - hi) := ⟨_, rfl⟩
  have htl : tail.length ≤ h₁.cb - hi := by
    rw [htail]
    exact List.length_take_le ..
  rw [← htail] at hread
  obtain ⟨H₂, b₂, hw₂, hO₂, hf₂, hget₂, hb₂, hbytes₂⟩ :=
    write_keeps hsole.get hsole.owned hsole.notMem
    (show h₁.offset + lo + tail.length ≤ b.cb + 1 by omega)
  obtain ⟨H₃, b₃, hw₃, hO₃, hf₃, hget₃, hb₃, hbytes₃⟩ := write_keeps hget₂ hO₂ hsole.notMem
    (show h₁.cb - (hi - lo) + [(0 : UInt8)].length ≤ b₂.cb + 1 by
      rw [List.length_singleton]
      omega)
  obtain ⟨H₄, b₄, hre, hO₄, hn₄, hf₄, hget₄, hb₄, hbytes₄⟩ :=
    bufRealloc_keeps hget₃ hO₃ hsole.notMem (-((hi - lo : Nat) : Int))
  rw [toU32_of_nonneg (by omega) (by omega)] at hb₄
  have hsole₄ : Sole H rest H₄ { h₁ with buf := .heap H₃.next, cb := h₁.cb - (hi - lo) } H₃.next
      b₄ :=
    ⟨rfl, hsole.type, hget₄, hO₄, hn₄, hsole.frame.trans (hf₂.trans (hf₃.trans hf₄)), by
      simp only
      omega⟩
  have hs₃ := b₃.size
  refine ⟨H₄, _, H₃.next, b₄, ?_, hsole₄, by simp only; omega, ?_, by omega, H₁, h₁, hprep, rfl, ?_⟩
  · simp only [erase, ← hlo, ← hhi, hn, ↓reduceIte, hprep, ok_bind, hsole.buf, hread, hw₂, hw₃, hre]
    rfl
  · have hs₂ := b₂.size
    simp only
    rw [hbytes₄, List.getElem?_append_left (by rw [List.length_take]; omega),
      List.getElem?_take_of_lt (by omega), hbytes₃]
    exact overwrite_terminator (by omega)
  · have hs := b.size
    have hnew := content_erase (show lo ≤ hi by omega) (show hi ≤ h₁.cb by omega)
      (show h₁.offset + h₁.cb + 1 ≤ b.bytes.length by omega)
    rw [← htail, ← hbytes₂, ← hbytes₃, ← hsole.memory_eq, ← content, hcont] at hnew
    rw [← hnew, content, hsole₄.memory_eq, hbytes₄]
    simp only
    rw [List.drop_append_of_le_length (by rw [List.length_take]; omega),
      List.take_append_of_le_length
      (by rw [List.length_drop, List.length_take]; omega), List.drop_take, List.take_take,
      Nat.min_eq_left (by omega)]

theorem erase_keeps (hw : WF H h) (hO : H.Owned (own h + rest)) (hc : rest.card + 1 < 2 ^ 32)
    (fromOff toOff : Nat) :
    ∃ r, erase H h fromOff toOff = .ok r ∧ (r.2 = h ∨ r.2.type = .Standard) ∧ Keeps H rest r := by
  by_cases hn : min h.cb (max fromOff toOff) - min h.cb (min fromOff toOff) = 0
  · refine ⟨(H, h), ?_, .inl rfl, hw, hO, Frame.refl H rest⟩
    simp only [erase, hn, ↓reduceIte]
    rfl
  · obtain ⟨H', h', i, b, her, hsole, -, hz, -⟩ := erase_spec hw hO hc rfl rfl hn
    refine ⟨(H', h'), her, .inr hsole.type, hsole.keeps ?_⟩
    intro _ hlen
    rw [← hlen]
    exact hz

/-! ## Setting and reading -/

/-- A new buffer with the given bytes and the terminator. -/
theorem assign_spec (hw : WF H h) (hO : H.Owned (own h + rest)) (hc : rest.card + 1 < 2 ^ 32)
    (ht : h.type = .Standard) {p : Bytes} (hp : p.length < 2 ^ 32) :
    ∃ H' h' i b, assign H h (some p) = .ok (H', h') ∧ Sole H rest H' h' i b ∧ b.cb = p.length ∧
      Terminated H' h' ∧ content H' h' = p ∧ h'.offset = 0 := by
  obtain ⟨H₁, hr, hO₁, hf₁⟩ := releaseOwn_keeps hw hO hc
  obtain ⟨hO₂, hn, hf₂⟩ := bufNew_keeps hO₁ p.length
  have hcb : (Buf.sized [] p.length).cb = p.length := u32_of_lt hp
  obtain ⟨H₃, b₃, hw₃, hO₃, hf₃, hget₃, hb₃, hbytes₃⟩ := write_keeps
    (H₁.alloc_get?_next (Buf.sized [] p.length)) hO₂ hn (show 0 + p.length ≤ _ by omega)
  obtain ⟨H₄, b₄, hw₄, hO₄, hf₄, hget₄, hb₄, hbytes⟩ := write_keeps hget₃ hO₃ hn
    (show p.length + [(0 : UInt8)].length ≤ b₃.cb + 1 by
      rw [List.length_singleton]
      omega)
  have hsole : Sole H rest H₄ { h with buf := .heap H₁.next, cb := p.length, offset := 0 } H₁.next
      b₄ :=
    ⟨rfl, ht, hget₄, hO₄, hn, hf₁.trans (hf₂.trans (hf₃.trans hf₄)), by simp only; omega⟩
  refine ⟨H₄, _, H₁.next, b₄, ?_, hsole, by omega, ?_, ?_, rfl⟩
  · simp only [assign, hr, ok_bind, bufNew, hw₃, hw₄]
    rfl
  · rw [Terminated, hsole.memory_eq, Nat.zero_add, hbytes]
    exact overwrite_terminator (by rw [b₃.size]; omega)
  · rw [content, hsole.memory_eq]
    have h₁' := take_overwrite (show 0 + p.length ≤ (Buf.sized [] p.length).bytes.length by
      rw [(Buf.sized [] p.length).size]
      omega)
    have h₂' := take_overwrite (show p.length + [(0 : UInt8)].length ≤ b₃.bytes.length by
      rw [b₃.size, List.length_singleton]
      omega)
    rw [Nat.zero_add, List.take_zero, List.nil_append, ← hbytes₃] at h₁'
    rw [← hbytes, h₁'] at h₂'
    have := congrArg (List.take p.length) h₂'
    rw [List.take_take, Nat.min_eq_left (by omega), List.take_left] at this
    exact this

theorem assign_keeps (hw : WF H h) (hO : H.Owned (own h + rest)) (hc : rest.card + 1 < 2 ^ 32)
    (ht : h.type = .Standard) {p : Bytes} (hp : p.length < 2 ^ 32) :
    ∃ r, assign H h (some p) = .ok r ∧ Built H rest r p p.length := by
  obtain ⟨H', h', i, b, has, hsole, hb, hterm, hcont, -⟩ := assign_spec hw hO hc ht hp
  exact ⟨(H', h'), has, hb ▸ hsole.built hterm hcont⟩

theorem assign_null_keeps (hw : WF H h) (hO : H.Owned (own h + rest))
    (hc : rest.card + 1 < 2 ^ 32) : ∃ r, assign H h none = .ok r ∧ Keeps H rest r := by
  obtain ⟨H₁, hr, hO₁, hf₁⟩ := releaseOwn_keeps hw hO hc
  refine ⟨(H₁, { h with buf := .null, cb := 0, offset := 0 }), ?_,
    Keeps.of_own_zero (wf_cleared H₁ h) (own_cleared h) hO₁ hf₁⟩
  simp only [assign, hr, ok_bind]
  rfl

theorem alloc_keeps (hw : WF H h) (hO : H.Owned (own h + rest)) (hc : rest.card + 1 < 2 ^ 32)
    (ht : h.type = .Standard) {cb : Nat} (hcb : cb < 2 ^ 32) :
    ∃ r, alloc H h cb = .ok r ∧ Keeps H rest r := by
  have hlit : ∀ m, h.buf ≠ .lit m := by
    intro m hm
    cases hw with
    | null hb => rw [hm] at hb; cases hb
    | lit hb ht' => rw [ht] at ht'; cases ht'
    | heap hb => rw [hm] at hb; cases hb
  obtain ⟨H₁, hcl, hO₁, hf₁⟩ := clear_keeps hw hO hc hlit
  obtain ⟨hO₂, hn, hf₂⟩ := bufNew_keeps hO₁ cb
  have hsz : (Buf.sized [] cb).cb = cb := u32_of_lt hcb
  obtain ⟨H₃, b₃, hw₃, hO₃, hf₃, hget₃, hb₃, hbytes⟩ := write_keeps
    (H₁.alloc_get?_next (Buf.sized [] cb)) hO₂ hn (show cb + [(0 : UInt8)].length ≤ _ by
      rw [List.length_singleton]
      omega)
  refine ⟨(H₃, { h with buf := .heap H₁.next, cb := cb, offset := 0 }), ?_, ?_⟩
  · simp only [alloc, hcl, ok_bind, bufNew, hw₃]
    rfl
  · refine Keeps.heap rfl ht hget₃ (by simp only; omega) ?_ hO₃ (hf₁.trans (hf₂.trans hf₃))
    simp only
    intro _ hlen
    rw [hbytes, ← hlen]
    exact overwrite_terminator (by rw [(Buf.sized [] cb).size]; omega)

/-- The copy `c_str` makes of a handle that ends before its buffer does. -/
theorem cStr_copies (hw : WF H h) (hO : H.Owned (own h + rest)) (hc : rest.card + 1 < 2 ^ 32)
    {b : Buf} (hb : h.buf = .heap i) (hget : H.get? i = some b) (hlt : h.offset + h.cb < b.cb) :
    ∃ r, cStr H h = .ok r ∧ Keeps H rest r ∧ r.2.type = .Standard ∧ r.2.buf ≠ .null ∧
      (memory r.1 r.2.buf).take (h.cb + 1) = content H h ++ [0] ∧
      content r.1 r.2 = content H h := by
  have ht := hw.type_eq hb
  have hbl := b.lt
  have hown := own_heap hb ht
  have hO' := hO
  rw [hown, Multiset.singleton_add] at hO'
  obtain ⟨H₁, b₁, hcp, hO₁, hn, hf₁, hget₁, hcb₁, htake⟩ :=
    copyContent_keeps hw (Multiset.le_add_right (own h) rest) hO
  rw [hown, Multiset.singleton_add] at hO₁ hn hf₁
  obtain ⟨H₂, b₂, hw₂, hO₂, hf₂, hget₂, hb₂, hbytes⟩ := write_keeps hget₁ hO₁ hn
    (show h.cb + [(0 : UInt8)].length ≤ b₁.cb + 1 by
      rw [List.length_singleton]
      omega)
  rw [Multiset.cons_swap] at hO₂
  have hne : i ≠ H.next := hO'.ne_next (Multiset.mem_cons_self i rest)
  obtain ⟨H₃, hrel, hO₃, hf₃⟩ := bufRelease_heap hO₂
    (by rw [Multiset.count_cons_of_ne hne]; have := rest.count_le_card i; omega)
  have hget₃ : H₃.get? H.next = some b₂ := (hf₃ _ (Multiset.mem_cons_self _ rest)).trans hget₂
  have hle : rest ≤ i ::ₘ rest := Multiset.le_cons_self rest i
  have hs₁ := b₁.size
  have hterm : b₂.bytes.take (h.cb + 1) = content H h ++ [0] := by
    have hto := take_overwrite (show h.cb + [(0 : UInt8)].length ≤ b₁.bytes.length by
      rw [List.length_singleton]
      omega)
    rw [hbytes, ← htake]
    exact hto
  refine ⟨(H₃, { h with buf := .heap H.next, offset := 0 }), ?_, ?_, ht, nofun, ?_, ?_⟩
  · simp only [cStr, Handle.counted, hb, ht, hget, ne_eq, reduceCtorEq, not_false_eq_true, and_self,
      decide_true, ↓reduceIte, u32_of_lt (show h.offset + h.cb < 2 ^ 32 by omega), hlt, hcp,
      ok_bind,
      hw₂, hrel]
    rfl
  · refine Keeps.heap rfl ht hget₃ (by simp only; omega) ?_ hO₃
      ((hf₁.mono hle).trans ((hf₂.mono hle).trans (hf₃.mono (Multiset.le_cons_self rest H.next))))
    simp only
    intro _ hlen
    rw [hbytes, ← hlen]
    exact overwrite_terminator (by omega)
  · simp only [memory, hget₃, Option.map_some, Option.getD_some]
    exact hterm
  · have hcont := congrArg (List.take h.cb) hterm
    rw [List.take_take, Nat.min_eq_left (by omega), List.take_left' hw.length_content] at hcont
    simp only [content, memory, hget₃, Option.map_some, Option.getD_some, List.drop_zero]
    exact hcont

/-- In every other case `c_str` does nothing. -/
theorem cStr_same (hw : WF H h)
    (hend : ∀ i b, h.buf = .heap i → H.get? i = some b → b.cb ≤ h.offset + h.cb) :
    cStr H h = .ok (H, h) := by
  cases hw with
  | null hb => simp [cStr, Handle.counted, hb, pure, Except.pure]
  | lit hb ht => simp [cStr, Handle.counted, ht, pure, Except.pure]
  | @heap i b hb ht hget hle =>
    have hge := hend i b hb hget
    have hbl := b.lt
    have hn : ¬h.offset + h.cb < b.cb := by omega
    simp only [cStr, Handle.counted, hb, ht, hget, ne_eq, reduceCtorEq, not_false_eq_true, and_self,
      decide_true, ↓reduceIte, u32_of_lt (show h.offset + h.cb < 2 ^ 32 by omega), hn]
    rfl

theorem cStr_keeps (hw : WF H h) (hO : H.Owned (own h + rest)) (hc : rest.card + 1 < 2 ^ 32) :
    ∃ r, cStr H h = .ok r ∧ Keeps H rest r ∧ content r.1 r.2 = content H h ∧
      (r.2 = h ∨ r.2.type = .Standard) := by
  by_cases hend : ∀ i b, h.buf = .heap i → H.get? i = some b → b.cb ≤ h.offset + h.cb
  · exact ⟨(H, h), cStr_same hw hend, ⟨hw, hO, Frame.refl H rest⟩, rfl, .inl rfl⟩
  · push Not at hend
    obtain ⟨i, b, hb, hget, hlt⟩ := hend
    obtain ⟨r, hr, hk, ht, -, -, hcont⟩ := cStr_copies hw hO hc hb hget hlt
    exact ⟨r, hr, hk, hcont, .inr ht⟩

end Alloc

theorem length_lead_le (chars bytes : Bytes) :
    (bytes.takeWhile (inSet chars)).length ≤ bytes.length :=
  (List.takeWhile_prefix _).length_le

/-- The two counts of `trim` do not overlap. -/
theorem countTrail_le (chars bytes : Bytes) (cLead : Nat) :
    countTrail chars bytes cLead ≤ bytes.length - (cLead + 1) := by
  unfold countTrail
  split
  · calc ((bytes.drop (cLead + 1)).reverse.takeWhile (inSet chars)).length
        ≤ (bytes.drop (cLead + 1)).reverse.length := (List.takeWhile_prefix _).length_le
      _ = bytes.length - (cLead + 1) := by rw [List.length_reverse, List.length_drop]
  · exact Nat.zero_le _

/-- `*this = substr(a, b)`: the temporary and the handle share the buffer until the temporary is
destroyed. -/
theorem substrAssign_keeps (hw : WF H h) (hbuf : h.buf ≠ .null) (hO : H.Owned (own h + rest))
    (hc : rest.card + 2 < 2 ^ 32) {a b : Nat} (hab : a ≤ b) (hb : b ≤ h.cb) :
    ∃ H₁ H₂ H₃ temp, temp = { h with cb := u32 (b - a), offset := (h.offset + a) % 2 ^ 24 } ∧
      sliceOf H h a b = .ok (H₁, temp) ∧ assignFrom H₁ h temp = .ok (H₂, temp) ∧
        destroy H₂ temp = .ok H₃ ∧
      Keeps H rest (H₃, temp) ∧ content H₃ temp = content H temp := by
  have hcard : (own h + rest).card ≤ rest.card + 1 := by
    rw [Multiset.card_add, own]
    split
    · rw [Multiset.card_singleton]
      omega
    · rw [Multiset.card_zero]
      omega
  obtain ⟨⟨H₁, temp⟩, hs, hk₁, htemp, hget₁⟩ :=
    sliceOf_keeps hw hbuf (Multiset.le_add_right (own h) rest) hO
    (by omega) hab hb
  simp only at htemp
  have hown : own temp = own h := by
    rw [htemp]
    rfl
  have hO₁ : H₁.Owned (own h + (own temp + rest)) := by
    have howned := hk₁.owned
    rw [← Multiset.add_assoc, Multiset.add_comm (own h), Multiset.add_assoc]
    exact howned
  have hw₁ : WF H₁ h := (hw.of_frame (Multiset.le_add_right (own h) rest) fun j _ => hget₁ j).1
  obtain ⟨⟨H₂, h₂⟩, ha, hr₂, hk₂⟩ := assignFrom_keeps hw₁ hO₁ hk₁.wf (Multiset.le_add_right _ rest)
    (by rw [hown]; omega)
  obtain rfl : h₂ = temp := hr₂
  obtain ⟨H₃, hd, hO₃, hf₃⟩ := releaseOwn_keeps hk₂.wf hk₂.owned (by rw [hown]; omega)
  have hfr : Frame H H₁ rest := fun j _ => hget₁ j
  have hcont₁ : content H₁ h₂ = content H h₂ := by
    rw [content, content]
    cases hp : h₂.buf with
    | null => rfl
    | lit m => rfl
    | heap i => simp only [memory, hget₁ i]
  have hcont₂ := (hk₁.wf.of_frame (Multiset.le_add_right _ rest) hk₂.frame).2
  obtain ⟨hw₃, hcont₃⟩ := hk₂.wf.of_frame (Multiset.le_add_right _ rest) hf₃
  refine ⟨H₁, H₂, H₃, h₂, htemp, hs, ha, hd, ⟨hw₃, hO₃, ?_⟩, ?_⟩
  · exact hfr.trans ((hk₂.frame.mono (Multiset.le_add_left rest _)).trans
      (hf₃.mono (Multiset.le_add_left rest _)))
  · exact hcont₃.trans (hcont₂.trans hcont₁)

/-- What `trim` leaves: the string as it is, or the range behind the leading and before the trailing
characters. -/
theorem trim_cuts (hw : WF H h) (hO : H.Owned (own h + rest)) (hc : rest.card + 2 < 2 ^ 32)
    (chars : Bytes) {cLead : Nat} (hlead : countLead chars (content H h) = .ok cLead) :
    ∃ r, trim H h chars = .ok r ∧ Keeps H rest r ∧ content r.1 r.2 = content H r.2 ∧
      if cLead + countTrail chars (content H h) cLead = 0 then r = (H, h)
      else r.2 = { h with
        cb := u32 (h.cb - countTrail chars (content H h) cLead - cLead)
        offset := (h.offset + cLead) % 2 ^ 24 } := by
  have hlen := hw.length_content
  have hl : cLead ≤ h.cb := by
    unfold countLead at hlead
    simp only at hlead
    split at hlead
    · cases hlead
    · rw [← Except.ok.inj hlead, ← hlen]
      exact length_lead_le chars _
  have htle : countTrail chars (content H h) cLead ≤ h.cb - (cLead + 1) := by
    rw [← hlen]
    exact countTrail_le ..
  generalize htr : countTrail chars (content H h) cLead = cTrail at htle ⊢
  by_cases htot : cLead + cTrail > 0
  · have hbuf : h.buf ≠ .null := by
      intro hb
      cases hw with
      | null _ hcb => omega
      | lit hb' => rw [hb] at hb'; cases hb'
      | heap hb' => rw [hb] at hb'; cases hb'
    have hlo : min h.cb (min cLead (h.cb - cTrail)) = cLead := by omega
    have hhi : min h.cb (max cLead (h.cb - cTrail)) = h.cb - cTrail := by omega
    obtain ⟨H₁, H₂, H₃, temp, htemp, hs, ha, hd, hkeep, hcont⟩ := substrAssign_keeps hw hbuf hO hc
      (show cLead ≤ h.cb - cTrail by omega) (Nat.sub_le _ _)
    refine ⟨(H₃, temp), ?_, hkeep, hcont, ?_⟩
    · simp only [trim, hw.read_eq, ok_bind, hlead, htr, htot, ↓reduceIte, substr, hlo, hhi, hs, ha,
        hd]
      rfl
    · rw [if_neg (by omega)]
      exact htemp
  · refine ⟨(H, h), ?_, ⟨hw, hO, Frame.refl H rest⟩, rfl, ?_⟩
    · simp only [trim, hw.read_eq, ok_bind, hlead, htr, htot, ↓reduceIte]
      rfl
    · rw [if_pos (by omega)]

theorem trim_keeps (hw : WF H h) (hO : H.Owned (own h + rest)) (hc : rest.card + 2 < 2 ^ 32)
    (chars : Bytes) {cLead : Nat} (hlead : countLead chars (content H h) = .ok cLead) :
    ∃ r, trim H h chars = .ok r ∧ r.2.buf = h.buf ∧ r.2.type = h.type ∧ Keeps H rest r := by
  obtain ⟨r, hr, hkeep, -, hcut⟩ := trim_cuts hw hO hc chars hlead
  refine ⟨r, hr, ?_⟩
  split_ifs at hcut
  · rw [hcut] at hkeep ⊢
    exact ⟨rfl, rfl, hkeep⟩
  · rw [hcut]
    exact ⟨rfl, rfl, hkeep⟩

/-- The counter of the first loop overflows. -/
theorem trim_overflow (hw : WF H h) {chars : Bytes}
    (hlead : countLead chars (content H h) = .error .overflow) :
    trim H h chars = .error .overflow := by
  simp only [trim, hw.read_eq, ok_bind, hlead]
  rfl

end Handles

end StringHeap

end Libacorn
