import Libacorn.StringFind

/-!
# insert, append and join of base/string.cpp

`join` appends the pieces to a string of its own, whose buffer always is as long
as its content. It reads the pieces and nothing else, so that its result does
not depend on how many handles share their buffers (`join_content`).
-/

namespace Libacorn

open Support

namespace StringHeap

/-! ## The source -/

section Source
variable [Uninit]

/-- `string::insert(uint32_t, const string&)`, where `str` is not the string itself. -/
def insertString (H : Heap) (h : Handle) (byteOffset : Nat) (str : Handle) :
    Except Fault (Heap × Handle) :=
  match startOf H str with
  | none => pure (H, h)
  | some p => do
    let cb ← textLength p (toI32 str.cb)
    -- `memcpy` would take a negative length for a huge one
    if cb < 0 then .error .bounds
    else
      let bytes ← read H str.buf str.offset cb.toNat
      insert H h byteOffset bytes

/-- `string::append(const string&)` -/
def append (H : Heap) (h str : Handle) : Except Fault (Heap × Handle) := insertString H h h.cb str

/-- The loop of `join`, from index `i` on. -/
def joinLoop (delimiter : Handle) : Nat → List Handle → Heap → Handle → Except Fault (Heap × Handle)
  | _, [], H, s => .ok (H, s)
  | i, v :: vec, H, s => do
    let (H, s) ← if i > 0 then append H s delimiter else pure (H, s)
    let (H, s) ← append H s v
    joinLoop delimiter (i + 1) vec H s

/-- `string::join` -/
def join (H : Heap) (vec : List Handle) (delimiter : Handle) : Except Fault (Heap × Handle) :=
  joinLoop delimiter 0 vec H .empty

end Source

/-! ## Buffers with one reference -/

section Cells

variable {H : Heap} {i : Nat} {n : Nat} {b : Buf}

theorem get?_of_cell (hcell : H.cells i = some ⟨n, b⟩) : H.get? i = some b := by
  rw [RefHeap.get?, hcell]
  rfl

/-- What a write does to the cell and to the others. -/
theorem write_cell (hcell : H.cells i = some ⟨n, b⟩) {o : Nat} {bytes : Bytes}
    (hle : o + bytes.length ≤ b.cb + 1) :
    ∃ H' b', write H (.heap i) o bytes = .ok H' ∧ H'.cells i = some ⟨n, b'⟩ ∧ b'.cb = b.cb ∧
      b'.bytes = overwrite b.bytes o bytes ∧ H'.next = H.next ∧ ∀ j, j ≠ i →
        H'.get? j = H.get? j := by
  have hle' : o + bytes.length ≤ b.bytes.length := by
    rw [b.size]
    exact hle
  refine ⟨H.modify i (b.write o bytes hle'), b.write o bytes hle', ?_, ?_, rfl, rfl, rfl, ?_⟩
  · simp [write, get?_of_cell hcell, hle']
  · rw [RefHeap.modify, RefHeap.set_cells_self, hcell]
    rfl
  · exact fun j hj => H.modify_get?_of_ne _ hj

/-- The cell moves to a new id, count included. -/
theorem bufRealloc_cell [Uninit] (hcell : H.cells i = some ⟨n, b⟩) (cbDelta : Int) :
    ∃ H', bufRealloc H (.heap i) cbDelta = .ok (H', .heap H.next) ∧
      H'.cells H.next = some ⟨n, Buf.sized b.bytes (toU32 (b.cap + cbDelta))⟩ ∧
        H'.next = H.next + 1 ∧
      ∀ j, j ≠ i → j ≠ H.next → H'.get? j = H.get? j := by
  obtain ⟨H', hH'⟩ : ∃ H', bufRealloc H (.heap i) cbDelta = .ok (H', .heap H.next) := by
    simp only [bufRealloc, RefHeap.move, hcell, Option.map_some]
    exact ⟨_, rfl⟩
  refine ⟨H', hH', ?_⟩
  simp only [bufRealloc, RefHeap.move, hcell, Option.map_some] at hH'
  obtain ⟨rfl, -⟩ := Prod.mk.inj (Except.ok.inj hH')
  refine ⟨Function.update_self .., rfl, ?_⟩
  intro j hji hjn
  simp only [RefHeap.get?, Function.update_of_ne hjn, Function.update_of_ne hji]

/-- The move of no bytes, as when a gap is opened at the end. -/
theorem move_nothing (hcell : H.cells i = some ⟨n, b⟩) {a o : Nat} (ha : a ≤ b.cb + 1)
    (ho : o ≤ b.cb + 1) :
    read H (.heap i) a 0 = .ok [] ∧ ∃ H' b', write H (.heap i) o [] = .ok H' ∧
      H'.cells i = some ⟨n, b'⟩ ∧
      b'.cb = b.cb ∧ b'.bytes = b.bytes ∧ H'.next = H.next ∧ ∀ j, j ≠ i → H'.get? j = H.get? j := by
  have hsize := b.size
  have hsame : overwrite b.bytes o [] = b.bytes := by
    rw [overwrite, List.append_nil, List.length_nil, Nat.add_zero, List.take_append_drop]
  obtain ⟨H', b', hok, hcell', hcb, hbytes, hn, hf⟩ :=
    write_cell hcell (show o + ([] : Bytes).length ≤ b.cb + 1 from ho)
  refine ⟨?_, H', b', hok, hcell', hcb, hbytes.trans hsame, hn, hf⟩
  simp only [read, get?_of_cell hcell]
  rw [if_pos (by omega), List.take_zero]

/-- A block that is resized keeps the bytes that fit. -/
theorem sized_take [Uninit] {old : Bytes} {k size : Nat} (hk : k ≤ size) (hold : k ≤ old.length)
    (hlt : size < 2 ^ 32) :
    (Buf.sized old size).bytes.take k = old.take k := by
  simp only [Buf.sized, u32_of_lt hlt]
  rw [List.take_append_of_le_length (by rw [List.length_take]; omega), List.take_take,
    Nat.min_eq_left (by omega)]

end Cells

/-! ## A string that only grows -/

/-- A string with content `w` that has been made by appending: it is empty, or alone on a buffer
that is as long as the content and younger than `base`. -/
inductive Appended (base : Nat) (H : Heap) (h : Handle) (w : Bytes) : Prop
  | nothing (he : h = .empty) (hw : w = [])
  | buffer {i : Nat} {b : Buf} (hh : h = ⟨.heap i, w.length, 0, .Standard⟩)
    (hcell : H.cells i = some ⟨1, b⟩)
    (hcb : b.cb = w.length) (hbytes : b.bytes.take w.length = w) (hbase : base ≤ i)
      (hnext : i < H.next)

/-- The buffers older than `base` are the same in both heaps. -/
structure OldSame (base : Nat) (H H' : Heap) : Prop where
  base_le : base ≤ H'.next
  same : ∀ i < base, H'.get? i = H.get? i

theorem OldSame.trans {base : Nat} {H₁ H₂ H₃ : Heap} (h : OldSame base H₁ H₂)
    (h' : OldSame base H₂ H₃) :
    OldSame base H₁ H₃ :=
  ⟨h'.base_le, fun i hi => (h'.same i hi).trans (h.same i hi)⟩

section Grow

variable [Uninit] {base : Nat} {H H' : Heap} {h d : Handle} {w p : Bytes}

omit [Uninit] in
theorem Appended.content (hg : Appended base H h w) : content H h = w := by
  cases hg with
  | nothing he hw =>
    subst he hw
    rfl
  | buffer hh hcell hcb hbytes =>
    subst hh
    simp only [StringHeap.content, memory, get?_of_cell hcell, Option.map_some, Option.getD_some,
      List.drop_zero]
    exact hbytes

omit [Uninit] in
/-- The bytes and the terminator, written to a buffer that has room for both. -/
theorem write_terminated {i n o : Nat} {b : Buf} (hcell : H.cells i = some ⟨n, b⟩)
    (hcb : b.cb = o + p.length) :
    ∃ H₁ H₂ b₂, write H (.heap i) o p = .ok H₁ ∧ write H₁ (.heap i) (o + p.length) [0] = .ok H₂ ∧
      H₂.cells i = some ⟨n, b₂⟩ ∧ b₂.cb = b.cb ∧ b₂.bytes.take b.cb = b.bytes.take o ++ p ∧
        H₂.next = H.next ∧
      ∀ j, j ≠ i → H₂.get? j = H.get? j := by
  have hsize := b.size
  obtain ⟨H₁, b₁, hw₁, hcell₁, hb₁, hbytes₁, hn₁, hf₁⟩ :=
    write_cell hcell (show o + p.length ≤ b.cb + 1 by omega)
  obtain ⟨H₂, b₂, hw₂, hcell₂, hb₂, hbytes₂, hn₂, hf₂⟩ := write_cell hcell₁
    (show o + p.length + [(0 : UInt8)].length ≤ b₁.cb + 1 by rw [List.length_singleton]; omega)
  refine ⟨H₁, H₂, b₂, hw₁, hw₂, hcell₂, hb₂.trans hb₁, ?_, hn₂.trans hn₁, fun j hj =>
    (hf₂ j hj).trans (hf₁ j hj)⟩
  have hlen₁ := b₁.size
  have htake₁ := take_overwrite (show o + p.length ≤ b.bytes.length by omega)
  have htake₂ := take_overwrite (show o + p.length + [(0 : UInt8)].length ≤ b₁.bytes.length by
    rw [List.length_singleton]
    omega)
  calc b₂.bytes.take b.cb
    _ = ((overwrite b₁.bytes (o + p.length) [0]).take (o + p.length + 1)).take (o + p.length) := by
        rw [hbytes₂, List.take_take, Nat.min_eq_left (by omega), hcb]
    _ = b₁.bytes.take (o + p.length) := by
        rw [← List.length_singleton (a := (0 : UInt8)), htake₂,
          List.take_left' (by rw [List.length_take]; omega)]
    _ = b.bytes.take o ++ p := by
        rw [hbytes₁, htake₁]

/-- The first bytes. -/
theorem assign_appended (hbase : base ≤ H.next) (hp : p.length < 2 ^ 32) :
    ∃ H' h', assign H .empty (some p) = .ok (H', h') ∧ Appended base H' h' p ∧
      OldSame base H H' := by
  have hcb : (Buf.sized [] p.length).cb = p.length := u32_of_lt hp
  have hcell : (H.alloc (Buf.sized [] p.length)).cells H.next = some ⟨1, Buf.sized [] p.length⟩ :=
    Function.update_self ..
  obtain ⟨H₁, H₂, b₂, hw₁, hw₂, hcell₂, hb₂, hbytes, hn, hf⟩ :=
    write_terminated (o := 0) (p := p) hcell (by omega)
  rw [Nat.zero_add] at hw₂
  rw [hcb, List.take_zero, List.nil_append] at hbytes
  have hnext : H₂.next = H.next + 1 := hn
  refine ⟨H₂, ⟨.heap H.next, p.length, 0, .Standard⟩, ?_, ?_, ?_, ?_⟩
  · simp only [assign, releaseOwn, Handle.counted, Handle.empty, ne_eq, not_true_eq_false,
      false_and, decide_false, Bool.false_eq_true, ↓reduceIte, bufNew]
    rw [show (pure H : Except Fault Heap) = .ok H from rfl, ok_bind, hw₁, ok_bind, hw₂]
    rfl
  · exact .buffer rfl hcell₂ (hb₂.trans hcb) hbytes hbase (by omega)
  · omega
  · intro i hi
    have hne : i ≠ H.next := by omega
    rw [hf i hne, RefHeap.alloc_get?_of_ne _ _ hne]

/-- More bytes. -/
theorem insert_appended (hg : Appended base H h w) (hbase : base ≤ H.next)
    (hlen : w.length + p.length < 2 ^ 32) :
    ∃ H' h', insert H h h.cb p = .ok (H', h') ∧ Appended base H' h' (w ++ p) ∧
      OldSame base H H' := by
  by_cases hp : p = []
  · refine ⟨H, h, ?_, ?_, hbase, fun _ _ => rfl⟩
    · rw [insert, if_pos hp]
      rfl
    · rw [hp, List.append_nil]
      exact hg
  · cases hg with
    | nothing he hw =>
      subst he hw
      obtain ⟨H', h', hok, hg', hold⟩ := assign_appended hbase (show p.length < 2 ^ 32 by omega)
      refine ⟨H', h', ?_, hg', hold⟩
      rw [insert, if_neg hp]
      exact hok
    | @buffer i b hh hcell hcb hbytes hbi hnext =>
      subst hh
      have hsize := b.size
      have hgrow : toU32 ((b.cap : Int) + (p.length : Int)) = w.length + p.length := by
        rw [b.cap_eq, hcb, toU32_of_nonneg (by omega) (by omega)]
        omega
      obtain ⟨b', hb'⟩ : ∃ b', b' = Buf.sized b.bytes (w.length + p.length) := ⟨_, rfl⟩
      have hcb' : b'.cb = w.length + p.length := by
        rw [hb']
        exact u32_of_lt hlen
      have hbytes' : b'.bytes.take w.length = w := by
        rw [hb', sized_take (by omega) (by omega) hlen, hbytes]
      obtain ⟨H₁, hmove, hcell₁, hn₁, hget₁⟩ := bufRealloc_cell hcell (p.length : Int)
      rw [hgrow, ← hb'] at hcell₁
      obtain ⟨hread, H₂, b₂, hw₂, hcell₂, hcb₂, hbytes₂, hn₂, hf₂⟩ := move_nothing hcell₁
        (show w.length ≤ b'.cb + 1 by omega) (show w.length + p.length ≤ b'.cb + 1 by omega)
      obtain ⟨H₃, H₄, b₄, hw₃, hw₄, hcell₄, hcb₄, hbytes₄, hn₄, hf₄⟩ := write_terminated hcell₂
        (show b₂.cb = w.length + p.length by omega)
      refine ⟨H₄, ⟨.heap H.next, (w ++ p).length, 0, .Standard⟩, ?_, ?_, ?_, ?_⟩
      · have hprep : prepareToModify H ⟨.heap i, w.length, 0, .Standard⟩ =
            .ok (H, ⟨.heap i, w.length, 0, .Standard⟩) := by
          simp only [prepareToModify, hcell]
          rfl
        simp only [insert, hp, reduceCtorEq, ↓reduceIte, hprep, ok_bind, hmove, Nat.zero_add,
          Int.sub_self]
        rw [show toU32 0 = 0 from rfl, hread, ok_bind, hw₂, ok_bind, hw₃, ok_bind, u32_of_lt hlen,
          hw₄, List.length_append]
        rfl
      · refine .buffer rfl hcell₄ ?_ ?_ hbase ?_
        · rw [List.length_append]
          omega
        · rw [List.length_append, ← hcb', ← hcb₂, hbytes₄, hbytes₂, hbytes']
        · omega
      · omega
      · intro j hj
        rw [hf₄ j (by omega), hf₂ j (by omega), hget₁ j (by omega) (by omega)]

end Grow

/-! ## Joining -/

section Join

variable [Uninit] {base : Nat} {H H' : Heap} {h v d : Handle} {w : Bytes}

/-- The ids from `base` on are not used. -/
def Unused (base : Nat) (H : Heap) : Prop := ∀ i, base ≤ i → H.get? i = none

omit [Uninit] in
/-- A handle keeps its content while younger buffers are made. -/
theorem WF.of_oldSame (hw : WF H v) (hu : Unused base H) (hold : OldSame base H H') :
    WF H' v ∧ content H' v = content H v := by
  apply hw.of_frame (le_refl (own v))
  intro i hi
  apply hold.same
  cases hw with
  | null hb =>
    rw [own_of_not_heap (by simp [hb])] at hi
    exact absurd hi (Multiset.notMem_zero i)
  | lit hb =>
    rw [own_of_not_heap (by simp [hb])] at hi
    exact absurd hi (Multiset.notMem_zero i)
  | heap hb ht hget =>
    rw [own_heap hb ht, Multiset.mem_singleton] at hi
    subst hi
    by_contra hge
    rw [hu _ (Nat.not_lt.mp hge)] at hget
    cases hget

/-- What is inserted. -/
theorem insertString_eq (hw : WF H v) (hlt : v.cb < 2 ^ 31) (o : Nat) :
    insertString H h o v = insert H h o (content H v) := by
  rw [insertString, startOf]
  split_ifs with hb
  · have hnil : content H v = [] := by
      rw [content, hb]
      simp [memory]
    rw [hnil, insert, if_pos rfl]
  · have hlen : textLength ((memory H v.buf).drop v.offset) (toI32 v.cb) = .ok (v.cb : Int) := by
      rw [textLength, toI32_of_lt hlt, if_neg (by omega)]
      rfl
    simp only [hlen, ok_bind]
    rw [if_neg (by omega), Int.toNat_natCast, hw.read_eq, ok_bind]

theorem append_eq (hw : WF H v) (hlt : v.cb < 2 ^ 31) :
    append H h v = insert H h h.cb (content H v) :=
  insertString_eq hw hlt h.cb

/-- The rest of the loop appends the delimiter and a piece in every round. -/
theorem joinLoop_content {H₀ : Heap} (hu : Unused base H₀) (hd : WF H₀ d) (hdlt : d.cb < 2 ^ 31)
    {vec : List Handle} (hvec : ∀ v ∈ vec, WF H₀ v ∧ v.cb < 2 ^ 31) {i : Nat} (hi : 0 < i)
    (hold : OldSame base H₀ H) (ha : Appended base H h w)
    (hlen : (w ++ vec.flatMap fun v => content H₀ d ++ content H₀ v).length < 2 ^ 32) :
    ∃ H' j, joinLoop d i vec H h = .ok (H', j) ∧
      content H' j = w ++ vec.flatMap fun v => content H₀ d ++ content H₀ v := by
  induction vec generalizing i H h w with
  | nil => exact ⟨H, h, rfl, by rw [ha.content, List.flatMap_nil, List.append_nil]⟩
  | cons v vec ih =>
    obtain ⟨⟨hv, hvlt⟩, hvec⟩ := List.forall_mem_cons.mp hvec
    rw [List.flatMap_cons] at hlen ⊢
    simp only [List.length_append] at hlen
    obtain ⟨hd₁, hdc⟩ := hd.of_oldSame hu hold
    obtain ⟨H₁, h₁, hins₁, ha₁, hold₁⟩ := insert_appended ha hold.base_le
      (show w.length + (content H₀ d).length < 2 ^ 32 by omega)
    rw [← hdc, ← append_eq hd₁ hdlt] at hins₁
    have hold₁ := hold.trans hold₁
    obtain ⟨hv₁, hvc⟩ := hv.of_oldSame hu hold₁
    obtain ⟨H₂, h₂, hins₂, ha₂, hold₂⟩ := insert_appended ha₁ hold₁.base_le
      (show (w ++ content H₀ d).length + (content H₀ v).length <
        2 ^ 32 by rw [List.length_append]; omega)
    rw [← hvc, ← append_eq hv₁ hvlt] at hins₂
    obtain ⟨H', j, hloop, hcont⟩ := ih hvec (Nat.succ_pos i) (hold₁.trans hold₂) ha₂
      (by simp only [List.length_append]; omega)
    refine ⟨H', j, ?_, ?_⟩
    · rw [joinLoop, if_pos hi, hins₁, ok_bind]
      simp only [hins₂, ok_bind]
      exact hloop
    · rw [hcont, List.append_assoc, List.append_assoc, List.append_assoc]

omit [Uninit] in
theorem intercalate_cons_flatMap {α : Type} (d v : List α) (vs : List (List α)) :
    d.intercalate (v :: vs) = v ++ vs.flatMap fun v => d ++ v := by
  induction vs generalizing v with
  | nil => rw [List.intercalate_singleton, List.flatMap_nil, List.append_nil]
  | cons v' vs ih =>
    rw [List.intercalate_cons_cons, ih, List.flatMap_cons, List.append_assoc, List.append_assoc]

/-- `join` puts the delimiter between the pieces. A delimiter of `2^31` bytes or more has no
length, and can join one piece only. -/
theorem join_content (hu : Unused H.next H) (hd : WF H d) {vec : List Handle}
    (hvec : ∀ v ∈ vec, WF H v ∧ v.cb < 2 ^ 31) (hdlt : d.cb < 2 ^ 31 ∨ vec.length ≤ 1)
    (hlen : ((content H d).intercalate (vec.map (content H))).length < 2 ^ 32) :
    ∃ H' j, join H vec d = .ok (H', j) ∧
      content H' j = (content H d).intercalate (vec.map (content H)) := by
  cases vec with
  | nil => exact ⟨H, .empty, rfl, rfl⟩
  | cons v vec =>
    obtain ⟨⟨hv, hvlt⟩, hvec⟩ := List.forall_mem_cons.mp hvec
    rw [List.map_cons, intercalate_cons_flatMap, List.flatMap_map] at hlen ⊢
    simp only [List.length_append] at hlen
    have hempty : Appended H.next H .empty [] := .nothing rfl rfl
    obtain ⟨H₁, h₁, hins, ha, hold⟩ := insert_appended hempty (Nat.le_refl _)
      (show ([] : Bytes).length + (content H v).length < 2 ^ 32 by rw [List.length_nil]; omega)
    rw [← append_eq hv hvlt] at hins
    have hloop : ∃ H' j, joinLoop d 1 vec H₁ h₁ = .ok (H', j) ∧
        content H' j = content H v ++ vec.flatMap fun v => content H d ++ content H v := by
      rcases hdlt with hdlt | hone
      · exact joinLoop_content hu hd hdlt hvec Nat.one_pos hold ha
          (by simp only [List.length_append]; exact hlen)
      · have hnil : vec = [] := by
          rw [List.length_cons] at hone
          exact List.eq_nil_of_length_eq_zero (by omega)
        subst hnil
        exact ⟨H₁, h₁, rfl, by rw [ha.content, List.flatMap_nil, List.append_nil]; rfl⟩
    obtain ⟨H', j, hloop, hcont⟩ := hloop
    refine ⟨H', j, ?_, hcont⟩
    rw [join, joinLoop, if_neg (Nat.lt_irrefl 0)]
    simp only [show (pure (H, Handle.empty) : Except Fault (Heap × Handle)) =
      .ok (H, .empty) from rfl, ok_bind, hins]
    exact hloop

end Join

end StringHeap

end Libacorn
