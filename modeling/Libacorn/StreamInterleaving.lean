import Libacorn.StreamRoundtrip

/-!
# Reading a bytestream while it is written

`_cb` is the size of the allocation for `writeBytes` and the end of the data for
`readBytes`. Runs of both on one stream are compared with a record of what was
written where.
-/

namespace Libacorn

open Support

namespace Bytestream

/-- A call of a run. -/
inductive Op where
  | writeBytes (bytes : Bytes)
  | setWriteOffset (offset : Nat)
  | readBytes (cb : Nat)

/-- A stream, and the byte that was last written at each position. -/
structure Traced where
  stream : Bytestream
  log : Nat → Option UInt8

/-- The log after a write of `bytes` at `offset`. -/
def record (log : Nat → Option UInt8) (offset : Nat) (bytes : Bytes) : Nat → Option UInt8 :=
  fun p => if offset ≤ p ∧ p < offset + bytes.length then bytes[p - offset]? else log p

/-- A new stream. -/
def Traced.init : Traced := ⟨fresh, fun _ => none⟩

/-- Some written byte lies at the position `p` or after it. -/
def Traced.From (t : Traced) (p : Nat) : Prop := ∃ q, p ≤ q ∧ t.log q ≠ none

section Runs
variable [Uninit]

/-- One call, with the bytes it delivers. -/
def call (t : Traced) : Op → Outcome (Bytes × Traced)
  | .writeBytes bytes => (writeBytes bytes t.stream).bind fun r =>
      .done ([], ⟨r.2, record t.log t.stream.offsetWrite bytes⟩)
  | .setWriteOffset offset => .done ([], ⟨setWriteOffset offset t.stream, t.log⟩)
  | .readBytes cb => (readBytes cb t.stream).bind fun r => .done (r.1, ⟨r.2, t.log⟩)

/-- What a successful `readBytes` delivers was written at these positions. -/
def Delivers (t : Traced) (out : Bytes) : Op → Prop
  | .readBytes cb => out.length = cb → ∀ i < cb, out[i]? = t.log (t.stream.offsetRead + i)
  | _ => True

/-- `hasMoreToRead()` tells whether a written byte has not been read, and `eof()`
is its negation. -/
def MoreExact (t : Traced) : Prop :=
  (t.stream.hasMoreToRead = true ↔ t.From t.stream.offsetRead) ∧
    t.stream.eof = !t.stream.hasMoreToRead

/-- No call of the run goes outside the allocation, each delivers what was
written, and `hasMoreToRead()` is right before and after each. -/
def Correct (t : Traced) : List Op → Prop
  | [] => MoreExact t
  | op :: ops => MoreExact t ∧ ∃ r, call t op = .done r ∧ Delivers t r.1 op ∧ Correct r.2 ops

/-- The state before a call in which the call does what it should: a write does
not start past the allocation; a read that is not cut short covers written
bytes only, and one that ends before the allocation leaves a written byte. -/
def Meets (t : Traced) : Op → Prop
  | .writeBytes _ => (t.stream.offsetWrite : Int) ≤ t.stream.cb
  | .setWriteOffset _ => True
  | .readBytes cb =>
    ((t.stream.offsetRead + cb : Int) ≤ t.stream.cb →
      ∀ i < cb, t.log (t.stream.offsetRead + i) ≠ none) ∧
    ((t.stream.offsetRead + cb : Int) < t.stream.cb → t.From (t.stream.offsetRead + cb))

/-- All calls of a run are made in such a state. -/
def AllMeet (t : Traced) : List Op → Prop
  | [] => True
  | op :: ops => Meets t op ∧ ∀ r, call t op = .done r → AllMeet r.2 ops

end Runs

/-- Every write, from the current write offset on, ends below `2^31 - 256`. -/
def Small : Nat → List Op → Prop
  | _, [] => True
  | offset, .writeBytes bytes :: ops =>
    offset + bytes.length < 2 ^ 31 - 256 ∧ Small (offset + bytes.length) ops
  | _, .setWriteOffset offset :: ops => Small offset ops
  | offset, .readBytes _ :: ops => Small offset ops

/-! ## The invariant -/

/-- `_cb` is the size of the allocation, which holds what the log says. -/
structure Traced.Inv (t : Traced) : Prop where
  cb_eq : t.stream.cb = t.stream.mem.length
  small : t.stream.mem.length < 2 ^ 31
  read_le : t.stream.offsetRead ≤ t.stream.mem.length
  log : ∀ p b, t.log p = some b → t.stream.mem[p]? = some b

section Inv

variable {t : Traced}

theorem Traced.Inv.sizeT_eq (h : t.Inv) : sizeT t.stream.cb = t.stream.mem.length := by
  have := h.small
  rw [h.cb_eq, sizeT_of_nonneg (by omega) (by omega)]
  rfl

theorem Traced.Inv.lt_of_log (h : t.Inv) {p : Nat} (hp : t.log p ≠ none) :
    p < t.stream.mem.length := by
  obtain ⟨b, hb⟩ := Option.ne_none_iff_exists'.mp hp
  exact (List.getElem?_eq_some_iff.mp (h.log p b hb)).1

theorem Traced.Inv.moreExact_iff (h : t.Inv) :
    MoreExact t ↔ (t.stream.offsetRead < t.stream.mem.length ↔ t.From t.stream.offsetRead) := by
  have heof : t.stream.eof = !t.stream.hasMoreToRead := by
    rw [eof, hasMoreToRead, ← decide_not]
    congr 1
    exact propext Nat.not_lt.symm
  rw [MoreExact, and_iff_left heof, hasMoreToRead, decide_eq_true_eq, h.sizeT_eq]

theorem Traced.Inv.init : Traced.init.Inv := by
  constructor
  · rfl
  · decide
  · exact Nat.le_refl 0
  · intro p b h
    cases h

theorem moreExact_init : MoreExact Traced.init := by
  apply Traced.Inv.init.moreExact_iff.mpr
  constructor
  · intro h
    cases h
  · rintro ⟨q, -, hq⟩
    exact (hq rfl).elim

/-- The written positions after a write. -/
theorem record_ne_none_iff {log : Nat → Option UInt8} {offset p : Nat} {bytes : Bytes} :
    record log offset bytes p ≠ none ↔
      (offset ≤ p ∧ p < offset + bytes.length) ∨ log p ≠ none := by
  unfold record
  split
  next hin =>
    have hlt : p - offset < bytes.length := by omega
    simp [hin, List.getElem?_eq_getElem hlt]
  next hout => simp [hout]

end Inv

/-! ## The calls -/

section Calls
variable [Uninit] {t : Traced}

omit [Uninit] in
/-- What memory holds after a write is on record; the allocation may have got longer by `pad`. -/
theorem Traced.Inv.written (h : t.Inv) {pad bytes : Bytes}
    (hfit : t.stream.offsetWrite + bytes.length ≤ (t.stream.mem ++ pad).length)
    (hsmall : (t.stream.mem ++ pad).length < 2 ^ 31) :
    Traced.Inv ⟨⟨overwrite (t.stream.mem ++ pad) t.stream.offsetWrite bytes,
      ((t.stream.mem ++ pad).length : Nat), t.stream.offsetRead,
      t.stream.offsetWrite + bytes.length⟩, record t.log t.stream.offsetWrite bytes⟩ := by
  have hlen := length_overwrite hfit
  have hle : t.stream.mem.length ≤ (t.stream.mem ++ pad).length := by
    rw [List.length_append]
    omega
  constructor
  · exact congrArg Int.ofNat hlen.symm
  · exact hlen.trans_lt hsmall
  · exact (h.read_le.trans hle).trans hlen.ge
  · intro p b hb
    simp only [record] at hb
    rw [getElem?_overwrite hfit]
    split at hb
    next hin => rw [if_neg (by omega), if_pos hin.2, hb]
    next hout =>
      have hp := h.lt_of_log (p := p) (by rw [hb]; exact Option.some_ne_none b)
      rw [List.getElem?_append_left hp, h.log p b hb]
      split
      · rfl
      · rw [if_neg (by omega)]

/-- The state after `writeBytes`: the allocation may have got longer. -/
theorem writeBytes_overwrite {s : Bytestream} (hs : s.Open) {b : Bytes}
    (hl : s.offsetWrite + b.length ≤ 2 ^ 31 - 256) :
    ∃ pad : Bytes, (pad = [] ∧ s.offsetWrite + b.length ≤ s.mem.length ∨
        s.mem.length < s.offsetWrite + b.length ∧
          (s.mem ++ pad).length = blockSize (s.offsetWrite + b.length)) ∧
      s.offsetWrite + b.length ≤ (s.mem ++ pad).length ∧ (s.mem ++ pad).length < 2 ^ 31 ∧
      writeBytes b s = .done (true, ⟨overwrite (s.mem ++ pad) s.offsetWrite b,
        ((s.mem ++ pad).length : Nat), s.offsetRead, s.offsetWrite + b.length⟩) := by
  have hw := hs.write_le
  have hsm := hs.small
  have hsize : sizeT s.cb = s.mem.length := by
    rw [hs.cb_eq, sizeT_of_nonneg (by omega) (by omega)]
    rfl
  rw [writeBytes_step hs (by omega)]
  by_cases hb : b.length > s.mem.length - s.offsetWrite
  · have hblock : s.offsetWrite + b.length ≤ blockSize (s.offsetWrite + b.length) ∧
        blockSize (s.offsetWrite + b.length) < 2 ^ 31 := by
      unfold blockSize
      omega
    have hlen : (s.mem ++ Uninit.block
        (blockSize (s.offsetWrite + b.length) - s.mem.length)).length =
        blockSize (s.offsetWrite + b.length) := by
      rw [List.length_append, Uninit.length_block]
      omega
    refine ⟨Uninit.block (blockSize (s.offsetWrite + b.length) - s.mem.length),
      Or.inr ⟨by omega, hlen⟩, by omega, by omega, ?_⟩
    have hgrow : grow (blockSize (s.offsetWrite + b.length)) s = .done ((),
        ⟨s.mem ++ Uninit.block (blockSize (s.offsetWrite + b.length) - s.mem.length),
          (blockSize (s.offsetWrite + b.length) : Nat), s.offsetRead, s.offsetWrite⟩) := by
      rw [grow, if_pos (by omega), hsize, List.take_length, int32_of_lt hblock.2]
    rw [if_pos hb, Scan.bind_apply, hgrow, hlen]
    simp only [Scan.bind_apply, Scan.pure_apply, Outcome.bind_done, copyIn]
    rw [if_pos (by omega)]
    rfl
  · refine ⟨[], Or.inl ⟨rfl, by omega⟩, ?_, ?_, ?_⟩
    · rw [List.append_nil]
      omega
    · rw [List.append_nil]
      omega
    · rw [if_neg hb, List.append_nil, ← hs.cb_eq]
      simp only [Scan.bind_apply, Scan.pure_apply, copyIn]
      rw [if_pos (by omega)]
      rfl

/-- A write past the allocation: the free size is negative, a large `size_t`. -/
theorem writeBytes_past {s : Bytestream} {b : Bytes} (hcb : s.cb = s.mem.length)
    (hpast : s.mem.length < s.offsetWrite) (hl : s.offsetWrite + b.length < 2 ^ 31) :
    writeBytes b s = .fault := by
  have hfree : ¬b.length > sizeT (s.cb - s.offsetWrite) := by
    have : (s.cb - s.offsetWrite) % 2 ^ 64 = s.cb - s.offsetWrite + 2 ^ 64 := by omega
    rw [sizeT, this]
    omega
  have hcopy : copyIn b s = .fault := if_neg (by omega)
  simp only [writeBytes, hfree, ↓reduceIte, Scan.bind_apply, Scan.pure_apply, hcopy,
    Outcome.bind_fault]

/-- A write in its place keeps the invariant, and `hasMoreToRead()` stays right. -/
theorem call_writeBytes (h : t.Inv) (hm : MoreExact t) (bytes : Bytes)
    (hw : t.stream.offsetWrite ≤ t.stream.mem.length)
    (hl : t.stream.offsetWrite + bytes.length < 2 ^ 31 - 256) :
    ∃ r, call t (.writeBytes bytes) = .done r ∧ r.2.Inv ∧ MoreExact r.2 ∧
      r.2.stream.offsetWrite = t.stream.offsetWrite + bytes.length ∧
      r.2.stream.offsetRead = t.stream.offsetRead ∧
      r.2.log = record t.log t.stream.offsetWrite bytes ∧
      (t.stream.mem.length < t.stream.offsetWrite + bytes.length →
        r.2.stream.mem.length = blockSize (t.stream.offsetWrite + bytes.length)) := by
  obtain ⟨pad, hpad, hfit, hsmall, heq⟩ :=
    writeBytes_overwrite ⟨h.cb_eq, hw, h.small⟩ (b := bytes) (by omega)
  have hlen := length_overwrite hfit
  have hle : t.stream.mem.length ≤ (t.stream.mem ++ pad).length := by
    rw [List.length_append]
    omega
  have hr := h.read_le
  have hinv := h.written hfit hsmall
  refine ⟨_, by rw [call, heq, Outcome.bind_done], hinv, hinv.moreExact_iff.mpr ?_, rfl, rfl, rfl,
    ?_⟩
  rotate_left
  · intro hlt
    rcases hpad with ⟨-, hle⟩ | ⟨-, hblock⟩
    · omega
    · exact hlen.trans hblock
  rw [show (_ : List UInt8).length = _ from hlen]
  constructor
  · intro hlt
    by_cases hold : t.stream.offsetRead < t.stream.mem.length
    · obtain ⟨q, hq, hlog⟩ := (h.moreExact_iff.mp hm).mp hold
      exact ⟨q, hq, record_ne_none_iff.mpr (Or.inr hlog)⟩
    · -- all was read, and the allocation has grown for this write
      have hgrown : t.stream.mem.length < t.stream.offsetWrite + bytes.length := by
        rcases hpad with ⟨rfl, -⟩ | ⟨hgrown, -⟩
        · rw [List.append_nil] at hlt
          exact (hold hlt).elim
        · exact hgrown
      refine ⟨t.stream.offsetWrite + bytes.length - 1, ?_, record_ne_none_iff.mpr (Or.inl ?_)⟩
      · show t.stream.offsetRead ≤ _
        omega
      · omega
  · rintro ⟨q, hq, hlog⟩
    apply Nat.lt_of_le_of_lt hq
    rcases record_ne_none_iff.mp hlog with hin | hlog
    · omega
    · exact Nat.lt_of_lt_of_le (h.lt_of_log hlog) hle

/-- What `readBytes` delivers and where it stops. -/
theorem call_readBytes (h : t.Inv) (cb : Nat) :
    ∃ r, call t (.readBytes cb) = .done r ∧ r.2.Inv ∧ r.2.log = t.log ∧
      r.2.stream.mem = t.stream.mem ∧ r.2.stream.offsetWrite = t.stream.offsetWrite ∧
      r.2.stream.offsetRead = min (t.stream.offsetRead + cb) t.stream.mem.length ∧
      r.1 = (t.stream.mem.drop t.stream.offsetRead).take cb := by
  have hr := h.read_le
  have hsm := h.small
  have hfree : sizeT (t.stream.cb - t.stream.offsetRead) =
      t.stream.mem.length - t.stream.offsetRead := by
    have hcb := h.cb_eq
    rw [sizeT_of_nonneg (by omega) (by omega)]
    omega
  have hread : readBytes cb t.stream = .done ((t.stream.mem.drop t.stream.offsetRead).take cb,
      { t.stream with
        offsetRead := min (t.stream.offsetRead + cb) t.stream.mem.length }) := by
    rw [readBytes, hfree]
    simp only
    rw [if_pos (by omega)]
    have hoff : t.stream.offsetRead + min cb (t.stream.mem.length - t.stream.offsetRead) =
        min (t.stream.offsetRead + cb) t.stream.mem.length := by omega
    have htake : (t.stream.mem.drop t.stream.offsetRead).take
        (min cb (t.stream.mem.length - t.stream.offsetRead)) =
        (t.stream.mem.drop t.stream.offsetRead).take cb := by
      rw [← List.length_drop]
      exact List.take_eq_take_min.symm
    rw [hoff, htake]
  refine ⟨_, by rw [call, hread, Outcome.bind_done], ?_, rfl, rfl, rfl, rfl, rfl⟩
  constructor
  · exact h.cb_eq
  · exact hsm
  · exact Nat.min_le_right _ _
  · exact h.log

/-- A read is right if and only if it is made in the right state. -/
theorem readBytes_meets_iff (h : t.Inv) {cb : Nat} {r : Bytes × Traced}
    (hr : call t (.readBytes cb) = .done r) :
    Delivers t r.1 (.readBytes cb) ∧ MoreExact r.2 ↔ Meets t (.readBytes cb) := by
  obtain ⟨r', hr', hinv, hlog, hmem, -, hoff, hout⟩ := call_readBytes h cb
  obtain rfl : r' = r := by
    rw [hr'] at hr
    exact Outcome.done.inj hr
  have hle := h.read_le
  have hcb := h.cb_eq
  have hlen : r'.1.length = cb ↔ t.stream.offsetRead + cb ≤ t.stream.mem.length := by
    rw [hout, List.length_take, List.length_drop]
    omega
  rw [hinv.moreExact_iff, hoff, hmem]
  apply and_congr
  · -- an unwritten position holds some byte, and the log none
    have hget : ∀ i, i < cb → r'.1[i]? = t.stream.mem[t.stream.offsetRead + i]? := by
      intro i hi
      rw [hout, List.getElem?_take_of_lt hi, List.getElem?_drop]
    constructor
    · intro hd hfit i hi hnone
      have hfit' : t.stream.offsetRead + cb ≤ t.stream.mem.length := by omega
      have := hd (hlen.mpr hfit') i hi
      rw [hget i hi, hnone] at this
      have := List.getElem?_eq_none_iff.mp this
      omega
    · intro hm hl i hi
      have hfit := hlen.mp hl
      obtain ⟨b, hb⟩ := Option.ne_none_iff_exists'.mp (hm (by omega) i hi)
      rw [hget i hi, hb, h.log _ b hb]
  · have hfrom : r'.2.From = t.From := by
      funext p
      rw [Traced.From, Traced.From, hlog]
    rw [hfrom]
    constructor
    · intro hmore hlt
      have hmin : min (t.stream.offsetRead + cb) t.stream.mem.length =
          t.stream.offsetRead + cb := by
        omega
      rw [hmin] at hmore
      exact hmore.mp (by omega)
    · intro hm
      constructor
      · intro hlt
        have hmin : min (t.stream.offsetRead + cb) t.stream.mem.length =
            t.stream.offsetRead + cb := by
          omega
        rw [hmin]
        exact hm (by omega)
      · rintro ⟨q, hq, hlq⟩
        have := h.lt_of_log hlq
        omega

theorem Correct.moreExact {ops : List Op} (h : Correct t ops) : MoreExact t := by
  cases ops with
  | nil => exact h
  | cons op ops => exact h.1

/-- From any state that keeps the invariant. -/
theorem correct_iff (ops : List Op) (h : t.Inv) (hm : MoreExact t)
    (hs : Small t.stream.offsetWrite ops) : Correct t ops ↔ AllMeet t ops := by
  induction ops generalizing t with
  | nil => exact ⟨fun _ => trivial, fun _ => hm⟩
  | cons op ops ih =>
    rw [Correct, and_iff_right hm, AllMeet]
    cases op with
    | writeBytes bytes =>
      have hcb := h.cb_eq
      by_cases hw : t.stream.offsetWrite ≤ t.stream.mem.length
      · obtain ⟨r, hr, hinv, hmore, hoff, -⟩ := call_writeBytes h hm bytes hw hs.1
        have hrest := ih hinv hmore (by rw [hoff]; exact hs.2)
        have hmeets : Meets t (.writeBytes bytes) := by
          show (t.stream.offsetWrite : Int) ≤ t.stream.cb
          omega
        simp only [hr, Outcome.done.injEq, exists_eq_left', forall_eq', hmeets, true_and, ← hrest]
        exact and_iff_right trivial
      · have hfault : call t (.writeBytes bytes) = .fault := by
          rw [call, writeBytes_past hcb (by omega) (hs.1.trans (by decide)), Outcome.bind_fault]
        constructor
        · rintro ⟨r, hr, -⟩
          rw [hfault] at hr
          cases hr
        · rintro ⟨hmeets, -⟩
          have : (t.stream.offsetWrite : Int) ≤ t.stream.cb := hmeets
          omega
    | setWriteOffset offset =>
      have hinv : Traced.Inv ⟨setWriteOffset offset t.stream, t.log⟩ :=
        ⟨h.cb_eq, h.small, h.read_le, h.log⟩
      have hrest := ih hinv (hinv.moreExact_iff.mpr (h.moreExact_iff.mp hm)) hs
      simp only [call, Outcome.done.injEq, exists_eq_left', forall_eq', ← hrest]
      exact ⟨fun h => ⟨trivial, h.2⟩, fun h => ⟨trivial, h.2⟩⟩
    | readBytes cb =>
      obtain ⟨r, hr, hinv, -, -, hoff, -⟩ := call_readBytes h cb
      have hiff := readBytes_meets_iff h hr
      simp only [hr, Outcome.done.injEq, exists_eq_left', forall_eq']
      constructor
      · rintro ⟨hd, hc⟩
        have hmore := hc.moreExact
        exact ⟨hiff.mp ⟨hd, hmore⟩, (ih hinv hmore (by rw [hoff]; exact hs)).mp hc⟩
      · rintro ⟨hmeets, hall⟩
        obtain ⟨hd, hmore⟩ := hiff.mpr hmeets
        exact ⟨hd, (ih hinv hmore (by rw [hoff]; exact hs)).mpr hall⟩

/-- In a run below `2^31 - 256` bytes everything is right if and only if every
call is made in a state in which it is. -/
theorem interleaving_correct_iff (ops : List Op) (hs : Small 0 ops) :
    Correct Traced.init ops ↔ AllMeet Traced.init ops :=
  correct_iff ops Traced.Inv.init moreExact_init hs

end Calls

/-- Two bytes written, and the first of them read. -/
theorem interleaving_correct_two :
    letI := zeroMemory
    Correct Traced.init [.writeBytes [1, 2], .readBytes 1] := by
  let _ := zeroMemory
  obtain ⟨r, hr, -, -, -, hread, hlog, -⟩ :=
    call_writeBytes Traced.Inv.init moreExact_init [1, 2] (Nat.le_refl 0) (by decide)
  apply (interleaving_correct_iff _ (show Small 0 [.writeBytes [1, 2], .readBytes 1] from
    ⟨by decide, trivial⟩)).mpr
  constructor
  · exact Int.le_refl 0
  · intro r' hr'
    obtain rfl := Outcome.done.inj (hr.symm.trans hr')
    refine ⟨⟨?_, ?_⟩, fun _ _ => trivial⟩
    · intro _ i hi
      obtain rfl : i = 0 := by omega
      rw [hread, hlog]
      exact Option.some_ne_none 1
    · intro _
      refine ⟨1, ?_, ?_⟩
      · rw [hread]
        exact Nat.le_refl 1
      · rw [hlog]
        exact Option.some_ne_none 2

/-- One byte written and read: `hasMoreToRead()` counts the rest of the allocation. -/
theorem hasMoreToRead_counts_allocation :
    letI := zeroMemory
    Small 0 [.writeBytes [1], .readBytes 1] ∧
      ¬Correct Traced.init [.writeBytes [1], .readBytes 1] := by
  let _ := zeroMemory
  constructor
  · exact ⟨by decide, trivial⟩
  · rintro ⟨-, r, hr, -, -, r', hr', -, hmore⟩
    obtain ⟨s, hs, hinv, -, -, hread, hlog, hsize⟩ :=
      call_writeBytes Traced.Inv.init moreExact_init [1] (Nat.le_refl 0) (by decide)
    obtain rfl := Outcome.done.inj (hs.symm.trans hr)
    obtain ⟨s', hs', hinv', hlog', hmem', -, hread', -⟩ := call_readBytes hinv 1
    obtain rfl := Outcome.done.inj (hs'.symm.trans hr')
    have hlen : s.2.stream.mem.length = 256 := hsize (by decide)
    rw [hread, hlen] at hread'
    have hone : s'.2.stream.offsetRead = 1 := hread'
    obtain ⟨q, hq, hq'⟩ := (hinv'.moreExact_iff.mp hmore).mp (by
      rw [hone, hmem', hlen]
      decide)
    rw [hlog', hlog] at hq'
    rcases record_ne_none_iff.mp hq' with hin | hnone
    · have : q < 1 := hin.2
      omega
    · exact hnone rfl

end Bytestream

end Libacorn
