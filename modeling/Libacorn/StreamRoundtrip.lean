import Libacorn.Bytestream

/-!
# Round trips through a bytestream

`writeVal` appends the encoding of a val and `readVal` consumes exactly that
encoding, whatever follows it. Numbers, arrays and maps come back from any
stream and for any uninitialised memory.
-/

namespace Libacorn

open Support

namespace Bytestream

/-! ## Sizes -/

theorem sizeT_of_nonneg {i : Int} (h0 : 0 ≤ i) (h : i < 2 ^ 64) : sizeT i = i.toNat := by
  rw [sizeT, Int.emod_eq_of_lt h0 h]

theorem int32_of_lt {n : Nat} (h : n < 2 ^ 31) : int32 n = n := by
  unfold int32
  omega

/-- The mask of `writeBytes` clears the low byte and the bits above 32. -/
theorem and_mask_block (x : Nat) : x &&& 0xffffff00 = x % 2 ^ 32 / 2 ^ 8 * 2 ^ 8 := by
  have hm : (0xffffff00 : Nat) = (2 ^ 24 - 1) * 2 ^ 8 := by decide
  apply Nat.eq_of_testBit_eq
  intro i
  rw [hm, Nat.testBit_and, Nat.testBit_mul_two_pow, Nat.testBit_mul_two_pow,
    Nat.testBit_two_pow_sub_one, Nat.testBit_div_two_pow, Nat.testBit_mod_two_pow]
  by_cases h8 : 8 ≤ i
  · have e : i - 8 + 8 = i := by omega
    have hlt : (i - 8 < 24) ↔ (i < 32) := by omega
    simp [h8, e, hlt, Bool.and_comm]
  · simp [h8]

/-! ## Writing -/

/-- The allocation has the size the stream thinks it has. -/
structure Open (s : Bytestream) : Prop where
  cb_eq : s.cb = s.mem.length
  write_le : s.offsetWrite ≤ s.mem.length
  small : s.mem.length < 2 ^ 31

/-- The bytes written so far. -/
def written (s : Bytestream) : Bytes := s.mem.take s.offsetWrite

/-- Writing never fails below `2^31 - 256` bytes. -/
def output : Output Bytestream where
  ready := Open
  written := written
  room := 2 ^ 31 - 256

theorem Open.fresh : Open fresh := ⟨rfl, Nat.le_refl 0, by decide⟩

theorem Open.length_written {s : Bytestream} (h : s.Open) : s.written.length = s.offsetWrite := by
  have := h.write_le
  simp [written]
  omega

/-- The copy keeps what was written and appends. -/
theorem copyIn_eq {s : Bytestream} {b : Bytes} (h : s.offsetWrite + b.length ≤ s.mem.length) :
    ∃ t, copyIn b s = .done ((), t) ∧ t.cb = s.cb ∧ t.mem.length = s.mem.length ∧
      t.offsetWrite = s.offsetWrite + b.length ∧ t.written = s.written ++ b := by
  refine ⟨_, if_pos h, rfl, length_overwrite h, rfl, ?_⟩
  simp only [written]
  exact take_overwrite h

/-- The size of a new allocation for `n` bytes. -/
def blockSize (n : Nat) : Nat := (n + 255) % 2 ^ 32 / 2 ^ 8 * 2 ^ 8

section Write
variable [Uninit]

theorem grow_eq {s : Bytestream} (hs : s.Open) {newCb : Nat} (h : s.mem.length ≤ newCb) :
    ∃ t, grow newCb s = .done ((), t) ∧ t.cb = int32 newCb ∧ t.mem.length = newCb ∧
      t.offsetWrite = s.offsetWrite ∧ t.written = s.written := by
  have hcb : sizeT s.cb = s.mem.length := by
    have := hs.small
    rw [hs.cb_eq, sizeT_of_nonneg (by omega) (by omega)]
    rfl
  refine ⟨_, if_pos (by rw [hcb]; exact ⟨Nat.le_refl _, h⟩), rfl, ?_, rfl, ?_⟩
  · simp [hcb, Uninit.length_block]
    omega
  · have := hs.write_le
    simp only [written, hcb, List.take_length]
    rw [List.take_append_of_le_length hs.write_le]

/-- What `writeBytes` does on an open stream. -/
theorem writeBytes_step {s : Bytestream} (hs : s.Open) {b : Bytes}
    (hl : s.offsetWrite + b.length < 2 ^ 33) :
    writeBytes b s = (do
      if b.length > s.mem.length - s.offsetWrite then grow (blockSize (s.offsetWrite + b.length))
      else pure ()
      copyIn b
      pure true : Scan Bytestream Bool) s := by
  have hcb := hs.cb_eq
  have hw := hs.write_le
  have hsm := hs.small
  have hfree : sizeT (s.cb - s.offsetWrite) = s.mem.length - s.offsetWrite := by
    rw [sizeT_of_nonneg (by omega) (by omega)]
    omega
  by_cases hb : b.length > s.mem.length - s.offsetWrite
  · have hnew : sizeT (s.cb + ((b.length : Int) - ((s.mem.length - s.offsetWrite : Nat) : Int))) =
        s.offsetWrite + b.length := by
      rw [sizeT_of_nonneg (by omega) (by omega)]
      omega
    simp only [writeBytes, hfree, hnew, and_mask_block, blockSize]
  · simp only [writeBytes, hfree, hb, ↓reduceIte]

/-- Below `2^32 - 256` bytes the new allocation is large enough; below `2^31 - 256`
its size is also an `int32_t`. -/
theorem writeBytes_eq {s : Bytestream} (hs : s.Open) {b : Bytes}
    (hl : s.offsetWrite + b.length ≤ 2 ^ 32 - 256) :
    ∃ t, writeBytes b s = .done (true, t) ∧ t.mem.length < 2 ^ 32 ∧
      t.offsetWrite = s.offsetWrite + b.length ∧ t.offsetWrite ≤ t.mem.length ∧
      t.written = s.written ++ b ∧ (s.offsetWrite + b.length ≤ 2 ^ 31 - 256 → t.Open) := by
  have hcb := hs.cb_eq
  have hw := hs.write_le
  have hsm := hs.small
  rw [writeBytes_step hs (by omega)]
  by_cases hb : b.length > s.mem.length - s.offsetWrite
  · have hsize : s.offsetWrite + b.length ≤ blockSize (s.offsetWrite + b.length) ∧
        blockSize (s.offsetWrite + b.length) < s.offsetWrite + b.length + 256 ∧
        blockSize (s.offsetWrite + b.length) < 2 ^ 32 := by
      unfold blockSize
      omega
    obtain ⟨t, ht, htcb, htlen, hto, htw⟩ := grow_eq hs
      (show s.mem.length ≤ blockSize (s.offsetWrite + b.length) by omega)
    obtain ⟨u, hu, hucb, hulen, huo, huw⟩ := copyIn_eq (s := t) (b := b) (by omega)
    refine ⟨u, ?_, by omega, by omega, by omega, by rw [huw, htw], ?_⟩
    · simp only [hb, ↓reduceIte, Scan.bind_apply, ht, Outcome.bind_done, hu, Scan.pure_apply]
    · intro h31
      have hblock : blockSize (s.offsetWrite + b.length) < 2 ^ 31 := by
        unfold blockSize
        omega
      refine ⟨?_, by omega, by omega⟩
      rw [hucb, htcb, int32_of_lt hblock, hulen, htlen]
  · obtain ⟨u, hu, hucb, hulen, huo, huw⟩ := copyIn_eq (s := s) (b := b) (by omega)
    refine ⟨u, ?_, by omega, huo, by omega, huw, ?_⟩
    · simp only [hb, ↓reduceIte, Scan.bind_apply, Scan.pure_apply, Outcome.bind_done, hu]
    · intro _
      exact ⟨by rw [hucb, hcb, hulen], by omega, by omega⟩

theorem writeBytes_writes (b : Bytes) : output.Writes (writeBytes b) b := by
  intro s hs hl
  rw [List.length_append, show output.written s = s.written from rfl, hs.length_written] at hl
  have hl' : s.offsetWrite + b.length ≤ 2 ^ 31 - 256 := hl
  obtain ⟨t, ht, -, -, -, htw, hto⟩ := writeBytes_eq hs (b := b) (by omega)
  exact ⟨t, ht, hto hl', htw⟩

theorem writeString_writes (b : Bytes) : output.Writes (writeString b) (leBytes 4 b.length ++ b) :=
  (writeBytes_writes _).seq (writeBytes_writes b)

theorem writeTyped_writes {v : CVal} (h : output.Writes (writePayload v) v.payload) :
    output.Writes (writeTyped v.type (writePayload v)) v.encode :=
  (writeBytes_writes _).seq h

end Write

end Bytestream

/-! ## Structured values -/

/-- The tags whose payload is a plain number, or nothing. -/
def Val.IsScalar : CVal → Prop
  | .empty => True
  | .int32 _ => True
  | .int64 _ => True
  | .uint32 _ => True
  | .uint64 _ => True
  | .float32 _ => True
  | .float64 _ => True
  | _ => False

/-- Scalars, arrays and maps, to any depth. -/
inductive Structured : CVal → Prop
  | scalar {v : CVal} (h : v.IsScalar) : Structured v
  | array {vec : List CVal} (h : ∀ v ∈ vec, Structured v) : Structured (.array vec)
  | map {fields : List (Bytes × CVal)} (hs : OrderedMap.Sorted fields)
      (h : ∀ f ∈ fields, Structured f.2) : Structured (.map fields)

theorem destructsElements_iff {vec : List CVal} :
    Val.destructsElements vec = true ↔ ∀ v ∈ vec, v.destructs = true := by
  induction vec with
  | nil => simp [Val.destructsElements]
  | cons v vec ih => simp [Val.destructsElements, ih]

theorem destructsFields_iff {fields : List (Bytes × CVal)} :
    Val.destructsFields fields = true ↔ ∀ f ∈ fields, f.2.destructs = true := by
  induction fields with
  | nil => simp [Val.destructsFields]
  | cons f fields ih => simp [Val.destructsFields, ih]

theorem Structured.destructs {v : CVal} (h : Structured v) : v.destructs = true := by
  induction h with
  | @scalar v h =>
    cases v with
    | array vec => exact h.elim
    | map fields => exact h.elim
    | raw tag bits => exact h.elim
    | _ => rfl
  | array _ ih => exact destructsElements_iff.mpr ih
  | map _ _ ih => exact destructsFields_iff.mpr ih

namespace Bytestream

section Write
variable [Uninit]

theorem writePayload_scalar {v : CVal} (h : v.IsScalar) :
    output.Writes (writePayload v) v.payload := by
  cases v with
  | empty => exact Output.Writes.pure
  | int32 i => exact writeBytes_writes _
  | int64 i => exact writeBytes_writes _
  | uint32 u => exact writeBytes_writes _
  | uint64 u => exact writeBytes_writes _
  | float32 f => exact writeBytes_writes _
  | float64 f => exact writeBytes_writes _
  | _ => exact h.elim

theorem writeElements_writes {vec : List CVal}
    (h : ∀ v ∈ vec, output.Writes (writePayload v) v.payload) :
    output.Writes (writeElements vec) (Val.encodeElements vec) := by
  induction vec with
  | nil =>
    rw [writeElements, Val.encodeElements]
    exact Output.Writes.pure
  | cons v vec ih =>
    rw [writeElements, Val.encodeElements]
    apply (writeTyped_writes (h v (List.mem_cons_self ..))).seq
    exact ih fun v hv => h v (List.mem_cons_of_mem _ hv)

theorem writeFields_writes {fields : List (Bytes × CVal)}
    (h : ∀ f ∈ fields, output.Writes (writePayload f.2) f.2.payload) :
    output.Writes (writeFields fields) (Val.encodeFields fields) := by
  induction fields with
  | nil =>
    rw [writeFields, Val.encodeFields]
    exact Output.Writes.pure
  | cons f fields ih =>
    rw [writeFields, Val.encodeFields]
    apply (writeString_writes f.1).seq
    apply (writeTyped_writes (h f (List.mem_cons_self ..))).seq
    exact ih fun f hf => h f (List.mem_cons_of_mem _ hf)

theorem writePayload_structured {v : CVal} (h : Structured v) :
    output.Writes (writePayload v) v.payload := by
  induction h with
  | scalar h => exact writePayload_scalar h
  | array _ ih =>
    rw [writePayload, Val.payload]
    exact (writeBytes_writes _).seq (writeElements_writes ih)
  | map _ _ ih =>
    rw [writePayload, Val.payload]
    exact (writeBytes_writes _).seq (writeFields_writes ih)

end Write

/-! ## Reading -/

/-- The stream over `src`. -/
structure Over (src : Bytes) (s : Bytestream) : Prop where
  mem_eq : s.mem = src
  cb_eq : s.cb = src.length
  read_le : s.offsetRead ≤ src.length
  small : src.length < 2 ^ 31

def input (src : Bytes) : Input Bytestream where
  ready := Over src
  ahead s := src.drop s.offsetRead

theorem Over.ofBytearray {src : Bytes} (h : src.length < 2 ^ 31) : Over src (ofBytearray src) :=
  ⟨rfl, int32_of_lt h, Nat.zero_le _, h⟩

/-- Where the reader is, by what is left to read. -/
theorem Over.offsetRead_add {src : Bytes} {s : Bytestream} (h : Over src s) {rest : Bytes}
    (ha : (input src).ahead s = rest) : s.offsetRead + rest.length = src.length := by
  have hle := h.read_le
  rw [← ha]
  simp only [input, List.length_drop]
  omega

section Read
variable {src : Bytes}

theorem readBytes_reads (b : Bytes) : (input src).Reads (readBytes b.length) b b := by
  intro s rest hs ha
  have hlen := hs.offsetRead_add ha
  have hsm := hs.small
  rw [List.length_append] at hlen
  have havail : sizeT (s.cb - s.offsetRead) = src.length - s.offsetRead := by
    rw [hs.cb_eq, sizeT_of_nonneg (by omega) (by omega)]
    omega
  have hmin : min b.length (src.length - s.offsetRead) = b.length := by omega
  have htake : (src.drop s.offsetRead).take b.length = b := by
    have ha' : src.drop s.offsetRead = b ++ rest := ha
    rw [ha', List.take_left]
  refine ⟨{ s with offsetRead := s.offsetRead + b.length }, ?_, ?_, ?_⟩
  · simp only [readBytes, havail, hmin, hs.mem_eq, htake]
    exact if_pos (by omega)
  · exact ⟨hs.mem_eq, hs.cb_eq, by simp only; omega, hsm⟩
  · have ha' : src.drop s.offsetRead = b ++ rest := ha
    simp only [input]
    rw [← List.drop_drop, ha', List.drop_left]

theorem readLe_reads {k x : Nat} (hx : x < 256 ^ k) :
    (input src).Reads (readLe k) (leBytes k x) (some x) := by
  have h : (input src).Reads (readBytes (leBytes k x).length) _ _ := readBytes_reads (leBytes k x)
  rw [length_leBytes] at h
  apply h.map
  rw [if_pos (length_leBytes k x), ofLe_leBytes, Nat.mod_eq_of_lt hx]

theorem readMember_reads {k x : Nat} (hx : x < 256 ^ k) (member : Nat → CVal) (v : CVal) :
    (input src).Reads (readMember k member v) (leBytes k x) (true, member x) := by
  have h : (input src).Reads (readBytes (leBytes k x).length) _ _ := readBytes_reads (leBytes k x)
  rw [length_leBytes] at h
  apply h.map
  rw [if_pos (length_leBytes k x), ofLe_leBytes, Nat.mod_eq_of_lt hx]

theorem readElements_reads {value : Scan Bytestream (Bool × CVal)} {vec : List CVal}
    (hd : ∀ v ∈ vec, v.destructs = true)
    (h : ∀ v ∈ vec, (input src).Reads value v.encode (true, v)) (acc : List CVal) :
    (input src).Reads (readElements value vec.length acc) (Val.encodeElements vec)
      (true, acc ++ vec) := by
  induction vec generalizing acc with
  | nil =>
    rw [Val.encodeElements, List.append_nil]
    exact Input.Reads.pure _
  | cons v vec ih =>
    rw [Val.encodeElements, List.append_cons]
    apply (h v (List.mem_cons_self ..)).bind
    rw [if_pos (hd v (List.mem_cons_self ..)), if_pos rfl]
    exact ih (fun v hv => hd v (List.mem_cons_of_mem _ hv))
      (fun v hv => h v (List.mem_cons_of_mem _ hv)) (acc ++ [v])

section Uninit
variable [Uninit]

theorem readString_reads {b : Bytes} (hb : b.length < 2 ^ 32) :
    (input src).Reads (readString false) (leBytes 4 b.length ++ b) (b, true) := by
  apply (readLe_reads hb).bind
  apply (readBytes_reads b).map
  have hz : Uninit.block 0 = [] := List.length_eq_zero_iff.mp (Uninit.length_block 0)
  rw [Nat.sub_self, hz, List.append_nil, decide_eq_true rfl]

theorem readFields_reads {value : Scan Bytestream (Bool × CVal)} {fields : List (Bytes × CVal)}
    (hk : ∀ f ∈ fields, f.1.length < 2 ^ 32) (hd : ∀ f ∈ fields, f.2.destructs = true)
    (h : ∀ f ∈ fields, (input src).Reads value f.2.encode (true, f.2))
    (acc : List (Bytes × CVal)) :
    (input src).Reads (readFields value fields.length acc) (Val.encodeFields fields)
      (true, OrderedMap.insertAll acc fields) := by
  induction fields generalizing acc with
  | nil =>
    rw [Val.encodeFields]
    exact Input.Reads.pure _
  | cons f fields ih =>
    rw [Val.encodeFields]
    apply (readString_reads (hk f (List.mem_cons_self ..))).bind
    rw [if_neg (by simp)]
    apply (h f (List.mem_cons_self ..)).bind
    rw [if_pos (hd f (List.mem_cons_self ..)), if_pos rfl]
    exact ih (fun f hf => hk f (List.mem_cons_of_mem _ hf))
      (fun f hf => hd f (List.mem_cons_of_mem _ hf))
      (fun f hf => h f (List.mem_cons_of_mem _ hf)) _

/-- `setType` on a new val. -/
theorem setType_empty (tag : Tag) :
    Val.setType (BitVec.ofNat 32 tag.code) .empty =
      .done (Val.ofType (BitVec.ofNat 32 tag.code)) := by
  cases tag <;> rfl

/-- The tag selects the branch of the switch; the val was EMPTY. -/
theorem readInto_reads {n : Nat} {v w : CVal} (tag : Tag) (ht : v.type = BitVec.ofNat 32 tag.code)

    (h : (input src).Reads (readPayload false (readInto false n .empty) (Val.ofType v.type) tag)
      v.payload (true, w)) :
    (input src).Reads (readInto false (n + 1) .empty) v.encode (true, w) := by
  have hc : tag.code < 2 ^ 32 := Nat.lt_trans tag.code_lt (by decide)
  have hcode : v.type.toNat = tag.code := by rw [ht, BitVec.toNat_ofNat, Nat.mod_eq_of_lt hc]
  rw [Val.encode, hcode]
  apply (readLe_reads hc).bind
  simp only [setType_empty, Scan.ofOutcome_done, Tag.ofCode_code]
  rw [ht] at h
  exact h

theorem readInto_scalar {v : CVal} (h : v.IsScalar) (n : Nat) :
    (input src).Reads (readInto false (n + 1) .empty) v.encode (true, v) := by
  have hm : ∀ {k x : Nat} {member : Nat → CVal} (u : CVal), x < 256 ^ k → member x = v →
      (input src).Reads (readMember k member u) (leBytes k x) (true, v) := by
    intro k x member u hx hv
    exact hv ▸ readMember_reads hx member u
  cases v with
  | empty => exact readInto_reads .EMPTY rfl (Input.Reads.pure _)
  | int32 i =>
    apply readInto_reads .INT32 rfl
    rw [readPayload, Val.payload]
    exact hm _ i.isLt (by simp)
  | int64 i =>
    apply readInto_reads .INT64 rfl
    rw [readPayload, Val.payload]
    exact hm _ i.isLt (by simp)
  | uint32 u =>
    apply readInto_reads .UINT32 rfl
    rw [readPayload, Val.payload]
    exact hm _ u.isLt (by simp)
  | uint64 u =>
    apply readInto_reads .UINT64 rfl
    rw [readPayload, Val.payload]
    exact hm _ u.isLt (by simp)
  | float32 f =>
    apply readInto_reads .FLOAT32 rfl
    rw [readPayload, Val.payload]
    exact hm _ f.isLt (by simp)
  | float64 f =>
    apply readInto_reads .FLOAT64 rfl
    rw [readPayload, Val.payload]
    exact hm _ f.isLt (by simp)
  | _ => exact h.elim

/-- Reading into a new val that was read in full. -/
theorem readVal_reads {n : Nat} {b : Bytes} {v : CVal}
    (h : (input src).Reads (readInto false n .empty) b (true, v)) :
    (input src).Reads (readVal n) b (some v) :=
  h.map rfl

end Uninit

end Read

/-! ### Sizes of the parts of an encoding -/

theorem length_encode (v : CVal) : v.encode.length = 4 + v.payload.length := by
  simp [Val.encode]

theorem length_le_encodeElements (vec : List CVal) :
    vec.length ≤ (Val.encodeElements vec).length := by
  induction vec with
  | nil => simp
  | cons v vec ih =>
    rw [Val.encodeElements]
    simp only [List.length_cons, List.length_append, length_leBytes]
    omega

theorem length_le_encodeFields (fields : List (Bytes × CVal)) :
    fields.length ≤ (Val.encodeFields fields).length := by
  induction fields with
  | nil => simp
  | cons f fields ih =>
    rw [Val.encodeFields]
    simp only [List.length_cons, List.length_append, length_leBytes]
    omega

theorem encode_le_encodeElements {vec : List CVal} {v : CVal} (h : v ∈ vec) :
    v.encode.length ≤ (Val.encodeElements vec).length := by
  induction vec with
  | nil => cases h
  | cons w vec ih =>
    have hw : (leBytes 4 w.type.toNat ++ w.payload).length = w.encode.length := rfl
    rw [Val.encodeElements, List.length_append, hw]
    rcases List.mem_cons.mp h with rfl | h
    · omega
    · have := ih h
      omega

theorem encode_le_encodeFields {fields : List (Bytes × CVal)} {f : Bytes × CVal}
    (h : f ∈ fields) : f.1.length + f.2.encode.length ≤ (Val.encodeFields fields).length := by
  induction fields with
  | nil => cases h
  | cons g fields ih =>
    have hg : (leBytes 4 g.2.type.toNat ++ g.2.payload).length = g.2.encode.length := rfl
    rw [Val.encodeFields, List.length_append, List.length_append, List.length_append, hg]
    rcases List.mem_cons.mp h with rfl | h
    · omega
    · have := ih h
      omega

/-- One bound on the fuel for all members of a list. -/
theorem exists_fuel {α : Type} {P : α → Nat → Prop} {l : List α}
    (h : ∀ a ∈ l, ∃ N, ∀ n ≥ N, P a n) : ∃ N, ∀ n ≥ N, ∀ a ∈ l, P a n := by
  induction l with
  | nil =>
    refine ⟨0, ?_⟩
    intro n _ a ha
    cases ha
  | cons a l ih =>
    obtain ⟨N, hN⟩ := h a (List.mem_cons_self ..)
    obtain ⟨M, hM⟩ := ih fun b hb => h b (List.mem_cons_of_mem _ hb)
    refine ⟨max N M, ?_⟩
    intro n hn b hb
    rcases List.mem_cons.mp hb with rfl | hb
    · exact hN n (by omega)
    · exact hM n (by omega) b hb

/-- A structured value is read back from its encoding. -/
theorem readInto_structured [Uninit] {v : CVal} (h : Structured v)
    (hl : v.encode.length < 2 ^ 31) :
    ∃ N, ∀ n ≥ N, ∀ src, (input src).Reads (readInto false n .empty) v.encode (true, v) := by
  induction h with
  | scalar h =>
    refine ⟨1, ?_⟩
    intro n hn src
    obtain ⟨n, rfl⟩ : ∃ m, n = m + 1 := ⟨n - 1, by omega⟩
    exact readInto_scalar h n
  | @array vec hvec ih =>
    rw [length_encode, Val.payload, List.length_append] at hl
    have hnum := length_le_encodeElements vec
    obtain ⟨N, hN⟩ := exists_fuel fun v hv =>
      ih v hv (by have := encode_le_encodeElements hv; omega)
    refine ⟨N + 1, ?_⟩
    intro n hn src
    obtain ⟨n, rfl⟩ : ∃ m, n = m + 1 := ⟨n - 1, by omega⟩
    apply readInto_reads .ARRAY rfl
    rw [Val.payload]
    apply (readLe_reads (by omega)).bind
    apply (readElements_reads (fun v hv => (hvec v hv).destructs)
      (fun v hv => hN n (by omega) v hv src) []).map
    rfl
  | @map fields hs hfields ih =>
    rw [length_encode, Val.payload, List.length_append] at hl
    have hnum := length_le_encodeFields fields
    obtain ⟨N, hN⟩ := exists_fuel fun f hf =>
      ih f hf (by have := encode_le_encodeFields hf; omega)
    refine ⟨N + 1, ?_⟩
    intro n hn src
    obtain ⟨n, rfl⟩ : ∃ m, n = m + 1 := ⟨n - 1, by omega⟩
    apply readInto_reads .MAP rfl
    rw [Val.payload]
    apply (readLe_reads (by omega)).bind
    have hkeys : ∀ f ∈ fields, f.1.length < 2 ^ 32 := by
      intro f hf
      have := encode_le_encodeFields hf
      omega
    apply (readFields_reads hkeys (fun f hf => (hfields f hf).destructs)
      (fun f hf => hN n (by omega) f hf src) []).map
    rw [OrderedMap.insertAll_of_sorted [] fields hs]
    rfl

theorem readVal_structured [Uninit] {v : CVal} (h : Structured v) (hl : v.encode.length < 2 ^ 31) :
    ∃ N, ∀ n ≥ N, ∀ src, (input src).Reads (readVal n) v.encode (some v) := by
  obtain ⟨N, hN⟩ := readInto_structured h hl
  exact ⟨N, fun n hn src => readVal_reads (hN n hn src)⟩

/-! ## Round trips -/

theorem getWrittenBytes_eq {s : Bytestream} (hle : s.offsetWrite ≤ s.mem.length)
    (h : s.offsetWrite < 2 ^ 31) : s.getWrittenBytes = some s.written := by
  simp only [getWrittenBytes, int32_of_lt h]
  rw [if_pos (by omega)]
  rfl

theorem length_of_getWrittenBytes {s : Bytestream} {w : Bytes} (h : s.getWrittenBytes = some w) :
    w.length < 2 ^ 31 := by
  have hlt : int32 s.offsetWrite < 2 ^ 31 := by
    unfold int32
    omega
  simp only [getWrittenBytes] at h
  split at h
  · obtain rfl := Option.some.inj h
    simp only [List.length_take]
    omega
  · cases h

section RoundTrip
variable [Uninit]

/-- Written to a new stream and read into a new val, with any bytes after it in
the stream, `v` comes back and exactly its bytes are consumed. -/
def RoundTrips (v : CVal) : Prop :=
  ∃ s w, writeVal v fresh = .done (true, s) ∧ s.getWrittenBytes = some w ∧
    w.length = s.offsetWrite ∧
    ∀ rest, (w ++ rest).length < 2 ^ 31 → ∃ N, ∀ n ≥ N,
      ∃ t, readVal n (ofBytearray (w ++ rest)) = .done (some v, t) ∧ t.offsetRead = w.length

/-- A val that reads back from its encoding round-trips once that encoding is
what the stream holds. -/
theorem RoundTrips.of_reads {v : CVal} {s : Bytestream} (hs : writeVal v fresh = .done (true, s))
    (hle : s.offsetWrite ≤ s.mem.length) (hw : s.written = v.encode)
    (hl : v.encode.length < 2 ^ 31)
    (hr : ∃ N, ∀ n ≥ N, ∀ src, (input src).Reads (readVal n) v.encode (some v)) :
    RoundTrips v := by
  have ho : v.encode.length = s.offsetWrite := by
    rw [← hw]
    simp [written]
    omega
  refine ⟨s, v.encode, hs, ?_, ho, ?_⟩
  · rw [← hw]
    exact getWrittenBytes_eq hle (by omega)
  · intro rest hrest
    obtain ⟨N, hN⟩ := hr
    refine ⟨N, ?_⟩
    intro n hn
    obtain ⟨t, ht, htr, hta⟩ := hN n hn (v.encode ++ rest) _ rest (Over.ofBytearray hrest) rfl
    have hadd := htr.offsetRead_add hta
    rw [List.length_append] at hadd
    exact ⟨t, ht, by omega⟩

theorem RoundTrips.of_writes {v : CVal} (hw : output.Writes (writePayload v) v.payload)
    (hl : v.encode.length ≤ 2 ^ 31 - 256)
    (hr : ∃ N, ∀ n ≥ N, ∀ src, (input src).Reads (readVal n) v.encode (some v)) :
    RoundTrips v := by
  obtain ⟨s, hs, hopen, hwritten⟩ := writeTyped_writes hw fresh Open.fresh hl
  exact RoundTrips.of_reads hs hopen.write_le hwritten (by omega) hr

/-- Every structured value round-trips. -/
theorem structured_roundTrips {v : CVal} (h : Structured v) (hl : v.encode.length < 2 ^ 31 - 256) :
    RoundTrips v :=
  RoundTrips.of_writes (writePayload_structured h) (by omega) (readVal_structured h (by omega))

end RoundTrip

/-- A map with an empty key, an array and an empty map. -/
theorem structured_roundTrips_map :
    @RoundTrips zeroMemory
      (.map [([], .array [.int32 (-1), .float64 0x7FF0000000000000]), ([0x61], .map [])]) := by
  let _ := zeroMemory
  have harr : Structured (.array [.int32 (-1), .float64 0x7FF0000000000000]) := by
    apply Structured.array
    intro v hv
    rcases List.mem_cons.mp hv with rfl | hv
    · exact .scalar trivial
    · obtain rfl := List.mem_singleton.mp hv
      exact .scalar trivial
  have hempty : Structured (.map []) := by
    apply Structured.map List.Pairwise.nil
    intro f hf
    cases hf
  apply structured_roundTrips
  · apply Structured.map
    · unfold OrderedMap.Sorted
      decide
    · intro f hf
      rcases List.mem_cons.mp hf with rfl | hf
      · exact harr
      · obtain rfl := List.mem_singleton.mp hf
        exact hempty
  · decide

end Bytestream

end Libacorn
