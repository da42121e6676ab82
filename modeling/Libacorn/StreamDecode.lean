import Libacorn.StreamLeaves

/-!
# Reading from a list of bytes

The reader of `base/bytestream.cpp` over the bytes that are still ahead, in place
of the stream. `decode_sim` says that both readers end the same way, and
`decode_le` that more fuel does not change an answer.
-/

namespace Libacorn

open Support

instance : ByteSource Bytes where
  readBytes k := fun bs => .done (bs.take k, bs.drop k)

namespace Bytestream

/-! ## Numbers -/

/-- The size of a number, and the val with these bits. -/
def number : Tag → Option (Nat × (Nat → CVal))
  | .INT32 => some (4, fun x => .int32 (BitVec.ofNat 32 x))
  | .INT64 => some (8, fun x => .int64 (BitVec.ofNat 64 x))
  | .UINT32 => some (4, fun x => .uint32 (BitVec.ofNat 32 x))
  | .UINT64 => some (8, fun x => .uint64 (BitVec.ofNat 64 x))
  | .FLOAT32 => some (4, fun x => .float32 (BitVec.ofNat 32 x))
  | .FLOAT64 => some (8, fun x => .float64 (BitVec.ofNat 64 x))
  | _ => none

/-- The six branches for numbers are one. -/
theorem readPayload_number [Uninit] {σ : Type} [ByteSource σ] {tag : Tag} {k : Nat}
    {member : Nat → CVal} (h : number tag = some (k, member)) {literal : Bool}
    (value : Scan σ (Bool × CVal)) (v : CVal) :
    readPayload literal value v tag = readMember k member v := by
  cases tag <;> cases h <;> rfl

/-! ## Two sources -/

section Elements

variable {σ τ : Type} {R : σ → τ → Prop}

theorem readElements_sim {elem : Scan σ (Bool × CVal)} {elem' : Scan τ (Bool × CVal)}
    (he : Scan.Sim R elem elem') (num : Nat) (vec : List CVal) :
    Scan.Sim R (readElements elem num vec) (readElements elem' num vec) := by
  induction num generalizing vec with
  | zero => exact Scan.Sim.pure _
  | succ num ih =>
    apply he.bind
    intro r
    exact Scan.Sim.ite (Scan.Sim.ite (ih _) (Scan.Sim.pure _)) Scan.Sim.fault

end Elements

section Sim

variable {σ τ : Type} [ByteSource σ] [ByteSource τ] {R : σ → τ → Prop}

theorem readLe_sim
    (h : ∀ k, Scan.Sim R (ByteSource.readBytes k : Scan σ Bytes) (ByteSource.readBytes k))
    (k : Nat) :
    Scan.Sim R (readLe k : Scan σ (Option Nat)) (readLe k) :=
  (h k).bind fun _ => Scan.Sim.pure _

theorem readMember_sim
    (h : ∀ k, Scan.Sim R (ByteSource.readBytes k : Scan σ Bytes) (ByteSource.readBytes k)) (k : Nat)
    (member : Nat → CVal) (v : CVal) :
    Scan.Sim R (readMember k member v : Scan σ (Bool × CVal)) (readMember k member v) := by
  apply (h k).bind
  intro bytes
  exact Scan.Sim.ite (Scan.Sim.pure _) (Scan.Sim.pure _)

theorem readPointer_sim
    (h : ∀ k, Scan.Sim R (ByteSource.readBytes k : Scan σ Bytes) (ByteSource.readBytes k))
    (tag : Tag) (v : CVal) :
    Scan.Sim R (readPointer tag v : Scan σ (Bool × CVal)) (readPointer tag v) :=
  (h 8).bind fun _ => Scan.Sim.pure _

variable [Uninit]

theorem readString_sim
    (h : ∀ k, Scan.Sim R (ByteSource.readBytes k : Scan σ Bytes) (ByteSource.readBytes k))
    (literal : Bool) :
    Scan.Sim R (readString literal : Scan σ (Bytes × Bool)) (readString literal) := by
  apply (readLe_sim h 4).bind
  intro cb
  cases cb with
  | none => exact Scan.Sim.pure _
  | some cb => exact Scan.Sim.ite Scan.Sim.fault ((h cb).bind fun _ => Scan.Sim.pure _)

theorem readFields_sim
    (h : ∀ k, Scan.Sim R (ByteSource.readBytes k : Scan σ Bytes) (ByteSource.readBytes k))
    {value : Scan σ (Bool × CVal)} {value' : Scan τ (Bool × CVal)} (he : Scan.Sim R value value')
    (num : Nat) (fields : List (Bytes × CVal)) :
    Scan.Sim R (readFields value num fields) (readFields value' num fields) := by
  induction num generalizing fields with
  | zero => exact Scan.Sim.pure _
  | succ num ih =>
    apply (readString_sim h false).bind
    intro key
    apply Scan.Sim.ite (Scan.Sim.pure _)
    apply he.bind
    intro r
    exact Scan.Sim.ite (Scan.Sim.ite (ih _) (Scan.Sim.pure _)) Scan.Sim.fault

theorem readPayload_sim
    (h : ∀ k, Scan.Sim R (ByteSource.readBytes k : Scan σ Bytes) (ByteSource.readBytes k))
    {value : Scan σ (Bool × CVal)} {value' : Scan τ (Bool × CVal)} (he : Scan.Sim R value value')
    (literal : Bool) (v : CVal) (tag : Tag) :
    Scan.Sim R (readPayload literal value v tag) (readPayload literal value' v tag) := by
  have hnum : ∀ {k : Nat} {member : Nat → CVal}, number tag = some (k, member) →
      Scan.Sim R (readPayload literal value v tag) (readPayload literal value' v tag) := by
    intro k member hn
    rw [readPayload_number hn, readPayload_number hn]
    exact readMember_sim h k member v
  cases tag with
  | EMPTY => exact Scan.Sim.pure _
  | INT32 => exact hnum rfl
  | INT64 => exact hnum rfl
  | UINT32 => exact hnum rfl
  | UINT64 => exact hnum rfl
  | FLOAT32 => exact hnum rfl
  | FLOAT64 => exact hnum rfl
  | STRING => exact readPointer_sim h .STRING v
  | BYTEARRAY => exact readPointer_sim h .BYTEARRAY v
  | OBJECT => exact Scan.Sim.fault
  | MEASUREMENT =>
    apply (readLe_sim h 4).bind
    intro f
    cases f with
    | none => exact Scan.Sim.pure _
    | some f =>
      apply (h 2).bind
      intro bytes
      exact Scan.Sim.ite (Scan.Sim.pure _) (Scan.Sim.pure _)
  | ARRAY =>
    apply (readLe_sim h 4).bind
    intro num
    cases num with
    | none => exact Scan.Sim.pure _
    | some num =>
      cases v with
      | array vec => exact (readElements_sim he num vec).bind fun _ => Scan.Sim.pure _
      | _ => exact Scan.Sim.fault
  | MAP =>
    apply (readLe_sim h 4).bind
    intro num
    cases num with
    | none => exact Scan.Sim.pure _
    | some num =>
      cases v with
      | map fields => exact (readFields_sim h he num fields).bind fun _ => Scan.Sim.pure _
      | _ => exact Scan.Sim.fault
  | ERROR =>
    cases v with
    | error code msg =>
      apply (h 4).bind
      intro bytes
      exact (readString_sim h literal).bind fun _ => Scan.Sim.pure _
    | _ => exact Scan.Sim.fault

/-- Sources that agree on `readBytes` agree on `read<val>`. -/
theorem readInto_sim
    (h : ∀ k, Scan.Sim R (ByteSource.readBytes k : Scan σ Bytes) (ByteSource.readBytes k))
    (literal : Bool) (n : Nat) (v : CVal) :
    Scan.Sim R (readInto literal n v : Scan σ (Bool × CVal)) (readInto literal n v) := by
  induction n generalizing literal v with
  | zero => exact Scan.Sim.timeout
  | succ n ih =>
    apply (readLe_sim h 4).bind
    intro type
    cases type with
    | none => exact Scan.Sim.pure _
    | some type =>
      apply Scan.Sim.bind (Scan.Sim.ofOutcome _)
      intro v
      cases Tag.ofCode type with
      | none => exact Scan.Sim.pure _
      | some tag => exact readPayload_sim h (ih false .empty) _ v tag

end Sim

/-! ## Fuel -/

section Fuel

variable {σ : Type}

theorem readElements_le {elem elem' : Scan σ (Bool × CVal)} (he : elem.Le elem') (num : Nat)
    (vec : List CVal) : (readElements elem num vec).Le (readElements elem' num vec) := by
  induction num generalizing vec with
  | zero => exact Scan.Le.refl _
  | succ num ih =>
    apply he.bind
    intro r
    exact Scan.Le.ite (Scan.Le.ite (ih _) (Scan.Le.refl _)) (Scan.Le.refl _)

variable [ByteSource σ] [Uninit]

theorem readFields_le {value value' : Scan σ (Bool × CVal)} (he : value.Le value') (num : Nat)
    (fields : List (Bytes × CVal)) :
    (readFields value num fields).Le (readFields value' num fields) := by
  induction num generalizing fields with
  | zero => exact Scan.Le.refl _
  | succ num ih =>
    apply (Scan.Le.refl _).bind
    intro key
    apply Scan.Le.ite (Scan.Le.refl _)
    apply he.bind
    intro r
    exact Scan.Le.ite (Scan.Le.ite (ih _) (Scan.Le.refl _)) (Scan.Le.refl _)

theorem readPayload_le {value value' : Scan σ (Bool × CVal)} (he : value.Le value')
    (literal : Bool) (v : CVal) (tag : Tag) :
    (readPayload literal value v tag).Le (readPayload literal value' v tag) := by
  cases tag with
  | ARRAY =>
    apply (Scan.Le.refl _).bind
    intro num
    cases num with
    | none => exact Scan.Le.refl _
    | some num =>
      cases v with
      | array vec => exact (readElements_le he num vec).bind fun _ => Scan.Le.refl _
      | _ => exact Scan.Le.refl _
  | MAP =>
    apply (Scan.Le.refl _).bind
    intro num
    cases num with
    | none => exact Scan.Le.refl _
    | some num =>
      cases v with
      | map fields => exact (readFields_le he num fields).bind fun _ => Scan.Le.refl _
      | _ => exact Scan.Le.refl _
  | _ => exact Scan.Le.refl _

theorem readInto_le {i j : Nat} (h : i ≤ j) (literal : Bool) (v : CVal) :
    (readInto literal i v : Scan σ (Bool × CVal)).Le (readInto literal j v) := by
  induction i generalizing j literal v with
  | zero => exact Scan.Le.timeout _
  | succ i ih =>
    obtain ⟨j, rfl⟩ := Nat.exists_eq_add_of_le' (Nat.lt_of_lt_of_le (Nat.succ_pos i) h)
    apply (Scan.Le.refl _).bind
    intro type
    cases type with
    | none => exact Scan.Le.refl _
    | some type =>
      apply (Scan.Le.refl _).bind
      intro v
      cases Tag.ofCode type with
      | none => exact Scan.Le.refl _
      | some tag => exact readPayload_le (ih (by omega) false .empty) _ v tag

end Fuel

/-! ## Lists of bytes -/

/-- The stream over `src` with the bytes `bs` ahead. -/
def Ahead (src : Bytes) (s : Bytestream) (bs : Bytes) : Prop :=
  Over src s ∧ src.drop s.offsetRead = bs

theorem ahead_ofBytearray {src : Bytes} (h : src.length < 2 ^ 31) :
    Ahead src (ofBytearray src) src :=
  ⟨Over.ofBytearray h, rfl⟩

theorem readBytes_sim (src : Bytes) (k : Nat) :
    Scan.Sim (Ahead src) (ByteSource.readBytes k : Scan Bytestream Bytes)
      (ByteSource.readBytes k) := by
  rintro s bs ⟨hs, ha⟩
  obtain ⟨t, ht, htr, hta⟩ := readBytes_reads (bs.take k) s (bs.drop k) hs (by
    rw [List.take_append_drop]
    exact ha)
  have hk : Bytestream.readBytes k s = Bytestream.readBytes (bs.take k).length s := by
    have hle := hs.read_le
    have hlen : bs.length = src.length - s.offsetRead := by rw [← ha, List.length_drop]
    have hsm := hs.small
    have havail : sizeT (s.cb - s.offsetRead) = bs.length := by
      rw [hs.cb_eq, sizeT_of_nonneg (by omega) (by omega)]
      omega
    simp only [Bytestream.readBytes, havail, List.length_take, Nat.min_assoc, Nat.min_self]
  show Scan.OutcomeSim (Ahead src) (Bytestream.readBytes k s) _
  rw [hk, ht]
  exact ⟨rfl, htr, hta⟩

@[simp] theorem readBytes_list (k : Nat) (bs : Bytes) :
    (ByteSource.readBytes k : Scan Bytes Bytes) bs = .done (bs.take k, bs.drop k) := rfl

theorem readLe_short {k : Nat} {bs : Bytes} (h : bs.length < k) :
    (readLe k : Scan Bytes (Option Nat)) bs = .done (none, []) := by
  rw [readLe, Scan.bind_apply, readBytes_list, Outcome.bind_done,
    if_neg (by rw [List.length_take]; omega), List.drop_of_length_le (by omega)]
  rfl

theorem readLe_append {k x : Nat} (hx : x < 256 ^ k) (bs : Bytes) :
    (readLe k : Scan Bytes (Option Nat)) (leBytes k x ++ bs) = .done (some x, bs) := by
  have hlen := length_leBytes k x
  rw [readLe, Scan.bind_apply, readBytes_list, Outcome.bind_done, List.take_left' hlen,
    List.drop_left' hlen, if_pos hlen, ofLe_leBytes, Nat.mod_eq_of_lt hx]
  rfl

/-- Enough bytes, whatever they are. -/
theorem readLe_long {k : Nat} {bs : Bytes} (h : k ≤ bs.length) :
    (readLe k : Scan Bytes (Option Nat)) bs = .done (some (ofLe (bs.take k)), bs.drop k) := by
  rw [readLe, Scan.bind_apply, readBytes_list, Outcome.bind_done,
    if_pos (by rw [List.length_take]; omega)]
  rfl

section Decode

variable [Uninit]

/-- `read<val>` into `v` from the bytes that are ahead. -/
def decode (n : Nat) (v : CVal) (bs : Bytes) : Outcome ((Bool × CVal) × Bytes) :=
  (readInto false n v : Scan Bytes (Bool × CVal)) bs

/-- The reader of the stream and the reader of the bytes ahead end the same way. -/
theorem decode_sim (src : Bytes) (n : Nat) (v : CVal) :
    Scan.Sim (Ahead src) (readInto false n v) (decode n v) :=
  readInto_sim (readBytes_sim src) false n v

theorem decode_le {i j : Nat} (h : i ≤ j) (v : CVal) (bs : Bytes) :
    (decode i v bs).Le (decode j v bs) :=
  readInto_le h false v bs

theorem decode_short (n : Nat) (v : CVal) {bs : Bytes} (h : bs.length < 4) :
    decode (n + 1) v bs = .done ((false, v), []) := by
  rw [decode, readInto, Scan.bind_apply, readLe_short h]
  rfl

/-- The bytes after a tag, read into a new val. -/
theorem decode_tag (n : Nat) (tag : Tag) (bs : Bytes) :
    decode (n + 1) .empty (leBytes 4 tag.code ++ bs) =
      readPayload false (readInto false n .empty : Scan Bytes (Bool × CVal))
        (Val.ofType (BitVec.ofNat 32 tag.code)) tag bs := by
  have hc : tag.code < 256 ^ 4 := Nat.lt_trans tag.code_lt (by decide)
  rw [decode, readInto, Scan.bind_apply, readLe_append hc]
  simp only [Outcome.bind_done, setType_empty, Scan.ofOutcome_done, Tag.ofCode_code]
  rfl

theorem readString_append {b : Bytes} (hb : b.length < 2 ^ 32) (bs : Bytes) :
    (readString false : Scan Bytes (Bytes × Bool)) (leBytes 4 b.length ++ b ++ bs) =
      .done ((b, true), bs) := by
  have hz : Uninit.block 0 = [] := List.length_eq_zero_iff.mp (Uninit.length_block 0)
  rw [readString_new, Scan.bind_apply, List.append_assoc, readLe_append hb]
  simp only [Outcome.bind_done, Scan.bind_apply, readBytes_list, List.take_left, List.drop_left,
    Scan.pure_apply, Nat.sub_self, hz, List.append_nil, decide_true]

end Decode

end Bytestream

end Libacorn
