import Libacorn.StreamDecode

/-!
# Truncated streams

What `read<val>` makes of a proper prefix of an encoding. An ERROR ignores the
results of its reads, and a STRING or BYTEARRAY is read into its pointer, which
`push_back`, `insert` and `~val` then follow. `truncation_detected_iff` says for
which vals every truncation is detected.
-/

namespace Libacorn

open Support

/-! ## Proper prefixes -/

/-- `p` is a proper prefix of `b`. -/
def Cut (p b : Bytes) : Prop := p <+: b ∧ p ≠ b

theorem Cut.length_lt {p b : Bytes} (h : Cut p b) : p.length < b.length := by
  apply Nat.lt_of_le_of_ne h.1.length_le
  intro heq
  exact h.2 (h.1.eq_of_length heq)

theorem Cut.append_left {q b : Bytes} (h : Cut q b) (a : Bytes) : Cut (a ++ q) (a ++ b) := by
  constructor
  · exact (List.prefix_append_right_inj a).mpr h.1
  · intro heq
    exact h.2 (List.append_cancel_left heq)

theorem Cut.append_right {q a : Bytes} (h : Cut q a) (b : Bytes) : Cut q (a ++ b) := by
  constructor
  · exact h.1.trans (List.prefix_append a b)
  · intro heq
    have := h.length_lt
    rw [heq, List.length_append] at this
    omega

theorem cut_prefix {a b : Bytes} (h : b ≠ []) : Cut a (a ++ b) := by
  constructor
  · exact List.prefix_append a b
  · intro heq
    exact h (List.append_right_eq_self.mp heq.symm)

/-- A cut lies in the first part or in the second. -/
theorem Cut.append {p a b : Bytes} (h : Cut p (a ++ b)) : Cut p a ∨ ∃ q, p = a ++ q ∧ Cut q b := by
  by_cases hlen : p.length < a.length
  · left
    constructor
    · exact List.prefix_of_prefix_length_le h.1 (List.prefix_append a b) hlen.le
    · intro heq
      rw [heq] at hlen
      exact Nat.lt_irrefl _ hlen
  · right
    obtain ⟨q, rfl⟩ := List.prefix_of_prefix_length_le (List.prefix_append a b) h.1 (by omega)
    refine ⟨q, rfl, (List.prefix_append_right_inj a).mp h.1, ?_⟩
    intro heq
    exact h.2 (by rw [heq])

/-! ## Values without strings -/

/-- No OBJECT inside, and sizes that the members can have. -/
inductive NoObject : CVal → Prop
  | scalar {v : CVal} (h : v.IsScalar) : NoObject v
  | measurement (unitVal : BitVec 32) (unit : MeasureUnit) : NoObject (.measurement unitVal unit)
  | string {s : Bytes} (h : s.length < 2 ^ 32) : NoObject (.string s)
  | bytearray {b : Bytes} (h : b.length < 2 ^ 31) : NoObject (.bytearray b)
  | error (code : BitVec 32) {msg : Bytes} (h : msg.length < 2 ^ 32) : NoObject (.error code msg)
  | array {vec : List CVal} (h : ∀ v ∈ vec, NoObject v) : NoObject (.array vec)
  | map {fields : List (Bytes × CVal)} (hk : ∀ f ∈ fields, f.1.length < 2 ^ 32)
      (h : ∀ f ∈ fields, NoObject f.2) : NoObject (.map fields)

/-- No OBJECT, STRING or BYTEARRAY inside. -/
inductive Plain : CVal → Prop
  | scalar {v : CVal} (h : v.IsScalar) : Plain v
  | measurement (unitVal : BitVec 32) (unit : MeasureUnit) : Plain (.measurement unitVal unit)
  | error (code : BitVec 32) (msg : Bytes) : Plain (.error code msg)
  | array {vec : List CVal} (h : ∀ v ∈ vec, Plain v) : Plain (.array vec)
  | map {fields : List (Bytes × CVal)} (h : ∀ f ∈ fields, Plain f.2) : Plain (.map fields)

/-- The last thing in the encoding is an ERROR. -/
inductive EndsInError : CVal → Prop
  | error (code : BitVec 32) (msg : Bytes) : EndsInError (.error code msg)
  | array {vec : List CVal} {v : CVal} (hv : vec.getLast? = some v) (h : EndsInError v) :
      EndsInError (.array vec)
  | map {fields : List (Bytes × CVal)} {f : Bytes × CVal} (hf : fields.getLast? = some f)
      (h : EndsInError f.2) : EndsInError (.map fields)

namespace Bytestream

theorem encode_of_tag {v : CVal} (tag : Tag) (h : v.type = BitVec.ofNat 32 tag.code) :
    v.encode = leBytes 4 tag.code ++ v.payload := by
  have hc : tag.code < 2 ^ 32 := Nat.lt_trans tag.code_lt (by decide)
  rw [Val.encode, h, BitVec.toNat_ofNat, Nat.mod_eq_of_lt hc]

/-! ### Numbers -/

theorem scalar_cases {v : CVal} (h : v.IsScalar) : v = .empty ∨
    ∃ tag k member x, number tag = some (k, member) ∧ v = member x ∧
      v.type = BitVec.ofNat 32 tag.code ∧ v.payload = leBytes k x ∧ x < 256 ^ k := by
  cases v with
  | empty => exact Or.inl rfl
  | int32 i => exact Or.inr ⟨.INT32, 4, _, i.toNat, rfl, by simp, rfl, by rw [Val.payload], i.isLt⟩
  | int64 i => exact Or.inr ⟨.INT64, 8, _, i.toNat, rfl, by simp, rfl, by rw [Val.payload], i.isLt⟩
  | uint32 u =>
    exact Or.inr ⟨.UINT32, 4, _, u.toNat, rfl, by simp, rfl, by rw [Val.payload], u.isLt⟩
  | uint64 u =>
    exact Or.inr ⟨.UINT64, 8, _, u.toNat, rfl, by simp, rfl, by rw [Val.payload], u.isLt⟩
  | float32 f =>
    exact Or.inr ⟨.FLOAT32, 4, _, f.toNat, rfl, by simp, rfl, by rw [Val.payload], f.isLt⟩
  | float64 f =>
    exact Or.inr ⟨.FLOAT64, 8, _, f.toNat, rfl, by simp, rfl, by rw [Val.payload], f.isLt⟩
  | _ => exact h.elim

/-- `setType` does not write a number. -/
theorem ofType_number [Uninit] {tag : Tag} {k : Nat} {member : Nat → CVal}
    (h : number tag = some (k, member)) :
    (∃ bits, Val.ofType (BitVec.ofNat 32 tag.code) = .raw (BitVec.ofNat 32 tag.code) bits) ∧
      (∀ bits, Val.destructs (.raw (BitVec.ofNat 32 tag.code) bits) = true) ∧
      ∀ x, (member x).destructs = true := by
  cases tag <;> cases h <;> exact ⟨⟨_, rfl⟩, fun _ => rfl, fun _ => rfl⟩

theorem readMember_append {k x : Nat} (hx : x < 256 ^ k) (member : Nat → CVal) (v : CVal)
    (bs : Bytes) :
    (readMember k member v : Scan Bytes (Bool × CVal)) (leBytes k x ++ bs) =
      .done ((true, member x), bs) := by
  have hlen := length_leBytes k x
  rw [readMember, Scan.bind_apply, readBytes_list, Outcome.bind_done, List.take_left' hlen,
    List.drop_left' hlen, if_pos hlen, ofLe_leBytes, Nat.mod_eq_of_lt hx]
  rfl

theorem readMember_short {k : Nat} {bs : Bytes} (h : bs.length < k) (member : Nat → CVal)
    (tag : BitVec 32) (bits : BitVec 64) :
    ∃ bits', (readMember k member (.raw tag bits) : Scan Bytes (Bool × CVal)) bs =
      .done ((false, .raw tag bits'), []) := by
  refine ⟨BitVec.ofNat 64 (patch bits.toNat (bs.take k)), ?_⟩
  rw [readMember, Scan.bind_apply, readBytes_list, Outcome.bind_done,
    if_neg (by rw [List.length_take]; omega), List.drop_of_length_le (by omega)]
  rfl

/-! ### Elements and fields -/

/-- `elem` consumes exactly `b` and makes a val that can be copied. -/
def Takes (elem : Scan Bytes (Bool × CVal)) (b : Bytes) : Prop :=
  ∃ w : CVal, w.destructs = true ∧ ∀ rest, elem (b ++ rest) = .done ((true, w), rest)

/-- The elements of `vec`, and then what follows them. -/
theorem readElements_takes {elem : Scan Bytes (Bool × CVal)} {vec : List CVal}
    (h : ∀ v ∈ vec, Takes elem v.encode) :
    ∃ ws : List CVal, (∀ w ∈ ws, w.destructs = true) ∧
      ∀ m acc bs, readElements elem (vec.length + m) acc (Val.encodeElements vec ++ bs) =
        readElements elem m (acc ++ ws) bs := by
  induction vec with
  | nil =>
    refine ⟨[], nofun, ?_⟩
    intro m acc bs
    rw [List.length_nil, Nat.zero_add, List.append_nil]
    rfl
  | cons v vec ih =>
    obtain ⟨w, hw, hrun⟩ := h v (List.mem_cons_self ..)
    obtain ⟨ws, hws, hrest⟩ := ih fun v hv => h v (List.mem_cons_of_mem _ hv)
    refine ⟨w :: ws, ?_, ?_⟩
    · intro u hu
      rcases List.mem_cons.mp hu with rfl | hu
      · exact hw
      · exact hws u hu
    · intro m acc bs
      have henc : Val.encodeElements (v :: vec) ++ bs =
          v.encode ++ (Val.encodeElements vec ++ bs) := List.append_assoc ..
      rw [henc, List.length_cons, Nat.succ_add, readElements, Scan.bind_apply, hrun,
        Outcome.bind_done, if_pos hw, if_pos rfl, hrest, List.append_assoc]
      rfl

theorem destructs_insertAll {m fs : List (Bytes × CVal)} (hm : ∀ e ∈ m, e.2.destructs = true)
    (hf : ∀ e ∈ fs, e.2.destructs = true) :
    ∀ e ∈ OrderedMap.insertAll m fs, e.2.destructs = true := by
  induction fs generalizing m with
  | nil => exact hm
  | cons f fs ih =>
    apply ih
    · intro e he
      rcases OrderedMap.mem_insert he with rfl | he
      · exact hf f (List.mem_cons_self ..)
      · exact hm e he
    · exact fun e he => hf e (List.mem_cons_of_mem _ he)

variable [Uninit]

/-- The fields of a map, and then what follows them. -/
theorem readFields_takes {value : Scan Bytes (Bool × CVal)} {fields : List (Bytes × CVal)}
    (hk : ∀ f ∈ fields, f.1.length < 2 ^ 32) (h : ∀ f ∈ fields, Takes value f.2.encode) :
    ∃ ws : List (Bytes × CVal), (∀ w ∈ ws, w.2.destructs = true) ∧
      ∀ m acc bs, readFields value (fields.length + m) acc (Val.encodeFields fields ++ bs) =
        readFields value m (OrderedMap.insertAll acc ws) bs := by
  induction fields with
  | nil =>
    refine ⟨[], nofun, ?_⟩
    intro m acc bs
    rw [List.length_nil, Nat.zero_add]
    rfl
  | cons f fields ih =>
    obtain ⟨w, hw, hrun⟩ := h f (List.mem_cons_self ..)
    obtain ⟨ws, hws, hrest⟩ := ih (fun f hf => hk f (List.mem_cons_of_mem _ hf))
      fun f hf => h f (List.mem_cons_of_mem _ hf)
    refine ⟨(f.1, w) :: ws, ?_, ?_⟩
    · intro u hu
      rcases List.mem_cons.mp hu with rfl | hu
      · exact hw
      · exact hws u hu
    · intro m acc bs
      have henc : Val.encodeFields (f :: fields) ++ bs =
          leBytes 4 f.1.length ++ f.1 ++ (f.2.encode ++ (Val.encodeFields fields ++ bs)) := by
        simp only [Val.encodeFields, Val.encode, List.append_assoc]
      rw [henc, List.length_cons, Nat.succ_add, readFields, Scan.bind_apply,
        readString_append (hk f (List.mem_cons_self ..)), Outcome.bind_done, if_neg (by simp),
        Scan.bind_apply, hrun, Outcome.bind_done, if_pos hw, if_pos rfl, hrest]
      rfl

/-- Reading stops at the end of the stream. -/
theorem readElements_nil (n num : Nat) (acc : List CVal) :
    readElements (readInto false (n + 1) .empty : Scan Bytes (Bool × CVal)) (num + 1) acc [] =
      .done ((false, acc), []) := by
  have h : (readInto false (n + 1) .empty : Scan Bytes (Bool × CVal)) [] =
      .done ((false, .empty), []) :=
    decode_short n .empty (by decide)
  rw [readElements, Scan.bind_apply, h]
  rfl

theorem readFields_nil (value : Scan Bytes (Bool × CVal)) (num : Nat) (acc : List (Bytes × CVal)) :
    readFields value (num + 1) acc [] = .done ((false, acc), []) := by
  have h : (readString false : Scan Bytes (Bytes × Bool)) [] = .done (([], false), []) := rfl
  rw [readFields, Scan.bind_apply, h]
  rfl

/-- The branch for arrays, after the number of elements. -/
theorem readPayload_array (value : Scan Bytes (Bool × CVal)) {num : Nat} (hn : num < 2 ^ 32)
    (bs : Bytes) :
    readPayload false value (Val.ofType (BitVec.ofNat 32 Tag.ARRAY.code)) .ARRAY
      (leBytes 4 num ++ bs) =
      (readElements value num [] bs).bind fun r => .done ((r.1.1, .array r.1.2), r.2) := by
  rw [readPayload, Scan.bind_apply, readLe_append hn]
  rfl

theorem readPayload_map (value : Scan Bytes (Bool × CVal)) {num : Nat} (hn : num < 2 ^ 32)
    (bs : Bytes) :
    readPayload false value (Val.ofType (BitVec.ofNat 32 Tag.MAP.code)) .MAP (leBytes 4 num ++ bs) =
      (readFields value num [] bs).bind fun r => .done ((r.1.1, .map r.1.2), r.2) := by
  rw [readPayload, Scan.bind_apply, readLe_append hn]
  rfl

/-- A val without strings is read from its encoding, whatever follows. -/
theorem readInto_takes {v : CVal} (h : Plain v) (hl : v.encode.length < 2 ^ 31) :
    ∃ N, ∀ n ≥ N, Takes (readInto false n .empty) v.encode := by
  induction h with
  | @scalar v h =>
    refine ⟨1, ?_⟩
    intro n hn
    obtain ⟨n, rfl⟩ : ∃ m, n = m + 1 := ⟨n - 1, by omega⟩
    rcases scalar_cases h with rfl | ⟨tag, k, member, x, hnum, rfl, ht, hp, hx⟩
    · exact ⟨.empty, rfl, fun rest => decode_tag n .EMPTY rest⟩
    · refine ⟨member x, (ofType_number hnum).2.2 x, ?_⟩
      intro rest
      rw [encode_of_tag _ ht, hp, List.append_assoc]
      refine (decode_tag n tag _).trans ?_
      rw [readPayload_number hnum, readMember_append hx]
  | measurement unitVal unit =>
    refine ⟨1, ?_⟩
    intro n hn
    obtain ⟨n, rfl⟩ : ∃ m, n = m + 1 := ⟨n - 1, by omega⟩
    refine ⟨.measurement unitVal (.ofBits (BitVec.ofNat 32 (ofLe (leBytes 2 unit.toBits.toNat) +
      Uninit.unit.toNat / 2 ^ 16 * 2 ^ 16))), rfl, ?_⟩
    intro rest
    have ht : Val.type (.measurement unitVal unit : CVal) =
      BitVec.ofNat 32 Tag.MEASUREMENT.code := rfl
    have hlen := length_leBytes 2 unit.toBits.toNat
    rw [encode_of_tag _ ht, Val.payload, List.append_assoc, List.append_assoc]
    refine (decode_tag n .MEASUREMENT _).trans ?_
    rw [readPayload, readMeasurement, Scan.bind_apply, readLe_append unitVal.isLt]
    simp only [Outcome.bind_done, Scan.bind_apply, readBytes_list, List.take_left' hlen,
      List.drop_left' hlen, if_pos hlen, Scan.pure_apply, BitVec.ofNat_toNat, BitVec.setWidth_eq]
  | error code msg =>
    refine ⟨1, ?_⟩
    intro n hn
    obtain ⟨n, rfl⟩ : ∃ m, n = m + 1 := ⟨n - 1, by omega⟩
    rw [length_encode, Val.payload, List.length_append, List.length_append] at hl
    refine ⟨.error (BitVec.ofNat 32 (patch 0 (leBytes 4 code.toNat))) msg, rfl, ?_⟩
    intro rest
    have ht : Val.type (.error code msg : CVal) = BitVec.ofNat 32 Tag.ERROR.code := rfl
    have hlen := length_leBytes 4 code.toNat
    rw [encode_of_tag _ ht, Val.payload, List.append_assoc, List.append_assoc]
    refine (decode_tag n .ERROR _).trans ?_
    show (readError false 0 : Scan Bytes (Bool × CVal)) _ = _
    rw [readError, Scan.bind_apply, readBytes_list, Outcome.bind_done, List.take_left' hlen,
      List.drop_left' hlen, Scan.bind_apply, readString_append (by omega)]
    rfl
  | @array vec _ ih =>
    rw [length_encode, Val.payload, List.length_append] at hl
    have hnum := length_le_encodeElements vec
    obtain ⟨N, hN⟩ := exists_fuel fun v hv =>
      ih v hv (by have := encode_le_encodeElements hv; omega)
    refine ⟨N + 1, ?_⟩
    intro n hn
    obtain ⟨n, rfl⟩ : ∃ m, n = m + 1 := ⟨n - 1, by omega⟩
    obtain ⟨ws, hws, hrun⟩ := readElements_takes (hN n (by omega))
    refine ⟨.array ws, destructsElements_iff.mpr hws, ?_⟩
    intro rest
    rw [encode_of_tag .ARRAY rfl, Val.payload, List.append_assoc, List.append_assoc]
    refine (decode_tag n .ARRAY _).trans ?_
    rw [readPayload_array _ (by omega), ← Nat.add_zero vec.length, hrun]
    rfl
  | @map fields _ ih =>
    rw [length_encode, Val.payload, List.length_append] at hl
    have hnum := length_le_encodeFields fields
    obtain ⟨N, hN⟩ := exists_fuel fun f hf =>
      ih f hf (by have := encode_le_encodeFields hf; omega)
    refine ⟨N + 1, ?_⟩
    intro n hn
    obtain ⟨n, rfl⟩ : ∃ m, n = m + 1 := ⟨n - 1, by omega⟩
    have hkeys : ∀ f ∈ fields, f.1.length < 2 ^ 32 := by
      intro f hf
      have := encode_le_encodeFields hf
      omega
    obtain ⟨ws, hws, hrun⟩ := readFields_takes hkeys (hN n (by omega))
    refine ⟨.map (OrderedMap.insertAll [] ws),
      destructsFields_iff.mpr (destructs_insertAll (List.forall_mem_nil _) hws), ?_⟩
    intro rest
    rw [encode_of_tag .MAP rfl, Val.payload, List.append_assoc, List.append_assoc]
    refine (decode_tag n .MAP _).trans ?_
    rw [readPayload_map _ (by omega), ← Nat.add_zero fields.length, hrun]
    rfl

/-! ## Cuts -/

/-- On a cut of `b`, `elem` fails, or, if `e`, it takes all there is; what it
leaves can be destroyed. -/
def Stops (elem : Scan Bytes (Bool × CVal)) (b : Bytes) (e : Prop) : Prop :=
  ∀ q, Cut q b → ∃ r rest, elem q = .done (r, rest) ∧ r.2.destructs = true ∧
    (r.1 = false ∨ e ∧ rest = [])

theorem readString_cut {b q : Bytes} (hb : b.length < 2 ^ 32)
    (h : Cut q (leBytes 4 b.length ++ b)) :
    ∃ c, (readString false : Scan Bytes (Bytes × Bool)) q = .done ((c, false), []) := by
  rcases h.append with hcut | ⟨q, rfl, hcut⟩
  · refine ⟨[], ?_⟩
    rw [readString_new, Scan.bind_apply, readLe_short (by simpa using hcut.length_lt)]
    rfl
  · have hlt := hcut.length_lt
    refine ⟨q ++ Uninit.block (b.length - q.length), ?_⟩
    rw [readString_new, Scan.bind_apply, readLe_append hb]
    simp only [Outcome.bind_done, Scan.bind_apply, readBytes_list, Scan.pure_apply,
      List.take_of_length_le hlt.le, List.drop_of_length_le hlt.le, decide_eq_false hlt.ne]

theorem readElements_cut {n : Nat} {vec : List CVal}
    (ht : ∀ v ∈ vec, Takes (readInto false (n + 1) .empty) v.encode)
    (hs : ∀ v ∈ vec, Stops (readInto false (n + 1) .empty) v.encode (EndsInError v))
    {acc : List CVal} (hacc : ∀ w ∈ acc, w.destructs = true) {q : Bytes}
    (hq : Cut q (Val.encodeElements vec)) :
    ∃ r rest, readElements (readInto false (n + 1) .empty) vec.length acc q = .done (r, rest) ∧
      (∀ w ∈ r.2, w.destructs = true) ∧
      (r.1 = false ∨ (∃ v, vec.getLast? = some v ∧ EndsInError v) ∧ rest = []) := by
  have hpush : ∀ {w : CVal} {acc : List CVal}, (∀ w ∈ acc, w.destructs = true) →
      w.destructs = true → ∀ u ∈ acc ++ [w], u.destructs = true := by
    intro w acc hacc hw u hu
    rcases List.mem_append.mp hu with hu | hu
    · exact hacc u hu
    · rw [List.mem_singleton.mp hu]
      exact hw
  induction vec generalizing acc q with
  | nil => exact absurd hq.length_lt (Nat.not_lt_zero _)
  | cons v vec ih =>
    have henc : Val.encodeElements (v :: vec) = v.encode ++ Val.encodeElements vec := rfl
    rw [henc] at hq
    rcases hq.append with hcut | ⟨q', rfl, hcut⟩
    · obtain ⟨⟨r, w⟩, rest, hrun, hw, hres⟩ := hs v (List.mem_cons_self ..) q hcut
      rw [List.length_cons, readElements, Scan.bind_apply, hrun, Outcome.bind_done, if_pos hw]
      cases r with
      | false => exact ⟨(false, acc), rest, rfl, hacc, Or.inl rfl⟩
      | true =>
        -- an ERROR at the end of the stream: the next element fails
        rcases hres with hres | ⟨he, rfl⟩
        · cases hres
        rw [if_pos rfl]
        cases vec with
        | nil => exact ⟨(true, acc ++ [w]), [], rfl, hpush hacc hw, Or.inr ⟨⟨v, rfl, he⟩, rfl⟩⟩
        | cons u vec =>
          refine ⟨(false, acc ++ [w]), [], ?_, hpush hacc hw, Or.inl rfl⟩
          exact readElements_nil n vec.length _
    · obtain ⟨w, hw, hrun⟩ := ht v (List.mem_cons_self ..)
      obtain ⟨r, rest, hr, hd, hres⟩ := ih (fun v hv => ht v (List.mem_cons_of_mem _ hv))
        (fun v hv => hs v (List.mem_cons_of_mem _ hv)) (hpush hacc hw) hcut
      refine ⟨r, rest, ?_, hd, ?_⟩
      · rw [List.length_cons, readElements, Scan.bind_apply, hrun, Outcome.bind_done, if_pos hw,
          if_pos rfl, hr]
      · rcases hres with hres | ⟨⟨u, hu, he⟩, hrest⟩
        · exact Or.inl hres
        · exact Or.inr ⟨⟨u, by rw [List.getLast?_cons, hu]; rfl, he⟩, hrest⟩

theorem readFields_cut {n : Nat} {fields : List (Bytes × CVal)}
    (hk : ∀ f ∈ fields, f.1.length < 2 ^ 32)
    (ht : ∀ f ∈ fields, Takes (readInto false (n + 1) .empty) f.2.encode)
    (hs : ∀ f ∈ fields, Stops (readInto false (n + 1) .empty) f.2.encode (EndsInError f.2))
    {acc : List (Bytes × CVal)} (hacc : ∀ w ∈ acc, w.2.destructs = true) {q : Bytes}
    (hq : Cut q (Val.encodeFields fields)) :
    ∃ r rest, readFields (readInto false (n + 1) .empty) fields.length acc q = .done (r, rest) ∧
      (∀ w ∈ r.2, w.2.destructs = true) ∧
      (r.1 = false ∨ (∃ f, fields.getLast? = some f ∧ EndsInError f.2) ∧ rest = []) := by
  have hpush : ∀ {key : Bytes} {w : CVal} {acc : List (Bytes × CVal)},
      (∀ w ∈ acc, w.2.destructs = true) → w.destructs = true →
      ∀ u ∈ OrderedMap.insert key w acc, u.2.destructs = true := by
    intro key w acc hacc hw u hu
    rcases OrderedMap.mem_insert hu with rfl | hu
    · exact hw
    · exact hacc u hu
  induction fields generalizing acc q with
  | nil => exact absurd hq.length_lt (Nat.not_lt_zero _)
  | cons f fields ih =>
    have hkey := hk f (List.mem_cons_self ..)
    have henc : Val.encodeFields (f :: fields) =
        leBytes 4 f.1.length ++ f.1 ++ (f.2.encode ++ Val.encodeFields fields) := rfl
    rw [henc] at hq
    rw [List.length_cons, readFields, Scan.bind_apply]
    rcases hq.append with hcut | ⟨q', rfl, hcut⟩
    · obtain ⟨c, hc⟩ := readString_cut hkey hcut
      refine ⟨(false, acc), [], ?_, hacc, Or.inl rfl⟩
      rw [hc]
      rfl
    rw [readString_append hkey, Outcome.bind_done, if_neg (by simp), Scan.bind_apply]
    rcases hcut.append with hcut' | ⟨q'', rfl, hcut'⟩
    · obtain ⟨⟨r, w⟩, rest, hrun, hw, hres⟩ := hs f (List.mem_cons_self ..) q' hcut'
      rw [hrun, Outcome.bind_done, if_pos hw]
      cases r with
      | false => exact ⟨(false, acc), rest, rfl, hacc, Or.inl rfl⟩
      | true =>
        rcases hres with hres | ⟨he, rfl⟩
        · cases hres
        rw [if_pos rfl]
        cases fields with
        | nil =>
          exact ⟨(true, OrderedMap.insert f.1 w acc), [], rfl, hpush hacc hw,
            Or.inr ⟨⟨f, rfl, he⟩, rfl⟩⟩
        | cons g fields =>
          refine ⟨(false, OrderedMap.insert f.1 w acc), [], ?_, hpush hacc hw, Or.inl rfl⟩
          exact readFields_nil _ fields.length _
    · obtain ⟨w, hw, hrun⟩ := ht f (List.mem_cons_self ..)
      obtain ⟨r, rest, hr, hd, hres⟩ := ih (fun f hf => hk f (List.mem_cons_of_mem _ hf))
        (fun f hf => ht f (List.mem_cons_of_mem _ hf))
        (fun f hf => hs f (List.mem_cons_of_mem _ hf)) (hpush hacc hw) hcut'
      refine ⟨r, rest, ?_, hd, ?_⟩
      · rw [hrun, Outcome.bind_done, if_pos hw, if_pos rfl, hr]
      · rcases hres with hres | ⟨⟨g, hg, he⟩, hrest⟩
        · exact Or.inl hres
        · exact Or.inr ⟨⟨g, by rw [List.getLast?_cons, hg]; rfl, he⟩, hrest⟩

/-- A cut in the tag, or in what follows it. -/
theorem stops_of_payload {n : Nat} {v : CVal} (tag : Tag) {e : Prop}
    (ht : v.type = BitVec.ofNat 32 tag.code)

    (h : Stops (readPayload false (readInto false n .empty) (Val.ofType (BitVec.ofNat 32 tag.code))
      tag) v.payload e) :
    Stops (readInto false (n + 1) .empty) v.encode e := by
  intro q hq
  rw [encode_of_tag tag ht] at hq
  rcases hq.append with hcut | ⟨q', rfl, hcut⟩
  · refine ⟨(false, .empty), [], ?_, rfl, Or.inl rfl⟩
    exact decode_short n .empty (by simpa using hcut.length_lt)
  · obtain ⟨r, rest, hr, hd, hres⟩ := h q' hcut
    exact ⟨r, rest, (decode_tag n tag q').trans hr, hd, hres⟩

theorem readInto_stops_scalar {v : CVal} (h : v.IsScalar) (n : Nat) (e : Prop) :
    Stops (readInto false (n + 1) .empty) v.encode e := by
  rcases scalar_cases h with rfl | ⟨tag, k, member, x, hnum, rfl, ht, hp, hx⟩
  · apply stops_of_payload .EMPTY rfl
    intro q hq
    exact absurd hq.length_lt (Nat.not_lt_zero _)
  · apply stops_of_payload tag ht
    intro q hq
    obtain ⟨⟨bits, hraw⟩, hd, -⟩ := ofType_number hnum
    rw [hp] at hq
    obtain ⟨bits', hrun⟩ := readMember_short (by simpa using hq.length_lt) member
      (BitVec.ofNat 32 tag.code) bits
    refine ⟨(false, .raw (BitVec.ofNat 32 tag.code) bits'), [], ?_, hd bits', Or.inl rfl⟩
    rw [readPayload_number hnum, hraw, hrun]

theorem readInto_stops_measurement (unitVal : BitVec 32) (unit : MeasureUnit) (n : Nat) (e : Prop) :
    Stops (readInto false (n + 1) .empty) (Val.encode (.measurement unitVal unit)) e := by
  apply stops_of_payload .MEASUREMENT rfl
  intro q hq
  refine ⟨(false, Val.ofType (BitVec.ofNat 32 Tag.MEASUREMENT.code)), [], ?_, rfl, Or.inl rfl⟩
  rw [Val.payload] at hq
  rw [readPayload, readMeasurement, Scan.bind_apply]
  rcases hq.append with hcut | ⟨q', rfl, hcut⟩
  · rw [readLe_short (by simpa using hcut.length_lt)]
    rfl
  · have hlt : q'.length < 2 := by simpa using hcut.length_lt
    have hne : (q'.take 2).length ≠ 2 := by
      rw [List.length_take]
      omega
    rw [readLe_append unitVal.isLt]
    simp only [Outcome.bind_done, Scan.bind_apply, readBytes_list, if_neg hne,
      List.drop_of_length_le hlt.le, Scan.pure_apply]

/-- A cut of an ERROR is read to its end. -/
theorem readInto_stops_error (code : BitVec 32) {msg : Bytes} (hm : msg.length < 2 ^ 32) (n : Nat) :
    Stops (readInto false (n + 1) .empty) (Val.encode (.error code msg))
      (EndsInError (.error code msg)) := by
  apply stops_of_payload .ERROR rfl
  intro q hq
  have hlen := length_leBytes 4 code.toNat
  obtain ⟨c, hc⟩ : ∃ c, (readString false : Scan Bytes (Bytes × Bool)) (q.drop 4) =
      .done ((c, false), []) := by
    rw [Val.payload] at hq
    rcases hq.append with hcut | ⟨q', rfl, hcut⟩
    · rw [List.drop_of_length_le (by simpa using hcut.length_lt.le)]
      exact ⟨[], rfl⟩
    · rw [List.drop_left' hlen]
      exact readString_cut hm hcut
  refine ⟨(true, .error (BitVec.ofNat 32 (patch 0 (q.take 4))) c), [], ?_, rfl,
    Or.inr ⟨.error code msg, rfl⟩⟩
  show (readError false 0 : Scan Bytes (Bool × CVal)) q = _
  rw [readError, Scan.bind_apply, readBytes_list, Outcome.bind_done, Scan.bind_apply, hc]
  rfl

/-- Cuts of a val without strings. -/
theorem readInto_stops {v : CVal} (h : Plain v) (hl : v.encode.length < 2 ^ 31) :
    ∃ N, ∀ n ≥ N, Stops (readInto false n .empty) v.encode (EndsInError v) := by
  induction h with
  | scalar h =>
    refine ⟨1, ?_⟩
    intro n hn
    obtain ⟨n, rfl⟩ : ∃ m, n = m + 1 := ⟨n - 1, by omega⟩
    exact readInto_stops_scalar h n _
  | measurement unitVal unit =>
    refine ⟨1, ?_⟩
    intro n hn
    obtain ⟨n, rfl⟩ : ∃ m, n = m + 1 := ⟨n - 1, by omega⟩
    exact readInto_stops_measurement unitVal unit n _
  | error code msg =>
    refine ⟨1, ?_⟩
    intro n hn
    obtain ⟨n, rfl⟩ : ∃ m, n = m + 1 := ⟨n - 1, by omega⟩
    rw [length_encode, Val.payload, List.length_append, List.length_append] at hl
    exact readInto_stops_error code (by omega) n
  | @array vec hvec ih =>
    rw [length_encode, Val.payload, List.length_append] at hl
    have hnum := length_le_encodeElements vec
    have hsize : ∀ v ∈ vec, v.encode.length < 2 ^ 31 := by
      intro v hv
      have := encode_le_encodeElements hv
      omega
    obtain ⟨N, hN⟩ := exists_fuel fun v hv => readInto_takes (hvec v hv) (hsize v hv)
    obtain ⟨M, hM⟩ := exists_fuel fun v hv => ih v hv (hsize v hv)
    refine ⟨max N M + 2, ?_⟩
    intro n hn
    obtain ⟨n, rfl⟩ : ∃ m, n = m + 2 := ⟨n - 2, by omega⟩
    apply stops_of_payload .ARRAY rfl
    intro q hq
    rw [Val.payload] at hq
    rcases hq.append with hcut | ⟨q', rfl, hcut⟩
    · refine ⟨(false, .array []), [], ?_, rfl, Or.inl rfl⟩
      rw [readPayload, Scan.bind_apply, readLe_short (by simpa using hcut.length_lt)]
      rfl
    · obtain ⟨r, rest, hr, hd, hres⟩ := readElements_cut (hN (n + 1) (by omega))
        (hM (n + 1) (by omega)) (List.forall_mem_nil _) hcut
      refine ⟨(r.1, .array r.2), rest, ?_, destructsElements_iff.mpr hd, ?_⟩
      · rw [readPayload_array _ (by omega), hr]
        rfl
      · rcases hres with hres | ⟨⟨v, hv, he⟩, hrest⟩
        · exact Or.inl hres
        · exact Or.inr ⟨.array hv he, hrest⟩
  | @map fields hfields ih =>
    rw [length_encode, Val.payload, List.length_append] at hl
    have hnum := length_le_encodeFields fields
    have hsize : ∀ f ∈ fields, f.1.length < 2 ^ 32 ∧ f.2.encode.length < 2 ^ 31 := by
      intro f hf
      have := encode_le_encodeFields hf
      omega
    obtain ⟨N, hN⟩ := exists_fuel fun f hf => readInto_takes (hfields f hf) (hsize f hf).2
    obtain ⟨M, hM⟩ := exists_fuel fun f hf => ih f hf (hsize f hf).2
    refine ⟨max N M + 2, ?_⟩
    intro n hn
    obtain ⟨n, rfl⟩ : ∃ m, n = m + 2 := ⟨n - 2, by omega⟩
    apply stops_of_payload .MAP rfl
    intro q hq
    rw [Val.payload] at hq
    rcases hq.append with hcut | ⟨q', rfl, hcut⟩
    · refine ⟨(false, .map []), [], ?_, rfl, Or.inl rfl⟩
      rw [readPayload, Scan.bind_apply, readLe_short (by simpa using hcut.length_lt)]
      rfl
    · obtain ⟨r, rest, hr, hd, hres⟩ := readFields_cut (fun f hf => (hsize f hf).1)
        (hN (n + 1) (by omega)) (hM (n + 1) (by omega)) (List.forall_mem_nil _) hcut
      refine ⟨(r.1, .map r.2), rest, ?_, destructsFields_iff.mpr hd, ?_⟩
      · rw [readPayload_map _ (by omega), hr]
        rfl
      · rcases hres with hres | ⟨⟨f, hf, he⟩, hrest⟩
        · exact Or.inl hres
        · exact Or.inr ⟨.map hf he, hrest⟩

end Bytestream

end Libacorn
