import Libacorn.StreamRoundtrip

/-!
# Round trips of leaves with a payload

STRING, BYTEARRAY, MEASUREMENT and ERROR are written in full. The reader takes
the payload of the first two for the bits of a pointer, and reads half of the
unit of a measurement. `leaf_roundTrips_iff` says which leaves come back.
-/

namespace Libacorn

open Support

namespace Bytestream

theorem readMember_eq_true {k : Nat} {member : Nat → CVal} {v w : CVal} {s t : Bytestream}
    (h : readMember k member v s = .done ((true, w), t)) : ∃ x, w = member x := by
  obtain ⟨bytes, u, -, h⟩ := Scan.bind_eq_done h
  by_cases hk : bytes.length = k
  · rw [if_pos hk] at h
    cases h
    exact ⟨_, rfl⟩
  · rw [if_neg hk] at h
    cases h

theorem readPointer_eq_true {tag : Tag} {v w : CVal} {s t : Bytestream}
    (h : readPointer tag v s = .done ((true, w), t)) :
    ∃ bits, w = .raw (BitVec.ofNat 32 tag.code) bits := by
  obtain ⟨bytes, u, -, h⟩ := Scan.bind_eq_done h
  have hres := (Prod.mk.inj (Outcome.done.inj h)).1
  have hlen : bytes.length = 8 := of_decide_eq_true (Prod.mk.inj hres).1
  have hne : bytes ≠ [] := by
    intro he
    rw [he] at hlen
    cases hlen
  refine ⟨BitVec.ofNat 64 (ofLe bytes), ?_⟩
  rw [← (Prod.mk.inj hres).2, if_neg hne]

theorem toBits_lt_four {unit : MeasureUnit} (h : unit.Declared) : unit.toBits.toNat < 4 := by
  cases unit with
  | undeclared bits => exact h.elim
  | _ => decide

section Leaves
variable [Uninit]

/-- STRING, BYTEARRAY, MEASUREMENT with a declared unit and ERROR, of the sizes
their members can have. -/
def Leaf : CVal → Prop
  | .string s => s.length < 2 ^ 32
  | .bytearray b => b.length < 2 ^ 31
  | .measurement _ unit => unit.Declared
  | .error _ msg => msg.length < 2 ^ 32
  | _ => False

/-- The leaves that come back: an ERROR that fits an `int32_t`, and a MEASUREMENT
when the upper half of the uninitialised unit is zero. -/
def LeafReadable : CVal → Prop
  | .measurement _ _ => Uninit.unit.toNat < 2 ^ 16
  | .error _ msg => 12 + msg.length < 2 ^ 31
  | _ => False

/-- No branch of the switch makes a string or a bytearray: their pointers are
overwritten with bytes of the stream. -/
theorem readPayload_eq_true {value : Scan Bytestream (Bool × CVal)} {tag : Tag} {v w : CVal}
    {s t : Bytestream} (hv : v = Val.ofType (BitVec.ofNat 32 tag.code))
    (h : readPayload false value v tag s = .done ((true, w), t)) :
    (∀ b, w ≠ .string b) ∧ ∀ b, w ≠ .bytearray b := by
  have hm : ∀ {k : Nat} {member : Nat → CVal}, readMember k member v s = .done ((true, w), t) →
      (∀ x, (∀ b, member x ≠ .string b) ∧ ∀ b, member x ≠ .bytearray b) →
      (∀ b, w ≠ .string b) ∧ ∀ b, w ≠ .bytearray b := by
    intro k member h hne
    obtain ⟨x, rfl⟩ := readMember_eq_true h
    exact hne x
  have hp : ∀ {tag : Tag}, readPointer tag v s = .done ((true, w), t) →
      (∀ b, w ≠ .string b) ∧ ∀ b, w ≠ .bytearray b := by
    intro tag h
    obtain ⟨bits, rfl⟩ := readPointer_eq_true h
    simp
  cases tag with
  | EMPTY =>
    cases h
    rw [hv]
    exact ⟨fun b => nofun, fun b => nofun⟩
  | INT32 =>
    rw [readPayload] at h
    exact hm h (by simp)
  | INT64 =>
    rw [readPayload] at h
    exact hm h (by simp)
  | UINT32 =>
    rw [readPayload] at h
    exact hm h (by simp)
  | UINT64 =>
    rw [readPayload] at h
    exact hm h (by simp)
  | FLOAT32 =>
    rw [readPayload] at h
    exact hm h (by simp)
  | FLOAT64 =>
    rw [readPayload] at h
    exact hm h (by simp)
  | STRING =>
    rw [readPayload] at h
    exact hp h
  | BYTEARRAY =>
    rw [readPayload] at h
    exact hp h
  | OBJECT => cases h
  | MEASUREMENT =>
    obtain ⟨f, u, -, h⟩ := Scan.bind_eq_done h
    cases f with
    | none => cases h
    | some f =>
      obtain ⟨b, u', -, h⟩ := Scan.bind_eq_done h
      by_cases hb : b.length = 2
      · rw [if_pos hb] at h
        cases h
        simp
      · rw [if_neg hb] at h
        cases h
  | ARRAY =>
    obtain ⟨num, u, -, h⟩ := Scan.bind_eq_done h
    cases num with
    | none => cases h
    | some num =>
      rw [hv] at h
      obtain ⟨r, u', -, h⟩ := Scan.bind_eq_done h
      obtain rfl := (Prod.mk.inj (Prod.mk.inj (Outcome.done.inj h)).1).2
      simp
  | MAP =>
    obtain ⟨num, u, -, h⟩ := Scan.bind_eq_done h
    cases num with
    | none => cases h
    | some num =>
      rw [hv] at h
      obtain ⟨r, u', -, h⟩ := Scan.bind_eq_done h
      obtain rfl := (Prod.mk.inj (Prod.mk.inj (Outcome.done.inj h)).1).2
      simp
  | ERROR =>
    rw [hv] at h
    obtain ⟨code, u, -, h⟩ := Scan.bind_eq_done h
    obtain ⟨msg, u', -, h⟩ := Scan.bind_eq_done h
    obtain rfl := (Prod.mk.inj (Prod.mk.inj (Outcome.done.inj h)).1).2
    simp

theorem readInto_eq_true {n : Nat} {s t : Bytestream} {w : CVal}
    (h : readInto false n .empty s = .done ((true, w), t)) :
    (∀ b, w ≠ .string b) ∧ ∀ b, w ≠ .bytearray b := by
  cases n with
  | zero => cases h
  | succ n =>
    obtain ⟨type, u, -, h⟩ := Scan.bind_eq_done h
    cases type with
    | none => cases h
    | some type =>
      obtain ⟨v, u', hset, h⟩ := Scan.bind_eq_done h
      cases htag : Tag.ofCode type with
      | none =>
        rw [htag] at h
        cases h
      | some tag =>
        rw [htag] at h
        obtain rfl := Tag.code_of_ofCode htag
        rw [setType_empty] at hset
        obtain ⟨rfl, rfl⟩ := Prod.mk.inj (Outcome.done.inj hset)
        exact readPayload_eq_true rfl h

theorem readVal_eq_some {n : Nat} {s t : Bytestream} {v : CVal}
    (h : readVal n s = .done (some v, t)) : (∀ b, v ≠ .string b) ∧ ∀ b, v ≠ .bytearray b := by
  obtain ⟨⟨r, w⟩, u, hr, h⟩ := Scan.bind_eq_done h
  cases r with
  | false => cases h
  | true =>
    cases h
    exact readInto_eq_true hr

/-- What round-trips comes out of `readVal`. -/
theorem RoundTrips.exists_read {v : CVal} (h : RoundTrips v) :
    ∃ (n : Nat) (s t : Bytestream), readVal n s = .done (some v, t) := by
  obtain ⟨s, w, -, hw, -, hr⟩ := h
  obtain ⟨N, hN⟩ := hr [] (by simpa using length_of_getWrittenBytes hw)
  obtain ⟨t, ht, -⟩ := hN N (Nat.le_refl N)
  exact ⟨N, _, t, ht⟩

/-! ### Measurements -/

theorem measurement_writes (unitVal : BitVec 32) (unit : MeasureUnit) :
    output.Writes (writePayload (.measurement unitVal unit))
      (Val.payload (.measurement unitVal unit)) := by
  rw [writePayload, Val.payload]
  exact (writeBytes_writes _).seq (writeBytes_writes _)

/-- The unit that is read: the upper half is not from the stream. -/
def unitRead (unit : MeasureUnit) : MeasureUnit :=
  .ofBits (BitVec.ofNat 32 (unit.toBits.toNat + Uninit.unit.toNat / 2 ^ 16 * 2 ^ 16))

theorem readVal_measurement {src : Bytes} (n : Nat) (unitVal : BitVec 32) {unit : MeasureUnit}
    (h : unit.Declared) :
    (input src).Reads (readVal (n + 1)) (Val.encode (.measurement unitVal unit))
      (some (.measurement unitVal (unitRead unit))) := by
  have hu := toBits_lt_four h
  have hbytes : (input src).Reads (readBytes (leBytes 2 unit.toBits.toNat).length) _ _ :=
    readBytes_reads (leBytes 2 unit.toBits.toNat)
  rw [length_leBytes] at hbytes
  apply readVal_reads
  apply readInto_reads .MEASUREMENT rfl
  rw [readPayload, Val.payload]
  apply (readLe_reads unitVal.isLt).bind
  apply hbytes.map
  rw [if_pos (length_leBytes 2 _), ofLe_leBytes, Nat.mod_eq_of_lt (by omega), BitVec.ofNat_toNat,
    BitVec.setWidth_eq]
  rfl

theorem unitRead_eq_iff {unit : MeasureUnit} (h : unit.Declared) :
    unitRead unit = unit ↔ Uninit.unit.toNat < 2 ^ 16 := by
  have hu := toBits_lt_four h
  have hj := Uninit.unit.isLt
  constructor
  · intro e
    have hbits := congrArg (fun u => u.toBits.toNat) e
    simp only [unitRead, MeasureUnit.toBits_ofBits, BitVec.toNat_ofNat] at hbits
    omega
  · intro hlt
    have hz : Uninit.unit.toNat / 2 ^ 16 = 0 := by omega
    rw [unitRead, hz, Nat.zero_mul, Nat.add_zero, BitVec.ofNat_toNat, BitVec.setWidth_eq,
      MeasureUnit.ofBits_toBits h]

/-- A measurement comes back when the upper half of the uninitialised unit is zero. -/
theorem measurement_roundTrips_iff (unitVal : BitVec 32) {unit : MeasureUnit}
    (h : unit.Declared) :
    RoundTrips (.measurement unitVal unit) ↔ Uninit.unit.toNat < 2 ^ 16 := by
  have hlen : (Val.encode (.measurement unitVal unit : CVal)).length = 10 := by
    simp [length_encode, Val.payload]
  have hw := measurement_writes unitVal unit
  constructor
  · rintro ⟨s, w, hs, hwr, -, hread⟩
    -- the stream holds the encoding, so both reads start from the same bytes
    obtain ⟨s', hs', hopen, hwritten⟩ :=
      writeTyped_writes hw fresh Open.fresh (show _ ≤ 2 ^ 31 - 256 by
        rw [List.length_append, hlen]
        decide)
    obtain rfl : s = s' := by
      rw [writeVal, hs'] at hs
      exact (Prod.mk.inj (Outcome.done.inj hs)).2.symm
    have hw' : w = Val.encode (.measurement unitVal unit) := by
      have ho : s.offsetWrite = 10 := by
        rw [← hopen.length_written, show s.written = output.written s from rfl, hwritten,
          List.length_append, hlen]
        rfl
      rw [getWrittenBytes_eq hopen.write_le (by omega)] at hwr
      exact (Option.some.inj hwr).symm.trans hwritten
    subst hw'
    obtain ⟨N, hN⟩ := hread [] (by simp [hlen])
    obtain ⟨t, ht, -⟩ := hN (N + 1) (by omega)
    have hover : Over (Val.encode (.measurement unitVal unit) ++ []) _ :=
      Over.ofBytearray (by simp [hlen])
    obtain ⟨t', ht', -⟩ := readVal_measurement N unitVal h _ [] hover rfl
    rw [ht] at ht'
    have e := Option.some.inj (Prod.mk.inj (Outcome.done.inj ht')).1
    exact (unitRead_eq_iff h).mp (Val.measurement.inj e).2.symm
  · intro hlt
    have hle : (Val.encode (.measurement unitVal unit : CVal)).length ≤ 2 ^ 31 - 256 := by omega
    apply RoundTrips.of_writes hw hle
    refine ⟨1, ?_⟩
    intro n hn src
    obtain ⟨n, rfl⟩ : ∃ m, n = m + 1 := ⟨n - 1, by omega⟩
    have hr : (input src).Reads _ _ _ := readVal_measurement n unitVal h
    rwa [(unitRead_eq_iff h).mpr hlt] at hr

/-! ### Errors -/

theorem readVal_error {src : Bytes} (n : Nat) (code : BitVec 32) {msg : Bytes}
    (h : msg.length < 2 ^ 32) :
    (input src).Reads (readVal (n + 1)) (Val.encode (.error code msg))
      (some (.error code msg)) := by
  have hbytes : (input src).Reads (readBytes (leBytes 4 code.toNat).length) _ _ :=
    readBytes_reads (leBytes 4 code.toNat)
  rw [length_leBytes] at hbytes
  apply readVal_reads
  apply readInto_reads .ERROR rfl
  rw [Val.payload]
  apply hbytes.bind
  apply (readString_reads h).map
  have hcode : patch (0 : BitVec 32).toNat (leBytes 4 code.toNat) = code.toNat := by
    rw [patch, ofLe_leBytes, show code.toNat % 256 ^ 4 = code.toNat from
      Nat.mod_eq_of_lt code.isLt]
    simp
  rw [hcode, BitVec.ofNat_toNat, BitVec.setWidth_eq]

/-- Writing an error, up to its message. -/
theorem writeVal_error (code : BitVec 32) (msg : Bytes) :
    ∃ s, writeVal (.error code msg) fresh =
        ((writeBytes msg s).bind fun r => .done (true, r.2)) ∧ s.Open ∧ s.offsetWrite = 12 ∧
      s.written ++ msg = Val.encode (.error code msg) := by
  have hroom : output.room = 2 ^ 31 - 256 := rfl
  obtain ⟨s, hs, hsr, hsw⟩ := writeBytes_writes
    (leBytes 4 (Val.type (.error code msg : CVal)).toNat) fresh Open.fresh
    (by simp [output, written, fresh])
  have hsl : (output.written s).length = 4 := by
    rw [hsw, List.length_append, length_leBytes]
    rfl
  obtain ⟨t, ht, htr, htw⟩ := writeBytes_writes (leBytes 4 code.toNat) s hsr
    (by simp [hsl, hroom])
  have htl : (output.written t).length = 8 := by simp [htw, hsl]
  obtain ⟨u, hu, hur, huw⟩ := writeBytes_writes (leBytes 4 msg.length) t htr (by simp [htl, hroom])
  have hul : (output.written u).length = 12 := by simp [huw, htl]
  refine ⟨u, ?_, hur, ?_, ?_⟩
  · simp only [writeVal, writeTyped, writePayload, writeString, Scan.bind_apply, hs, ht, hu,
      Outcome.bind_done, ↓reduceIte, Scan.pure_apply]
  · rw [← hur.length_written]
    exact hul
  · have huw' : u.written = _ := huw
    rw [huw', htw, hsw]
    simp [Val.encode, Val.payload, output, written, fresh]

/-- Above the sizes that fit, the copy of the message leaves the allocation. -/
theorem writeBytes_fault {s : Bytestream} (hs : s.Open) {b : Bytes}
    (hl : 2 ^ 32 - 256 < s.offsetWrite + b.length) (hu : s.offsetWrite + b.length < 2 ^ 32 + 256) :
    writeBytes b s = .fault := by
  have hsm := hs.small
  have hw := hs.write_le
  have hsize : blockSize (s.offsetWrite + b.length) < s.offsetWrite + b.length := by
    unfold blockSize
    omega
  rw [writeBytes_step hs (by omega)]
  simp only [Scan.bind_apply, if_pos (show b.length > s.mem.length - s.offsetWrite by omega)]
  by_cases h : s.mem.length ≤ blockSize (s.offsetWrite + b.length)
  · obtain ⟨t, ht, -, htlen, hto, -⟩ := grow_eq hs h
    have hc : copyIn b t = .fault := if_neg (by omega)
    simp only [ht, Outcome.bind_done, hc, Outcome.bind_fault]
  · have hcb : sizeT s.cb = s.mem.length := by
      rw [hs.cb_eq, sizeT_of_nonneg (by omega) (by omega)]
      rfl
    have hg : grow (blockSize (s.offsetWrite + b.length)) s = .fault :=
      if_neg (by rw [hcb]; omega)
    simp only [hg, Outcome.bind_fault]

/-- An error comes back when its encoding fits an `int32_t`. -/
theorem error_roundTrips_iff (code : BitVec 32) {msg : Bytes} (h : msg.length < 2 ^ 32) :
    RoundTrips (.error code msg) ↔ 12 + msg.length < 2 ^ 31 := by
  obtain ⟨s, hs, hopen, ho, henc⟩ := writeVal_error code msg
  have hlen : (Val.encode (.error code msg : CVal)).length = 12 + msg.length := by
    rw [← henc, List.length_append, hopen.length_written, ho]
  constructor
  · rintro ⟨t, w, ht, hw, -⟩
    by_contra hbig
    by_cases hfit : 12 + msg.length ≤ 2 ^ 32 - 256
    · -- written in full, but the size is negative as an `int`
      obtain ⟨u, hu, humem, huo, -⟩ := writeBytes_eq hopen (b := msg) (by omega)
      obtain rfl : t = u := by
        rw [hs, hu] at ht
        exact (Prod.mk.inj (Outcome.done.inj ht)).2.symm
      have hneg : int32 t.offsetWrite < 0 := by
        unfold int32
        omega
      simp only [getWrittenBytes] at hw
      rw [if_neg (by omega)] at hw
      cases hw
    · rw [hs, writeBytes_fault hopen (by omega) (by omega)] at ht
      cases ht
  · intro hlt
    obtain ⟨u, hu, -, huo, hule, huw, -⟩ := writeBytes_eq hopen (b := msg) (by omega)
    have hwrite : writeVal (.error code msg) fresh = .done (true, u) := by rw [hs, hu]; rfl
    apply RoundTrips.of_reads hwrite hule (huw.trans henc) (by omega)
    refine ⟨1, ?_⟩
    intro n hn src
    obtain ⟨n, rfl⟩ : ∃ m, n = m + 1 := ⟨n - 1, by omega⟩
    exact readVal_error n code h

/-- Which leaves come back. -/
theorem leaf_roundTrips_iff {v : CVal} (h : Leaf v) : RoundTrips v ↔ LeafReadable v := by
  cases v with
  | string s =>
    constructor
    · intro hrt
      obtain ⟨n, s', t, ht⟩ := hrt.exists_read
      exact (readVal_eq_some ht).1 s rfl
    · exact False.elim
  | bytearray b =>
    constructor
    · intro hrt
      obtain ⟨n, s', t, ht⟩ := hrt.exists_read
      exact (readVal_eq_some ht).2 b rfl
    · exact False.elim
  | measurement unitVal unit => exact measurement_roundTrips_iff unitVal h
  | error code msg => exact error_roundTrips_iff code h
  | _ => exact h.elim

end Leaves

/-- The string `a` does not come back. -/
theorem string_not_roundTrips :
    Leaf (.string [0x61]) ∧ ¬@RoundTrips zeroMemory (.string [0x61]) := by
  let _ := zeroMemory
  refine ⟨by simp [Leaf], ?_⟩
  intro h
  obtain ⟨n, s, t, ht⟩ := h.exists_read
  exact (readVal_eq_some ht).1 _ rfl

/-- A measurement and an error come back from zeroed memory. -/
theorem leaf_roundTrips_zeroMemory :
    @RoundTrips zeroMemory (.measurement 0x41200000 .EM) ∧
      @RoundTrips zeroMemory (.error 2 [0x6E, 0x6F]) := by
  let _ := zeroMemory
  constructor
  · have hu : LeafReadable (.measurement 0x41200000 .EM) := show (0 : Nat) < 2 ^ 16 by decide
    exact (leaf_roundTrips_iff (by simp [Leaf, MeasureUnit.Declared])).mpr hu
  · have hl : LeafReadable (.error 2 [0x6E, 0x6F]) := show 14 < 2 ^ 31 by decide
    exact (leaf_roundTrips_iff (by simp [Leaf])).mpr hl

end Bytestream

end Libacorn
