import Libacorn.StreamRoundtrip

/-!
# Chunks through a bytestream

Every write keeps what was written before, also when the allocation grows, and
reading with the sizes of the writes gives the chunks back
(`chunks_roundTrip`).
-/

namespace Libacorn

open Support

namespace Bytestream

/-! ## Runs of calls -/

/-- `writeBytes` with each chunk, and the results. -/
def writeChunks [Uninit] : List Bytes → Scan Bytestream (List Bool)
  | [] => pure []
  | chunk :: chunks => do
    let ok ← writeBytes chunk
    let oks ← writeChunks chunks
    pure (ok :: oks)

/-- `readBytes` with each size: what was copied, and the results. -/
def readChunks : List Nat → Scan Bytestream (List (Bytes × Bool))
  | [] => pure []
  | cb :: sizes => do
    let bytes ← readBytes cb
    let rest ← readChunks sizes
    pure ((bytes, decide (bytes.length = cb)) :: rest)

/-! ## Writing -/

/-- What was written is what `getWrittenBytes` copies. -/
theorem Open.getWrittenBytes_eq {s : Bytestream} (hs : s.Open) :
    s.getWrittenBytes = some s.written := by
  have hw := hs.write_le
  have hsm := hs.small
  have hcb : int32 s.offsetWrite = s.offsetWrite := int32_of_lt (by omega)
  rw [getWrittenBytes, hcb, if_pos (by omega)]
  rfl

theorem writeChunks_eq [Uninit] {s : Bytestream} (hs : s.Open) {chunks : List Bytes}
    (hl : s.offsetWrite + chunks.flatten.length ≤ 2 ^ 31 - 256) :
    ∃ t, writeChunks chunks s = .done (chunks.map fun _ => true, t) ∧ t.Open ∧
      t.written = s.written ++ chunks.flatten := by
  induction chunks generalizing s with
  | nil => exact ⟨s, rfl, hs, (List.append_nil _).symm⟩
  | cons chunk chunks ih =>
    rw [List.flatten_cons, List.length_append] at hl
    obtain ⟨t, ht, -, hoff, -, hw, hopen⟩ := writeBytes_eq hs (b := chunk) (by omega)
    obtain ⟨u, hu, huo, huw⟩ := ih (hopen (by omega)) (by omega)
    refine ⟨u, ?_, huo, ?_⟩
    · simp only [writeChunks, Scan.bind_apply, ht, Outcome.bind_done, hu, Scan.pure_apply,
        List.map_cons]
    · rw [huw, hw, List.flatten_cons, List.append_assoc]

/-! ## Reading -/

/-- The chunks, one after the other. -/
theorem readChunks_reads (src : Bytes) (chunks : List Bytes) :
    (input src).Reads (readChunks (chunks.map List.length)) chunks.flatten
      (chunks.map fun chunk => (chunk, true)) := by
  induction chunks with
  | nil => exact Input.Reads.pure []
  | cons chunk chunks ih =>
    rw [List.flatten_cons]
    apply (readBytes_reads chunk).bind
    apply ih.map
    rw [decide_eq_true rfl]
    rfl

/-- Behind the last byte. -/
theorem Over.eof_of_nothing_ahead {src : Bytes} {s : Bytestream} (h : Over src s)
    (ha : (input src).ahead s = []) : s.eof = true := by
  have hend := h.offsetRead_add ha
  have hsm := h.small
  rw [List.length_nil, Nat.add_zero] at hend
  rw [eof, h.cb_eq, sizeT_of_nonneg (by omega) (by omega), hend]
  exact decide_eq_true (Nat.le_refl _)

/-! ## The round trip -/

/-- After every call what was written is what the chunks so far make together, and reading it with
their sizes gives them back and ends at the end. -/
theorem chunks_roundTrip [Uninit] {chunks : List Bytes}
    (hl : chunks.flatten.length < 2 ^ 31 - 256) :
    (∀ pre, pre <+: chunks → ∃ s, writeChunks pre fresh = .done (pre.map fun _ => true, s) ∧
      s.written = pre.flatten ∧ s.getWrittenBytes = some pre.flatten) ∧
    ∃ t, readChunks (chunks.map List.length) (ofBytearray chunks.flatten) =
        .done (chunks.map fun chunk => (chunk, true), t) ∧ t.eof = true := by
  constructor
  · rintro pre ⟨later, rfl⟩
    rw [List.flatten_append, List.length_append] at hl
    obtain ⟨s, hs, hopen, hw⟩ := writeChunks_eq Open.fresh
      (show fresh.offsetWrite + pre.flatten.length ≤ 2 ^ 31 - 256 by simp only [fresh]; omega)
    have hall : s.written = pre.flatten := hw
    exact ⟨s, hs, hall, hall ▸ hopen.getWrittenBytes_eq⟩
  · have hover := Over.ofBytearray (show chunks.flatten.length < 2 ^ 31 by omega)
    obtain ⟨t, ht, htover, hahead⟩ := readChunks_reads chunks.flatten chunks _ [] hover
      (show chunks.flatten.drop 0 = chunks.flatten ++ [] by rw [List.drop_zero, List.append_nil])
    exact ⟨t, ht, htover.eof_of_nothing_ahead hahead⟩

/-- Two chunks, the first of which is empty. -/
theorem chunks_roundTrip_two :
    letI := zeroMemory
    ∃ s, writeChunks [[], [0x61, 0x62]] fresh = .done ([true, true], s) ∧
      s.getWrittenBytes = some [0x61, 0x62] := by
  obtain ⟨s, hs, -, hw⟩ := (@chunks_roundTrip zeroMemory [[], [0x61, 0x62]] (by decide)).1 _
      (List.prefix_refl _)
  exact ⟨s, hs, hw⟩

end Bytestream

end Libacorn
