import Libacorn.Sha1

/-!
# SHA-1: the stream

`SHA1Update` and `SHA1Final` of hash.cpp over a context with a bit count in two
words and a buffer of 64 bytes, and the hash of the standard they compute.
-/

namespace Libacorn.Sha1

open Support

/-! ## hash.cpp -/

/-- A block of 64 bytes. -/
abbrev Buffer := { b : Bytes // b.length = 64 }

/-- `SHA1_CTX` -/
structure Ctx where
  state : Words
  count0 : UInt32
  count1 : UInt32
  buffer : Buffer

/-- `const unsigned char* data, u_int32_t len` -/
structure Data where
  bytes : Bytes
  fits : bytes.length < 2 ^ 32

def Data.len (d : Data) : UInt32 := UInt32.ofNat d.bytes.length

theorem Data.toNat_len (d : Data) : d.len.toNat = d.bytes.length := by
  rw [len, UInt32.toNat_ofNat']
  exact Nat.mod_eq_of_lt d.fits

theorem length_overwrite_buffer (buffer : Buffer) {j : Nat} {b : Bytes} (h : j + b.length ≤ 64) :
    (overwrite buffer.1 j b).length = 64 := by
  rw [length_overwrite (by rw [buffer.2]; exact h), buffer.2]

/-- `memcpy(&context->buffer[j], ..)` -/
def fill (buffer : Buffer) (j : Nat) (b : Bytes) : Outcome Buffer :=
  if h : j + b.length ≤ 64 then .done ⟨overwrite buffer.1 j b, length_overwrite_buffer buffer h⟩
    else .fault

/-- The `n` bytes at `&data[i]`. -/
def Data.read (d : Data) (i n : Nat) : Outcome Bytes :=
  if i + n ≤ d.bytes.length then .done ((d.bytes.drop i).take n) else .fault

/-- The initial `state`. -/
def initial : Words := ⟨0x67452301, 0xEFCDAB89, 0x98BADCFE, 0x10325476, 0xC3D2E1F0⟩

/-- The buffer of a new context holds what was in memory. -/
def sha1Init (buffer : Buffer) : Ctx := ⟨initial, 0, 0, buffer⟩

/-- `for ( ; i + 63 < len; i += 64) SHA1Transform(context->state, &data[i]);` -/
def transforms (d : Data) (i : UInt32) (state : Words) : Outcome (Words × UInt32) :=
  if i + 63 < d.len then
    if i.toNat + 64 ≤ d.bytes.length then
      transforms d (i + 64) (sha1Transform state ((d.bytes.drop i.toNat).take 64))
    else .fault
  else .done (state, i)
termination_by d.bytes.length - i.toNat
decreasing_by
  have hfits := d.fits
  rw [UInt32.toNat_add, show (64 : UInt32).toNat = 64 from rfl]
  omega

def sha1Update (c : Ctx) (d : Data) : Outcome Ctx :=
  let len := d.len
  let count0 := c.count0 + (len <<< 3)
  let count1 := (if count0 < c.count0 then c.count1 + 1 else c.count1) + (len >>> 29)
  let j := (c.count0 >>> 3) &&& 63
  if j + len > 63 then
    let i := 64 - j
    (d.read 0 i.toNat).bind fun head =>
    (fill c.buffer j.toNat head).bind fun buffer =>
    (transforms d i (sha1Transform c.state buffer.1)).bind fun m =>
    (d.read m.2.toNat (len - m.2).toNat).bind fun tail =>
    (fill buffer 0 tail).bind fun buffer =>
    .done ⟨m.1, count0, count1, buffer⟩
  else
    (d.read 0 len.toNat).bind fun tail =>
    (fill c.buffer j.toNat tail).bind fun buffer =>
    .done ⟨c.state, count0, count1, buffer⟩

/-- `finalcount` -/
def finalcount (c : Ctx) : Bytes :=
  (List.range 8).map fun i =>
    (((if i ≥ 4 then c.count0 else c.count1) >>> UInt32.ofNat ((3 - (i &&& 3)) * 8)) &&&
      255).toUInt8

theorem fits_byte (b : UInt8) : [b].length < 2 ^ 32 := by
  rw [List.length_singleton]
  decide

theorem fits_finalcount (c : Ctx) : (finalcount c).length < 2 ^ 32 := by
  rw [finalcount, List.length_map, List.length_range]
  decide

/-- `while ((context->count[0] & 504) != 448) SHA1Update(context, &c, 1);` -/
def zeros : Nat → Ctx → Outcome Ctx
  | 0, _ => .timeout
  | n + 1, c =>
    if c.count0 &&& 504 ≠ 448 then (sha1Update c ⟨[0], fits_byte 0⟩).bind (zeros n) else .done c

/-- `digest.bytes` -/
def output (s : Words) : Bytes :=
  (List.range 20).map fun i =>
    (([s.a, s.b, s.c, s.d, s.e].getD (i >>> 2) 0 >>> UInt32.ofNat ((3 - (i &&& 3)) * 8)) &&&
      255).toUInt8

/-- The count comes round after 64 bytes, so that 64 passes are enough. -/
def sha1Final (c : Ctx) : Outcome Bytes :=
  (sha1Update c ⟨[0x80], fits_byte 0x80⟩).bind fun c1 =>
  (zeros 64 c1).bind fun c2 =>
  (sha1Update c2 ⟨finalcount c, fits_finalcount c⟩).bind fun c3 =>
  .done (output c3.state)

/-- `acorn::sha1`, with a `ctx` that holds what was in memory. -/
def sha1 (buffer : Buffer) (str : Data) : Outcome Bytes :=
  (sha1Update (sha1Init buffer) str).bind sha1Final

/-! ## The hash of the standard -/

/-- The `k` low bytes of a number, highest first. -/
def bigBytes (k x : Nat) : Bytes := (leBytes k x).reverse

/-- One bit, zeros up to eight bytes before the end of a block, and the length in bits. -/
def pad (xs : Bytes) : Bytes :=
  xs ++ 0x80 :: (List.replicate ((119 - xs.length % 64) % 64) 0 ++ bigBytes 8 (8 * xs.length))

/-- The words of a digest. -/
def outputWords (s : Words) : Bytes :=
  bigBytes 4 s.a.toNat ++ bigBytes 4 s.b.toNat ++ bigBytes 4 s.c.toNat ++ bigBytes 4 s.d.toNat ++
    bigBytes 4 s.e.toNat

def digest (xs : Bytes) : Bytes := outputWords (absorb compress 64 initial (pad xs))

/-! ## The count and the place in the buffer -/

/-- Where the next byte goes in the buffer. -/
def Ctx.pos (c : Ctx) : Nat := c.count0.toNat / 8 % 64

/-- The bits so far. -/
def Ctx.count (c : Ctx) : Nat := c.count0.toNat + 2 ^ 32 * c.count1.toNat

theorem Ctx.pos_lt (c : Ctx) : c.pos < 64 := Nat.mod_lt _ (by decide)

theorem toNat_place (x : UInt32) : ((x >>> 3) &&& 63).toNat = x.toNat / 8 % 64 := by
  rw [UInt32.toNat_and, UInt32.toNat_shiftRight, show (63 : UInt32).toNat = 2 ^ 6 - 1 from rfl,
    Nat.and_two_pow_sub_one_eq_mod, show (3 : UInt32).toNat % 32 = 3 from rfl,
    Nat.shiftRight_eq_div_pow]

/-- A context with a new state and buffer, and the bits of `d` counted. -/
def Ctx.after (c : Ctx) (d : Data) (state : Words) (buffer : Buffer) : Ctx :=
  ⟨state, c.count0 + (d.len <<< 3),
    (if c.count0 + (d.len <<< 3) < c.count0 then c.count1 + 1 else c.count1) + (d.len >>> 29),
    buffer⟩

/-- The two words count the bits. -/
theorem count_after (c : Ctx) (d : Data) (state : Words) (buffer : Buffer) :
    (c.after d state buffer).count = (c.count + 8 * d.bytes.length) % 2 ^ 64 := by
  have hd := d.fits
  have h0 := c.count0.toNat_lt
  have h1 := c.count1.toNat_lt
  have hshl : (d.len <<< 3).toNat = 8 * d.bytes.length % 2 ^ 32 := by
    rw [UInt32.toNat_shiftLeft, d.toNat_len, show (3 : UInt32).toNat % 32 = 3 from rfl,
      Nat.shiftLeft_eq, Nat.mul_comm]
  have hshr : (d.len >>> 29).toNat = d.bytes.length / 2 ^ 29 := by
    rw [UInt32.toNat_shiftRight, d.toNat_len, show (29 : UInt32).toNat % 32 = 29 from rfl,
      Nat.shiftRight_eq_div_pow]
  have hone : (1 : UInt32).toNat = 1 := rfl
  simp only [Ctx.count, Ctx.after, UInt32.lt_iff_toNat_lt, UInt32.toNat_add, hshl, hshr]
  split_ifs with hc
  · rw [UInt32.toNat_add, hone]
    omega
  · omega

/-! ## Update -/

/-- The loop over whole blocks. With `j` bytes in the buffer before, `i + 63` cannot wrap. -/
theorem transforms_eq (d : Data) {j : Nat} (hfit : j + d.bytes.length < 2 ^ 32) (i : UInt32)
    (s : Words) (hi : 64 ∣ i.toNat + j) (hle : i.toNat ≤ d.bytes.length) :
    ∃ i', transforms d i s = .done (absorb sha1Transform 64 s (d.bytes.drop i.toNat), i') ∧
      i'.toNat ≤ d.bytes.length ∧ d.bytes.drop i'.toNat = rest 64 (d.bytes.drop i.toNat) := by
  obtain ⟨m, hm⟩ : ∃ m, m = d.bytes.length - i.toNat := ⟨_, rfl⟩
  induction m using Nat.strongRecOn generalizing i s with
  | ind m ih =>
    have hadd : (i + 63).toNat = i.toNat + 63 := by
      rw [UInt32.toNat_add, show (63 : UInt32).toNat = 63 from rfl]
      omega
    rw [transforms]
    by_cases hlt : i + 63 < d.len
    · have hread : i.toNat + 64 ≤ d.bytes.length := by
        rw [UInt32.lt_iff_toNat_lt, hadd, d.toNat_len] at hlt
        omega
      have hnext : (i + 64).toNat = i.toNat + 64 := by
        rw [UInt32.toNat_add, show (64 : UInt32).toNat = 64 from rfl]
        omega
      obtain ⟨i', hrun, hi', hrest⟩ := ih (d.bytes.length - (i + 64).toNat) (by omega) (i + 64)
        (sha1Transform s ((d.bytes.drop i.toNat).take 64)) (by omega) (by omega) rfl
      have htake : ((d.bytes.drop i.toNat).take 64).length = 64 := by
        rw [List.length_take, List.length_drop]
        omega
      have hcut : (d.bytes.drop i.toNat).take 64 ++ d.bytes.drop (i + 64).toNat =
          d.bytes.drop i.toNat := by
        rw [hnext, ← List.drop_drop, List.take_append_drop]
      refine ⟨i', ?_, hi', ?_⟩
      · rw [if_pos hlt, if_pos hread, hrun, ← hcut, absorb_cons (by decide) htake, hcut]
      · rw [hrest, ← hcut, rest_cons (by decide) htake]
    · have hshort : (d.bytes.drop i.toNat).length < 64 := by
        rw [UInt32.lt_iff_toNat_lt, hadd, d.toNat_len] at hlt
        rw [List.length_drop]
        omega
      exact ⟨i, by rw [if_neg hlt, absorb_short hshort], hle, (rest_short hshort).symm⟩

theorem Data.read_eq (d : Data) {i n : Nat} (h : i + n ≤ d.bytes.length) :
    d.read i n = .done ((d.bytes.drop i).take n) := if_pos h

/-- What is up to the end of a copy into the buffer. -/
theorem fill_eq (buffer : Buffer) {j : Nat} {b : Bytes} (h : j + b.length ≤ 64) :
    ∃ buffer' : Buffer, fill buffer j b = .done buffer' ∧
      buffer'.1.take (j + b.length) = buffer.1.take j ++ b := by
  refine ⟨_, dif_pos h, ?_⟩
  exact take_overwrite (by rw [buffer.2]; exact h)

/-- What waits in the buffer. -/
def Ctx.waiting (c : Ctx) : Bytes := c.buffer.1.take c.pos

theorem Ctx.length_waiting (c : Ctx) : c.waiting.length = c.pos := by
  have h := c.pos_lt
  rw [waiting, List.length_take, c.buffer.2]
  omega

theorem Ctx.pos_eq (c : Ctx) : c.pos = c.count / 8 % 64 := by
  rw [pos, count]
  omega

/-- The place after an update. -/
theorem pos_of_count {c c' : Ctx} {n : Nat} (h : c'.count = (c.count + 8 * n) % 2 ^ 64) :
    c'.pos = (c.pos + n) % 64 := by
  rw [c'.pos_eq, c.pos_eq, h]
  omega

/-- What an update does, with the bytes it adds. -/
structure Updated (c c' : Ctx) (bs : Bytes) : Prop where
  state : c'.state = absorb sha1Transform 64 c.state (c.waiting ++ bs)
  waiting : c'.waiting = rest 64 (c.waiting ++ bs)
  count : c'.count = (c.count + 8 * bs.length) % 2 ^ 64

theorem toNat_pos_add (c : Ctx) (d : Data) (h : c.pos + d.bytes.length < 2 ^ 32) :
    (((c.count0 >>> 3) &&& 63) + d.len).toNat = c.pos + d.bytes.length := by
  rw [UInt32.toNat_add, toNat_place, d.toNat_len, ← Ctx.pos]
  exact Nat.mod_eq_of_lt h

/-- The bytes stay in the buffer. -/
theorem sha1Update_short (c : Ctx) (d : Data) (h : c.pos + d.bytes.length < 64) :
    ∃ c', sha1Update c d = .done c' ∧ Updated c c' d.bytes := by
  obtain ⟨b1, hb1, htake1⟩ := fill_eq c.buffer (j := c.pos) (b := d.bytes) (by omega)
  have hplace : ¬ ((c.count0 >>> 3) &&& 63) + d.len > 63 := by
    rw [gt_iff_lt, UInt32.lt_iff_toNat_lt, toNat_pos_add c d (by omega), show (63 : UInt32).toNat =
      63 from rfl]
    omega
  have hread : d.read 0 d.len.toNat = .done d.bytes := by
    rw [d.toNat_len, d.read_eq (by omega), List.drop_zero, List.take_length]
  have hshort : (c.waiting ++ d.bytes).length < 64 := by
    rw [List.length_append, c.length_waiting]
    exact h
  have hcount := count_after c d c.state b1
  refine ⟨c.after d c.state b1, ?_, (absorb_short hshort _).symm, ?_, hcount⟩
  · simp only [sha1Update]
    rw [if_neg hplace, hread, Outcome.bind_done, toNat_place, ← Ctx.pos, hb1, Outcome.bind_done,
      Ctx.after]
  · rw [rest_short hshort, Ctx.waiting, pos_of_count hcount, Nat.mod_eq_of_lt h]
    exact htake1

/-- The bytes fill the buffer, whole blocks follow, and the others wait. -/
theorem sha1Update_full (c : Ctx) (d : Data) (h : c.pos + d.bytes.length < 2 ^ 32)
    (hfull : 64 ≤ c.pos + d.bytes.length) :
    ∃ c', sha1Update c d = .done c' ∧ Updated c c' d.bytes := by
  have hpos := c.pos_lt
  have hj : ((c.count0 >>> 3) &&& 63).toNat = c.pos := toNat_place c.count0
  have hplace : ((c.count0 >>> 3) &&& 63) + d.len > 63 := by
    rw [gt_iff_lt, UInt32.lt_iff_toNat_lt, toNat_pos_add c d h]
    exact hfull
  obtain ⟨i, hid⟩ : ∃ x : UInt32, x = (64 : UInt32) - ((c.count0 >>> 3) &&& 63) := ⟨_, rfl⟩
  have hi : i.toNat = 64 - c.pos := by
    rw [hid, UInt32.toNat_sub_of_le _ _
      (by rw [UInt32.le_iff_toNat_le, hj]; exact Nat.le_of_lt hpos), hj]
    rfl
  -- the first block
  obtain ⟨b1, hb1, htake1⟩ := fill_eq c.buffer (j := c.pos) (b := d.bytes.take (64 - c.pos))
    (by rw [List.length_take]; omega)
  have hread1 : d.read 0 i.toNat = .done (d.bytes.take (64 - c.pos)) := by
    rw [hi, d.read_eq (by omega), List.drop_zero]
  have hb1' : b1.1 = c.waiting ++ d.bytes.take (64 - c.pos) := by
    rw [Ctx.waiting, ← htake1, List.length_take, List.take_of_length_le (by rw [b1.2]; omega)]
  have hblock : c.waiting ++ d.bytes = b1.1 ++ d.bytes.drop i.toNat := by
    rw [hb1', hi, List.append_assoc, List.take_append_drop]
  -- the whole blocks
  obtain ⟨i', hrun, hi', hrest⟩ := transforms_eq d h i (sha1Transform c.state b1.1) (by omega)
      (by omega)
  have hshort : (d.bytes.drop i'.toNat).length < 64 := by
    rw [hrest, length_rest]
    exact Nat.mod_lt _ (by decide)
  -- the bytes that wait
  have hread2 : d.read i'.toNat (d.len - i').toNat = .done (d.bytes.drop i'.toNat) := by
    rw [UInt32.toNat_sub_of_le _ _ (by rw [UInt32.le_iff_toNat_le, d.toNat_len]; exact hi'),
      d.toNat_len, d.read_eq (by omega), List.take_of_length_le (by rw [List.length_drop])]
  obtain ⟨b2, hb2, htake2⟩ := fill_eq b1 (j := 0) (b := d.bytes.drop i'.toNat) (by omega)
  have hlast : (d.bytes.drop i'.toNat).length = (c.pos + d.bytes.length) % 64 := by
    rw [hrest, length_rest, List.length_drop, hi]
    omega
  have hstate : absorb sha1Transform 64 c.state (c.waiting ++ d.bytes) =
      absorb sha1Transform 64 (sha1Transform c.state b1.1) (d.bytes.drop i.toNat) := by
    rw [hblock, absorb_cons (by decide) b1.2]
  have hcount := count_after c d (absorb sha1Transform 64 c.state (c.waiting ++ d.bytes)) b2
  refine ⟨c.after d (absorb sha1Transform 64 c.state (c.waiting ++ d.bytes)) b2, ?_, rfl, ?_,
    hcount⟩
  · simp only [sha1Update]
    rw [if_pos hplace, ← hid, hread1, Outcome.bind_done, hj, hb1, Outcome.bind_done, hrun,
      Outcome.bind_done, hread2, Outcome.bind_done, hb2, Outcome.bind_done, Ctx.after, hstate]
  · rw [Ctx.waiting, pos_of_count hcount, hblock, rest_cons (by decide) b1.2, ← hrest, ← hlast]
    rw [Nat.zero_add, List.take_zero, List.nil_append] at htake2
    exact htake2

/-- `SHA1Update`, as long as the place in the buffer and the length do not wrap. -/
theorem sha1Update_eq (c : Ctx) (d : Data) (h : c.pos + d.bytes.length < 2 ^ 32) :
    ∃ c', sha1Update c d = .done c' ∧ Updated c c' d.bytes := by
  by_cases hfull : 64 ≤ c.pos + d.bytes.length
  · exact sha1Update_full c d h hfull
  · exact sha1Update_short c d (by omega)

/-- With a place and a length that wrap, the bytes are copied over the end of the buffer. -/
theorem sha1Update_fault (c : Ctx) (d : Data) (h : 2 ^ 32 ≤ c.pos + d.bytes.length) :
    sha1Update c d = .fault := by
  have hpos := c.pos_lt
  have hlen := d.toNat_len
  have hfits := d.fits
  have hj := toNat_place c.count0
  rw [← Ctx.pos] at hj
  have hfull : ¬ ((c.count0 >>> 3) &&& 63) + d.len > 63 := by
    rw [gt_iff_lt, UInt32.lt_iff_toNat_lt, UInt32.toNat_add, hj, hlen, show (63 : UInt32).toNat =
      63 from rfl]
    omega
  have hover : fill c.buffer c.pos d.bytes = .fault := dif_neg (by omega)
  simp only [sha1Update]
  rw [if_neg hfull, d.read_eq (by omega), Outcome.bind_done, List.drop_zero,
    List.take_of_length_le (by omega), hj, hover, Outcome.bind_fault]

/-! ## Runs -/

/-- The context has taken the bytes `xs`. -/
structure Holds (c : Ctx) (xs : Bytes) : Prop where
  absorbed : Absorbed sha1Transform 64 initial c.state c.waiting xs
  count : c.count = 8 * xs.length % 2 ^ 64

theorem pos_init (buffer : Buffer) : (sha1Init buffer).pos = 0 := by
  rw [Ctx.pos, sha1Init, UInt32.toNat_zero]

theorem Holds.init (buffer : Buffer) : Holds (sha1Init buffer) [] := by
  have hwait : (sha1Init buffer).waiting = [] := by rw [Ctx.waiting, pos_init, List.take_zero]
  refine ⟨?_, rfl⟩
  rw [hwait]
  exact Absorbed.nil initial (by decide)

theorem Holds.update {c c' : Ctx} {xs bs : Bytes} (h : Holds c xs) (hu : Updated c c' bs) :
    Holds c' (xs ++ bs) := by
  refine ⟨?_, ?_⟩
  · rw [hu.state, hu.waiting]
    exact h.absorbed.append (by decide) bs
  · rw [hu.count, h.count, List.length_append]
    omega

theorem Holds.pos {c : Ctx} {xs : Bytes} (h : Holds c xs) : c.pos = xs.length % 64 := by
  rw [c.pos_eq, h.count]
  omega

/-- A short piece never wraps. -/
theorem Holds.step {c : Ctx} {xs : Bytes} (h : Holds c xs) (d : Data)
    (hd : c.pos + d.bytes.length < 2 ^ 32) :
    ∃ c', sha1Update c d = .done c' ∧ Holds c' (xs ++ d.bytes) := by
  obtain ⟨c', hrun, hu⟩ := sha1Update_eq c d hd
  exact ⟨c', hrun, h.update hu⟩

/-- The test of the loop looks at the place in the buffer. -/
theorem and_504 (x : UInt32) :
    x &&& (504 : UInt32) = ((x >>> 3) &&& (63 : UInt32)) <<< (3 : UInt32) := by
  apply UInt32.toBitVec_inj.mp
  rw [UInt32.toBitVec_and, UInt32.toBitVec_shiftLeft, UInt32.toBitVec_and,
    UInt32.toBitVec_shiftRight]
  apply BitVec.eq_of_getLsbD_eq
  intro i hi
  interval_cases i <;> simp

theorem and_504_eq (c : Ctx) : c.count0 &&& 504 = 448 ↔ c.pos = 56 := by
  have hpos := c.pos_lt
  rw [and_504, ← UInt32.toNat_inj, UInt32.toNat_shiftLeft, toNat_place, ← Ctx.pos, Nat.shiftLeft_eq,
    show (448 : UInt32).toNat = 448 from rfl, show (3 : UInt32).toNat % 32 = 3 from rfl]
  omega

/-- The zeros from a place on: up to eight bytes before the end of a block. -/
def zerosFrom (n : Nat) : Bytes := List.replicate ((120 - n % 64) % 64) 0

theorem zerosFrom_succ {n : Nat} (h : n % 64 ≠ 56) : zerosFrom n = 0 :: zerosFrom (n + 1) := by
  rw [zerosFrom, zerosFrom, ← List.replicate_succ]
  congr 1
  omega

theorem zeros_eq {k : Nat} {c : Ctx} {xs : Bytes} (h : Holds c xs)
    (hk : (120 - xs.length % 64) % 64 < k) :
    ∃ c', zeros k c = .done c' ∧ Holds c' (xs ++ zerosFrom xs.length) := by
  induction k generalizing c xs with
  | zero => omega
  | succ k ih =>
    have hpos := h.pos
    by_cases hend : c.count0 &&& 504 = 448
    · have hz : zerosFrom xs.length = [] := by
        rw [and_504_eq, hpos] at hend
        rw [zerosFrom, hend]
        rfl
      exact ⟨c, if_neg (not_not.mpr hend), by rwa [hz, List.append_nil]⟩
    · have hne : xs.length % 64 ≠ 56 := by rwa [and_504_eq, hpos] at hend
      obtain ⟨c1, hrun, h1⟩ := h.step ⟨[0], fits_byte 0⟩ (by rw [List.length_singleton]; omega)
      obtain ⟨c2, hrest, h2⟩ := ih h1 (by rw [List.length_append, List.length_singleton]; omega)
      refine ⟨c2, ?_, ?_⟩
      · rw [zeros, if_pos hend, hrun, Outcome.bind_done, hrest]
      · rwa [List.length_append, List.length_singleton, List.append_assoc, List.singleton_append,
          ← zerosFrom_succ hne] at h2

/-! ## The last bytes -/

/-- One byte of a word: a shift and a mask. -/
theorem toUInt8_shift (w : UInt32) (k : Nat) (hk : k < 32) :
    ((w >>> UInt32.ofNat k) &&& 255).toUInt8 = UInt8.ofNat (w.toNat / 2 ^ k % 256) := by
  apply UInt8.toNat_inj.mp
  rw [UInt32.toNat_toUInt8, UInt32.toNat_and, UInt32.toNat_shiftRight, UInt32.toNat_ofNat',
    show (255 : UInt32).toNat = 2 ^ 8 - 1 from rfl, Nat.and_two_pow_sub_one_eq_mod,
    Nat.shiftRight_eq_div_pow,
    Nat.mod_eq_of_lt (show k < 2 ^ 32 by omega), Nat.mod_eq_of_lt hk, UInt8.toNat_ofNat']

theorem bytes_word (w : UInt32) :
    [((w >>> UInt32.ofNat 24) &&& 255).toUInt8, ((w >>> UInt32.ofNat 16) &&& 255).toUInt8,
      ((w >>> UInt32.ofNat 8) &&& 255).toUInt8, ((w >>> UInt32.ofNat 0) &&& 255).toUInt8] =
        bigBytes 4 w.toNat := by
  rw [toUInt8_shift w 24 (by decide), toUInt8_shift w 16 (by decide), toUInt8_shift w 8 (by decide),
    toUInt8_shift w 0 (by decide), bigBytes, leBytes, leBytes, leBytes, leBytes, leBytes,
    Nat.div_div_eq_div_mul,
    Nat.div_div_eq_div_mul, Nat.pow_zero, Nat.div_one]
  rfl

theorem output_eq (s : Words) : output s = outputWords s := by
  rw [outputWords, ← bytes_word, ← bytes_word, ← bytes_word, ← bytes_word, ← bytes_word]
  rfl

theorem finalcount_eq (c : Ctx) : finalcount c = bigBytes 8 c.count := by
  have h : bigBytes 8 c.count = bigBytes 4 c.count1.toNat ++ bigBytes 4 c.count0.toNat := by
    rw [bigBytes, bigBytes, bigBytes, ← List.reverse_append, ← leBytes_append c.count0.toNat_lt]
    rfl
  rw [h, ← bytes_word, ← bytes_word]
  rfl

theorem length_bigBytes (k x : Nat) : (bigBytes k x).length = k := by
  rw [bigBytes, List.length_reverse, length_leBytes]

/-- Only the low bytes are written. -/
theorem bigBytes_mod (k x : Nat) : bigBytes k (x % 256 ^ k) = bigBytes k x := by
  have h := leBytes_append (Nat.mod_lt x (Nat.pow_pos (n := k) (by decide : 0 < 256))) 0
      (x / 256 ^ k)
  rw [Nat.add_zero, Nat.mod_add_div, leBytes, List.append_nil] at h
  rw [bigBytes, ← h, bigBytes]

theorem pad_eq (xs : Bytes) :
    pad xs = xs ++ [0x80] ++ zerosFrom (xs.length + 1) ++ bigBytes 8 (8 * xs.length) := by
  have hz : (120 - (xs.length + 1) % 64) % 64 = (119 - xs.length % 64) % 64 := by omega
  rw [pad, zerosFrom, hz, List.append_assoc, List.append_assoc, List.singleton_append]

theorem length_pad (xs : Bytes) : 64 ∣ (pad xs).length := by
  simp only [pad, List.length_append, List.length_cons, List.length_replicate, length_bigBytes]
  omega

/-- `SHA1Final` after the bytes `xs`, however they came in. -/
theorem Holds.final {c : Ctx} {xs : Bytes} (h : Holds c xs) : sha1Final c = .done (digest xs) := by
  have hpos := c.pos_lt
  obtain ⟨c1, hrun1, h1⟩ := h.step ⟨[0x80], fits_byte 0x80⟩ (by rw [List.length_singleton]; omega)
  obtain ⟨c2, hrun2, h2⟩ := zeros_eq h1 (Nat.mod_lt _ (by decide : 0 < 64))
  rw [List.length_append, List.length_singleton] at h2
  have hlen : (finalcount c).length = 8 := by rw [finalcount_eq, length_bigBytes]
  have hpos2 := c2.pos_lt
  obtain ⟨c3, hrun3, h3⟩ := h2.step ⟨finalcount c, fits_finalcount c⟩ (by simp only [hlen]; omega)
  have hpad : xs ++ [0x80] ++ zerosFrom (xs.length + 1) ++ finalcount c = pad xs := by
    rw [pad_eq, finalcount_eq, h.count, show 2 ^ 64 = 256 ^ 8 from rfl, bigBytes_mod]
  have hstate : c3.state = absorb compress 64 initial (pad xs) := by
    rw [← hpad, h3.absorbed.state]
    exact absorb_congr (fun s b hb => sha1Transform_eq hb s) _ _
  rw [sha1Final, hrun1, Outcome.bind_done, hrun2, Outcome.bind_done, hrun3, Outcome.bind_done,
    output_eq, hstate, digest]

/-- `acorn::sha1` is SHA-1, for every string and whatever the memory held. -/
theorem sha1_eq (buffer : Buffer) (str : Data) : sha1 buffer str = .done (digest str.bytes) := by
  obtain ⟨c, hrun, hc⟩ := (Holds.init buffer).step str (by
    have hfits := str.fits
    rw [pos_init]
    omega)
  rw [sha1, hrun, Outcome.bind_done]
  exact hc.final

/-- `SHA1Update` on one piece after the other. -/
def sha1Updates (c : Ctx) : List Data → Outcome Ctx
  | [] => .done c
  | d :: ds => (sha1Update c d).bind fun c' => sha1Updates c' ds

/-- After `n` bytes, no piece makes the place in the buffer wrap. -/
def Fit (n : Nat) : List Data → Prop
  | [] => True
  | d :: ds => n % 64 + d.bytes.length < 2 ^ 32 ∧ Fit (n + d.bytes.length) ds

def decFit : (n : Nat) → (ds : List Data) → Decidable (Fit n ds)
  | _, [] => instDecidableTrue
  | n, d :: ds =>
    have := decFit (n + d.bytes.length) ds
    inferInstanceAs (Decidable (_ ∧ _))

instance instDecidableFit (n : Nat) (ds : List Data) : Decidable (Fit n ds) := decFit n ds

theorem Holds.pieces {c : Ctx} {xs : Bytes} (h : Holds c xs) (ds : List Data) :
    (sha1Updates c ds).bind sha1Final =
      if Fit xs.length ds then .done (digest (xs ++ ds.flatMap Data.bytes)) else .fault := by
  induction ds generalizing c xs with
  | nil =>
    rw [sha1Updates, Outcome.bind_done, h.final, if_pos (show Fit xs.length [] from trivial),
      List.flatMap_nil, List.append_nil]
  | cons d ds ih =>
    have hpos := h.pos
    by_cases hd : xs.length % 64 + d.bytes.length < 2 ^ 32
    · obtain ⟨c', hrun, h'⟩ := h.step d (by rwa [hpos])
      rw [sha1Updates, hrun, Outcome.bind_done, ih h', List.flatMap_cons, ← List.append_assoc,
        List.length_append]
      apply if_congr _ rfl rfl
      rw [Fit, and_iff_right hd]
    · rw [sha1Updates, sha1Update_fault c d (by omega), Outcome.bind_fault, Outcome.bind_fault,
        if_neg]
      rintro ⟨hfit, -⟩
      exact hd hfit

/-- However a message is cut into pieces, the context ends with its SHA-1 digest; the only pieces
that go wrong are those whose length wraps with the place in the buffer. -/
theorem sha1_pieces (buffer : Buffer) (ds : List Data) :
    (sha1Updates (sha1Init buffer) ds).bind sha1Final =
      if Fit 0 ds then .done (digest (ds.flatMap Data.bytes)) else .fault :=
  (Holds.init buffer).pieces ds

example : sha1 ⟨List.replicate 64 0xFF, List.length_replicate⟩ ⟨[97, 98, 99], by decide⟩ =
    .done [0xA9, 0x99, 0x3E, 0x36, 0x47, 0x06, 0x81, 0x6A, 0xBA, 0x3E, 0x25, 0x71, 0x78, 0x50, 0xC2,
      0x6C, 0x9C, 0xD0, 0xD8, 0x9D] := by
  decide +kernel

/-! ## Collisions -/

theorem bigBytes_inj {k x y : Nat} (hx : x < 256 ^ k) (hy : y < 256 ^ k)
    (h : bigBytes k x = bigBytes k y) :
    x = y := by
  have hread := congrArg ofLe (List.reverse_injective h)
  rwa [ofLe_leBytes, ofLe_leBytes, Nat.mod_eq_of_lt hx, Nat.mod_eq_of_lt hy] at hread

theorem length_eq_of_pad_suffix {xs ys : Bytes} (hx : xs.length < 2 ^ 61) (hy : ys.length < 2 ^ 61)
    (h : pad xs <:+ pad ys) : xs.length = ys.length := by
  obtain ⟨front, h⟩ := h
  rw [pad_eq, pad_eq, ← List.append_assoc] at h
  have hlast := List.append_inj_right' h (by rw [length_bigBytes, length_bigBytes])
  have heq := bigBytes_inj (by omega) (by omega) hlast
  omega

/-- No padded message ends another one: the last eight bytes tell the length. -/
theorem pad_suffix_free {xs ys : Bytes} (hx : xs.length < 2 ^ 61) (hy : ys.length < 2 ^ 61)
    (h : pad xs <:+ pad ys) : xs = ys := by
  have hlen := length_eq_of_pad_suffix hx hy h
  have hpad : pad xs = pad ys := by
    apply h.eq_of_length
    simp only [pad, List.length_append, List.length_cons, List.length_replicate, length_bigBytes,
      hlen]
  exact (List.append_inj hpad hlen).1

/-- The padding of SHA-1, for messages whose length in bits has 64 bits. -/
def standard : Padding UInt8 64 where
  pad := pad
  Fits xs := xs.length < 2 ^ 61
  aligned := length_pad
  suffix_free _ _ := pad_suffix_free

theorem outputWords_inj {s t : Words} (h : outputWords s = outputWords t) : s = t := by
  have hl : ∀ x y, (bigBytes 4 x).length = (bigBytes 4 y).length := fun x y => by
    rw [length_bigBytes, length_bigBytes]
  have hw : ∀ x y : UInt32, bigBytes 4 x.toNat = bigBytes 4 y.toNat → x = y := fun x y hxy =>
    UInt32.toNat_inj.mp (bigBytes_inj x.toNat_lt y.toNat_lt hxy)
  obtain ⟨h, he⟩ := List.append_inj' h (hl _ _)
  obtain ⟨h, hd⟩ := List.append_inj' h (hl _ _)
  obtain ⟨h, hc⟩ := List.append_inj' h (hl _ _)
  obtain ⟨ha, hb⟩ := List.append_inj' h (hl _ _)
  cases s
  cases t
  rw [Words.mk.injEq]
  exact ⟨hw _ _ ha, hw _ _ hb, hw _ _ hc, hw _ _ hd, hw _ _ he⟩

/-- Two strings with one digest are the same string, or `SHA1Transform` meets, on the way over them,
two different inputs with one output. -/
theorem sha1_same_digest (buffer buffer' : Buffer) (a b : Data)
    (h : sha1 buffer a = sha1 buffer' b) :
    a.bytes = b.bytes ∨ standard.Meets sha1Transform initial a.bytes b.bytes := by
  have ha := a.fits
  have hb := b.fits
  have hcongr : ∀ xs, absorb sha1Transform 64 initial xs = absorb compress 64 initial xs :=
    absorb_congr (fun s block hblock => sha1Transform_eq hblock s) initial
  rw [sha1_eq, sha1_eq, Outcome.done.injEq] at h
  apply standard.eq_or_meets (by decide) initial (show _ < _ by omega) (show _ < _ by omega)
  rw [Padding.hash, Padding.hash, hcongr, hcongr]
  exact outputWords_inj h

theorem sha1_same_digest_abc :
    ([97, 98, 99] : Bytes) = [97, 98, 99] ∨
      standard.Meets sha1Transform initial [97, 98, 99] [97, 98, 99] :=
  sha1_same_digest ⟨List.replicate 64 0, List.length_replicate⟩
    ⟨List.replicate 64 0xFF, List.length_replicate⟩
    ⟨[97, 98, 99], by decide⟩ ⟨[97, 98, 99], by decide⟩ (by decide +kernel)

end Libacorn.Sha1
