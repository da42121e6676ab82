import Mathlib.Tactic.IntervalCases
import Libacorn.Support.Codec
import Libacorn.Support.Footprint
import Libacorn.StringOrder

/-!
# base/hash.cpp: CityHash, and the hash of a string

Both hashes read every byte of their input, and nothing beside it (`cityHash_reads`). A string is
then hashed wherever its bytes lie, and equal strings have one hash, as a table that is keyed by
strings relies on (`string_hash`).
-/

namespace Libacorn

open Support

namespace CityHash

/-! ## The source -/

/-- `Fetch64(s)` -/
def fetch64 (s : Nat) : Access Nat UInt8 UInt64 := do
  let p ← peekRange s 8
  pure (UInt64.ofNat (ofLe p))

/-- `Fetch32(s)` -/
def fetch32 (s : Nat) : Access Nat UInt8 UInt32 := do
  let p ← peekRange s 4
  pure (UInt32.ofNat (ofLe p))

def bswap32 (x : UInt32) : UInt32 := UInt32.ofNat (ofLe (leBytes 4 x.toNat).reverse)

def bswap64 (x : UInt64) : UInt64 := UInt64.ofNat (ofLe (leBytes 8 x.toNat).reverse)

def k0 : UInt64 := 0xc3a5c85c97cb3127
def k1 : UInt64 := 0xb492b66fbe98f273
def k2 : UInt64 := 0x9ae16a3b2f90404f

def c1 : UInt32 := 0xcc9e2d51
def c2 : UInt32 := 0x1b873593

def fmix (h : UInt32) : UInt32 :=
  let h := (h ^^^ (h >>> 16)) * 0x85ebca6b
  let h := (h ^^^ (h >>> 13)) * 0xc2b2ae35
  h ^^^ (h >>> 16)

def rotate32 (val shift : UInt32) : UInt32 :=
  if shift = 0 then val else (val >>> shift) ||| (val <<< (32 - shift))

/-- The step that ends with `* 5 + 0xe6546b64`. -/
def murStep (h : UInt32) (shift : UInt32) : UInt32 := rotate32 h shift * 5 + 0xe6546b64

def mur (a h : UInt32) : UInt32 := murStep (h ^^^ (rotate32 (a * c1) 17 * c2)) 19

/-- The loop over at most four characters, which are `signed char`. -/
def mixChars (i : Nat) (b c : UInt32) : Nat → Access Nat UInt8 (UInt32 × UInt32)
  | 0 => pure (b, c)
  | n + 1 => do
    let v ← peek i
    let b := b * c1 + UInt32.ofBitVec (v.toBitVec.signExtend 32)
    mixChars (i + 1) b (c ^^^ b) n

/-- The members that the loop of `CityHash32` changes. -/
structure Mixed32 where
  f : UInt32
  g : UInt32
  h : UInt32

/-- The body of the loop; `PERMUTE3(f, h, g)` is its last step. -/
def chunk32 (s : Nat) (m : Mixed32) : Access Nat UInt8 Mixed32 := do
  let a0 ← fetch32 s
  let a1 ← fetch32 (s + 4)
  let a2 ← fetch32 (s + 8)
  let a3 ← fetch32 (s + 12)
  let a4 ← fetch32 (s + 16)
  let a0 := rotate32 (a0 * c1) 17 * c2
  let a2 := rotate32 (a2 * c1) 17 * c2
  let a3 := rotate32 (a3 * c1) 17 * c2
  let h := murStep (m.h ^^^ a0) 18
  let f := rotate32 (m.f + a1) 19 * c1
  let g := murStep (m.g + a2) 18
  let h := murStep (h ^^^ (a3 + a1)) 19
  let g := bswap32 (g ^^^ a4) * 5
  let h := bswap32 (h + a4 * 5)
  let f := f + a0
  pure ⟨g, h, f⟩

/-- The loop; it runs at least once. -/
def chunks32 (s : Nat) (m : Mixed32) : Nat → Access Nat UInt8 Mixed32
  | 0 => pure m
  | iters + 1 => do
    let m ← chunk32 s m
    chunks32 (s + 20) m iters

/-- `CityHash32(s, len)`; the address of `s` is 0. -/
def cityHash32 (len : UInt32) : Access Nat UInt8 UInt32 :=
  let n := len.toNat
  if n ≤ 24 then
    if n ≤ 12 then
      if n ≤ 4 then do
        let (b, c) ← mixChars 0 0 9 n
        pure (fmix (mur b (mur len c)))
      else do
        let a ← fetch32 0
        let b ← fetch32 (n - 4)
        let c ← fetch32 ((n >>> 1) &&& 4)
        let d := len * 5
        pure (fmix (mur (9 + c) (mur (d + b) (mur (len + a) d))))
    else do
      let a ← fetch32 ((n >>> 1) - 4)
      let b ← fetch32 4
      let c ← fetch32 (n - 8)
      let d ← fetch32 (n >>> 1)
      let e ← fetch32 0
      let f ← fetch32 (n - 4)
      pure (fmix (mur f (mur e (mur d (mur c (mur b (mur a len)))))))
  else do
    let g := c1 * len
    let a0 ← fetch32 (n - 4)
    let a1 ← fetch32 (n - 8)
    let a2 ← fetch32 (n - 16)
    let a3 ← fetch32 (n - 12)
    let a4 ← fetch32 (n - 20)
    let h := murStep (len ^^^ (rotate32 (a0 * c1) 17 * c2)) 19
    let h := murStep (h ^^^ (rotate32 (a2 * c1) 17 * c2)) 19
    let f := murStep (g + rotate32 (a4 * c1) 17 * c2) 19
    let g := murStep (g ^^^ (rotate32 (a1 * c1) 17 * c2)) 19
    let g := murStep (g ^^^ (rotate32 (a3 * c1) 17 * c2)) 19
    let m ← chunks32 0 ⟨f, g, h⟩ ((n - 1) / 20)
    let g := rotate32 (rotate32 m.g 11 * c1) 17 * c1
    let f := rotate32 (rotate32 m.f 11 * c1) 17 * c1
    let h := rotate32 (murStep (m.h + g) 19) 17 * c1
    pure (rotate32 (murStep (h + f) 19) 17 * c1)

def rotate (val shift : UInt64) : UInt64 :=
  if shift = 0 then val else (val >>> shift) ||| (val <<< (64 - shift))

def shiftMix (val : UInt64) : UInt64 := val ^^^ (val >>> 47)

/-- `HashLen16(u, v, mul)` -/
def hashLen16By (mul u v : UInt64) : UInt64 :=
  let a := (u ^^^ v) * mul
  let a := a ^^^ (a >>> 47)
  let b := (v ^^^ a) * mul
  (b ^^^ (b >>> 47)) * mul

/-- `HashLen16(u, v)`: with `kMul`. -/
def hashLen16 : UInt64 → UInt64 → UInt64 := hashLen16By 0x9ddfea08eb382d69

/-- `WeakHashLen32WithSeeds(s, a, b)` -/
def weakHashLen32WithSeeds (s : Nat) (a b : UInt64) : Access Nat UInt8 (UInt64 × UInt64) := do
  let w ← fetch64 s
  let x ← fetch64 (s + 8)
  let y ← fetch64 (s + 16)
  let z ← fetch64 (s + 24)
  let a := a + w
  let b := rotate (b + a + z) 21
  let c := a
  let a := a + x + y
  let b := b + rotate a 44
  pure (a + z, b + c)

/-- The state of 56 bytes. -/
structure Mixed64 where
  v : UInt64 × UInt64
  w : UInt64 × UInt64
  x : UInt64
  y : UInt64
  z : UInt64

/-- The body of the loop; `z` and `x` are swapped at its end. -/
def chunk64 (s : Nat) (m : Mixed64) : Access Nat UInt8 Mixed64 := do
  let x := rotate (m.x + m.y + m.v.1 + (← fetch64 (s + 8))) 37 * k1
  let y := rotate (m.y + m.v.2 + (← fetch64 (s + 48))) 42 * k1
  let x := x ^^^ m.w.2
  let y := y + (m.v.1 + (← fetch64 (s + 40)))
  let z := rotate (m.z + m.w.1) 33 * k1
  let v ← weakHashLen32WithSeeds s (m.v.2 * k1) (x + m.w.1)
  let w ← weakHashLen32WithSeeds (s + 32) (z + m.w.2) (y + (← fetch64 (s + 16)))
  pure ⟨v, w, z, y, x⟩

/-- The loop over `n` chunks of 64 bytes; it runs at least once. -/
def chunks64 (s : Nat) (m : Mixed64) : Nat → Access Nat UInt8 Mixed64
  | 0 => pure m
  | n + 1 => do
    let m ← chunk64 s m
    chunks64 (s + 64) m n

/-- `CityHash64(s, len)`; the address of `s` is 0. -/
def cityHash64 (len : UInt32) : Access Nat UInt8 UInt64 :=
  let n := len.toNat
  let mul := k2 + (len * 2).toUInt64
  if n ≤ 32 then
    if n ≤ 16 then
      if 8 ≤ n then do
        let a := (← fetch64 0) + k2
        let b ← fetch64 (n - 8)
        let c := rotate b 37 * mul + a
        let d := (rotate a 25 + b) * mul
        pure (hashLen16By mul c d)
      else if 4 ≤ n then do
        let a ← fetch32 0
        let b ← fetch32 (n - 4)
        pure (hashLen16By mul (len.toUInt64 + (a.toUInt64 <<< 3)) b.toUInt64)
      else if 0 < n then do
        let a ← peek 0
        let b ← peek (n >>> 1)
        let c ← peek (n - 1)
        let y := a.toUInt32 + (b.toUInt32 <<< 8)
        let z := len + (c.toUInt32 <<< 2)
        pure (shiftMix ((y.toUInt64 * k2) ^^^ (z.toUInt64 * k0)) * k2)
      else pure k2
    else do
      let a := (← fetch64 0) * k1
      let b ← fetch64 8
      let c := (← fetch64 (n - 8)) * mul
      let d := (← fetch64 (n - 16)) * k2
      pure (hashLen16By mul (rotate (a + b) 43 + rotate c 30 + d) (a + rotate (b + k2) 18 + c))
  else if n ≤ 64 then do
    let a := (← fetch64 0) * k2
    let b ← fetch64 8
    let c ← fetch64 (n - 24)
    let d ← fetch64 (n - 32)
    let e := (← fetch64 16) * k2
    let f := (← fetch64 24) * 9
    let g ← fetch64 (n - 8)
    let h := (← fetch64 (n - 16)) * mul
    let u := rotate (a + g) 43 + (rotate b 30 + c) * 9
    let v := ((a + g) ^^^ d) + f + 1
    let w := bswap64 ((u + v) * mul) + h
    let x := rotate (e + f) 42 + c
    let y := (bswap64 ((v + w) * mul) + g) * mul
    let z := e + f + c
    let a := bswap64 ((x + z) * mul + y) + b
    let b := shiftMix ((z + a) * mul + d + h) * mul
    pure (b + x)
  else do
    let x ← fetch64 (n - 40)
    let y := (← fetch64 (n - 16)) + (← fetch64 (n - 56))
    let z := hashLen16 ((← fetch64 (n - 48)) + len.toUInt64) (← fetch64 (n - 24))
    let v ← weakHashLen32WithSeeds (n - 64) len.toUInt64 z
    let w ← weakHashLen32WithSeeds (n - 32) (y + k1) x
    let x := x * k1 + (← fetch64 0)
    let m ← chunks64 0 ⟨v, w, x, y, z⟩ (((len - 1) &&& ~~~63).toNat / 64)
    pure (hashLen16 (hashLen16 m.v.1 m.w.1 + shiftMix m.y * k1 + m.z) (hashLen16 m.v.2 m.w.2 + m.x))

/-! ## What is read -/

theorem fetch64_reads (s : Nat) : Footprint (fetch64 s) (Set.Ico s (s + 8)) :=
  (Footprint.peekRange s 8).map _

theorem fetch32_reads (s : Nat) : Footprint (fetch32 s) (Set.Ico s (s + 4)) :=
  (Footprint.peekRange s 4).map _

theorem mixChars_reads (i : Nat) (b c : UInt32) (n : Nat) :
    Footprint (mixChars i b c n) (Set.Ico i (i + n)) := by
  induction n generalizing i b c with
  | zero =>
    apply (Footprint.pure (b, c)).of_eq
    intro j
    rw [Nat.add_zero, Set.Ico_self]
  | succ n ih =>
    apply ((Footprint.peek i).bind fun v => ih (i + 1) _ _).of_eq
    intro j
    simp only [Set.mem_union, Set.mem_singleton_iff, Set.mem_Ico]
    omega

theorem chunk32_reads (s : Nat) (m : Mixed32) : Footprint (chunk32 s m) (Set.Ico s (s + 20)) := by
  apply ((fetch32_reads s).bind fun a0 => (fetch32_reads (s + 4)).bind fun a1 =>
    (fetch32_reads (s + 8)).bind fun a2 =>
    (fetch32_reads (s + 12)).bind fun a3 => (fetch32_reads (s + 16)).map _).of_eq
  intro i
  simp only [Set.mem_union, Set.mem_Ico]
  omega

theorem chunks32_reads (s : Nat) (m : Mixed32) (n : Nat) :
    Footprint (chunks32 s m n) (Set.Ico s (s + 20 * n)) := by
  induction n generalizing s m with
  | zero =>
    apply (Footprint.pure m).of_eq
    intro i
    rw [Nat.mul_zero, Nat.add_zero, Set.Ico_self]
  | succ n ih =>
    apply ((chunk32_reads s m).bind fun m => ih (s + 20) m).of_eq
    intro i
    simp only [Set.mem_union, Set.mem_Ico]
    omega

theorem weakHashLen32WithSeeds_reads (s : Nat) (a b : UInt64) :
    Footprint (weakHashLen32WithSeeds s a b) (Set.Ico s (s + 32)) := by
  apply ((fetch64_reads s).bind fun w => (fetch64_reads (s + 8)).bind fun x =>
    (fetch64_reads (s + 16)).bind fun y =>
    (fetch64_reads (s + 24)).map _).of_eq
  intro i
  simp only [Set.mem_union, Set.mem_Ico]
  omega

theorem chunk64_reads (s : Nat) (m : Mixed64) : Footprint (chunk64 s m) (Set.Ico s (s + 64)) := by
  apply ((fetch64_reads (s + 8)).bind fun p => (fetch64_reads (s + 48)).bind fun q =>
    (fetch64_reads (s + 40)).bind fun r => (weakHashLen32WithSeeds_reads s _ _).bind fun v =>
      (fetch64_reads (s + 16)).bind fun t =>
    (weakHashLen32WithSeeds_reads (s + 32) _ _).map _).of_eq
  intro i
  simp only [Set.mem_union, Set.mem_Ico]
  omega

theorem chunks64_reads (s : Nat) (m : Mixed64) (n : Nat) :
    Footprint (chunks64 s m n) (Set.Ico s (s + 64 * n)) := by
  induction n generalizing s m with
  | zero =>
    apply (Footprint.pure m).of_eq
    intro i
    rw [Nat.mul_zero, Nat.add_zero, Set.Ico_self]
  | succ n ih =>
    apply ((chunk64_reads s m).bind fun m => ih (s + 64) m).of_eq
    intro i
    simp only [Set.mem_union, Set.mem_Ico]
    omega

/-- The four bytes in the middle start at 0 or at 4. -/
theorem half_and_4 {n : Nat} (h : 4 < n) (h' : n ≤ 12) :
    (n >>> 1) &&& 4 = if n < 8 then 0 else 4 := by
  interval_cases n <;> rfl

theorem cityHash32_reads (len : UInt32) : Footprint (cityHash32 len) (Set.Iio len.toNat) := by
  rw [cityHash32]
  generalize hn : len.toNat = n
  dsimp only
  split
  next h24 =>
    split
    next h12 =>
      split
      next h4 =>
        apply ((mixChars_reads 0 0 9 n).map _).of_eq
        intro i
        simp only [Set.mem_Ico, Set.mem_Iio]
        omega
      next h4 =>
        rw [half_and_4 (by omega) h12]
        apply ((fetch32_reads 0).bind fun a => (fetch32_reads (n - 4)).bind fun b =>
          (fetch32_reads _).map _).of_eq
        intro i
        simp only [Set.mem_union, Set.mem_Ico, Set.mem_Iio]
        split_ifs
        · omega
        · omega
    next h12 =>
      rw [Nat.shiftRight_eq_div_pow, Nat.pow_one]
      apply ((fetch32_reads (n / 2 - 4)).bind fun a => (fetch32_reads 4).bind fun b =>
        (fetch32_reads (n - 8)).bind fun c => (fetch32_reads (n / 2)).bind fun d =>
          (fetch32_reads 0).bind fun e => (fetch32_reads (n - 4)).map _).of_eq
      intro i
      simp only [Set.mem_union, Set.mem_Ico, Set.mem_Iio]
      omega
  next h24 =>
    apply ((fetch32_reads (n - 4)).bind fun a0 => (fetch32_reads (n - 8)).bind fun a1 =>
      (fetch32_reads (n - 16)).bind fun a2 => (fetch32_reads (n - 12)).bind fun a3 =>
      (fetch32_reads (n - 20)).bind fun a4 => (chunks32_reads 0 _ ((n - 1) / 20)).map _).of_eq
    intro i
    simp only [Set.mem_union, Set.mem_Ico, Set.mem_Iio]
    omega

/-- Masking the low bits of the count rounds it down to whole chunks. -/
theorem and_mask_chunks {x : Nat} (h : x < 2 ^ 32) : (x &&& 0xffffffc0) / 64 = x / 64 := by
  have hmask : (0xffffffc0 : Nat) >>> 6 = 2 ^ 26 - 1 := by decide
  have hshift : ∀ y : Nat, y / 64 = y >>> 6 := fun y => (Nat.shiftRight_eq_div_pow y 6).symm
  rw [hshift, Nat.shiftRight_and_distrib, hmask, Nat.and_two_pow_sub_one_eq_mod, ← hshift]
  omega

theorem chunkCount {len : UInt32} (h : 64 < len.toNat) :
    ((len - 1) &&& ~~~63).toNat / 64 = (len.toNat - 1) / 64 := by
  have hlt := len.toNat_lt
  have hle : (1 : UInt32) ≤ len := by
    rw [UInt32.le_iff_toNat_le]
    exact Nat.le_of_lt (Nat.lt_trans (by decide) h)
  have hsub : (len - 1).toNat = len.toNat - 1 := UInt32.toNat_sub_of_le len 1 hle
  have hmask : (~~~63 : UInt32).toNat = 0xffffffc0 := by decide
  rw [UInt32.toNat_and, hsub, hmask, and_mask_chunks (by omega)]

theorem cityHash64_reads (len : UInt32) : Footprint (cityHash64 len) (Set.Iio len.toNat) := by
  rw [cityHash64]
  generalize hn : len.toNat = n
  dsimp only
  split
  next h32 =>
    split
    next h16 =>
      split
      next h8 =>
        apply ((fetch64_reads 0).bind fun a => (fetch64_reads (n - 8)).map _).of_eq
        intro i
        simp only [Set.mem_union, Set.mem_Ico, Set.mem_Iio]
        omega
      next h8 =>
        split
        next h4 =>
          apply ((fetch32_reads 0).bind fun a => (fetch32_reads (n - 4)).map _).of_eq
          intro i
          simp only [Set.mem_union, Set.mem_Ico, Set.mem_Iio]
          omega
        next h4 =>
          split
          next h0 =>
            rw [Nat.shiftRight_eq_div_pow, Nat.pow_one]
            apply ((Footprint.peek 0).bind fun a => (Footprint.peek (n / 2)).bind fun b =>
              (Footprint.peek (n - 1)).map _).of_eq
            intro i
            simp only [Set.mem_union, Set.mem_singleton_iff, Set.mem_Iio]
            omega
          next h0 =>
            apply (Footprint.pure k2).of_eq
            intro i
            simp only [Set.mem_empty_iff_false, Set.mem_Iio, false_iff]
            omega
    next h16 =>
      apply ((fetch64_reads 0).bind fun a => (fetch64_reads 8).bind fun b =>
        (fetch64_reads (n - 8)).bind fun c =>
        (fetch64_reads (n - 16)).map _).of_eq
      intro i
      simp only [Set.mem_union, Set.mem_Ico, Set.mem_Iio]
      omega
  next h32 =>
    split
    next h64 =>
      apply ((fetch64_reads 0).bind fun a => (fetch64_reads 8).bind fun b =>
        (fetch64_reads (n - 24)).bind fun c =>
        (fetch64_reads (n - 32)).bind fun d => (fetch64_reads 16).bind fun e =>
          (fetch64_reads 24).bind fun f =>
        (fetch64_reads (n - 8)).bind fun g => (fetch64_reads (n - 16)).map _).of_eq
      intro i
      simp only [Set.mem_union, Set.mem_Ico, Set.mem_Iio]
      omega
    next h64 =>
      rw [chunkCount (by omega), hn]
      apply ((fetch64_reads (n - 40)).bind fun x => (fetch64_reads (n - 16)).bind fun p =>
        (fetch64_reads (n - 56)).bind fun q => (fetch64_reads (n - 48)).bind fun r =>
        (fetch64_reads (n - 24)).bind fun t => (weakHashLen32WithSeeds_reads (n - 64) _ _).bind
          fun v =>
        (weakHashLen32WithSeeds_reads (n - 32) _ _).bind fun w => (fetch64_reads 0).bind fun u =>
        (chunks64_reads 0 _ ((n - 1) / 64)).map _).of_eq
      intro i
      simp only [Set.mem_union, Set.mem_Ico, Set.mem_Iio]
      omega

/-- `CityHash32` and `CityHash64` read each of the bytes they are given, and no others: they answer
if and only if all of these can be read, and what lies around them makes no difference. -/
theorem cityHash_reads (len : UInt32) :
    Footprint (cityHash32 len) (Set.Iio len.toNat) ∧
      Footprint (cityHash64 len) (Set.Iio len.toNat) :=
  ⟨cityHash32_reads len, cityHash64_reads len⟩

end CityHash

/-! ## The hash of a string -/

namespace StringHeap

open CityHash

/-- `INTPTR_MAX` -/
inductive Pointers where
  | int32
  | int64

/-- The hash of `cb` bytes, as a `size_t`. -/
def cityHash (w : Pointers) (cb : Nat) : Access Nat UInt8 Nat :=
  match w with
  | .int32 => do
    let h ← cityHash32 (UInt32.ofNat cb)
    pure h.toNat
  | .int64 => do
    let h ← cityHash64 (UInt32.ofNat cb)
    pure h.toNat

/-- The memory from `start()` on. -/
def Handle.memoryAt (H : Heap) (s : Handle) (i : Nat) : Option UInt8 :=
  (read H s.buf (s.offset + i) 1).toOption.bind List.head?

/-- `string::hash` -/
def Handle.hash (w : Pointers) (H : Heap) (s : Handle) : Option Nat :=
  cityHash w s.cb (s.memoryAt H)

/-- The hash of a content. -/
def hashBytes (w : Pointers) (b : Bytes) : Option Nat := cityHash w b.length fun i => b[i]?

theorem cityHash_footprint (w : Pointers) {cb : Nat} (h : cb < 2 ^ 32) :
    Footprint (cityHash w cb) (Set.Iio cb) := by
  have hcb : (UInt32.ofNat cb).toNat = cb := UInt32.toNat_ofNat_of_lt' h
  cases w with
  | int32 =>
    have hreads := (cityHash32_reads (UInt32.ofNat cb)).map UInt32.toNat
    rwa [hcb] at hreads
  | int64 =>
    have hreads := (cityHash64_reads (UInt32.ofNat cb)).map UInt64.toNat
    rwa [hcb] at hreads

section Hash

variable {H : Heap} {s : Handle}

theorem WF.memoryAt_eq (hw : WF H s) {i : Nat} (hi : i < s.cb) :
    s.memoryAt H i = (content H s)[i]? := by
  rw [Handle.memoryAt, hw.read_part (by omega), Except.toOption, Option.bind_some, List.head?_take,
    if_neg (by decide), List.head?_drop]

/-- A string is hashed as its content. -/
theorem WF.hash_eq (hw : WF H s) (w : Pointers) : s.hash w H = hashBytes w (content H s) := by
  rw [Handle.hash, hashBytes, hw.length_content]
  exact (cityHash_footprint w hw.cb_lt).dependsOn fun i hi => hw.memoryAt_eq hi

theorem WF.exists_hash (hw : WF H s) (w : Pointers) : ∃ x, s.hash w H = some x := by
  apply (cityHash_footprint w hw.cb_lt).exists_eq
  intro i hi
  rw [hw.memoryAt_eq hi, List.getElem?_eq_getElem (by rw [hw.length_content]; exact hi)]
  rfl

end Hash

/-- In every state of a run every string has a hash, which is the hash of its content; strings that
`operator==` finds equal have the same, wherever their bytes lie. -/
theorem string_hash [Uninit] {S : State} (hS : Reach S) {k : Nat} {s : Handle}
    (hk : S.handle? k = some s) (w : Pointers) :
    ∃ x, s.hash w S.heap = some x ∧ hashBytes w (content S.heap s) = some x ∧
      ∀ l t, S.handle? l = some t → s.cb < 2 ^ 31 → s.equal S.heap t = .ok true →
        t.hash w S.heap = some x := by
  have hw := hS.inv.1.wf k s hk
  obtain ⟨x, hx⟩ := hw.exists_hash w
  have hcontent := (hw.hash_eq w).symm.trans hx
  refine ⟨x, hx, hcontent, ?_⟩
  intro l t hl hlt heq
  have hwt := hS.inv.1.wf l t hl
  rw [equal_eq hw hwt hlt, Except.ok.injEq, decide_eq_true_iff] at heq
  rw [hwt.hash_eq w, ← heq, hcontent]

/-- Two slices of one buffer. -/
theorem string_hash_slices :
    letI := zeroMemory
    ∃ S s t x, run .init [.bytes (some [0x61, 0x62, 0x61, 0x62]), .substr 0 0 2, .substr 0 2 4] =
      .ok S ∧
      S.handle? 1 = some s ∧ S.handle? 2 = some t ∧ s.offset = 0 ∧ t.offset = 2 ∧
      s.hash .int64 S.heap = some x ∧ t.hash .int64 S.heap = some x := by
  let _ := zeroMemory
  have hS₁ := Reach.bytes [0x61, 0x62, 0x61, 0x62] (by decide) rfl
  have hS₂ := Reach.step (.substr 0 0 2) hS₁ trivial ⟨by decide, _, rfl, by decide⟩ trivial rfl
  have hS₃ := Reach.step (.substr 0 2 4) hS₂ trivial ⟨by decide, _, rfl, by decide⟩ trivial rfl
  obtain ⟨x, hx, -, heq⟩ := string_hash hS₃ (k := 1) rfl .int64
  exact ⟨_, _, _, x, rfl, rfl, rfl, rfl, rfl, hx, heq 2 _ rfl (by decide) rfl⟩

end StringHeap

end Libacorn
