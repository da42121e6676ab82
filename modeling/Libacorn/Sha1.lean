import Mathlib.Data.List.Basic
import Mathlib.Tactic.IntervalCases
import Libacorn.Memory
import Libacorn.Support.BlockStream
import Libacorn.Support.Codec

/-!
# SHA-1: one block

`SHA1Transform` of hash.cpp (an unrolled program over five rotating variables, its
schedule expanded in place in sixteen words) and the compression function of the
standard that it computes.
-/

namespace Libacorn.Sha1

open Support

/-! ## hash.cpp -/

/-- `rol(value, bits)` -/
def rol (value bits : UInt32) : UInt32 := (value <<< bits) ||| (value >>> (32 - bits))

/-- The variables `a` to `e`, and `state[5]`. -/
structure Words where
  a : UInt32
  b : UInt32
  c : UInt32
  d : UInt32
  e : UInt32
  deriving DecidableEq, Repr

/-- The name of a variable. -/
inductive Var where
  | a | b | c | d | e
  deriving DecidableEq, Repr

namespace Words

def get (s : Words) : Var → UInt32
  | .a => s.a
  | .b => s.b
  | .c => s.c
  | .d => s.d
  | .e => s.e

def set (s : Words) (v : Var) (x : UInt32) : Words :=
  match v with
  | .a => { s with a := x }
  | .b => { s with b := x }
  | .c => { s with c := x }
  | .d => { s with d := x }
  | .e => { s with e := x }

/-- `state[0] += a; ... state[4] += e;` -/
def add (s t : Words) : Words := ⟨s.a + t.a, s.b + t.b, s.c + t.c, s.d + t.d, s.e + t.e⟩

end Words

/-- `block->l[i]` of a little-endian machine, after the `memcpy` from the buffer. -/
def littleWord (buffer : Bytes) (i : Nat) : UInt32 :=
  UInt32.ofNat (ofLe ((buffer.drop (4 * i)).take 4))

/-- `block->l` -/
def words (buffer : Bytes) : List UInt32 := (List.range 16).map (littleWord buffer)

/-- The two byte swaps of `blk0`. -/
def swapped (x : UInt32) : UInt32 := (rol x 24 &&& 0xFF00FF00) ||| (rol x 8 &&& 0x00FF00FF)

/-- `blk0(i)`: the assignment to `block->l[i]` -/
def blk0 (l : List UInt32) (i : Nat) : List UInt32 := l.set i (swapped (l.getD i 0))

/-- `blk(i)`: the assignment to `block->l[i&15]` -/
def blk (l : List UInt32) (i : Nat) : List UInt32 :=
  l.set (i &&& 15) (rol (l.getD ((i + 13) &&& 15) 0 ^^^ l.getD ((i + 8) &&& 15) 0 ^^^
    l.getD ((i + 2) &&& 15) 0 ^^^ l.getD (i &&& 15) 0) 1)

/-- The macros `R0` to `R4`. -/
inductive Macro where
  | r0 | r1 | r2 | r3 | r4
  deriving DecidableEq, Repr

namespace Macro

def expand : Macro → List UInt32 → Nat → List UInt32
  | .r0 => blk0
  | .r1 | .r2 | .r3 | .r4 => blk

def mix : Macro → UInt32 → UInt32 → UInt32 → UInt32
  | .r0 | .r1 => fun w x y => (w &&& (x ^^^ y)) ^^^ y
  | .r2 | .r4 => fun w x y => w ^^^ x ^^^ y
  | .r3 => fun w x y => ((w ||| x) &&& y) ||| (w &&& x)

def key : Macro → UInt32
  | .r0 | .r1 => 0x5A827999
  | .r2 => 0x6ED9EBA1
  | .r3 => 0x8F1BBCDC
  | .r4 => 0xCA62C1D6

end Macro

/-- One use of a macro: `R(v,w,x,y,z,i)`. -/
structure Call where
  op : Macro
  v : Var
  w : Var
  x : Var
  y : Var
  z : Var
  i : Nat
  deriving DecidableEq, Repr

/-- `z+=mix(w,x,y)+blk(i)+key+rol(v,5);w=rol(w,30);` -/
def Call.exec (m : Words × List UInt32) (r : Call) : Words × List UInt32 :=
  let l := r.op.expand m.2 r.i
  let s := m.1.set r.z (m.1.get r.z +
      (r.op.mix (m.1.get r.w) (m.1.get r.x) (m.1.get r.y) + l.getD (r.i &&& 15) 0 +
    r.op.key + rol (m.1.get r.v) 5))
  (s.set r.w (rol (s.get r.w) 30), l)

section
open Var

def r0 : Var → Var → Var → Var → Var → Nat → Call := Call.mk .r0
def r1 : Var → Var → Var → Var → Var → Nat → Call := Call.mk .r1
def r2 : Var → Var → Var → Var → Var → Nat → Call := Call.mk .r2
def r3 : Var → Var → Var → Var → Var → Nat → Call := Call.mk .r3
def r4 : Var → Var → Var → Var → Var → Nat → Call := Call.mk .r4

/-- 4 rounds of 20 operations each. Loop unrolled. -/
def calls : List Call :=
  [r0 a b c d e 0, r0 e a b c d 1, r0 d e a b c 2, r0 c d e a b 3,
   r0 b c d e a 4, r0 a b c d e 5, r0 e a b c d 6, r0 d e a b c 7,
   r0 c d e a b 8, r0 b c d e a 9, r0 a b c d e 10, r0 e a b c d 11,
   r0 d e a b c 12, r0 c d e a b 13, r0 b c d e a 14, r0 a b c d e 15,
   r1 e a b c d 16, r1 d e a b c 17, r1 c d e a b 18, r1 b c d e a 19,
   r2 a b c d e 20, r2 e a b c d 21, r2 d e a b c 22, r2 c d e a b 23,
   r2 b c d e a 24, r2 a b c d e 25, r2 e a b c d 26, r2 d e a b c 27,
   r2 c d e a b 28, r2 b c d e a 29, r2 a b c d e 30, r2 e a b c d 31,
   r2 d e a b c 32, r2 c d e a b 33, r2 b c d e a 34, r2 a b c d e 35,
   r2 e a b c d 36, r2 d e a b c 37, r2 c d e a b 38, r2 b c d e a 39,
   r3 a b c d e 40, r3 e a b c d 41, r3 d e a b c 42, r3 c d e a b 43,
   r3 b c d e a 44, r3 a b c d e 45, r3 e a b c d 46, r3 d e a b c 47,
   r3 c d e a b 48, r3 b c d e a 49, r3 a b c d e 50, r3 e a b c d 51,
   r3 d e a b c 52, r3 c d e a b 53, r3 b c d e a 54, r3 a b c d e 55,
   r3 e a b c d 56, r3 d e a b c 57, r3 c d e a b 58, r3 b c d e a 59,
   r4 a b c d e 60, r4 e a b c d 61, r4 d e a b c 62, r4 c d e a b 63,
   r4 b c d e a 64, r4 a b c d e 65, r4 e a b c d 66, r4 d e a b c 67,
   r4 c d e a b 68, r4 b c d e a 69, r4 a b c d e 70, r4 e a b c d 71,
   r4 d e a b c 72, r4 c d e a b 73, r4 b c d e a 74, r4 a b c d e 75,
   r4 e a b c d 76, r4 d e a b c 77, r4 c d e a b 78, r4 b c d e a 79]

end

def sha1Transform (state : Words) (buffer : Bytes) : Words :=
  state.add (calls.foldl Call.exec (state, words buffer)).1

/-! ## The compression function of the standard -/

/-- Word `t` of a block, highest byte first. -/
def bigWord (block : Bytes) (t : Nat) : UInt32 :=
  UInt32.ofNat (ofLe ((block.drop (4 * t)).take 4).reverse)

/-- The schedule of eighty words. -/
def schedule (block : Bytes) (t : Nat) : UInt32 :=
  if t < 16 then bigWord block t
  else rol (schedule block (t - 3) ^^^ schedule block (t - 8) ^^^ schedule block (t - 14) ^^^
    schedule block (t - 16)) 1

def choose (x y z : UInt32) : UInt32 := (x &&& y) ^^^ (~~~x &&& z)
def parity (x y z : UInt32) : UInt32 := x ^^^ y ^^^ z
def majority (x y z : UInt32) : UInt32 := (x &&& y) ^^^ (x &&& z) ^^^ (y &&& z)

/-- The function of round `t`. -/
def mixOf (t : Nat) : UInt32 → UInt32 → UInt32 → UInt32 :=
  if t < 20 then choose else if t < 40 then parity else if t < 60 then majority else parity

/-- The constant of round `t`. -/
def keyOf (t : Nat) : UInt32 :=
  if t < 20 then 0x5A827999 else if t < 40 then 0x6ED9EBA1 else if t < 60 then 0x8F1BBCDC else
    0xCA62C1D6

/-- Round `t`: every variable moves on by one. -/
def round (block : Bytes) (s : Words) (t : Nat) : Words :=
  ⟨rol s.a 5 + mixOf t s.b s.c s.d + s.e + keyOf t + schedule block t, s.a, rol s.b 30, s.c, s.d⟩

def compress (s : Words) (block : Bytes) : Words := s.add ((List.range 80).foldl (round block) s)

/-! ## Words and bits -/

/-- Four bytes next to each other. -/
theorem toBitVec_word (b0 b1 b2 b3 : UInt8) :
    (UInt32.ofNat (ofLe [b0, b1, b2, b3])).toBitVec =
      b3.toBitVec ++ b2.toBitVec ++ b1.toBitVec ++ b0.toBitVec := by
  apply BitVec.eq_of_toNat_eq
  have h0 := b0.toNat_lt
  have h1 := b1.toNat_lt
  have h2 := b2.toNat_lt
  have h3 := b3.toNat_lt
  have hshift : ∀ x y : Nat, y < 256 → x <<< 8 ||| y = x * 256 + y := by
    intro x y hy
    rw [← Nat.shiftLeft_add_eq_or_of_lt (by simpa using hy), Nat.shiftLeft_eq]
  simp only [BitVec.toNat_append, UInt8.toNat_toBitVec, hshift _ _ h0, hshift _ _ h1, hshift _ _ h2,
    UInt32.toNat_toBitVec, UInt32.toNat_ofNat', ofLe]
  omega

theorem rol_toBitVec (x k : UInt32) : (rol x k).toBitVec =
    (x.toBitVec <<< (k.toBitVec % 32)) ||| (x.toBitVec >>> ((32 - k.toBitVec) % 32)) := by
  simp only [rol, UInt32.toBitVec_or, UInt32.toBitVec_shiftLeft, UInt32.toBitVec_shiftRight,
    UInt32.toBitVec_sub]
  rfl

/-- The bits of four bytes next to each other. -/
theorem getElem_word (b0 b1 b2 b3 : UInt8) (i : Nat) (hi : i < 32) :
    (UInt32.ofNat (ofLe [b0, b1, b2, b3])).toBitVec[i] =
      if i < 8 then b0.toBitVec.getLsbD i else if i < 16 then b1.toBitVec.getLsbD (i - 8)
      else if i < 24 then b2.toBitVec.getLsbD (i - 16) else b3.toBitVec.getLsbD (i - 24) := by
  rw [← BitVec.getLsbD_eq_getElem, toBitVec_word, BitVec.getLsbD_append, BitVec.getLsbD_append,
    BitVec.getLsbD_append]
  split_ifs <;> first | rfl | omega

theorem swapped_word (b0 b1 b2 b3 : UInt8) :
    swapped (UInt32.ofNat (ofLe [b0, b1, b2, b3])) = UInt32.ofNat (ofLe [b3, b2, b1, b0]) := by
  apply UInt32.toBitVec_inj.mp
  rw [swapped, UInt32.toBitVec_or, UInt32.toBitVec_and, UInt32.toBitVec_and, rol_toBitVec,
    rol_toBitVec]
  apply BitVec.eq_of_getLsbD_eq
  intro i hi
  interval_cases i <;> simp [getElem_word]

theorem mix_choose (w x y : UInt32) : (w &&& (x ^^^ y)) ^^^ y = choose w x y := by
  apply UInt32.toBitVec_inj.mp
  apply BitVec.eq_of_getLsbD_eq
  intro i hi
  simp only [choose, UInt32.toBitVec_xor, UInt32.toBitVec_and, UInt32.toBitVec_not,
    BitVec.getLsbD_xor, BitVec.getLsbD_and, BitVec.getLsbD_not, hi, decide_true, Bool.true_and]
  cases w.toBitVec.getLsbD i <;> cases x.toBitVec.getLsbD i <;> cases y.toBitVec.getLsbD i <;> rfl

theorem mix_majority (w x y : UInt32) : ((w ||| x) &&& y) ||| (w &&& x) = majority w x y := by
  apply UInt32.toBitVec_inj.mp
  apply BitVec.eq_of_getLsbD_eq
  intro i hi
  simp only [majority, UInt32.toBitVec_xor, UInt32.toBitVec_and, UInt32.toBitVec_or,
    BitVec.getLsbD_xor, BitVec.getLsbD_and, BitVec.getLsbD_or]
  cases w.toBitVec.getLsbD i <;> cases x.toBitVec.getLsbD i <;> cases y.toBitVec.getLsbD i <;> rfl

/-! ## The unrolled rounds -/

/-- The macro of round `i`. -/
def opOf (i : Nat) : Macro :=
  if i < 16 then .r0 else if i < 20 then .r1 else if i < 40 then .r2 else if i < 60 then .r3 else
    .r4

def varAt : Nat → Var
  | 0 => .a
  | 1 => .b
  | 2 => .c
  | 3 => .d
  | _ => .e

/-- The variable in place `k` of round `i`: the places move back by one each round. -/
def place (i k : Nat) : Var := varAt ((k + 4 * (i % 5)) % 5)

def call (i : Nat) : Call := ⟨opOf i, place i 0, place i 1, place i 2, place i 3, place i 4, i⟩

theorem calls_eq : calls = (List.range 80).map call := by decide

/-- The variables by their places in round `i`. -/
def turned (i : Nat) (s : Words) : Words :=
  ⟨s.get (place i 0), s.get (place i 1), s.get (place i 2), s.get (place i 3), s.get (place i 4)⟩

theorem mix_opOf (i : Nat) : (opOf i).mix = mixOf i := by
  funext w x y
  rw [opOf, mixOf]
  split_ifs <;> first | omega | exact mix_choose w x y | rfl | exact mix_majority w x y

theorem key_opOf (i : Nat) : (opOf i).key = keyOf i := by
  rw [opOf, keyOf]
  split_ifs <;> first | omega | rfl

theorem turned_80 (s : Words) : turned 80 s = s := rfl

/-- One call is one round: its new word is added, and every place moves on. -/
theorem exec_call (i : Nat) (m : Words × List UInt32) {block : Bytes}
    (hl : ((opOf i).expand m.2 i).getD (i &&& 15) 0 = schedule block i) :
    turned (i + 1) (Call.exec m (call i)).1 = round block (turned i m.1) i := by
  have hr : i % 5 < 5 := Nat.mod_lt _ (by decide)
  have hsucc : (i + 1) % 5 = (i % 5 + 1) % 5 := by omega
  simp only [Call.exec, call, hl, mix_opOf, key_opOf, round, turned, place, hsucc]
  generalize i % 5 = r at hr
  interval_cases r <;> 
  · simp only [varAt, Words.get, Words.set, Words.mk.injEq, and_true, Nat.reduceMul, Nat.reduceAdd,
      Nat.reduceMod]
    ac_rfl

/-! ## The schedule in place -/

theorem and_15 (i : Nat) : i &&& 15 = i % 16 := Nat.and_two_pow_sub_one_eq_mod i 4

/-- Before round `i`: the words not yet swapped, and the last sixteen of the schedule. -/
structure Expanded (block : Bytes) (i : Nat) (l : List UInt32) : Prop where
  length : l.length = 16
  fresh : ∀ k, i ≤ k → k < 16 → l.getD k 0 = littleWord block k
  last : ∀ t, t < i → i ≤ t + 16 → l.getD (t % 16) 0 = schedule block t

theorem Expanded.start (block : Bytes) : Expanded block 0 (words block) := by
  refine ⟨by simp [words], ?_, fun t ht => absurd ht (Nat.not_lt_zero t)⟩
  intro k _ hk
  simp [words, List.getD_eq_getElem?_getD, hk]

theorem getD_set_self {l : List UInt32} {k : Nat} (hk : k < l.length) (x : UInt32) :
    (l.set k x).getD k 0 = x := by
  rw [List.getD_eq_getElem?_getD, List.getElem?_set_self hk, Option.getD_some]

theorem getD_set_ne (l : List UInt32) {k m : Nat} (h : k ≠ m) (x : UInt32) :
    (l.set k x).getD m 0 = l.getD m 0 := by
  rw [List.getD_eq_getElem?_getD, List.getElem?_set_ne h, ← List.getD_eq_getElem?_getD]

/-- Storing the next word of the schedule keeps the invariant. -/
theorem Expanded.set {block : Bytes} {i : Nat} {l : List UInt32} (h : Expanded block i l)
    {x : UInt32} (hx : x = schedule block i) : Expanded block (i + 1) (l.set (i % 16) x) := by
  have hlt : i % 16 < l.length := by
    rw [h.length]
    exact Nat.mod_lt _ (by decide)
  refine ⟨by rw [List.length_set, h.length], ?_, ?_⟩
  · intro k hk hk16
    rw [getD_set_ne l (by omega), h.fresh k (by omega) hk16]
  · intro t ht hti
    by_cases hti' : t = i
    · rw [hti', getD_set_self hlt, hx]
    · rw [getD_set_ne l (by omega), h.last t (by omega) (by omega)]

theorem swapped_littleWord {block : Bytes} (hb : block.length = 64) {i : Nat} (hi : i < 16) :
    swapped (littleWord block i) = bigWord block i := by
  have hlen : ((block.drop (4 * i)).take 4).length = 4 := by
    rw [List.length_take, List.length_drop]
    omega
  obtain ⟨b0, b1, b2, b3, hw⟩ := List.length_eq_four.mp hlen
  rw [littleWord, bigWord, hw]
  exact swapped_word b0 b1 b2 b3

theorem schedule_start (block : Bytes) {t : Nat} (ht : t < 16) :
    schedule block t = bigWord block t := by
  rw [schedule, if_pos ht]

theorem schedule_next (block : Bytes) {t : Nat} (ht : ¬ t < 16) : schedule block t =
    rol (schedule block (t - 3) ^^^ schedule block (t - 8) ^^^ schedule block (t - 14) ^^^
      schedule block (t - 16)) 1 := by
  rw [schedule, if_neg ht]

/-- The assignment of round `i` stores word `i` of the schedule. -/
theorem Expanded.expand {block : Bytes} (hb : block.length = 64) {i : Nat} {l : List UInt32}
    (h : Expanded block i l) : Expanded block (i + 1) ((opOf i).expand l i) := by
  by_cases hi : i < 16
  · have hop : (opOf i).expand l i = l.set (i % 16) (swapped (l.getD i 0)) := by
      rw [opOf, if_pos hi, Macro.expand, blk0, Nat.mod_eq_of_lt hi]
    rw [hop]
    apply h.set
    rw [h.fresh i (Nat.le_refl i) hi, swapped_littleWord hb hi, schedule_start block hi]
  · have hop : (opOf i).expand l i = blk l i := by
      rw [opOf, if_neg hi]
      split_ifs <;> rfl
    rw [hop, blk, and_15, and_15, and_15, and_15]
    apply h.set
    -- the four words read are those of rounds i - 3, i - 8, i - 14 and i - 16
    rw [schedule_next block hi, show (i + 13) % 16 =
      (i - 3) % 16 by omega, show (i + 8) % 16 = (i - 8) % 16 by
        omega, show (i + 2) % 16 = (i - 14) % 16 by omega, show i % 16 = (i - 16) % 16 by
          omega, h.last _ (by omega) (by omega),
      h.last _ (by omega) (by omega), h.last _ (by omega) (by omega),
      h.last _ (by omega) (by omega)]

/-- `n` rounds of the program are `n` rounds of the standard. -/
theorem foldl_calls {block : Bytes} (hb : block.length = 64) (s : Words) (n : Nat) :
    Expanded block n (((List.range n).map call).foldl Call.exec (s, words block)).2 ∧
      turned n (((List.range n).map call).foldl Call.exec (s, words block)).1 =
        (List.range n).foldl (round block) s := by
  induction n with
  | zero => exact ⟨Expanded.start block, rfl⟩
  | succ n ih =>
    obtain ⟨hl, hs⟩ := ih
    rw [List.range_succ, List.map_append, List.map_singleton, List.foldl_append, List.foldl_append,
      List.foldl_cons, List.foldl_cons, List.foldl_nil, List.foldl_nil, ← hs]
    have hnext := hl.expand hb
    refine ⟨hnext, exec_call n _ ?_⟩
    rw [and_15]
    exact hnext.last n (Nat.lt_succ_self n) (by omega)

/-- `SHA1Transform` is the compression function. -/
theorem sha1Transform_eq {block : Bytes} (hb : block.length = 64) (s : Words) :
    sha1Transform s block = compress s block := by
  obtain ⟨-, h⟩ := foldl_calls hb s 80
  rw [sha1Transform, compress, calls_eq, ← h, turned_80]

end Libacorn.Sha1
