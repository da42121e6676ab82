import Libacorn.Val

/-!
# Memory

Blocks of bytes, `memcpy` into a block, and what memory holds before it is
written.
-/

namespace Libacorn

/-- What uninitialised memory holds. -/
class Uninit where
  /-- a new block of the given size -/
  block : Nat → Bytes
  length_block : ∀ n, (block n).length = n
  /-- the local `measurement::unit type` of `bytestream::read<val>` -/
  unit : BitVec 32

/-- Uninitialised memory that happens to be zero. -/
@[reducible] def zeroMemory : Uninit where
  block n := List.replicate n 0
  length_block _ := List.length_replicate
  unit := 0

def overwrite (mem : Bytes) (o : Nat) (b : Bytes) : Bytes :=
  mem.take o ++ b ++ mem.drop (o + b.length)

theorem length_overwrite {mem : Bytes} {o : Nat} {b : Bytes} (h : o + b.length ≤ mem.length) :
    (overwrite mem o b).length = mem.length := by
  simp [overwrite]
  omega

theorem take_overwrite_part {mem b : Bytes} {o k : Nat} (ho : o ≤ mem.length) (hk : k ≤ b.length) :
    (overwrite mem o b).take (o + k) = mem.take o ++ b.take k := by
  have hlen : (mem.take o).length = o := by
    rw [List.length_take, Nat.min_eq_left ho]
  rw [overwrite, List.append_assoc, List.take_append, hlen, List.take_of_length_le (by omega),
    show o + k - o = k by omega, List.take_append_of_le_length hk]

theorem take_overwrite {mem : Bytes} {o : Nat} {b : Bytes} (h : o + b.length ≤ mem.length) :
    (overwrite mem o b).take (o + b.length) = mem.take o ++ b := by
  rw [take_overwrite_part (by omega) (Nat.le_refl _), List.take_length]

theorem take_overwrite_start {mem : Bytes} {o : Nat} (ho : o ≤ mem.length) (b : Bytes) :
    (overwrite mem o b).take o = mem.take o := by
  have hpart := take_overwrite_part ho (Nat.zero_le b.length)
  rwa [List.take_zero, List.append_nil] at hpart

theorem overwrite_nil (mem : Bytes) (o : Nat) : overwrite mem o [] = mem := by
  rw [overwrite, List.append_nil, List.length_nil, Nat.add_zero, List.take_append_drop]

theorem overwrite_cons {mem : Bytes} {o : Nat} {b : UInt8} (h : o + 1 ≤ mem.length) (l : Bytes) :
    overwrite (overwrite mem o [b]) (o + 1) l = overwrite mem o (b :: l) := by
  have hlen : (mem.take o ++ [b]).length = o + 1 := by
    rw [List.length_append, List.length_take, List.length_singleton]
    omega
  have htake : (overwrite mem o [b]).take (o + [b].length) = mem.take o ++ [b] := take_overwrite h
  rw [List.length_singleton] at htake
  have hdrop : (overwrite mem o [b]).drop (o + 1 + l.length) = mem.drop (o + 1 + l.length) := by
    rw [overwrite, ← List.drop_drop, ← hlen, List.drop_left, hlen, List.length_singleton,
      List.drop_drop]
  rw [overwrite, htake, hdrop, overwrite, List.append_assoc (mem.take o), List.singleton_append,
    List.length_cons, show o + (l.length + 1) = o + 1 + l.length by omega]

theorem getElem?_overwrite {mem : Bytes} {o : Nat} {b : Bytes} (h : o + b.length ≤ mem.length)
    (j : Nat) :
    (overwrite mem o b)[j]? =
      if j < o then mem[j]? else if j < o + b.length then b[j - o]? else mem[j]? := by
  have hlen : (mem.take o).length = o := by
    rw [List.length_take, Nat.min_eq_left (by omega)]
  rw [overwrite, List.append_assoc]
  split_ifs with h1 h2
  · rw [List.getElem?_append_left (by omega), List.getElem?_take_of_lt h1]
  · rw [List.getElem?_append_right (by omega), hlen, List.getElem?_append_left (by omega)]
  · rw [List.getElem?_append_right (by omega), hlen, List.getElem?_append_right (by omega),
      List.getElem?_drop]
    congr 1
    omega

/-- The three copies of `string::insert` (the tail, the new bytes, the terminator)
insert into the range `[off, off + n)` of the block. -/
theorem content_overwrite {mem p : Bytes} {off n o : Nat} (ho : o ≤ n)
    (h : off + n + p.length + 1 ≤ mem.length) :
    ((overwrite (overwrite (overwrite mem (off + o + p.length) ((mem.drop (off + o)).take (n - o)))
        (off + o) p) (off + (n + p.length)) [0]).drop off).take (n + p.length) =
      ((mem.drop off).take n).take o ++ p ++ ((mem.drop off).take n).drop o := by
  obtain ⟨tail, htail⟩ : ∃ t, t = (mem.drop (off + o)).take (n - o) := ⟨_, rfl⟩
  have htl : tail.length = n - o := by
    rw [htail, List.length_take, List.length_drop]
    omega
  have h1 : off + o + p.length + tail.length ≤ mem.length := by omega
  have hl1 := length_overwrite h1
  have h2 : off + o + p.length ≤ (overwrite mem (off + o + p.length) tail).length := by omega
  have hl2 := length_overwrite h2
  have h3 : off + (n + p.length) + [(0 : UInt8)].length ≤
      (overwrite (overwrite mem (off + o + p.length) tail) (off + o) p).length := by
    rw [List.length_singleton]
    omega
  have hlen : ((mem.drop off).take n).length = n := by
    rw [List.length_take, List.length_drop]
    omega
  have hleft : (((mem.drop off).take n).take o).length = o := by
    rw [List.length_take]
    omega
  rw [← htail]
  apply List.ext_getElem?
  intro j
  by_cases hj : j < n + p.length
  · rw [List.getElem?_take_of_lt hj, List.getElem?_drop, getElem?_overwrite h3,
      if_pos (by omega), getElem?_overwrite h2]
    by_cases hj1 : j < o
    · rw [if_pos (by omega), getElem?_overwrite h1, if_pos (by omega), List.append_assoc,
        List.getElem?_append_left (by omega), List.getElem?_take_of_lt hj1,
        List.getElem?_take_of_lt (by omega), List.getElem?_drop]
    · rw [if_neg (by omega)]
      by_cases hj2 : j < o + p.length
      · rw [if_pos (by omega), List.append_assoc, List.getElem?_append_right (by omega), hleft,
          List.getElem?_append_left (by omega)]
        congr 1
        omega
      · rw [if_neg (by omega), getElem?_overwrite h1, if_neg (by omega), if_pos (by omega),
          List.getElem?_append_right (by rw [List.length_append, hleft]; omega), htail,
          List.getElem?_take_of_lt (by omega), List.getElem?_drop, List.getElem?_drop,
          List.getElem?_take_of_lt (by rw [List.length_append, hleft]; omega), List.getElem?_drop,
          List.length_append, hleft]
        congr 1
        omega
  · rw [List.getElem?_eq_none (by rw [List.length_take]; omega), List.getElem?_eq_none]
    rw [List.length_append, List.length_append, hleft, List.length_drop, hlen]
    omega

/-- What is left of a content at `off` when a terminator goes to the byte of the block whose
number is the content's length. -/
def strayTerminator (off : Nat) (w : Bytes) : Bytes :=
  if 0 < off ∧ off ≤ w.length then w.set (w.length - off) 0 else w

theorem getElem?_strayTerminator {off : Nat} {w : Bytes} {j : Nat} (hj : j < w.length) :
    (strayTerminator off w)[j]? = if off + j = w.length then some 0 else w[j]? := by
  rw [strayTerminator]
  split_ifs with h1 h2 h2
  · rw [List.getElem?_set, if_pos (by omega), if_pos (by omega)]
  · rw [List.getElem?_set, if_neg (by omega)]
  · omega
  · rfl

/-- The copy of the tail and the terminator of `string::erase` remove `[lo, hi)` from the
range `[off, off + n)` of the block. -/
theorem content_erase {mem : Bytes} {off n lo hi : Nat} (hlo : lo ≤ hi) (hhi : hi ≤ n)
    (h : off + n + 1 ≤ mem.length) :
    ((overwrite (overwrite mem (off + lo) ((mem.drop (off + hi)).take (n - hi))) (n - (hi - lo))
        [0]).drop off).take (n - (hi - lo)) =
      strayTerminator off (((mem.drop off).take n).take lo ++ ((mem.drop off).take n).drop hi) := by
  obtain ⟨tail, htail⟩ : ∃ t, t = (mem.drop (off + hi)).take (n - hi) := ⟨_, rfl⟩
  have htl : tail.length = n - hi := by
    rw [htail, List.length_take, List.length_drop]
    omega
  have h1 : off + lo + tail.length ≤ mem.length := by omega
  have hl1 := length_overwrite h1
  have h2 : n - (hi - lo) + [(0 : UInt8)].length ≤ (overwrite mem (off + lo) tail).length := by
    rw [List.length_singleton]
    omega
  have hleft : (((mem.drop off).take n).take lo).length = lo := by
    rw [List.length_take, List.length_take, List.length_drop]
    omega
  have hlen : (((mem.drop off).take n).take lo ++ ((mem.drop off).take n).drop hi).length =
      n - (hi - lo) := by
    rw [List.length_append, hleft, List.length_drop, List.length_take, List.length_drop]
    omega
  rw [← htail]
  apply List.ext_getElem?
  intro j
  by_cases hj : j < n - (hi - lo)
  · rw [getElem?_strayTerminator (by omega), hlen, List.getElem?_take_of_lt hj, List.getElem?_drop,
      getElem?_overwrite h2, List.length_singleton]
    by_cases hz : off + j = n - (hi - lo)
    · rw [if_neg (by omega), if_pos (by omega), if_pos hz, hz, Nat.sub_self]
      rfl
    · have hrange : (if off + j < n - (hi - lo) then (overwrite mem (off + lo) tail)[off + j]?
          else if off + j < n - (hi - lo) + 1 then [(0 : UInt8)][off + j - (n - (hi - lo))]?
          else (overwrite mem (off + lo) tail)[off + j]?) =
            (overwrite mem (off + lo) tail)[off + j]? := by
        split_ifs
        · rfl
        · omega
        · rfl
      rw [hrange, if_neg hz, getElem?_overwrite h1]
      by_cases hj1 : j < lo
      · rw [if_pos (by omega), List.getElem?_append_left (by omega), List.getElem?_take_of_lt hj1,
          List.getElem?_take_of_lt (by omega), List.getElem?_drop]
      · rw [if_neg (by omega), if_pos (by omega), List.getElem?_append_right (by omega), hleft,
          htail, List.getElem?_take_of_lt (by omega), List.getElem?_drop, List.getElem?_drop,
          List.getElem?_take_of_lt (by omega), List.getElem?_drop]
        congr 1
        omega
  · have hlen' : (strayTerminator off
        (((mem.drop off).take n).take lo ++ ((mem.drop off).take n).drop hi)).length =
          n - (hi - lo) := by
      rw [strayTerminator]
      split_ifs
      · rw [List.length_set, hlen]
      · exact hlen
    rw [List.getElem?_eq_none (by rw [List.length_take]; omega), List.getElem?_eq_none (by omega)]

end Libacorn
