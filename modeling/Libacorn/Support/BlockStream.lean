import Mathlib.Tactic.Common
import Mathlib.Data.List.Induction

/-!
# Streams cut into blocks

A hash reads a stream block by block: what is behind the last complete block
waits for more. `blocks n` are the complete blocks, `rest n` is what waits, and
`absorb` folds a compression function over the blocks.

Two results that hold for any compression function: a stream may be absorbed
in pieces (`Absorbed.append`), and under a padding where no padded message ends
another one (`Padding`), two messages with the same hash meet two inputs of the
compression function with the same output (`Padding.eq_or_meets`).
-/

namespace Libacorn.Support

variable {α σ : Type}

/-- The complete blocks of `n` at the head of a stream. -/
def blocks (n : Nat) (xs : List α) : List (List α) :=
  (List.range (xs.length / n)).map fun k => (xs.drop (n * k)).take n

/-- What is behind the last complete block. -/
def rest (n : Nat) (xs : List α) : List α := xs.drop (n * (xs.length / n))

theorem length_rest (n : Nat) (xs : List α) : (rest n xs).length = xs.length % n := by
  have h := Nat.div_add_mod xs.length n
  rw [rest, List.length_drop]
  omega

theorem length_of_mem_blocks {n : Nat} {xs b : List α} (h : b ∈ blocks n xs) : b.length = n := by
  rw [blocks, List.mem_map] at h
  obtain ⟨k, hk, rfl⟩ := h
  have hk := List.mem_range.mp hk
  have hmul : n * (k + 1) ≤ n * (xs.length / n) := Nat.mul_le_mul_left n hk
  have hdiv := Nat.mul_div_le xs.length n
  rw [Nat.mul_add, Nat.mul_one] at hmul
  rw [List.length_take, List.length_drop]
  omega

theorem blocks_short {n : Nat} {xs : List α} (h : xs.length < n) : blocks n xs = [] := by
  rw [blocks, Nat.div_eq_of_lt h, List.range_zero, List.map_nil]

theorem rest_short {n : Nat} {xs : List α} (h : xs.length < n) : rest n xs = xs := by
  rw [rest, Nat.div_eq_of_lt h, Nat.mul_zero, List.drop_zero]

theorem div_length_append {n : Nat} (hn : 0 < n) {b : List α} (hb : b.length = n) (xs : List α) :
    (b ++ xs).length / n = xs.length / n + 1 := by
  rw [List.length_append, hb, Nat.add_comm, Nat.add_div_right _ hn]

theorem drop_block {n : Nat} {b : List α} (hb : b.length = n) (xs : List α) (k : Nat) :
    (b ++ xs).drop (n * (k + 1)) = xs.drop (n * k) := by
  rw [Nat.mul_add, Nat.mul_one, Nat.add_comm, ← hb, ← List.drop_drop, List.drop_left]

theorem blocks_cons {n : Nat} (hn : 0 < n) {b : List α} (hb : b.length = n) (xs : List α) :
    blocks n (b ++ xs) = b :: blocks n xs := by
  rw [blocks, div_length_append hn hb, List.range_succ_eq_map, List.map_cons, List.map_map,
    Nat.mul_zero, List.drop_zero, ← hb, List.take_left, hb, blocks]
  congr 1
  apply List.map_congr_left
  intro k _
  rw [Function.comp_apply, Nat.succ_eq_add_one, drop_block hb]

theorem rest_cons {n : Nat} (hn : 0 < n) {b : List α} (hb : b.length = n) (xs : List α) :
    rest n (b ++ xs) = rest n xs := by
  rw [rest, div_length_append hn hb, drop_block hb, rest]

/-- Induction over a stream: a short one, or a block and a stream. -/
theorem block_induction {n : Nat} (hn : 0 < n) {P : List α → Prop}
    (short : ∀ xs, xs.length < n → P xs) (block : ∀ b xs, b.length = n → P xs → P (b ++ xs))
    (xs : List α) : P xs := by
  obtain ⟨m, hm⟩ : ∃ m, m = xs.length := ⟨_, rfl⟩
  induction m using Nat.strongRecOn generalizing xs with
  | ind m ih =>
    by_cases h : xs.length < n
    · exact short xs h
    · have htake : (xs.take n).length = n := by
        rw [List.length_take]
        omega
      rw [← List.take_append_drop n xs]
      apply block _ _ htake
      apply ih (xs.drop n).length _ _ rfl
      rw [List.length_drop]
      omega

theorem blocks_append {n : Nat} (hn : 0 < n) (xs ys : List α) :
    blocks n (xs ++ ys) = blocks n xs ++ blocks n (rest n xs ++ ys) := by
  induction xs using block_induction hn with
  | short xs h => rw [blocks_short h, rest_short h, List.nil_append]
  | block b xs hb ih =>
    rw [List.append_assoc, blocks_cons hn hb, blocks_cons hn hb, rest_cons hn hb, ih,
      List.cons_append]

theorem rest_append {n : Nat} (hn : 0 < n) (xs ys : List α) :
    rest n (xs ++ ys) = rest n (rest n xs ++ ys) := by
  induction xs using block_induction hn with
  | short xs h => rw [rest_short h]
  | block b xs hb ih => rw [List.append_assoc, rest_cons hn hb, rest_cons hn hb, ih]

/-- The blocks and what waits behind them are the stream. -/
theorem flatten_blocks {n : Nat} (hn : 0 < n) (xs : List α) :
    (blocks n xs).flatten ++ rest n xs = xs := by
  induction xs using block_induction hn with
  | short xs h => rw [blocks_short h, rest_short h, List.flatten_nil, List.nil_append]
  | block b xs hb ih =>
    rw [blocks_cons hn hb, rest_cons hn hb, List.flatten_cons, List.append_assoc, ih]

/-- A stream of whole blocks is its blocks. -/
theorem flatten_blocks_of_dvd {n : Nat} (hn : 0 < n) {xs : List α} (h : n ∣ xs.length) :
    (blocks n xs).flatten = xs := by
  have hrest : rest n xs = [] := by
    rw [← List.length_eq_zero_iff, length_rest, Nat.mod_eq_zero_of_dvd h]
  have hall := flatten_blocks hn xs
  rwa [hrest, List.append_nil] at hall

/-! ## Absorbing -/

/-- The compression function `f` over the complete blocks. -/
def absorb (f : σ → List α → σ) (n : Nat) (s : σ) (xs : List α) : σ := (blocks n xs).foldl f s

variable {f : σ → List α → σ} {n : Nat}

theorem absorb_short {xs : List α} (h : xs.length < n) (s : σ) : absorb f n s xs = s := by
  rw [absorb, blocks_short h, List.foldl_nil]

theorem absorb_cons (hn : 0 < n) {b : List α} (hb : b.length = n) (s : σ) (xs : List α) :
    absorb f n s (b ++ xs) = absorb f n (f s b) xs := by
  rw [absorb, blocks_cons hn hb, List.foldl_cons, absorb]

theorem absorb_append (hn : 0 < n) (s : σ) (xs ys : List α) :
    absorb f n s (xs ++ ys) = absorb f n (absorb f n s xs) (rest n xs ++ ys) := by
  rw [absorb, blocks_append hn, List.foldl_append, ← absorb, ← absorb]

/-- The state and the bytes that wait, after a stream from `iv` on. -/
structure Absorbed (f : σ → List α → σ) (n : Nat) (iv s : σ) (waiting xs : List α) : Prop where
  state : s = absorb f n iv xs
  waiting : waiting = rest n xs

theorem Absorbed.nil (iv : σ) (hn : 0 < n) : Absorbed f n iv iv [] ([] : List α) :=
  ⟨(absorb_short hn iv).symm, (rest_short hn).symm⟩

/-- A stream may be absorbed in pieces. -/
theorem Absorbed.append (hn : 0 < n) {iv s : σ} {waiting xs : List α}
    (h : Absorbed f n iv s waiting xs) (ys : List α) :
    Absorbed f n iv (absorb f n s (waiting ++ ys)) (rest n (waiting ++ ys)) (xs ++ ys) := by
  obtain ⟨rfl, rfl⟩ := h
  exact ⟨(absorb_append hn iv xs ys).symm, (rest_append hn xs ys).symm⟩

/-- Only what the function does with whole blocks matters. -/
theorem absorb_congr {g : σ → List α → σ} (h : ∀ s b, b.length = n → f s b = g s b) (s : σ)
    (xs : List α) :
    absorb f n s xs = absorb g n s xs := by
  have hall : ∀ b ∈ blocks n xs, b.length = n := fun _ => length_of_mem_blocks
  rw [absorb, absorb]
  generalize blocks n xs = bs at hall
  induction bs generalizing s with
  | nil => rfl
  | cons b bs ih =>
    rw [List.foldl_cons, List.foldl_cons, h s b (hall b (List.mem_cons_self ..))]
    exact ih (g s b) fun c hc => hall c (List.mem_cons_of_mem b hc)

/-! ## Collisions -/

/-- The function is applied to `s` and `b` on the way over the blocks `bs`. -/
def Applied (f : σ → List α → σ) (iv : σ) (bs : List (List α)) (s : σ) (b : List α) : Prop :=
  ∃ front back, bs = front ++ b :: back ∧ s = front.foldl f iv

theorem Applied.append {iv s : σ} {bs : List (List α)} {b : List α} (h : Applied f iv bs s b)
    (cs : List (List α)) : Applied f iv (bs ++ cs) s b := by
  obtain ⟨front, back, rfl, hs⟩ := h
  exact ⟨front, back ++ cs, by rw [List.append_assoc, List.cons_append], hs⟩

theorem Applied.last (iv : σ) (bs : List (List α)) (b : List α) :
    Applied f iv (bs ++ [b]) (bs.foldl f iv) b :=
  ⟨bs, [], rfl, rfl⟩

/-- On the ways over two lists of blocks the function meets two inputs with one output. -/
def Collides (f : σ → List α → σ) (iv : σ) (as bs : List (List α)) : Prop :=
  ∃ s a t b, Applied f iv as s a ∧ Applied f iv bs t b ∧ (s ≠ t ∨ a ≠ b) ∧ f s a = f t b

theorem Collides.symm {iv : σ} {as bs : List (List α)} (h : Collides f iv as bs) :
    Collides f iv bs as := by
  obtain ⟨s, a, t, b, ha, hb, hne, heq⟩ := h
  exact ⟨t, b, s, a, hb, ha, hne.imp Ne.symm Ne.symm, heq.symm⟩

theorem Collides.append {iv : σ} {as bs : List (List α)} (h : Collides f iv as bs)
    (cs ds : List (List α)) :
    Collides f iv (as ++ cs) (bs ++ ds) := by
  obtain ⟨s, a, t, b, ha, hb, hne, heq⟩ := h
  exact ⟨s, a, t, b, ha.append cs, hb.append ds, hne, heq⟩

/-- Walking back from a shared result: the blocks agree until two inputs collide. -/
theorem suffix_or_collides {iv : σ} {as bs : List (List α)} (hle : as.length ≤ bs.length)
    (h : as.foldl f iv = bs.foldl f iv) : as <:+ bs ∨ Collides f iv as bs := by
  induction as using List.reverseRecOn generalizing bs with
  | nil => exact Or.inl List.nil_suffix
  | append_singleton as a ih =>
    rcases List.eq_nil_or_concat bs with rfl | ⟨bs, b, rfl⟩
    · rw [List.length_append, List.length_singleton, List.length_nil] at hle
      omega
    rw [List.concat_eq_append] at hle h ⊢
    rw [List.foldl_append, List.foldl_append, List.foldl_cons, List.foldl_cons, List.foldl_nil,
      List.foldl_nil] at h
    by_cases heq : as.foldl f iv = bs.foldl f iv ∧ a = b
    · obtain ⟨hstate, rfl⟩ := heq
      refine (ih (by simpa using hle) hstate).imp ?_ fun hc => hc.append [a] [a]
      rintro ⟨front, rfl⟩
      exact ⟨front, (List.append_assoc _ _ _).symm⟩
    · refine Or.inr ⟨_, a, _, b, Applied.last iv as a, Applied.last iv bs b, ?_, h⟩
      by_contra hne
      exact heq ⟨not_not.mp (fun hs => hne (Or.inl hs)), not_not.mp (fun hab => hne (Or.inr hab))⟩

/-- A padding to whole blocks of `n`: among the messages in `Fits`, no padded
message is the end of another one. -/
structure Padding (α : Type) (n : Nat) where
  pad : List α → List α
  Fits : List α → Prop
  aligned : ∀ xs, n ∣ (pad xs).length
  suffix_free : ∀ xs ys, Fits xs → Fits ys → pad xs <:+ pad ys → xs = ys

namespace Padding

variable (p : Padding α n)

/-- The hash of a message: the padded message absorbed from `iv` on. -/
def hash (f : σ → List α → σ) (iv : σ) (xs : List α) : σ := absorb f n iv (p.pad xs)

/-- The function meets two inputs with one output on the ways over two messages. -/
def Meets (f : σ → List α → σ) (iv : σ) (xs ys : List α) : Prop :=
  Collides f iv (blocks n (p.pad xs)) (blocks n (p.pad ys))

theorem suffix_of_blocks (hn : 0 < n) {xs ys : List α}
    (h : blocks n (p.pad xs) <:+ blocks n (p.pad ys)) : p.pad xs <:+ p.pad ys := by
  obtain ⟨front, h⟩ := h
  refine ⟨front.flatten, ?_⟩
  rw [← flatten_blocks_of_dvd hn (p.aligned ys), ← h, List.flatten_append,
    flatten_blocks_of_dvd hn (p.aligned xs)]

theorem eq_or_meets_of_le (hn : 0 < n) (iv : σ) {xs ys : List α} (hx : p.Fits xs) (hy : p.Fits ys)
    (hle : (blocks n (p.pad xs)).length ≤ (blocks n (p.pad ys)).length)
    (h : p.hash f iv xs = p.hash f iv ys) : xs = ys ∨ p.Meets f iv xs ys :=
  (suffix_or_collides hle h).imp_left fun hsuf => p.suffix_free xs ys hx hy
    (p.suffix_of_blocks hn hsuf)

/-- Two messages with one hash are the same, or the function collides on the way. -/
theorem eq_or_meets (hn : 0 < n) (iv : σ) {xs ys : List α} (hx : p.Fits xs) (hy : p.Fits ys)
    (h : p.hash f iv xs = p.hash f iv ys) : xs = ys ∨ p.Meets f iv xs ys := by
  rcases Nat.le_total (blocks n (p.pad xs)).length (blocks n (p.pad ys)).length with hle | hle
  · exact p.eq_or_meets_of_le hn iv hx hy hle h
  · exact (p.eq_or_meets_of_le hn iv hy hx hle h.symm).imp Eq.symm Collides.symm

end Padding

end Libacorn.Support
