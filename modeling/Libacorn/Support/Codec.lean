import Mathlib.Tactic.Ring
import Libacorn.Support.Scan

/-!
# Binary encodings

Fixed-width little-endian integers, and two contracts for steps over a state
that holds an input or an output:

* `Input.Reads p b a`: wherever the bytes `b` lie ahead, whatever follows them,
  `p` consumes exactly `b` and returns `a`;
* `Output.Writes p b`: `p` appends exactly `b`, as long as it fits.

Both are closed under sequencing, so that a codec is proved part by part.
-/

namespace Libacorn.Support

/-! ## Little-endian integers -/

/-- The `k` low bytes of `x`, lowest first. -/
def leBytes : Nat → Nat → List UInt8
  | 0, _ => []
  | k + 1, x => UInt8.ofNat (x % 256) :: leBytes k (x / 256)

/-- The integer a list of bytes stores, lowest byte first. -/
def ofLe : List UInt8 → Nat
  | [] => 0
  | b :: bs => b.toNat + 256 * ofLe bs

@[simp] theorem length_leBytes (k x : Nat) : (leBytes k x).length = k := by
  induction k generalizing x with
  | zero => rfl
  | succ k ih => simp [leBytes, ih]

theorem ofLe_leBytes (k x : Nat) : ofLe (leBytes k x) = x % 256 ^ k := by
  induction k generalizing x with
  | zero => simp [leBytes, ofLe, Nat.mod_one]
  | succ k ih =>
    rw [leBytes, ofLe, ih, Nat.pow_succ, Nat.mul_comm _ 256, Nat.mod_mul, UInt8.toNat_ofNat']
    omega

/-- A number in two parts. -/
theorem leBytes_append {j a : Nat} (h : a < 256 ^ j) (k b : Nat) :
    leBytes (j + k) (a + 256 ^ j * b) = leBytes j a ++ leBytes k b := by
  induction j generalizing a with
  | zero =>
    rw [Nat.pow_zero, Nat.lt_one_iff] at h
    rw [h, Nat.zero_add, Nat.zero_add, Nat.pow_zero, Nat.one_mul, leBytes, List.nil_append]
  | succ j ih =>
    have hsplit : a + 256 ^ (j + 1) * b = a + 256 * (256 ^ j * b) := by
      rw [Nat.pow_succ, Nat.mul_comm (256 ^ j) 256, Nat.mul_assoc]
    have hlt : a / 256 < 256 ^ j := by
      rw [Nat.pow_succ] at h
      omega
    rw [Nat.succ_add, leBytes, leBytes, hsplit, Nat.add_mul_mod_self_left,
      Nat.add_mul_div_left _ _ (by decide), ih hlt, List.cons_append]

theorem ofLe_lt (bs : List UInt8) : ofLe bs < 256 ^ bs.length := by
  induction bs with
  | nil => simp [ofLe]
  | cons b bs ih =>
    have hb := b.toNat_lt
    rw [ofLe, List.length_cons, Nat.pow_succ]
    omega

/-! ## Reading -/

/-- A state with an input: which states can be read from, and the bytes ahead. -/
structure Input (σ : Type) where
  ready : σ → Prop
  ahead : σ → List UInt8

namespace Input

variable {σ α β : Type} {I : Input σ}

/-- `p` consumes exactly `b` and returns `a`. -/
def Reads (I : Input σ) (p : Scan σ α) (b : List UInt8) (a : α) : Prop :=
  ∀ s rest, I.ready s → I.ahead s = b ++ rest →
    ∃ t, p s = .done (a, t) ∧ I.ready t ∧ I.ahead t = rest

theorem Reads.pure (a : α) : I.Reads (Pure.pure a) [] a := by
  intro s rest hs ha
  exact ⟨s, rfl, hs, ha⟩

theorem Reads.bind {p : Scan σ α} {f : α → Scan σ β} {b c : List UInt8} {a : α} {x : β}
    (hp : I.Reads p b a) (hf : I.Reads (f a) c x) : I.Reads (p >>= f) (b ++ c) x := by
  intro s rest hs ha
  obtain ⟨t, ht, htr, hta⟩ := hp s (c ++ rest) hs (by rw [ha, List.append_assoc])
  obtain ⟨u, hu, hur, hua⟩ := hf t rest htr hta
  refine ⟨u, ?_, hur, hua⟩
  rw [Scan.bind_apply, ht]
  exact hu

/-- The last step reads nothing. -/
theorem Reads.map {p : Scan σ α} {f : α → Scan σ β} {b : List UInt8} {a : α} {x : β}
    (hp : I.Reads p b a) (hf : f a = Pure.pure x) : I.Reads (p >>= f) b x := by
  have h := hp.bind (f := f) (c := []) (by rw [hf]; exact Reads.pure x)
  rwa [List.append_nil] at h

end Input

/-! ## Writing -/

/-- A state with an output: which states can be written to, the bytes written,
and how many there may be. -/
structure Output (σ : Type) where
  ready : σ → Prop
  written : σ → List UInt8
  room : Nat

namespace Output

variable {σ : Type} {O : Output σ}

/-- `p` appends exactly `b` and reports success. -/
def Writes (O : Output σ) (p : Scan σ Bool) (b : List UInt8) : Prop :=
  ∀ s, O.ready s → (O.written s ++ b).length ≤ O.room →
    ∃ t, p s = .done (true, t) ∧ O.ready t ∧ O.written t = O.written s ++ b

theorem Writes.pure : O.Writes (Pure.pure true) [] := by
  intro s hs _
  exact ⟨s, rfl, hs, by simp⟩

/-- `if (!p) return false; q` -/
theorem Writes.seq {p q : Scan σ Bool} {b c : List UInt8} (hp : O.Writes p b)
    (hq : O.Writes q c) :
    O.Writes (do if ← p then q else Pure.pure false) (b ++ c) := by
  intro s hs hl
  obtain ⟨t, ht, htr, htw⟩ := hp s hs (by simp only [List.length_append] at hl ⊢; omega)
  obtain ⟨u, hu, hur, huw⟩ := hq t htr (by rw [htw, List.append_assoc]; exact hl)
  refine ⟨u, ?_, hur, by rw [huw, htw, List.append_assoc]⟩
  rw [Scan.bind_apply, ht]
  exact hu

/-- Whenever `p` ends it reports success and has appended exactly `b`. -/
def Appends (O : Output σ) (p : Scan σ Bool) (b : List UInt8) : Prop :=
  ∀ s r t, O.ready s → p s = .done (r, t) →
    r = true ∧ O.ready t ∧ O.written t = O.written s ++ b

theorem Appends.pure : O.Appends (Pure.pure true) [] := by
  intro s r t hs h
  cases h
  exact ⟨rfl, hs, by simp⟩

theorem Appends.bind {p : Scan σ Bool} {f : Bool → Scan σ Bool} {b c : List UInt8}
    (hp : O.Appends p b) (hf : O.Appends (f true) c) : O.Appends (p >>= f) (b ++ c) := by
  intro s r t hs h
  obtain ⟨a, u, hu, h⟩ := Scan.bind_eq_done h
  obtain ⟨rfl, hur, huw⟩ := hp s a u hs hu
  obtain ⟨hr, htr, htw⟩ := hf u r t hur h
  exact ⟨hr, htr, by rw [htw, huw, List.append_assoc]⟩

end Output

end Libacorn.Support
