import Mathlib.Tactic.Common

/-!
# Fuelled scanners

A scanner reads a text through a mutable cursor, may run forever and may touch
memory it does not own. `Outcome` separates the three ways a run can end,
`Scan σ` threads a cursor state `σ` through it, and two relations compare
scanners, each of them kept by sequencing (`Scan.Congruence`):

* `Scan.Le`: the second scanner agrees with the first wherever the first one
  did not run out of fuel (more fuel never changes an answer);
* `Scan.Sim R`: two scanners over different cursor types, started at related
  cursors, end the same way with equal answers at related cursors.
-/

namespace Libacorn.Support

/-- How a fuelled run ends: an answer, no fuel left, or an undefined step. -/
inductive Outcome (α : Type) where
  | done (a : α)
  | timeout
  | fault
  deriving DecidableEq, Repr

namespace Outcome

variable {α β : Type}

def bind (x : Outcome α) (f : α → Outcome β) : Outcome β :=
  match x with
  | .done a => f a
  | .timeout => .timeout
  | .fault => .fault

@[simp] theorem bind_done (a : α) (f : α → Outcome β) : (done a).bind f = f a := rfl
@[simp] theorem bind_timeout (f : α → Outcome β) : (timeout : Outcome α).bind f = .timeout := rfl
@[simp] theorem bind_fault (f : α → Outcome β) : (fault : Outcome α).bind f = .fault := rfl

theorem done_ne_fault (a : α) : done a ≠ fault := nofun

theorem bind_eq_done {x : Outcome α} {f : α → Outcome β} {b : β} (h : x.bind f = .done b) :
    ∃ a, x = .done a ∧ f a = .done b := by
  cases x with
  | done a => exact ⟨a, rfl, h⟩
  | timeout => cases h
  | fault => cases h

theorem bind_assoc {γ : Type} (x : Outcome α) (f : α → Outcome β) (g : β → Outcome γ) :
    (x.bind f).bind g = x.bind fun a => (f a).bind g := by
  cases x with
  | done a => rfl
  | timeout => rfl
  | fault => rfl

/-- The flat order: a run without an answer yet is below every other. -/
def Le (x y : Outcome α) : Prop := x = .timeout ∨ x = y

theorem Le.refl (x : Outcome α) : Le x x := Or.inr rfl

theorem Le.bind {x y : Outcome α} {f g : α → Outcome β} (h : Le x y)
    (hf : ∀ a, Le (f a) (g a)) : Le (x.bind f) (y.bind g) := by
  rcases h with rfl | rfl
  · exact Or.inl rfl
  · cases x with
    | done a => exact hf a
    | timeout => exact Or.inl rfl
    | fault => exact Or.inr rfl

/-- A run that ended keeps its answer above. -/
theorem Le.eq_of_done {x y : Outcome α} {a : α} (h : Le x y) (hx : x = .done a) :
    y = .done a := by
  rcases h with h | h
  · rw [h] at hx; cases hx
  · rw [← h, hx]

end Outcome

/-- A bound for each element of a list gives one for all. -/
theorem exists_bound {α : Type} {P : Nat → α → Prop} (hmono : ∀ {n m a}, n ≤ m → P n a → P m a)
    {l : List α} (h : ∀ a ∈ l, ∃ n, P n a) : ∃ n, ∀ a ∈ l, P n a := by
  induction l with
  | nil => exact ⟨0, nofun⟩
  | cons a l ih =>
    obtain ⟨n, hn⟩ := h a (List.mem_cons_self ..)
    obtain ⟨m, hm⟩ := ih fun b hb => h b (List.mem_cons_of_mem a hb)
    refine ⟨max n m, ?_⟩
    intro b hb
    rcases List.mem_cons.mp hb with rfl | hb
    · exact hmono (Nat.le_max_left n m) hn
    · exact hmono (Nat.le_max_right n m) (hm b hb)

/-- A scanner over cursor states `σ`. -/
def Scan (σ α : Type) : Type := σ → Outcome (α × σ)

namespace Scan

variable {σ τ α β : Type}

def pure (a : α) : Scan σ α := fun s => .done (a, s)

def bind (m : Scan σ α) (f : α → Scan σ β) : Scan σ β :=
  fun s => (m s).bind fun r => f r.1 r.2

instance : Monad (Scan σ) where
  pure := pure
  bind := bind

/-- The scanner that has no fuel left. -/
def timeout : Scan σ α := fun _ => .timeout

/-- The scanner whose next step is undefined. -/
def fault : Scan σ α := fun _ => .fault

/-- A step that does not look at the cursor. -/
def ofOutcome (x : Outcome α) : Scan σ α := fun s => x.bind fun a => .done (a, s)

@[simp] theorem pure_apply (a : α) (s : σ) : (Pure.pure a : Scan σ α) s = .done (a, s) := rfl
@[simp] theorem bind_apply (m : Scan σ α) (f : α → Scan σ β) (s : σ) :
    (m >>= f) s = (m s).bind fun r => f r.1 r.2 := rfl
@[simp] theorem timeout_apply (s : σ) : (timeout : Scan σ α) s = .timeout := rfl
@[simp] theorem fault_apply (s : σ) : (fault : Scan σ α) s = .fault := rfl
@[simp] theorem ofOutcome_done (a : α) : (ofOutcome (.done a) : Scan σ α) = Pure.pure a := rfl

theorem bind_eq_done {m : Scan σ α} {f : α → Scan σ β} {s : σ} {r : β × σ}
    (h : (m >>= f) s = .done r) : ∃ a t, m s = .done (a, t) ∧ f a t = .done r := by
  obtain ⟨x, hx, hf⟩ := Outcome.bind_eq_done h
  exact ⟨x.1, x.2, hx, hf⟩

/-! ## More fuel -/

/-- `m'` agrees with `m` wherever `m` did not run out of fuel. -/
def Le (m m' : Scan σ α) : Prop := ∀ s, (m s).Le (m' s)

theorem Le.refl (m : Scan σ α) : Le m m := fun s => Outcome.Le.refl (m s)

theorem Le.timeout (m : Scan σ α) : Le Scan.timeout m := fun _ => Or.inl rfl

theorem Le.bind {m m' : Scan σ α} {f f' : α → Scan σ β} (h : Le m m')
    (hf : ∀ a, Le (f a) (f' a)) : Le (m >>= f) (m' >>= f') :=
  fun s => (h s).bind fun r => hf r.1 r.2

theorem Le.ite {c : Prop} [Decidable c] {m m' n n' : Scan σ α} (h : Le m m') (h' : Le n n') :
    Le (if c then m else n) (if c then m' else n') := by
  split
  · exact h
  · exact h'

/-- `m` ends with `r` from `s`, given enough fuel. -/
def Returns (m : Nat → Scan σ α) (s : σ) (r : α × σ) : Prop := ∃ fuel, m fuel s = .done r

/-- Two answers of one fuelled scanner are the same answer. -/
theorem Returns.unique {m : Nat → Scan σ α} (hm : ∀ i j, i ≤ j → Le (m i) (m j)) {s : σ}
    {r r' : α × σ} (h : Returns m s r) (h' : Returns m s r') : r = r' := by
  obtain ⟨i, hi⟩ := h
  obtain ⟨j, hj⟩ := h'
  have e := (hm i (max i j) (Nat.le_max_left i j) s).eq_of_done hi
  have e' := (hm j (max i j) (Nat.le_max_right i j) s).eq_of_done hj
  rw [e] at e'
  exact Outcome.done.inj e'

/-! ## Simulation -/

/-- Two runs end the same way, with equal answers and related cursors. -/
def OutcomeSim (R : σ → τ → Prop) : Outcome (α × σ) → Outcome (α × τ) → Prop
  | .done r, .done r' => r.1 = r'.1 ∧ R r.2 r'.2
  | .timeout, .timeout => True
  | .fault, .fault => True
  | _, _ => False

/-- From related cursors, `m` and `m'` end the same way. -/
def Sim (R : σ → τ → Prop) (m : Scan σ α) (m' : Scan τ α) : Prop :=
  ∀ s t, R s t → OutcomeSim R (m s) (m' t)

variable {R : σ → τ → Prop}

theorem Sim.pure (a : α) : Sim R (Pure.pure a : Scan σ α) (Pure.pure a) :=
  fun _ _ h => ⟨rfl, h⟩

theorem Sim.timeout : Sim R (Scan.timeout : Scan σ α) Scan.timeout := fun _ _ _ => trivial

theorem Sim.fault : Sim R (Scan.fault : Scan σ α) Scan.fault := fun _ _ _ => trivial

theorem Sim.ofOutcome (x : Outcome α) :
    Sim R (Scan.ofOutcome x : Scan σ α) (Scan.ofOutcome x) := by
  intro s t h
  cases x with
  | done a => exact ⟨rfl, h⟩
  | timeout => trivial
  | fault => trivial

theorem Sim.bind {m : Scan σ α} {m' : Scan τ α} {f : α → Scan σ β} {f' : α → Scan τ β}
    (h : Sim R m m') (hf : ∀ a, Sim R (f a) (f' a)) : Sim R (m >>= f) (m' >>= f') := by
  intro s t hst
  have hm := h s t hst
  simp only [bind_apply]
  cases e : m s with
  | done r =>
    cases e' : m' t with
    | done r' =>
      rw [e, e'] at hm
      obtain ⟨ha, hr⟩ := hm
      simp only [Outcome.bind_done, ← ha]
      exact hf r.1 r.2 r'.2 hr
    | timeout => rw [e, e'] at hm; exact hm.elim
    | fault => rw [e, e'] at hm; exact hm.elim
  | timeout =>
    cases e' : m' t with
    | timeout => trivial
    | done r' => rw [e, e'] at hm; exact hm.elim
    | fault => rw [e, e'] at hm; exact hm.elim
  | fault =>
    cases e' : m' t with
    | fault => trivial
    | done r' => rw [e, e'] at hm; exact hm.elim
    | timeout => rw [e, e'] at hm; exact hm.elim

theorem Sim.ite {c : Prop} [Decidable c] {m n : Scan σ α} {m' n' : Scan τ α}
    (h : Sim R m m') (h' : Sim R n n') :
    Sim R (if c then m else n) (if c then m' else n') := by
  split
  · exact h
  · exact h'

/-- An answer of the second scanner is an answer of the first. -/
theorem Sim.done_of_done {m : Scan σ α} {m' : Scan τ α} (h : Sim R m m') {s : σ} {t t' : τ}
    {a : α} (hst : R s t) (h' : m' t = .done (a, t')) :
    ∃ s', m s = .done (a, s') ∧ R s' t' := by
  have hm := h s t hst
  rw [h'] at hm
  cases e : m s with
  | done r =>
    rw [e] at hm
    obtain ⟨ha, hr⟩ := hm
    obtain ⟨a', s'⟩ := r
    cases ha
    exact ⟨s', rfl, hr⟩
  | timeout => rw [e] at hm; exact hm.elim
  | fault => rw [e] at hm; exact hm.elim

theorem OutcomeSim.symm {x : Outcome (α × σ)} {y : Outcome (α × τ)} (h : OutcomeSim R x y) :
    OutcomeSim (flip R) y x := by
  cases x <;> cases y
  case done.done => exact ⟨h.1.symm, h.2⟩
  all_goals exact h

theorem Sim.symm {m : Scan σ α} {m' : Scan τ α} (h : Sim R m m') : Sim (flip R) m' m :=
  fun t s hst => (h s t hst).symm

/-- An answer of the first scanner is an answer of the second. -/
theorem Sim.done_of_done_left {m : Scan σ α} {m' : Scan τ α} (h : Sim R m m') {s s' : σ} {t : τ}
    {a : α} (hst : R s t) (h' : m s = .done (a, s')) :
    ∃ t', m' t = .done (a, t') ∧ R s' t' := h.symm.done_of_done hst h'

/-- The first scanner runs out of fuel exactly when the second one does. -/
theorem Sim.timeout_iff {m : Scan σ α} {m' : Scan τ α} (h : Sim R m m') {s : σ} {t : τ}
    (hst : R s t) : m s = .timeout ↔ m' t = .timeout := by
  have hm := h s t hst
  cases e : m s <;> cases e' : m' t <;> simp_all [OutcomeSim]

/-- The first scanner faults exactly when the second one does. -/
theorem Sim.fault_iff {m : Scan σ α} {m' : Scan τ α} (h : Sim R m m') {s : σ} {t : τ}
    (hst : R s t) : m s = .fault ↔ m' t = .fault := by
  have hm := h s t hst
  cases e : m s <;> cases e' : m' t <;> simp_all [OutcomeSim]

/-! ## Congruences -/

/-- A relation between scanners that sequencing keeps, with the amounts of fuel that it relates:
a loop without fuel is related to every loop that may have more. -/
structure Congruence (σ τ : Type) where
  rel : {α : Type} → Scan σ α → Scan τ α → Prop
  fuel : Nat → Nat → Prop
  pure : ∀ {α : Type} (a : α), rel (Pure.pure a : Scan σ α) (Pure.pure a)
  fault : ∀ {α : Type}, rel (Scan.fault : Scan σ α) Scan.fault
  bind : ∀ {α β : Type} {m : Scan σ α} {m' : Scan τ α} {f : α → Scan σ β} {f' : α → Scan τ β},
    rel m m' → (∀ a, rel (f a) (f' a)) → rel (m >>= f) (m' >>= f')
  zero : ∀ {α : Type} {j : Nat} {m : Scan τ α}, fuel 0 j → (j = 0 → m = Scan.timeout) →
    rel (Scan.timeout : Scan σ α) m
  succ : ∀ {i j : Nat}, fuel (i + 1) j → ∃ j', j = j' + 1 ∧ fuel i j'

namespace Congruence

theorem ite (L : Congruence σ τ) {c : Prop} [Decidable c] {m n : Scan σ α} {m' n' : Scan τ α}
    (h : L.rel m m') (h' : L.rel n n') : L.rel (if c then m else n) (if c then m' else n') := by
  split
  · exact h
  · exact h'

/-- One scanner with more and more fuel. -/
abbrev more (σ : Type) : Congruence σ σ where
  rel := Le
  fuel i j := i ≤ j
  pure a := Le.refl _
  fault := Le.refl _
  bind := Le.bind
  zero _ _ := Le.timeout _
  succ h := by
    obtain ⟨j, rfl⟩ := Nat.exists_eq_add_of_le' (Nat.lt_of_lt_of_le (Nat.succ_pos _) h)
    exact ⟨j, rfl, Nat.le_of_succ_le_succ h⟩

/-- Two scanners with the same fuel. -/
abbrev sim (R : σ → τ → Prop) : Congruence σ τ where
  rel := Sim R
  fuel i j := i = j
  pure := Sim.pure
  fault := Sim.fault
  bind := Sim.bind
  zero h hm := by
    rw [hm h.symm]
    exact Sim.timeout
  succ h := ⟨_, h.symm, rfl⟩

end Congruence

end Scan

end Libacorn.Support
