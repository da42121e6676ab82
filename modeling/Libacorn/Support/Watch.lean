import Libacorn.Support.Scan

/-!
# Watched scanners

A watched scanner runs as a scanner does and keeps two marks on the way:
`broken` once the run has done what it must not do, and `waived` once it has
left the inputs for which that is promised. Marks only accumulate.

`Tracks Q m m'` compares a watched scanner with a plain one: a run of `m'` breaks
something exactly when it waives something, and any other run of `m'` is a run of
`m` whose answer is related by `Q`.
-/

namespace Libacorn.Support

/-- What has been seen of a run. -/
structure Marks where
  waived : Bool
  broken : Bool
  deriving DecidableEq, Repr

def Marks.none : Marks := ⟨false, false⟩

/-- The marks of two runs, one after the other. -/
def Marks.or (k l : Marks) : Marks := ⟨k.waived || l.waived, k.broken || l.broken⟩

/-- A scanner over cursor states `σ` that leaves marks. -/
def Watch (σ α : Type) : Type := σ → Outcome (α × σ × Marks)

namespace Watch

variable {σ α β γ δ : Type}

def pure (a : α) : Watch σ α := fun s => .done (a, s, Marks.none)

def bind (m : Watch σ α) (f : α → Watch σ β) : Watch σ β := fun s =>
  (m s).bind fun r =>
    (f r.1 r.2.1).bind fun r' => .done (r'.1, r'.2.1, r.2.2.or r'.2.2)

instance : Monad (Watch σ) where
  pure := pure
  bind := bind

/-- A scanner that leaves no marks. -/
def lift (m : Scan σ α) : Watch σ α := fun s =>
  (m s).bind fun r => .done (r.1, r.2, Marks.none)

instance : MonadLift (Scan σ) (Watch σ) where
  monadLift := lift

/-- Leave the marks `k`. -/
def mark (k : Marks) : Watch σ Unit := fun s => .done ((), s, k)

/-- The scanner that has no fuel left. -/
def timeout : Watch σ α := fun _ => .timeout

/-- The scanner whose next step is undefined. -/
def fault : Watch σ α := fun _ => .fault

theorem bind_eq_done {m : Watch σ α} {f : α → Watch σ β} {s s'' : σ} {b : β} {k : Marks}
    (h : (m >>= f) s = .done (b, s'', k)) :
    ∃ a s' k₁ k₂, m s = .done (a, s', k₁) ∧ f a s' = .done (b, s'', k₂) ∧ k = k₁.or k₂ := by
  obtain ⟨r, hr, hf⟩ := Outcome.bind_eq_done h
  obtain ⟨r', hr', e⟩ := Outcome.bind_eq_done hf
  cases e
  exact ⟨r.1, r.2.1, r.2.2, r'.2.2, hr, hr', rfl⟩

/-! ## Tracking -/

/-- From every cursor, a run of `m'` breaks something exactly when it waives, and
one that does not ends where a run of `m` ends, with an answer related by `Q`. -/
def Tracks (Q : α → β → Prop) (m : Scan σ α) (m' : Watch σ β) : Prop :=
  ∀ s b s' k, m' s = .done (b, s', k) →
    k.broken = k.waived ∧ (k.waived = false → ∃ a, m s = .done (a, s') ∧ Q a b)

/-- A run of `m'` breaks something exactly when it waives, and one that does not
leaves the cursor alone and answers with `P`. -/
def Silent (P : β → Prop) (m' : Watch σ β) : Prop :=
  ∀ s b s' k, m' s = .done (b, s', k) →
    k.broken = k.waived ∧ (k.waived = false → s' = s ∧ P b)

variable {Q : α → β → Prop} {Q' : γ → δ → Prop} {P : β → Prop} {P' : δ → Prop}

/-- Marks that agree on both runs agree on the whole; the second run counts only
when the first one waived nothing. -/
theorem marks_or {k₁ k₂ : Marks} (h₁ : k₁.broken = k₁.waived)
    (h₂ : k₁.waived = false → k₂.broken = k₂.waived) : (k₁.or k₂).broken = (k₁.or k₂).waived := by
  cases hw : k₁.waived with
  | true => simp [Marks.or, h₁, hw]
  | false => simp [Marks.or, h₁, hw, h₂ hw]

theorem Tracks.pure {a : α} {b : β} (h : Q a b) :
    Tracks Q (Pure.pure a : Scan σ α) (Pure.pure b) := by
  intro s b' s' k hm
  cases hm
  exact ⟨rfl, fun _ => ⟨a, rfl, h⟩⟩

theorem Tracks.timeout (m : Scan σ α) : Tracks Q m Watch.timeout := by
  intro s b s' k hm
  cases hm

/-- A scanner without marks tracks itself. -/
theorem Tracks.lift (m : Scan σ α) : Tracks Eq m (liftM m : Watch σ α) := by
  intro s b s' k hm
  obtain ⟨r, hr, e⟩ := Outcome.bind_eq_done hm
  cases e
  exact ⟨rfl, fun _ => ⟨r.1, hr, rfl⟩⟩

theorem Tracks.bind {m : Scan σ α} {m' : Watch σ β} {f : α → Scan σ γ} {f' : β → Watch σ δ}
    (h : Tracks Q m m') (hf : ∀ a b, Q a b → Tracks Q' (f a) (f' b)) :
    Tracks Q' (m >>= f) (m' >>= f') := by
  intro s d s'' k hm
  obtain ⟨b, s', k₁, k₂, h₁, h₂, rfl⟩ := bind_eq_done hm
  obtain ⟨hb₁, ht₁⟩ := h s b s' k₁ h₁
  constructor
  · apply marks_or hb₁
    intro hk₁
    obtain ⟨a, _, hQ⟩ := ht₁ hk₁
    exact (hf a b hQ s' d s'' k₂ h₂).1
  · intro hk
    obtain ⟨hk₁, hk₂⟩ := Bool.or_eq_false_iff.mp hk
    obtain ⟨a, ha, hQ⟩ := ht₁ hk₁
    obtain ⟨c, hc, hQ'⟩ := (hf a b hQ s' d s'' k₂ h₂).2 hk₂
    refine ⟨c, ?_, hQ'⟩
    rw [Scan.bind_apply, ha]
    exact hc

/-- The common case of `Tracks.bind`: the first step is the same scanner. -/
theorem Tracks.bind_lift {m : Scan σ α} {f : α → Scan σ γ} {f' : α → Watch σ δ}
    (hf : ∀ a, Tracks Q' (f a) (f' a)) : Tracks Q' (m >>= f) (liftM m >>= f') := by
  apply Tracks.bind (Tracks.lift m)
  rintro a _ rfl
  exact hf a

theorem Tracks.ite {c : Prop} [Decidable c] {m n : Scan σ α} {m' n' : Watch σ β}
    (h : Tracks Q m m') (h' : Tracks Q n n') :
    Tracks Q (if c then m else n) (if c then m' else n') := by
  split
  · exact h
  · exact h'

/-! ## Silent steps -/

theorem Silent.pure {b : β} (h : P b) : Silent P (Pure.pure b : Watch σ β) := by
  intro s b' s' k hm
  cases hm
  exact ⟨rfl, fun _ => ⟨rfl, h⟩⟩

theorem Silent.fault : Silent P (Watch.fault : Watch σ β) := by
  intro s b s' k hm
  cases hm

theorem Silent.mark {k : Marks} (h : k.broken = k.waived) :
    Silent (fun _ => k.waived = false) (mark k : Watch σ Unit) := by
  intro s b s' l hm
  cases hm
  exact ⟨h, fun hk => ⟨rfl, hk⟩⟩

/-- A silent step has no counterpart in the plain scanner. -/
theorem Silent.bind_tracks {m' : Watch σ β} {m : Scan σ γ} {f' : β → Watch σ δ}
    (h : Silent P m') (hf : ∀ b, P b → Tracks Q' m (f' b)) : Tracks Q' m (m' >>= f') := by
  intro s d s'' k hm
  obtain ⟨b, s', k₁, k₂, h₁, h₂, rfl⟩ := bind_eq_done hm
  obtain ⟨hb₁, ht₁⟩ := h s b s' k₁ h₁
  constructor
  · apply marks_or hb₁
    intro hk₁
    exact (hf b (ht₁ hk₁).2 s' d s'' k₂ h₂).1
  · intro hk
    obtain ⟨hk₁, hk₂⟩ := Bool.or_eq_false_iff.mp hk
    obtain ⟨rfl, hP⟩ := ht₁ hk₁
    exact (hf b hP s' d s'' k₂ h₂).2 hk₂

/-- A silent step as the last one. -/
theorem Silent.tracks {m' : Watch σ β} {a : α} (h : Silent (Q a) m') :
    Tracks Q (Pure.pure a : Scan σ α) m' := by
  intro s b s' k hm
  obtain ⟨hb, ht⟩ := h s b s' k hm
  refine ⟨hb, ?_⟩
  intro hk
  obtain ⟨rfl, hQ⟩ := ht hk
  exact ⟨a, rfl, hQ⟩

theorem Silent.bind {m' : Watch σ β} {f' : β → Watch σ δ} (h : Silent P m')
    (hf : ∀ b, P b → Silent P' (f' b)) : Silent P' (m' >>= f') := by
  intro s d s'' k hm
  obtain ⟨b, s', k₁, k₂, h₁, h₂, rfl⟩ := bind_eq_done hm
  obtain ⟨hb₁, ht₁⟩ := h s b s' k₁ h₁
  constructor
  · apply marks_or hb₁
    intro hk₁
    exact (hf b (ht₁ hk₁).2 s' d s'' k₂ h₂).1
  · intro hk
    obtain ⟨hk₁, hk₂⟩ := Bool.or_eq_false_iff.mp hk
    obtain ⟨rfl, hP⟩ := ht₁ hk₁
    exact (hf b hP s' d s'' k₂ h₂).2 hk₂

end Watch

end Libacorn.Support
