import Mathlib.Tactic.Common

/-!
# Computations in lockstep

`Option.Rel R x y`: both computations fail, or both have answers that `R` relates. The
relation is closed under sequencing, so that two recursions over the same data are
compared step by step.
-/

namespace Libacorn.Support

variable {α β γ δ : Type} {R : α → β → Prop} {Q : γ → δ → Prop} {x : Option α} {y : Option β}

/-- Two computations that fail together, one after the other. -/
theorem rel_bind {f : α → Option γ} {g : β → Option δ} (h : Option.Rel R x y)
    (hfg : ∀ a b, R a b → Option.Rel Q (f a) (g b)) :
    Option.Rel Q (x >>= f) (y >>= g) := by
  cases h with
  | some h => exact hfg _ _ h
  | none => exact .none

theorem rel_mono {Q : α → β → Prop} (h : Option.Rel R x y)
    (hRQ : ∀ a b, R a b → Q a b) : Option.Rel Q x y := by
  cases h with
  | some h => exact .some (hRQ _ _ h)
  | none => exact .none

/-- The first computation has a last step. -/
theorem rel_last {Q : γ → β → Prop} {f : α → γ} (h : Option.Rel R x y)
    (hf : ∀ a b, R a b → Q (f a) b) : Option.Rel Q (x >>= fun a => some (f a)) y := by
  cases h with
  | some h => exact .some (hf _ _ h)
  | none => exact .none

end Libacorn.Support
