import Mathlib.Data.List.Infix

/-!
# Longest prefixes

The longest prefix of a list with a property, for a property that the prefixes of a list have too.
-/

namespace Libacorn.Support

variable {α : Type} {P : List α → Prop} {w p q v : List α}

structure Longest (P : List α → Prop) (w p : List α) : Prop where
  start : p <+: w
  holds : P p
  longest : ∀ q, q <+: w → P q → q.length ≤ p.length

theorem Longest.unique (hp : Longest P w p) (hq : Longest P w q) : p = q := by
  have hle := hq.longest p hp.start hp.holds
  have hge := hp.longest q hq.start hq.holds
  exact (List.prefix_of_prefix_length_le hp.start hq.start hle).eq_of_length
    (Nat.le_antisymm hle hge)

/-- Nothing can be added to it. -/
theorem Longest.stuck (h : Longest P w p) (hv : v ≠ []) (hw : p ++ v <+: w) : ¬P (p ++ v) := by
  intro hmore
  have hle := h.longest (p ++ v) hw hmore
  have hpos := List.length_pos_iff.mpr hv
  rw [List.length_append] at hle
  omega

/-- It is enough that the next element cannot be added. -/
theorem Longest.of_stuck (hclosed : ∀ u v, P (u ++ v) → P u) (hw : p ++ v = w) (hp : P p)
    (hstuck : ∀ b t, v = b :: t → ¬P (p ++ [b])) : Longest P w p := by
  refine ⟨⟨v, hw⟩, hp, ?_⟩
  intro q hq hmore
  by_contra hlt
  have hpq : p <+: q := List.prefix_of_prefix_length_le ⟨v, hw⟩ hq (by omega)
  obtain ⟨t, rfl⟩ := hpq
  obtain ⟨rest, hrest⟩ := hq
  cases t with
  | nil =>
    rw [List.append_nil] at hlt
    exact hlt (Nat.le_refl _)
  | cons b t =>
    apply hstuck b (t ++ rest)
    · rw [← hw, List.append_assoc] at hrest
      exact (List.append_cancel_left hrest).symm
    · apply hclosed (p ++ [b]) t
      rw [List.append_assoc]
      exact hmore

/-- Where the empty list has the property, there is a prefix to which nothing can be added. -/
theorem exists_stuck (hp : P p) (w : List α) :
    ∃ q v, p ++ w = q ++ v ∧ P q ∧ ∀ b t, v = b :: t → ¬P (q ++ [b]) := by
  induction w generalizing p with
  | nil => exact ⟨p, [], rfl, hp, nofun⟩
  | cons b w ih =>
    by_cases hb : P (p ++ [b])
    · obtain ⟨q, v, hsplit, hq⟩ := ih hb
      refine ⟨q, v, ?_, hq⟩
      rw [← hsplit, List.append_assoc]
      rfl
    · refine ⟨p, b :: w, rfl, hp, ?_⟩
      intro b' t heq
      obtain rfl := (List.cons.inj heq).1
      exact hb

end Libacorn.Support
