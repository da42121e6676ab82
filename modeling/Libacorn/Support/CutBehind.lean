import Mathlib.Tactic.Common
import Mathlib.Data.List.Basic

/-!
# Lists cut behind an element

The part of a list up to the first `a`, with it or without it, and the lists that
are cut behind every `a`.
-/

namespace Libacorn.Support

variable {α : Type} [DecidableEq α]

/-- The list up to its first `a`, and that one; all of it if there is none. -/
def throughFirst (a : α) : List α → List α
  | [] => []
  | b :: w => if b = a then [b] else b :: throughFirst a w

/-- The list without an `a` that ends it. -/
def dropFinal (a : α) (w : List α) : List α := if w.getLast? = some a then w.dropLast else w

/-- Every part has `a` at its end at most, and there unless it is the last one. -/
structure CutBehind (a : α) (parts : List (List α)) : Prop where
  once : ∀ p ∈ parts, a ∉ p.dropLast
  ends : ∀ p ∈ parts.dropLast, p.getLast? = some a

section First

variable {a b : α} {w : List α}

theorem throughFirst_cons_self (a : α) (w : List α) : throughFirst a (a :: w) = [a] := if_pos rfl

theorem throughFirst_cons_of_ne (h : b ≠ a) (w : List α) :
    throughFirst a (b :: w) = b :: throughFirst a w :=
  if_neg h

theorem throughFirst_eq_nil : throughFirst a w = [] ↔ w = [] := by
  cases w with
  | nil => exact Iff.rfl
  | cons b w =>
    rw [throughFirst]
    split_ifs
    · exact iff_of_false nofun nofun
    · exact iff_of_false nofun nofun

/-- It ends behind the first `a`, or at the end. -/
theorem throughFirst_eq_take (a : α) (w : List α) : throughFirst a w = w.take (w.idxOf a + 1) := by
  induction w with
  | nil => rfl
  | cons b w ih =>
    by_cases h : b = a
    · subst h
      rw [throughFirst_cons_self, List.idxOf_cons_self, List.take_succ_cons, List.take_zero]
    · rw [throughFirst_cons_of_ne h, List.idxOf_cons_ne w h, List.take_succ_cons, ih]

theorem length_throughFirst_le (a : α) (w : List α) : (throughFirst a w).length ≤ w.length := by
  rw [throughFirst_eq_take]
  exact List.length_take_le' ..

theorem throughFirst_append_drop (a : α) (w : List α) :
    throughFirst a w ++ w.drop (throughFirst a w).length = w := by
  induction w with
  | nil => rfl
  | cons b w ih =>
    by_cases h : b = a
    · subst h
      rw [throughFirst_cons_self]
      rfl
    · rw [throughFirst_cons_of_ne h, List.length_cons, List.drop_succ_cons, List.cons_append, ih]

theorem notMem_dropLast_throughFirst (a : α) (w : List α) : a ∉ (throughFirst a w).dropLast := by
  induction w with
  | nil => exact List.not_mem_nil
  | cons b w ih =>
    by_cases h : b = a
    · subst h
      rw [throughFirst_cons_self]
      exact List.not_mem_nil
    · rw [throughFirst_cons_of_ne h]
      cases hw : throughFirst a w with
      | nil => exact List.not_mem_nil
      | cons c v =>
        rw [hw] at ih
        rw [List.dropLast_cons_cons, List.mem_cons, not_or]
        exact ⟨Ne.symm h, ih⟩

/-- What stops before the end stops at an `a`. -/
theorem getLast?_throughFirst (h : (throughFirst a w).length < w.length) :
    (throughFirst a w).getLast? = some a := by
  induction w with
  | nil => exact absurd h (Nat.lt_irrefl 0)
  | cons b w ih =>
    by_cases hb : b = a
    · subst hb
      rw [throughFirst_cons_self]
      rfl
    · rw [throughFirst_cons_of_ne hb] at h ⊢
      rw [List.getLast?_cons, ih (Nat.lt_of_succ_lt_succ h)]
      rfl

/-- The part that ends before the first `a`. -/
theorem dropFinal_throughFirst (a : α) (w : List α) :
    dropFinal a (throughFirst a w) = w.take (w.idxOf a) := by
  induction w with
  | nil => rfl
  | cons b w ih =>
    by_cases h : b = a
    · subst h
      rw [throughFirst_cons_self, List.idxOf_cons_self, List.take_zero]
      exact if_pos rfl
    · rw [throughFirst_cons_of_ne h, List.idxOf_cons_ne w h, List.take_succ_cons, ← ih]
      cases hw : throughFirst a w with
      | nil => exact if_neg fun hlast => h (Option.some.inj hlast)
      | cons c v =>
        rw [dropFinal, dropFinal, List.getLast?_cons_cons, List.dropLast_cons_cons]
        split_ifs
        · rfl
        · rfl

omit [DecidableEq α] in
theorem CutBehind.nil (a : α) : CutBehind a [] := ⟨nofun, nofun⟩

omit [DecidableEq α] in
/-- A part in front, which ends with `a` if other parts follow. -/
theorem CutBehind.cons {p : List α} {parts : List (List α)} (h : CutBehind a parts)
    (hp : a ∉ p.dropLast) (hends : parts ≠ [] → p.getLast? = some a) :
    CutBehind a (p :: parts) where
  once := List.forall_mem_cons.mpr ⟨hp, h.once⟩
  ends := by
    cases parts with
    | nil => nofun
    | cons q parts =>
      rw [List.dropLast_cons_cons]
      exact List.forall_mem_cons.mpr ⟨hends nofun, h.ends⟩

end First

end Libacorn.Support
