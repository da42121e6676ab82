import Mathlib.Tactic.Common
import Mathlib.Data.List.DropRight

/-!
# Lists cut at both ends

A list without its longest prefix, and without the longest suffix of the rest,
whose elements have a property. It is a range of the list, given by how many
elements are cut off at either end.
-/

namespace Libacorn.Support

variable {α : Type} (p : α → Bool) (w : List α)

/-- Without the leading elements that satisfy `p`, and without the trailing ones of the rest. -/
def cutBoth : List α := (w.dropWhile p).rdropWhile p

/-- How many elements at the front satisfy `p`. -/
def leading : Nat := (w.takeWhile p).length

/-- How many elements at the end satisfy `p`, of those behind the first one that does not. -/
def trailing : Nat := ((w.drop (leading p w + 1)).reverse.takeWhile p).length

variable {p w}

theorem rdropWhile_cons_of_neg {a : α} (ha : ¬p a) :
    (a :: w).rdropWhile p = a :: w.rdropWhile p := by
  rw [List.rdropWhile, List.rdropWhile, List.reverse_cons, List.dropWhile_append]
  split_ifs with hnil
  · rw [List.dropWhile_cons_of_neg ha, List.isEmpty_iff.mp hnil]
    rfl
  · rw [List.reverse_append]
    rfl

theorem rdropWhile_eq_take :
    w.rdropWhile p = w.take (w.length - (w.reverse.takeWhile p).length) := by
  have hsplit := List.takeWhile_append_dropWhile (p := p) (l := w.reverse)
  have hlen := congrArg List.length hsplit
  rw [List.length_append, List.length_reverse] at hlen
  rw [List.prefix_iff_eq_take.mp (List.rdropWhile_prefix p w)]
  congr 1
  rw [List.rdropWhile, List.length_reverse]
  omega

theorem drop_leading (p : α → Bool) (w : List α) : w.drop (leading p w) = w.dropWhile p := by
  calc w.drop (leading p w) = (w.takeWhile p ++ w.dropWhile p).drop (leading p w) := by
        rw [List.takeWhile_append_dropWhile]
    _ = w.dropWhile p := List.drop_left

/-- Nothing is left, or a list that starts with an element that does not satisfy `p`. -/
inductive Left (p : α → Bool) (w : List α) : Prop
  | nothing (h : w.dropWhile p = [])
  | some {a : α} {v : List α} (h : w.dropWhile p = a :: v) (ha : ¬p a)

theorem left (p : α → Bool) (w : List α) : Left p w := by
  cases hrest : w.dropWhile p with
  | nil => exact .nothing hrest
  | cons a v =>
    have hhead := List.head_dropWhile_not p (l := w) (by rw [hrest]; exact List.cons_ne_nil _ _)
    simp only [hrest, List.head_cons] at hhead
    exact .some hrest (by rw [hhead]; exact Bool.false_ne_true)

/-- What is left is a range of the list. -/
theorem cutBoth_eq_range (p : α → Bool) (w : List α) :
    cutBoth p w = (w.take (w.length - trailing p w)).drop (leading p w) := by
  have hdrop := drop_leading p w
  rw [cutBoth, List.drop_take, hdrop]
  cases left p w with
  | nothing hnil => rw [hnil, List.rdropWhile_nil, List.take_nil]
  | @some a v hrest ha =>
    rw [hrest] at hdrop
    have hlen := congrArg List.length hdrop
    rw [List.length_drop, List.length_cons] at hlen
    have htrail : trailing p w = (v.reverse.takeWhile p).length := by
      rw [trailing, ← List.drop_drop, hdrop]
      rfl
    have hle := (List.takeWhile_prefix p (l := v.reverse)).length_le
    rw [List.length_reverse] at hle
    rw [hrest, rdropWhile_cons_of_neg ha, rdropWhile_eq_take, htrail,
      show w.length - (v.reverse.takeWhile p).length -
      leading p w = v.length - (v.reverse.takeWhile p).length + 1 by omega, List.take_succ_cons]

theorem takeWhile_dropWhile (p : α → Bool) (w : List α) : (w.dropWhile p).takeWhile p = [] := by
  cases left p w with
  | nothing hnil => rw [hnil, List.takeWhile_nil]
  | some hrest ha => rw [hrest, List.takeWhile_cons_of_neg ha]

/-- Nothing more is cut off at the front. -/
theorem leading_cutBoth (p : α → Bool) (w : List α) : leading p (cutBoth p w) = 0 := by
  rw [leading, cutBoth, List.length_eq_zero_iff]
  cases left p w with
  | nothing hnil => rw [hnil, List.rdropWhile_nil, List.takeWhile_nil]
  | some hrest ha => rw [hrest, rdropWhile_cons_of_neg ha, List.takeWhile_cons_of_neg ha]

/-- Nothing more is cut off at the end. -/
theorem trailing_cutBoth (p : α → Bool) (w : List α) : trailing p (cutBoth p w) = 0 := by
  rw [trailing, leading_cutBoth, cutBoth, List.length_eq_zero_iff]
  cases left p w with
  | nothing hnil =>
    rw [hnil, List.rdropWhile_nil, List.drop_nil, List.reverse_nil, List.takeWhile_nil]
  | @some a v hrest ha =>
    rw [hrest, rdropWhile_cons_of_neg ha, List.drop_succ_cons, List.drop_zero, List.rdropWhile,
      List.reverse_reverse, takeWhile_dropWhile]

theorem dropWhile_congr {q : α → Bool} (h : ∀ a ∈ w, p a = q a) :
    w.dropWhile p = w.dropWhile q := by
  induction w with
  | nil => rfl
  | cons a w ih =>
    rw [List.dropWhile_cons, List.dropWhile_cons, h a (List.mem_cons_self ..),
      ih fun b hb => h b (List.mem_cons_of_mem a hb)]

/-- Only the elements of the list matter. -/
theorem cutBoth_congr {q : α → Bool} (h : ∀ a ∈ w, p a = q a) : cutBoth p w = cutBoth q w := by
  rw [cutBoth, cutBoth, dropWhile_congr h, List.rdropWhile, List.rdropWhile]
  congr 1
  apply dropWhile_congr
  intro a ha
  exact h a ((List.dropWhile_sublist q).mem (List.mem_reverse.mp ha))

end Libacorn.Support
