import Mathlib.Tactic.Common
import Mathlib.Data.List.Infix
import Mathlib.Data.Nat.Find

/-!
# Occurrences of one list in another

First positions, and the cut of a list at the leftmost occurrences that do not
overlap (`gaps`): the parts between them, none of which contains the pattern, and
which give the list back when the pattern is put between them again.
-/

namespace Libacorn.Support

variable {α : Type}

/-- `t` stands in `w` at position `i`. -/
def OccursAt (t w : List α) (i : Nat) : Prop := t <+: w.drop i

instance [DecidableEq α] (t w : List α) (i : Nat) : Decidable (OccursAt t w i) :=
  inferInstanceAs (Decidable (t <+: w.drop i))

/-- `i` is the first position of `t` in `w`. -/
structure FirstAt (t w : List α) (i : Nat) : Prop where
  occurs : OccursAt t w i
  before : ∀ j < i, ¬OccursAt t w j

section Positions

variable {t w : List α} {i n o : Nat}

theorem OccursAt.add_le (h : OccursAt t w i) (ht : t ≠ []) : i + t.length ≤ w.length := by
  have hle := h.length_le
  have hpos := List.length_pos_iff.mpr ht
  rw [List.length_drop] at hle
  omega

theorem occursAt_drop : OccursAt t (w.drop o) i ↔ OccursAt t w (o + i) := by
  rw [OccursAt, OccursAt, List.drop_drop]

theorem occursAt_take (hle : i + t.length ≤ n) : OccursAt t (w.take n) i ↔ OccursAt t w i := by
  rw [OccursAt, OccursAt, List.drop_take, List.prefix_take_iff, and_iff_left (by omega)]

theorem OccursAt.of_take (h : OccursAt t (w.take n) i) : OccursAt t w i := by
  rw [OccursAt, List.drop_take] at h
  exact h.trans (List.take_prefix ..)

theorem occursAt_iff_eq : OccursAt t w i ↔ (w.drop i).take t.length = t := by
  rw [OccursAt, List.prefix_iff_eq_take]
  exact eq_comm

/-- An occurrence is a match of the first element and of the others. -/
theorem occursAt_cons {a : α} :
    OccursAt (a :: t) w i ↔ w[i]? = some a ∧ (w.drop (i + 1)).take t.length = t := by
  rw [OccursAt]
  cases hget : w[i]? with
  | none =>
    rw [List.drop_eq_nil_of_le (List.getElem?_eq_none_iff.mp hget)]
    simp
  | some b =>
    obtain ⟨hlt, hb⟩ := List.getElem?_eq_some_iff.mp hget
    rw [List.drop_eq_getElem_cons hlt, hb, List.cons_prefix_cons, Option.some.injEq,
      eq_comm (a := b), List.prefix_iff_eq_take, eq_comm (a := t)]

theorem OccursAt.head {a : α} (h : OccursAt (a :: t) w i) : w[i]? = some a := (occursAt_cons.mp h).1

theorem OccursAt.split (h : OccursAt t w i) : w = w.take i ++ (t ++ w.drop (i + t.length)) := by
  calc w = w.take i ++ ((w.drop i).take t.length ++ (w.drop i).drop t.length) := by
        rw [List.take_append_drop, List.take_append_drop]
    _ = w.take i ++ (t ++ w.drop (i + t.length)) := by
        rw [occursAt_iff_eq.mp h, List.drop_drop]

theorem infix_iff_occursAt : t <:+: w ↔ ∃ i, OccursAt t w i := by
  constructor
  · rintro ⟨u, v, rfl⟩
    refine ⟨u.length, ?_⟩
    rw [OccursAt, List.append_assoc, List.drop_left]
    exact List.prefix_append t v
  · rintro ⟨i, h⟩
    exact h.isInfix.trans (List.drop_suffix i w).isInfix

theorem FirstAt.unique {j : Nat} (h : FirstAt t w i) (h' : FirstAt t w j) : i = j := by
  rcases Nat.lt_trichotomy i j with hlt | heq | hlt
  · exact absurd h.occurs (h'.before i hlt)
  · exact heq
  · exact absurd h'.occurs (h.before j hlt)

theorem FirstAt.isInfix (h : FirstAt t w i) : t <:+: w := infix_iff_occursAt.mpr ⟨i, h.occurs⟩

theorem exists_firstAt [DecidableEq α] (h : t <:+: w) : ∃ i, FirstAt t w i := by
  have hex := infix_iff_occursAt.mp h
  exact ⟨Nat.find hex, Nat.find_spec hex, fun j hj => Nat.find_min hex hj⟩

/-- The pattern does not stand in what comes before its first position. -/
theorem FirstAt.not_infix_take (h : FirstAt t w i) (ht : t ≠ []) : ¬t <:+: w.take i := by
  intro hin
  obtain ⟨j, hj⟩ := infix_iff_occursAt.mp hin
  have hpos := List.length_pos_iff.mpr ht
  have hle := hj.add_le ht
  rw [List.length_take] at hle
  exact h.before j (by omega) hj.of_take

end Positions

section Computed

variable [DecidableEq α] {t w : List α} {i : Nat}

/-- The first position, if there is one. -/
def first? (t w : List α) : Option Nat := (List.range (w.length + 1)).find? fun i => OccursAt t w i

theorem first?_eq_none : first? t w = none ↔ ¬t <:+: w := by
  rw [first?, List.find?_range_eq_none, infix_iff_occursAt, not_exists]
  constructor
  · intro h i hi
    by_cases hlt : i < w.length + 1
    · simpa [hi] using h i hlt
    · -- a position past the end has only the empty pattern, which also stands at the start
      have hnil : t = [] := by
        have := hi
        rw [OccursAt, List.drop_eq_nil_of_le (by omega), List.prefix_nil] at this
        exact this
      simpa [hnil, OccursAt] using h 0 (Nat.succ_pos _)
  · intro h i _
    simpa using h i

theorem first?_eq_some : first? t w = some i ↔ FirstAt t w i := by
  constructor
  · intro h
    rw [first?, List.find?_range_eq_some] at h
    obtain ⟨hi, -, hbefore⟩ := h
    exact ⟨by simpa using hi, fun j hj => by simpa using hbefore j hj⟩
  · intro h
    cases hf : first? t w with
    | none => exact absurd h.isInfix (first?_eq_none.mp hf)
    | some j =>
      rw [first?, List.find?_range_eq_some] at hf
      obtain ⟨hj, -, hbefore⟩ := hf
      have hfirst : FirstAt t w j := ⟨by simpa using hj, fun k hk => by simpa using hbefore k hk⟩
      rw [h.unique hfirst]

/-! ## Cutting at the occurrences -/

/-- The parts of `w` between the leftmost occurrences of `t` that do not overlap. -/
def gaps (t w : List α) : List (List α) :=
  match first? t w with
  | none => [w]
  | some i =>
    if 0 < t.length ∧ t.length ≤ w.length then w.take i :: gaps t (w.drop (i + t.length)) else [w]
termination_by w.length
decreasing_by
  rw [List.length_drop]
  omega

theorem gaps_of_missing (h : ¬t <:+: w) : gaps t w = [w] := by
  rw [gaps, first?_eq_none.mpr h]

theorem gaps_of_firstAt (ht : t ≠ []) (h : FirstAt t w i) :
    gaps t w = w.take i :: gaps t (w.drop (i + t.length)) := by
  have hpos := List.length_pos_iff.mpr ht
  have hle := h.occurs.add_le ht
  rw [gaps, first?_eq_some.mpr h]
  exact if_pos ⟨hpos, by omega⟩

/-- The rule for what is computed from left to right, one occurrence after the other. -/
theorem gaps_induction (ht : t ≠ []) {P : List α → Prop} (last : ∀ w, ¬t <:+: w → P w)
    (next : ∀ w i, FirstAt t w i → P (w.drop (i + t.length)) → P w) (w : List α) : P w := by
  induction hn : w.length using Nat.strong_induction_on generalizing w with
  | _ n ih =>
    by_cases h : t <:+: w
    · obtain ⟨i, hi⟩ := exists_firstAt h
      have hpos := List.length_pos_iff.mpr ht
      have hle := hi.occurs.add_le ht
      refine next w i hi (ih _ ?_ _ rfl)
      rw [List.length_drop]
      omega
    · exact last w h

theorem gaps_ne_nil (ht : t ≠ []) (w : List α) : gaps t w ≠ [] := by
  by_cases h : t <:+: w
  · obtain ⟨i, hi⟩ := exists_firstAt h
    rw [gaps_of_firstAt ht hi]
    exact List.cons_ne_nil _ _
  · rw [gaps_of_missing h]
    exact List.cons_ne_nil _ _

/-- With the pattern between them, the parts give the list back. -/
theorem intercalate_gaps (ht : t ≠ []) (w : List α) : t.intercalate (gaps t w) = w := by
  induction w using gaps_induction ht with
  | last w h => rw [gaps_of_missing h, List.intercalate_singleton]
  | next w i h ih =>
    rw [gaps_of_firstAt ht h, List.intercalate_cons_of_ne_nil (gaps_ne_nil ht _), ih,
      List.append_assoc]
    exact h.occurs.split.symm

theorem not_infix_of_mem_gaps (ht : t ≠ []) {g : List α} (hg : g ∈ gaps t w) : ¬t <:+: g := by
  induction w using gaps_induction ht with
  | last w h =>
    rw [gaps_of_missing h, List.mem_singleton] at hg
    rw [hg]
    exact h
  | next w i h ih =>
    rw [gaps_of_firstAt ht h, List.mem_cons] at hg
    rcases hg with rfl | hg
    · exact h.not_infix_take ht
    · exact ih hg

/-- What is left after the last occurrence. -/
def lastGap (t w : List α) : List α := ((gaps t w).getLast?).getD []

theorem lastGap_of_missing (h : ¬t <:+: w) : lastGap t w = w := by
  rw [lastGap, gaps_of_missing h]
  rfl

theorem lastGap_of_firstAt (ht : t ≠ []) (h : FirstAt t w i) :
    lastGap t w = lastGap t (w.drop (i + t.length)) := by
  obtain ⟨g, gs, hgs⟩ := List.exists_cons_of_ne_nil (gaps_ne_nil ht (w.drop (i + t.length)))
  rw [lastGap, lastGap, gaps_of_firstAt ht h, hgs, List.getLast?_cons_cons]

theorem not_infix_lastGap (ht : t ≠ []) (w : List α) : ¬t <:+: lastGap t w := by
  induction w using gaps_induction ht with
  | last w h =>
    rw [lastGap_of_missing h]
    exact h
  | next w i h ih =>
    rw [lastGap_of_firstAt ht h]
    exact ih

theorem lastGap_suffix (ht : t ≠ []) (w : List α) : lastGap t w <:+ w := by
  induction w using gaps_induction ht with
  | last w h => rw [lastGap_of_missing h]
  | next w i h ih =>
    rw [lastGap_of_firstAt ht h]
    exact ih.trans (List.drop_suffix _ w)

theorem lastGap_add_le (ht : t ≠ []) (h : t <:+: w) :
    (lastGap t w).length + t.length ≤ w.length := by
  obtain ⟨i, hi⟩ := exists_firstAt h
  have hle := hi.occurs.add_le ht
  have hsuf := (lastGap_suffix ht (w.drop (i + t.length))).length_le
  rw [List.length_drop] at hsuf
  rw [lastGap_of_firstAt ht hi]
  omega

/-- The last of the occurrences that are cut at. -/
def lastPick? (t w : List α) : Option Nat :=
  if t <:+: w then some (w.length - (lastGap t w).length - t.length) else none

theorem lastPick?_of_missing (h : ¬t <:+: w) : lastPick? t w = none := if_neg h

theorem lastPick?_of_firstAt (ht : t ≠ []) (h : FirstAt t w i) :
    lastPick? t w = some (((lastPick? t (w.drop (i + t.length))).map (i + t.length + ·)).getD
      i) := by
  have hle := h.occurs.add_le ht
  rw [lastPick?, if_pos h.isInfix, lastGap_of_firstAt ht h, lastPick?]
  split_ifs with hin
  · have hrec := lastGap_add_le ht hin
    rw [List.length_drop] at hrec
    rw [Option.map_some, Option.getD_some, List.length_drop]
    congr 1
    omega
  · rw [lastGap_of_missing hin, Option.map_none, Option.getD_none, List.length_drop]
    congr 1
    omega

theorem lastPick?_eq_none (h : lastPick? t w = none) : ¬t <:+: w := by
  intro hin
  rw [lastPick?, if_pos hin] at h
  cases h

/-- The last occurrence that is cut at stands before what is left. -/
theorem lastPick?_spec (ht : t ≠ []) (h : lastPick? t w = some i) :
    OccursAt t w i ∧ w.drop (i + t.length) = lastGap t w := by
  induction w using gaps_induction ht generalizing i with
  | last w hout =>
    rw [lastPick?_of_missing hout] at h
    cases h
  | next w k hk ih =>
    rw [lastPick?_of_firstAt ht hk] at h
    obtain rfl := Option.some.inj h
    rw [lastGap_of_firstAt ht hk]
    cases hrest : lastPick? t (w.drop (k + t.length)) with
    | none =>
      rw [lastGap_of_missing (lastPick?_eq_none hrest)]
      exact ⟨hk.occurs, rfl⟩
    | some j =>
      obtain ⟨hocc, hdrop⟩ := ih hrest
      refine ⟨occursAt_drop.mp hocc, ?_⟩
      rw [Option.map_some, Option.getD_some, ← hdrop, List.drop_drop, Nat.add_assoc (k + t.length)]

end Computed

end Libacorn.Support
