import Mathlib.Tactic.Common
import Mathlib.Data.List.Sort

/-!
# Ordered maps as sorted association lists

The contents of an ordered map, in iteration order: one entry per key, keys
increasing. `assign` overwrites an entry with the same key, `insert` keeps the
old one. The results say what a map built by a sequence of either holds.
-/

namespace Libacorn.Support.OrderedMap

variable {κ ν : Type} [LinearOrder κ]

/-- Keys strictly increase, so every key has one entry. -/
def Sorted (m : List (κ × ν)) : Prop := m.Pairwise (fun a b => a.1 < b.1)

/-- Set the entry of `k` to `v`. -/
def assign (k : κ) (v : ν) : List (κ × ν) → List (κ × ν)
  | [] => [(k, v)]
  | e :: m =>
    if k < e.1 then (k, v) :: e :: m
    else if k = e.1 then (k, v) :: m
    else e :: assign k v m

/-- Add an entry for `k` unless there is one. -/
def insert (k : κ) (v : ν) : List (κ × ν) → List (κ × ν)
  | [] => [(k, v)]
  | e :: m =>
    if k < e.1 then (k, v) :: e :: m
    else if k = e.1 then e :: m
    else e :: insert k v m

/-- Set every field of a list, in its order. -/
def assignAll (m : List (κ × ν)) (fs : List (κ × ν)) : List (κ × ν) :=
  fs.foldl (fun m f => assign f.1 f.2 m) m

/-- Insert every field of a list, in its order. -/
def insertAll (m : List (κ × ν)) (fs : List (κ × ν)) : List (κ × ν) :=
  fs.foldl (fun m f => insert f.1 f.2 m) m

/-- The fields of a list in key order. -/
def ofFields (fs : List (κ × ν)) : List (κ × ν) := fs.insertionSort (fun a b => a.1 ≤ b.1)

/-- The value of `k`. -/
def lookup (k : κ) (m : List (κ × ν)) : Option ν := (m.find? fun e => e.1 = k).map Prod.snd

theorem assign_of_forall_lt (k : κ) (v : ν) (m : List (κ × ν)) (h : ∀ e ∈ m, e.1 < k) :
    assign k v m = m ++ [(k, v)] := by
  induction m with
  | nil => rfl
  | cons e m ih =>
    have he : e.1 < k := h e (List.mem_cons_self ..)
    have hm := ih fun e' he' => h e' (List.mem_cons_of_mem _ he')
    simp [assign, not_lt_of_gt he, ne_of_gt he, hm]

/-- A key without an entry is new to both. -/
theorem insert_eq_assign (k : κ) (v : ν) (m : List (κ × ν)) (h : ∀ e ∈ m, e.1 ≠ k) :
    insert k v m = assign k v m := by
  induction m with
  | nil => rfl
  | cons e m ih =>
    have he : k ≠ e.1 := Ne.symm (h e (List.mem_cons_self ..))
    rw [insert, assign, if_neg he, if_neg he, ih fun e' he' => h e' (List.mem_cons_of_mem _ he')]

theorem insert_of_forall_lt (k : κ) (v : ν) (m : List (κ × ν)) (h : ∀ e ∈ m, e.1 < k) :
    insert k v m = m ++ [(k, v)] := by
  rw [insert_eq_assign k v m fun e he => ne_of_lt (h e he), assign_of_forall_lt k v m h]

theorem forall_lt_of_sorted_append {m : List (κ × ν)} {f : κ × ν} {fs : List (κ × ν)}
    (h : Sorted (m ++ f :: fs)) : ∀ e ∈ m, e.1 < f.1 := by
  intro e he
  exact (List.pairwise_append.mp h).2.2 e he f (List.mem_cons_self ..)

/-- Assigning fields in key order after the map's own entries appends them. -/
theorem assignAll_of_sorted (m fs : List (κ × ν)) (h : Sorted (m ++ fs)) :
    assignAll m fs = m ++ fs := by
  induction fs generalizing m with
  | nil => simp [assignAll]
  | cons f fs ih =>
    have e := assign_of_forall_lt f.1 f.2 m (forall_lt_of_sorted_append h)
    have hs : Sorted ((m ++ [f]) ++ fs) := by simpa using h
    have := ih (m ++ [f]) hs
    simp only [assignAll, List.foldl_cons, e] at this ⊢
    simpa using this

/-- Inserting fields in key order after the map's own entries appends them. -/
theorem insertAll_of_sorted (m fs : List (κ × ν)) (h : Sorted (m ++ fs)) :
    insertAll m fs = m ++ fs := by
  induction fs generalizing m with
  | nil => simp [insertAll]
  | cons f fs ih =>
    have e := insert_of_forall_lt f.1 f.2 m (forall_lt_of_sorted_append h)
    have hs : Sorted ((m ++ [f]) ++ fs) := by simpa using h
    have := ih (m ++ [f]) hs
    simp only [insertAll, List.foldl_cons, e] at this ⊢
    simpa using this

theorem assign_perm (k : κ) (v : ν) (m : List (κ × ν)) (h : ∀ e ∈ m, e.1 ≠ k) :
    (assign k v m).Perm ((k, v) :: m) := by
  induction m with
  | nil => exact List.Perm.refl _
  | cons e m ih =>
    have he : k ≠ e.1 := Ne.symm (h e (List.mem_cons_self ..))
    have hm := ih fun e' he' => h e' (List.mem_cons_of_mem _ he')
    by_cases hlt : k < e.1
    · simp only [assign, hlt, ↓reduceIte]
      exact List.Perm.refl _
    · simp only [assign, hlt, he, ↓reduceIte]
      exact (List.Perm.cons e hm).trans (List.Perm.swap (k, v) e m)

theorem insert_perm (k : κ) (v : ν) (m : List (κ × ν)) (h : ∀ e ∈ m, e.1 ≠ k) :
    (insert k v m).Perm ((k, v) :: m) := by
  rw [insert_eq_assign k v m h]
  exact assign_perm k v m h

theorem mem_assign {k : κ} {v : ν} {m : List (κ × ν)} {e : κ × ν} (h : e ∈ assign k v m) :
    e = (k, v) ∨ e ∈ m := by
  induction m with
  | nil => simpa [assign] using h
  | cons e' m ih =>
    by_cases hlt : k < e'.1
    · simpa [assign, hlt] using h
    · by_cases heq : k = e'.1
      · rw [assign, if_neg hlt, if_pos heq] at h
        rcases List.mem_cons.mp h with h | h
        · exact Or.inl h
        · exact Or.inr (List.mem_cons_of_mem _ h)
      · simp only [assign, hlt, heq, ↓reduceIte, List.mem_cons] at h ⊢
        rcases h with h | h
        · exact Or.inr (Or.inl h)
        · rcases ih h with h | h
          · exact Or.inl h
          · exact Or.inr (Or.inr h)

theorem mem_assign_self (k : κ) (v : ν) (m : List (κ × ν)) : (k, v) ∈ assign k v m := by
  induction m with
  | nil => exact List.mem_cons_self ..
  | cons e m ih =>
    rw [assign]
    split_ifs
    · exact List.mem_cons_self ..
    · exact List.mem_cons_self ..
    · exact List.mem_cons_of_mem e ih

theorem mem_insert {k : κ} {v : ν} {m : List (κ × ν)} {e : κ × ν} (h : e ∈ insert k v m) :
    e = (k, v) ∨ e ∈ m := by
  induction m with
  | nil => simpa [insert] using h
  | cons e' m ih =>
    by_cases hlt : k < e'.1
    · simpa [insert, hlt] using h
    · by_cases heq : k = e'.1
      · rw [insert, if_neg hlt, if_pos heq] at h
        exact Or.inr h
      · rw [insert, if_neg hlt, if_neg heq] at h
        rcases List.mem_cons.mp h with rfl | h
        · exact Or.inr (List.mem_cons_self ..)
        · rcases ih h with h | h
          · exact Or.inl h
          · exact Or.inr (List.mem_cons_of_mem _ h)

/-- Where an entry goes depends on the keys alone. -/
theorem insert_map {μ : Type} (g : ν → μ) (k : κ) (v : ν) (m : List (κ × ν)) :
    insert k (g v) (m.map fun e => (e.1, g e.2)) =
      (insert k v m).map fun e => (e.1, g e.2) := by
  induction m with
  | nil => rfl
  | cons e m ih =>
    rw [List.map_cons, insert, insert]
    split_ifs
    · rfl
    · rfl
    · rw [ih, List.map_cons]

theorem assign_sorted (k : κ) (v : ν) (m : List (κ × ν)) (h : Sorted m) :
    Sorted (assign k v m) := by
  induction m with
  | nil => simp [assign, Sorted]
  | cons e m ih =>
    obtain ⟨he, hm⟩ := List.pairwise_cons.mp h
    by_cases hlt : k < e.1
    · simp only [assign, hlt, ↓reduceIte]
      refine List.pairwise_cons.mpr ⟨fun e' he' => ?_, h⟩
      rcases List.mem_cons.mp he' with rfl | he'
      · exact hlt
      · exact lt_trans hlt (he e' he')
    · by_cases heq : k = e.1
      · rw [assign, if_neg hlt, if_pos heq]
        refine List.pairwise_cons.mpr ⟨fun e' he' => ?_, hm⟩
        exact heq ▸ he e' he'
      · simp only [assign, hlt, heq, ↓reduceIte]
        refine List.pairwise_cons.mpr ⟨fun e' he' => ?_, ih hm⟩
        rcases mem_assign he' with rfl | he'
        · exact lt_of_le_of_ne (not_lt.mp hlt) (Ne.symm heq)
        · exact he e' he'

theorem assignAll_sorted (m fs : List (κ × ν)) (h : Sorted m) : Sorted (assignAll m fs) := by
  induction fs generalizing m with
  | nil => exact h
  | cons f fs ih => exact ih _ (assign_sorted f.1 f.2 m h)

theorem assignAll_perm (m fs : List (κ × ν)) (h : ((m ++ fs).map Prod.fst).Nodup) :
    (assignAll m fs).Perm (m ++ fs) := by
  induction fs generalizing m with
  | nil => simp [assignAll]
  | cons f fs ih =>
    have hp : (assign f.1 f.2 m).Perm (f :: m) := by
      apply assign_perm
      intro e he heq
      rw [List.map_append, List.nodup_append] at h
      exact h.2.2 e.1 (List.mem_map_of_mem he) f.1 (by simp) heq
    have hn : ((assign f.1 f.2 m ++ fs).map Prod.fst).Nodup := by
      refine (List.Perm.nodup_iff (List.Perm.map _ ?_)).mpr h
      exact (hp.append_right fs).trans List.perm_middle.symm
    refine (ih _ hn).trans ?_
    exact (hp.append_right fs).trans List.perm_middle.symm

/-- Only what stands at the key or behind it changes. -/
theorem assign_append_of_forall_lt (k : κ) (v : ν) {before : List (κ × ν)}
    (h : ∀ e ∈ before, e.1 < k) (m : List (κ × ν)) :
    assign k v (before ++ m) = before ++ assign k v m := by
  induction before with
  | nil => rfl
  | cons e before ih =>
    obtain ⟨he, hrest⟩ := List.forall_mem_cons.mp h
    rw [List.cons_append, assign, if_neg (not_lt_of_gt he), if_neg (ne_of_gt he), ih hrest]
    rfl

theorem lookup_cons (k : κ) (e : κ × ν) (m : List (κ × ν)) :
    lookup k (e :: m) = if e.1 = k then some e.2 else lookup k m := by
  rw [lookup, List.find?_cons]
  by_cases h : e.1 = k
  · simp only [h, decide_true, ↓reduceIte, Option.map_some]
  · simp only [h, decide_false, ↓reduceIte]
    rfl

theorem lookup_append (k : κ) (m m' : List (κ × ν)) :
    lookup k (m ++ m') = (lookup k m).or (lookup k m') := by
  rw [lookup, List.find?_append, Option.map_or]
  rfl

theorem lookup_eq_none {k : κ} {m : List (κ × ν)} (h : ∀ e ∈ m, e.1 ≠ k) : lookup k m = none := by
  rw [lookup, Option.map_eq_none_iff, List.find?_eq_none]
  intro e he
  simpa using h e he

theorem lookup_assign (k k' : κ) (v : ν) (m : List (κ × ν)) :
    lookup k' (assign k v m) = if k = k' then some v else lookup k' m := by
  induction m with
  | nil => rw [assign, lookup_cons]
  | cons e m ih =>
    rw [assign]
    by_cases hlt : k < e.1
    · rw [if_pos hlt, lookup_cons]
    · rw [if_neg hlt]
      by_cases heq : k = e.1
      · rw [if_pos heq, lookup_cons, lookup_cons, ← heq]
        by_cases hk : k = k'
        · rw [if_pos hk, if_pos hk]
        · rw [if_neg hk, if_neg hk, if_neg hk]
      · rw [if_neg heq, lookup_cons, lookup_cons, ih]
        by_cases he : e.1 = k'
        · rw [if_pos he, if_pos he, if_neg]
          rintro rfl
          exact heq he.symm
        · rw [if_neg he, if_neg he]

theorem lookup_insert_of_ne {k k' : κ} (h : k ≠ k') (v : ν) (m : List (κ × ν)) :
    lookup k' (insert k v m) = lookup k' m := by
  induction m with
  | nil => rw [insert, lookup_cons, if_neg h]
  | cons e m ih =>
    rw [insert]
    split
    · rw [lookup_cons, if_neg h]
    · split
      · rfl
      · rw [lookup_cons, ih, ← lookup_cons]

theorem assign_injective (k : κ) (m : List (κ × ν)) : Function.Injective (assign k · m) := by
  intro v v' h
  have hv := lookup_assign k k v m
  rw [if_pos rfl, show assign k v m = assign k v' m from h, lookup_assign, if_pos rfl] at hv
  exact (Option.some.inj hv).symm

/-- The last value that is set counts, and what the map had if none is. -/
theorem lookup_assignAll (k : κ) (m fs : List (κ × ν)) :
    lookup k (assignAll m fs) = (lookup k fs.reverse).or (lookup k m) := by
  induction fs generalizing m with
  | nil => rfl
  | cons f fs ih =>
    have hone : lookup k [f] = if f.1 = k then some f.2 else none := lookup_cons k f []
    have hstep : lookup k (assignAll m (f :: fs)) = lookup k (assignAll (assign f.1 f.2 m) fs) :=
      rfl
    rw [hstep, ih, List.reverse_cons, lookup_append, Option.or_assoc, hone, lookup_assign]
    split_ifs
    · rfl
    · rfl

theorem ofFields_perm (fs : List (κ × ν)) : (ofFields fs).Perm fs := List.perm_insertionSort _ _

theorem ofFields_sorted (fs : List (κ × ν)) (h : (fs.map Prod.fst).Nodup) :
    Sorted (ofFields fs) := by
  have hle : (ofFields fs).Pairwise (fun a b => a.1 ≤ b.1) :=
    List.pairwise_insertionSort (fun a b : κ × ν => a.1 ≤ b.1) fs
  have hne : ((ofFields fs).map Prod.fst).Nodup :=
    (List.Perm.nodup_iff ((ofFields_perm fs).map _)).mpr h
  have hne' : (ofFields fs).Pairwise (fun a b => a.1 ≠ b.1) := List.pairwise_map.mp hne
  exact (hle.and hne').imp fun h => lt_of_le_of_ne h.1 h.2

/-- Assigning fields with distinct keys, in any order, sorts them. -/
theorem assignAll_eq_ofFields (fs : List (κ × ν)) (h : (fs.map Prod.fst).Nodup) :
    assignAll [] fs = ofFields fs := by
  have hs : (assignAll [] fs).Pairwise (fun a b => a.1 < b.1) :=
    assignAll_sorted [] fs List.Pairwise.nil
  have hp : (assignAll [] fs).Perm (ofFields fs) :=
    (assignAll_perm [] fs h).trans (ofFields_perm fs).symm
  refine List.Perm.eq_of_pairwise ?_ hs (ofFields_sorted fs h) hp
  intro a b _ _ hab hba
  exact absurd hab (not_lt_of_gt hba)

end Libacorn.Support.OrderedMap
