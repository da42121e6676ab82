import Mathlib.Data.List.Forall2
import Libacorn.Items

/-!
# Implicit arrays

Values in a row, with spaces between, are read as one array. `parse` reads the
first value and then one more in every round of the implicit-array loop; whether
it starts the array or adds to it is decided by the type of what it has so far.
An explicit array at the head of the row is therefore not an element: the values
after it are added to it (`implicit_array_iff`).
-/

namespace Libacorn

open Support

/-! ## Rows of items -/

/-- The items in a row, with single spaces between them. -/
def joined (its : List Item) : List Char := [' '].intercalate (its.map Item.text)

/-- The val that `parse` returns for the item alone. -/
def ReadAlone [Fpu] (it : Item) (v : CVal) : Prop :=
  ∃ (s : Text) (fuel : Nat) (c : Cursor),
    s.Whole ∧ s.content = utf8 it.text ∧ s.parse .config fuel = .done (v, c)

/-- `parse` returns an array with one element for each item, the val of the item alone. -/
def FormsArray [Fpu] (s : Text) (its : List Item) : Prop :=
  ∃ fuel vec c, s.parse .config fuel = .done (.array vec, c) ∧ List.Forall₂ ReadAlone its vec

/-- What follows the first item of a row. -/
def spaced (its : List Item) : List Char := its.flatMap fun it => ' ' :: it.text

theorem joined_cons (it : Item) (its : List Item) : joined (it :: its) = it.text ++ spaced its := by
  induction its generalizing it with
  | nil => simp [joined, spaced]
  | cons it' its ih =>
    have hnext : joined (it :: it' :: its) = it.text ++ ' ' :: joined (it' :: its) := by
      simp [joined, List.intercalate]
    rw [hnext, ih it']
    simp [spaced]

theorem spaced_endsLiteral (its : List Item) : EndsLiteral (spaced its) := by
  cases its with
  | nil => exact nofun
  | cons it its => exact endsLiteral_of_space (Or.inl rfl) _

theorem spaced_nulFree (its : List Item) : NulFree (spaced its) := by
  intro c hc
  obtain ⟨it, -, hmem⟩ := List.mem_flatMap.mp hc
  exact nulFree_cons (by decide) it.nulFree c hmem

theorem joined_nulFree (its : List Item) : NulFree (joined its) := by
  cases its with
  | nil => exact nofun
  | cons it its =>
    rw [joined_cons]
    exact nulFree_append it.nulFree (spaced_nulFree its)

/-- What a round of the implicit-array loop makes of the val so far. -/
def addElement (v : CVal) (it : Item) : CVal := .array (asElements v ++ [it.toVal])

theorem foldl_addElement (vec : List CVal) (its : List Item) :
    its.foldl addElement (.array vec) = .array (vec ++ its.map Item.toVal) := by
  induction its generalizing vec with
  | nil => simp
  | cons it its ih =>
    rw [List.foldl_cons, addElement, ih]
    simp [asElements]

/-- Every item of the row is a part of its text. -/
theorem text_infix_joined {it : Item} {its : List Item} (h : it ∈ its) :
    it.text <:+: joined its := by
  cases its with
  | nil => cases h
  | cons first its =>
    rw [joined_cons]
    rcases List.mem_cons.mp h with rfl | h
    · exact ⟨[], spaced its, rfl⟩
    · obtain ⟨l, r, rfl⟩ := List.append_of_mem h
      exact ⟨first.text ++ (spaced l ++ [' ']), spaced r, by simp [spaced]⟩

theorem length_utf8_infix {cs w : List Char} (h : cs <:+: w) :
    (utf8 cs).length ≤ (utf8 w).length := by
  obtain ⟨l, r, rfl⟩ := h
  rw [utf8_append, utf8_append, List.length_append, List.length_append]
  omega

theorem asElements_toVal {it : Item} (h : it.isArray = false) :
    asElements it.toVal = [it.toVal] := by
  cases it with
  | int l =>
    rw [Item.toVal, intVal]
    split
    · rfl
    · rfl
  | str cs plain => rfl
  | empty gap => cases h
  | arr gap es => cases h

/-- An array is not its own only element. -/
theorem asElements_ne {it : Item} (h : it.isArray = true) : asElements it.toVal ≠ [it.toVal] := by
  have hself : ∀ vec : List CVal, vec ≠ [.array vec] := by
    intro vec heq
    have hsize := congrArg sizeOf heq
    simp only [List.cons.sizeOf_spec, List.nil.sizeOf_spec, Val.array.sizeOf_spec] at hsize
    omega
  cases it with
  | int l => cases h
  | str cs plain => cases h
  | empty gap => exact hself []
  | arr gap es => exact hself es.toVals

section Parse

variable [Fpu]

/-- An item of the row, with the implicit-array loop switched off. -/
theorem parse_item (it : Item) {n : Nat} {rest : List Char} (hn : (it.text ++ rest).length + 4 ≤ n)
    (hz : NulFree (it.text ++ rest)) (hr : EndsLiteral rest) :
    parse charReader n ⟨false, true⟩ (it.text ++ rest) = .done (it.toVal, rest) := by
  obtain ⟨n, rfl⟩ : ∃ m, n = m + 1 := ⟨n - 1, by omega⟩
  rw [parse, it.parsed true n rest _ (by omega) hz hr]
  rfl

/-- One round of the loop for each item. -/
theorem parseImplicit_row (its : List Item) {k m n : Nat} (hk : (spaced its).length + 4 ≤ k)
    (hm : (spaced its).length < m) (hn : (spaced its).length < n) (v : CVal) :
    parseImplicit charReader (parse charReader k ⟨false, true⟩) m n v (spaced its) =
      .done (its.foldl addElement v, []) := by
  induction its generalizing n v with
  | nil =>
    obtain ⟨n, rfl⟩ : ∃ l, n = l + 1 := ⟨n - 1, by omega⟩
    rw [parseImplicit_succ hm (spaced_nulFree [])]
    rfl
  | cons it its ih =>
    obtain ⟨n, rfl⟩ : ∃ l, n = l + 1 := ⟨n - 1, by omega⟩
    have hz := spaced_nulFree (it :: its)
    obtain ⟨c, cs, htext, hc⟩ := it.text_cons
    have hcons : spaced (it :: its) = ' ' :: (it.text ++ spaced its) := rfl
    have hdrop : dropSpaces (' ' :: (it.text ++ spaced its)) = c :: (cs ++ spaced its) := by
      rw [htext, dropSpaces, List.dropWhile_cons, if_pos (show isSpace ' ' = true from rfl),
        List.cons_append, List.dropWhile_cons, if_neg (by simp [hc.space])]
    rw [hcons] at hk hm hn hz ⊢
    simp only [List.length_cons, List.length_append] at hk hm hn
    have hitem := parse_item it (n := k) (by simp only [List.length_append]; omega) hz.tail
      (spaced_endsLiteral its)
    rw [htext, List.cons_append] at hitem
    rw [parseImplicit_succ (by simp only [List.length_cons, List.length_append]; omega) hz, hdrop]
    simp only [hc.stop, Bool.false_eq_true, ↓reduceIte, hitem, Outcome.bind_done]
    exact ih (by omega) (by omega) (by omega) _

/-- The whole row: the first item is where the loop starts. -/
theorem parse_row (it : Item) (its : List Item) {n : Nat}
    (hn : (joined (it :: its)).length + 5 ≤ n) :
    parse charReader n .config (joined (it :: its)) =
      .done (its.foldl addElement it.toVal, []) := by
  obtain ⟨n, rfl⟩ : ∃ m, n = m + 1 := ⟨n - 1, by omega⟩
  have hz := joined_nulFree (it :: its)
  rw [joined_cons] at hn hz ⊢
  simp only [List.length_append] at hn
  rw [parse]
  have hbody := it.parsed false n (spaced its)
    (fun v => parseImplicit charReader (parse charReader n ⟨false, true⟩) n n v)
    (by simp only [List.length_append]; omega) hz (spaced_endsLiteral its)
  exact hbody.trans (parseImplicit_row its (by omega) (by omega) (by omega) it.toVal)

theorem ReadAlone.eq_toVal {it : Item} {v : CVal} (h : ReadAlone it v) : v = it.toVal := by
  obtain ⟨s, fuel, c, hs, hc, hrun⟩ := h
  have halone := parse_row it [] (Nat.le_refl _)
  rw [joined_cons, spaced, List.flatMap_nil, List.append_nil] at halone
  obtain ⟨c', hrun', -⟩ := hs.parse_eq_done hc halone
  exact congrArg Prod.fst (parse_returns_unique s.reader .config ⟨fuel, hrun⟩ ⟨_, hrun'⟩)

theorem forall₂_readAlone {its : List Item} {vec : List CVal} (h : List.Forall₂ ReadAlone its vec) :
    vec = its.map Item.toVal := by
  induction h with
  | nil => rfl
  | cons h _ ih => rw [List.map_cons, h.eq_toVal, ih]

theorem readAlone_toVal (it : Item) (hlen : (utf8 it.text).length < 2 ^ 32) :
    ReadAlone it it.toVal := by
  have halone := parse_row it [] (Nat.le_refl _)
  rw [joined_cons, spaced, List.flatMap_nil, List.append_nil] at halone
  obtain ⟨c, hrun, -⟩ := (Text.whole_isWhole _ hlen).parse_eq_done (Text.content_whole _ hlen)
      halone
  exact ⟨_, _, c, Text.whole_isWhole _ hlen, Text.content_whole _ hlen, hrun⟩

/-- A row is read as one array of its items exactly if the first of them is not an array itself. -/
theorem implicit_array_iff {s : Text} {its : List Item} (hn : 2 ≤ its.length) (hs : s.Whole)
    (hc : s.content = utf8 (joined its)) :
    FormsArray s its ↔ ∀ it ∈ its.head?, it.isArray = false := by
  obtain ⟨first, second, others, rfl⟩ : ∃ first second others, its = first :: second :: others := by
    match its, hn with
    | first :: second :: others, _ => exact ⟨first, second, others, rfl⟩
  obtain ⟨c, hrun, -⟩ := hs.parse_eq_done hc (parse_row first (second :: others) (Nat.le_refl _))
  rw [List.foldl_cons, addElement, foldl_addElement, List.append_assoc, List.singleton_append,
    ← List.map_cons] at hrun
  constructor
  · rintro ⟨fuel, vec, c', hrun', hall⟩ it hit
    obtain rfl : first = it := Option.some.inj hit
    by_contra harray
    -- the vals of the items are the elements of the first one and those of the others
    have heq := congrArg Prod.fst (parse_returns_unique s.reader .config ⟨fuel, hrun'⟩ ⟨_, hrun⟩)
    rw [forall₂_readAlone hall] at heq
    have hcons := List.append_cancel_right
        ((Val.array.inj heq).symm.trans (List.singleton_append).symm)
    exact asElements_ne (Bool.eq_true_of_not_eq_false harray) hcons
  · intro h
    rw [asElements_toVal (h first rfl), List.singleton_append, ← List.map_cons] at hrun
    refine ⟨_, _, c, hrun, ?_⟩
    apply List.forall₂_map_right_iff.mpr
    apply List.forall₂_same.mpr
    intro it hit
    apply readAlone_toVal
    have hle := length_utf8_infix (text_infix_joined hit)
    rw [← hc, s.length_content] at hle
    have hlt := s.cb_lt
    omega

end Parse

/-- The literal of one digit. -/
def oneDigit (c : Char) (h : c ∈ digitChars 10) : Literal :=
  ⟨[], false, [c], nofun, fun d hd => by rw [List.mem_singleton.mp hd]; exact h⟩

/-- The items of `1 "a" [2, 3]`. -/
def threeItems : List Item :=
  [.int (oneDigit '1' (by decide)), .str ['a'] (forall_mem_of_all rfl),
    .arr .none (.cons (.int (oneDigit '2' (by decide))) .none ⟨[' '], forall_mem_of_all rfl⟩
      (.last (.int (oneDigit '3' (by decide))) .none))]

/-- A row of a number, a string and an array. -/
theorem implicit_array_three :
    letI := Fpu.ieee
    FormsArray (.whole (utf8 ['1', ' ', '\"', 'a', '\"', ' ', '[', '2', ',', ' ', '3', ']'])
      (by decide))
      threeItems := by
  let _ := Fpu.ieee
  have htext : joined threeItems = ['1', ' ', '\"', 'a', '\"', ' ', '[', '2', ',', ' ', '3',
      ']'] := by decide
  have hc := (Text.content_whole _ (by decide)).trans (congrArg utf8 htext).symm
  apply (implicit_array_iff (by decide) (Text.whole_isWhole _ _) hc).mpr
  intro it hit
  cases hit
  rfl

/-- `[1] 2` becomes `[1, 2]`. -/
theorem implicit_array_fails :
    letI := Fpu.ieee
    let s := Text.whole (utf8 ['[', '1', ']', ' ', '2']) (by decide)
    (∃ fuel c, s.parse .config fuel = .done (.array [.int32 1, .int32 2], c)) ∧
      ¬FormsArray s [.arr .none (.last (.int (oneDigit '1' (by decide))) .none),
      .int (oneDigit '2' (by decide))] := by
  let _ := Fpu.ieee
  intro s
  have hs : s.Whole := Text.whole_isWhole _ _
  have hc : s.content = utf8 ['[', '1', ']', ' ', '2'] := Text.content_whole _ (by decide)
  obtain ⟨c, hrun, -⟩ := hs.parse_eq_done hc
    (parse_row (.arr .none (.last (.int (oneDigit '1' (by decide))) .none))
      [.int (oneDigit '2' (by decide))] (Nat.le_refl _))
  refine ⟨⟨_, c, hrun⟩, ?_⟩
  rintro ⟨fuel, vec, c', hrun', hall⟩
  have heq := congrArg Prod.fst (parse_returns_unique s.reader .config ⟨fuel, hrun'⟩ ⟨_, hrun⟩)
  rw [forall₂_readAlone hall] at heq
  cases heq

end Libacorn
