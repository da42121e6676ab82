import Libacorn.Literal

/-!
# Decimal integers

`printf`'s `%d`, and what `parseNumber` makes of its output: the integer modulo 2^64,
as INT32 when it fits and as INT64 otherwise.
-/

namespace Libacorn

open Support

/-- The output of `%d` and `%ld`. -/
def decimal : Int → List Char
  | .ofNat n => Nat.toDigits 10 n
  | .negSucc n => '-' :: Nat.toDigits 10 (n + 1)

/-- What may follow a value: the end of the text, or a character that also ends
an implicit array. -/
def Stops (rest : List Char) : Prop := ∀ c ∈ rest.head?, endsImplicitArray c.toNat = true

theorem Stops.nil : Stops [] := by
  intro c hc
  cases hc

theorem Stops.cons {c : Char} {cs : List Char} (h : endsImplicitArray c.toNat = true) :
    Stops (c :: cs) := by
  intro d hd
  cases hd
  exact h

theorem Stops.head {c : Char} {cs : List Char} (h : Stops (c :: cs)) :
    endsImplicitArray c.toNat = true := h c rfl

/-! ## Digits -/

/-- A decimal digit. -/
def IsDigits (ds : List Char) : Prop := ∀ c ∈ ds, '0'.toNat ≤ c.toNat ∧ c.toNat ≤ '9'.toNat

theorem isDigits_toDigits (n : Nat) : IsDigits (Nat.toDigits 10 n) := by
  intro c hc
  have h := Nat.isDigit_of_mem_toDigits (b := 10) (by decide) (by decide) hc
  simp only [Char.isDigit, Bool.and_eq_true, decide_eq_true_eq] at h
  exact ⟨h.1, h.2⟩

/-- The literal that is printed for an integer. -/
def Literal.ofInt (i : Int) : Literal where
  signs := if i < 0 then [⟨true, [], nofun⟩] else []
  hex := false
  digits := Nat.toDigits 10 i.natAbs
  digits_ne := Nat.toDigits_ne_nil
  digits_base := by
    intro c hc
    exact (mem_digitChars (decide_eq_true (Or.inl (isDigits_toDigits _ c hc))) : c ∈ digitChars 10)

theorem Literal.text_ofInt (i : Int) : (Literal.ofInt i).text = decimal i := by
  cases i with
  | ofNat n => rfl
  | negSucc n =>
    simp [Literal.text, Literal.ofInt, decimal, Int.negSucc_lt_zero, signsText, Sign.char]

/-- The digits of a number denote it. -/
theorem ofDigits_toDigits (n : Nat) : ofDigits 10 0 (Nat.toDigits 10 n) = n := by
  have hsame : ∀ {ds : List Char}, IsDigits ds →
      ∀ a, ofDigits 10 a ds = Nat.ofDigitChars 10 ds a := by
    intro ds hd
    induction ds with
    | nil =>
      intro a
      rw [Nat.ofDigitChars_nil]
      rfl
    | cons c ds ih =>
      intro a
      have hc := hd c (List.mem_cons_self ..)
      have hbase : isBaseDigit 10 c.toNat = true := by
        simp only [isBaseDigit, decide_eq_true_eq]
        exact Or.inl hc
      have hdigit : digitOf c = c.toNat - '0'.toNat := by
        have ha : 'a'.toNat = 97 := rfl
        have hA : 'A'.toNat = 65 := rfl
        have h9 : '9'.toNat = 57 := rfl
        rw [← digitValue_eq hbase, digitValue, if_neg (by omega), if_neg (by omega)]
      rw [Nat.ofDigitChars_cons, ← ih fun d h => hd d (List.mem_cons_of_mem _ h), ← hdigit,
        Nat.mul_comm]
      rfl
  rw [hsame (isDigits_toDigits n), Nat.ofDigitChars_ten_toDigits]

theorem Literal.value_ofInt (i : Int) : (Literal.ofInt i).value = i := by
  have hmagnitude : (Literal.ofInt i).magnitude = i.natAbs := ofDigits_toDigits i.natAbs
  have hneg : isNegative (Literal.ofInt i).signs = decide (i < 0) := by
    show isNegative (if i < 0 then _ else _) = _
    by_cases h : i < 0
    · simp [h, isNegative]
    · simp [h, isNegative]
  rw [Literal.value, hmagnitude, hneg]
  by_cases h : i < 0
  · rw [if_pos (decide_eq_true h)]
    omega
  · rw [if_neg (by simpa using h)]
    omega

/-! ## Where they end -/

theorem Stops.endsDigits {rest : List Char} (h : Stops rest) : EndsDigits 10 rest := by
  intro c hc
  have hs := h c hc
  simp only [endsImplicitArray, decide_eq_true_eq] at hs
  simp only [isBaseDigit, decide_eq_false_iff_not, ← Char.toNat_inj, ne_eq]
  simp at hs ⊢
  omega

theorem Stops.noSuffix {rest : List Char} (h : Stops rest) : NoSuffix rest := by
  intro c hc hmem
  have hs := h c hc
  simp only [List.mem_cons, List.not_mem_nil, or_false] at hmem
  rcases hmem with rfl | rfl | rfl | rfl | rfl | rfl
  all_goals cases hs

/-- `parseNumber` reads a decimal integer modulo 2^64. -/
theorem parseNumber_decimal [Fpu] (i : Int) {rest : List Char} (hr : Stops rest) {n : Nat}
    (hn : (decimal i ++ rest).length < n) :
    parseNumber charReader n (decimal i ++ rest) = .done (intVal (i.bmod (2 ^ 64)), rest) := by
  rw [← Literal.text_ofInt] at hn ⊢
  have hends : EndsDigits (Literal.ofInt i).base rest := hr.endsDigits
  rw [parseNumber_literal _ hends hn, Literal.value_ofInt, parseSuffix_none _ hr.noSuffix]

end Libacorn
