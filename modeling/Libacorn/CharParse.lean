import Libacorn.Chars

/-!
# The parser on a list of characters

One equation for each loop of `parse`, and one for its body: what an iteration
does with the NUL-free characters ahead, given fuel above their number.
-/

namespace Libacorn

open Support

theorem matchChars_length {l : Bytes} {cs rest : List Char} (h : matchChars l cs = some rest) :
    l.length + rest.length = cs.length := by
  induction l generalizing cs with
  | nil =>
    simp only [matchChars, Option.some.injEq] at h
    simp [h]
  | cons b l ih =>
    cases cs with
    | nil => simp [matchChars] at h
    | cons c cs =>
      simp only [matchChars] at h
      split at h
      · simp only [List.length_cons, ← ih h]
        omega
      · cases h

/-! ## Separators -/

def dropFieldComma (json : Bool) : List Char → List Char
  | [] => []
  | c :: cs => if json ∧ c = ',' then cs.dropWhile isWhitespaceChar else c :: cs

theorem skipFieldComma_eq (json : Bool) (cs : List Char) :
    skipFieldComma charReader json cs = .done ((), dropFieldComma json cs) := by
  unfold skipFieldComma
  cases json with
  | false => cases cs <;> simp [dropFieldComma]
  | true =>
    cases cs with
    | nil => rfl
    | cons c cs =>
      simp only [↓reduceIte, Scan.bind_apply, skipChar_literal (show ','.toNat < 256 by decide),
        dropFieldComma, true_and]
      by_cases h : c = ','
      · simp only [h, ↓reduceIte, Outcome.bind_done, skipWhitespace_eq]
      · simp only [h, ↓reduceIte, Outcome.bind_done, Bool.false_eq_true, Scan.pure_apply]

theorem dropFieldComma_suffix (json : Bool) (cs : List Char) : dropFieldComma json cs <:+ cs := by
  cases cs with
  | nil => exact List.suffix_rfl
  | cons c cs =>
    simp only [dropFieldComma]
    split_ifs
    · exact (List.dropWhile_suffix _).trans (List.suffix_cons _ _)
    · exact List.suffix_rfl

/-- The optional `]` after the elements. -/
def dropBracket : List Char → List Char
  | [] => []
  | c :: cs => if c = ']' then cs else c :: cs

theorem skipBracket_eq (cs : List Char) :
    ∃ b, charReader.skipChar (UInt8.ofNat ']'.toNat) cs = .done (b, dropBracket cs) := by
  cases cs with
  | nil => exact ⟨false, rfl⟩
  | cons c cs =>
    simp only [skipChar_literal (show ']'.toNat < 256 by decide), dropBracket]
    split_ifs
    · exact ⟨true, rfl⟩
    · exact ⟨false, rfl⟩

theorem dropBracket_suffix (cs : List Char) : dropBracket cs <:+ cs := by
  cases cs with
  | nil => exact List.suffix_rfl
  | cons c cs =>
    simp only [dropBracket]
    split_ifs
    · exact List.suffix_cons c cs
    · exact List.suffix_rfl

/-! ## Keywords -/

/-- A keyword at the head of the text, with what follows it. -/
def keywordChars (cs : List Char) : Option (CVal × List Char) :=
  match cs.head? with
  | some 'n' => (matchChars (lit ['n', 'u', 'l', 'l']) cs).map (.empty, ·)
  | some 't' => (matchChars (lit ['t', 'r', 'u', 'e']) cs).map (.int32 1, ·)
  | some 'f' => (matchChars (lit ['f', 'a', 'l', 's', 'e']) cs).map (.int32 0, ·)
  | _ => none

theorem skipKeyword_eq (l : Bytes) (v : CVal) (cs : List Char) :
    (do if ← charReader.skipString l then pure (some v) else pure none :
      Scan (List Char) (Option CVal)) cs =
      match (matchChars l cs).map (v, ·) with
      | some r => .done (some r.1, r.2)
      | none => .done (none, cs) := by
  rw [Scan.bind_apply]
  cases h : matchChars l cs with
  | some rest => simp [skipString_of_some h]
  | none => simp [skipString_of_none h]

theorem parseKeyword_eq (c : Char) (cs : List Char) :
    parseKeyword charReader c.toNat (c :: cs) =
      match keywordChars (c :: cs) with
      | some r => .done (some r.1, r.2)
      | none => .done (none, c :: cs) := by
  unfold parseKeyword keywordChars
  simp only [Char.toNat_inj, List.head?_cons]
  by_cases hn : c = 'n'
  · subst hn
    exact skipKeyword_eq _ _ _
  · by_cases ht : c = 't'
    · subst ht
      exact skipKeyword_eq _ _ _
    · by_cases hf : c = 'f'
      · subst hf
        exact skipKeyword_eq _ _ _
      · simp [hn, ht, hf]

theorem keywordChars_some {cs : List Char} {r : CVal × List Char} (h : keywordChars cs = some r) :
    ∃ l : Bytes, 0 < l.length ∧ matchChars l cs = some r.2 := by
  unfold keywordChars at h
  split at h
  · obtain ⟨rest, hm, rfl⟩ := Option.map_eq_some_iff.mp h
    exact ⟨_, by decide, hm⟩
  · obtain ⟨rest, hm, rfl⟩ := Option.map_eq_some_iff.mp h
    exact ⟨_, by decide, hm⟩
  · obtain ⟨rest, hm, rfl⟩ := Option.map_eq_some_iff.mp h
    exact ⟨_, by decide, hm⟩
  · cases h

/-! ## One iteration of each loop -/

section Steps

variable {n m : Nat} {cs : List Char} {value : Scan (List Char) CVal}

/-- What follows a field's value before the next iteration. -/
def parseNextField (json : Bool) (value : Scan (List Char) CVal) (m n : Nat)
    (fields : List (Bytes × CVal)) : Scan (List Char) (List (Bytes × CVal) × Bool) := do
  skipWhitespaceAndComments charReader m false
  skipFieldComma charReader json
  parseFields charReader json value m n fields

theorem parseFields_cons {c : Char} (hm : (c :: cs).length + 2 ≤ m) (hz : NulFree (c :: cs))
    (json : Bool) (fields : List (Bytes × CVal)) :
    parseFields charReader json value m (n + 1) fields (c :: cs) =
      if c = '}' then .done ((fields, false), c :: cs) else
      let name := parsedString (dropBlanks .start (c :: cs))
      if name.1 = [] then .done ((fields, true), name.2) else
      match dropBlanks .start name.2 with
      | [] => .done ((fields, true), [])
      | d :: cs =>
        if d = ':' then
          (value cs).bind fun r =>
            parseNextField json value m n (OrderedMap.assign (utf8 name.1) r.1 fields) r.2
        else .done ((fields, true), cs) := by
  have hb := dropBlanks_suffix .start (c :: cs)
  have hs := (parsedString_suffix (dropBlanks .start (c :: cs))).trans hb
  have hname := parseString_eq (n := m) (by have := hb.length_le; omega) (hz.of_suffix hb)
  have hblank := skipWhitespaceAndComments_eq (n := m) (by have := hs.length_le; omega)
    (hz.of_suffix hs) false
  have hz' := hz.of_suffix
    ((dropBlanks_suffix .start (parsedString (dropBlanks .start (c :: cs))).2).trans hs)
  simp only [parseFields, Scan.bind_apply, peekChar_cons, Outcome.bind_done, Char.toNat_inj]
  split_ifs with h1 h2
  · rfl
  · simp [skipWhitespaceAndComments_eq hm hz, BlankMode.ofNewLine, hname, h2]
  · simp only [Scan.bind_apply, beforeEnd_cons, Outcome.bind_done, ↓reduceIte,
      skipWhitespaceAndComments_eq hm hz, BlankMode.ofNewLine, hname, utf8_eq_nil, h2, hblank]
    cases h3 : dropBlanks .start (parsedString (dropBlanks .start (c :: cs))).2 with
    | nil => rfl
    | cons d cs' =>
      rw [h3] at hz'
      simp only [readChar_cons cs' hz'.head, Outcome.bind_done, ne_eq, ite_not,
        Char.toNat_inj]
      split_ifs
      · rfl
      · rfl

theorem parseNextField_eq (hm : cs.length + 2 ≤ m) (hz : NulFree cs) (json : Bool)
    (fields : List (Bytes × CVal)) :
    parseNextField json value m n fields cs =
      parseFields charReader json value m n fields
        (dropFieldComma json (dropBlanks .start cs)) := by
  simp [parseNextField, skipWhitespaceAndComments_eq hm hz, skipFieldComma_eq, BlankMode.ofNewLine]

/-- What follows an element before the next iteration. -/
def parseNextElement (value : Scan (List Char) CVal) (m n : Nat) (vec : List CVal) :
    Scan (List Char) (List CVal) := do
  skipWhitespaceAndComments charReader m false
  let sep ← charReader.peekChar
  if sep = ','.toNat then
    let _ ← charReader.readChar
    parseElements charReader value m n vec
  else pure vec

theorem parseElements_cons {c : Char} (vec : List CVal) :
    parseElements charReader value m (n + 1) vec (c :: cs) =
      if c = ']' then .done (vec, c :: cs) else
      (value (c :: cs)).bind fun r => parseNextElement value m n (vec ++ [r.1]) r.2 := by
  simp only [parseElements, Scan.bind_apply, peekChar_cons, Outcome.bind_done, Char.toNat_inj]
  split_ifs
  · rfl
  · rfl

theorem parseNextElement_eq (hm : cs.length + 2 ≤ m) (hz : NulFree cs) (vec : List CVal) :
    parseNextElement value m n vec cs =
      match dropBlanks .start cs with
      | [] => .done (vec, [])
      | c :: cs =>
        if c = ',' then parseElements charReader value m n vec cs else .done (vec, c :: cs) := by
  have hz' := hz.of_suffix (dropBlanks_suffix .start cs)
  simp only [parseNextElement, Scan.bind_apply, skipWhitespaceAndComments_eq hm hz,
    Outcome.bind_done, BlankMode.ofNewLine]
  cases h : dropBlanks .start cs with
  | nil => rfl
  | cons c cs' =>
    rw [h] at hz'
    simp only [peekChar_cons, Outcome.bind_done, Char.toNat_inj]
    split_ifs
    · simp only [Scan.bind_apply, readChar_cons cs' hz'.head, Outcome.bind_done]
    · rfl

/-- One round of the implicit array. -/
theorem parseImplicit_succ (hm : cs.length < m) (hz : NulFree cs) (v : CVal) :
    parseImplicit charReader value m (n + 1) v cs =
      match dropSpaces cs with
      | [] => .done (v, [])
      | c :: cs =>
        if endsImplicitArray c.toNat then .done (v, c :: cs) else
        (value (c :: cs)).bind fun r =>
          parseImplicit charReader value m n (.array (asElements v ++ [r.1])) r.2 := by
  simp only [parseImplicit, Scan.bind_apply, skipSpacesAndTabs_eq hm hz, Outcome.bind_done]
  cases dropSpaces cs with
  | nil => rfl
  | cons c cs =>
    simp only [peekChar_cons, Outcome.bind_done]
    split_ifs
    · rfl
    · rfl

/-- The body of `parse` at a text that is not at its end. -/
theorem parseValue_cons [Fpu] {c : Char} {rest : CVal → Scan (List Char) CVal}
    (hn : (c :: cs).length + 2 ≤ n) (hz : NulFree (c :: cs)) (json : Bool) :
    parseValue charReader json value rest n (c :: cs) =
      match dropBlanks .start (c :: cs) with
      | [] => rest (.string []) []
      | c :: cs =>
        if c = '{' then
          (parseFields charReader json value n n [] (dropBlanks .start cs)).bind fun r =>
            if r.1.2 then .done (.map r.1.1, r.2)
            else (charReader.readChar r.2).bind fun t => rest (.map r.1.1) t.2
        else if c = '[' then
          (parseElements charReader value n n [] (dropBlanks .start cs)).bind fun r =>
            rest (.array r.1) (dropBracket r.2)
        else if isNumberStart c.toNat then
          (parseNumber charReader n (c :: cs)).bind fun r => rest r.1 r.2
        else
          match keywordChars (c :: cs) with
          | some r => rest r.1 r.2
          | none =>
            rest (.string (utf8 (parsedString (c :: cs)).1)) (parsedString (c :: cs)).2 := by
  have hb := dropBlanks_suffix .start (c :: cs)
  have hz' := hz.of_suffix hb
  have hl := hb.length_le
  simp only [parseValue, Scan.bind_apply, beforeEnd_cons, Outcome.bind_done, ↓reduceIte,
    skipWhitespaceAndComments_eq hn hz, BlankMode.ofNewLine]
  cases h : dropBlanks .start (c :: cs) with
  | nil =>
    have hs := parseString_eq (show ([] : List Char).length < n by simp at hn ⊢; omega)
      (by intro c hc; cases hc)
    have hk : parseKeyword charReader 0 [] = .done (none, []) := by simp [parseKeyword]
    have hnum : isNumberStart 0 = false := by decide
    simp [hs, hk, hnum, parsedString, stringChars]
  | cons d cs' =>
    rw [h] at hz' hl
    have hz'' := skipWhitespaceAndComments_eq (show cs'.length + 2 ≤ n by simp at hl hn; omega)
      hz'.tail false
    simp only [peekChar_cons, Outcome.bind_done, Char.toNat_inj]
    split_ifs with h1 h2 h3
    · simp only [Scan.bind_apply, readChar_cons cs' hz'.head, Outcome.bind_done, hz'',
        BlankMode.ofNewLine]
      congr 1
      funext r
      split
      · rfl
      · rfl
    · simp only [Scan.bind_apply, readChar_cons cs' hz'.head, Outcome.bind_done, hz'',
        BlankMode.ofNewLine]
      congr 1
      funext r
      obtain ⟨b, hb⟩ := skipBracket_eq r.2
      rw [hb]
      rfl
    · rfl
    · simp only [Scan.bind_apply, parseKeyword_eq]
      cases keywordChars (d :: cs') with
      | some r => rfl
      | none =>
        have hs := parseString_eq (n := n) (by omega) hz'
        simp [hs]

end Steps

end Libacorn
