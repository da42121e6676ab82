import Libacorn.Unicode

/-!
# The scanners on a list of characters

With fuel above the number of characters ahead, each scanner of the parser is a
plain function of a NUL-free list of characters: `dropBlanks` for
`skipWhitespaceAndComments`, `dropSpaces` for `skipSpacesAndTabs`,
`stringChars` for `parseString`. `parseNumber` leaves `dropNumber`, whatever
number it returns.
-/

namespace Libacorn

open Support

/-- No NUL among the characters. -/
def NulFree (cs : List Char) : Prop := ∀ c ∈ cs, c.toNat ≠ 0

theorem NulFree.of_suffix {cs rest : List Char} (h : NulFree cs) (hs : rest <:+ cs) :
    NulFree rest := fun c hc => h c (hs.subset hc)

theorem NulFree.tail {c : Char} {cs : List Char} (h : NulFree (c :: cs)) : NulFree cs :=
  h.of_suffix (List.suffix_cons c cs)

theorem NulFree.head {c : Char} {cs : List Char} (h : NulFree (c :: cs)) : c.toNat ≠ 0 :=
  h c (List.mem_cons_self ..)

/-! ## One step of the reader -/

section Reader

variable (c : Char) (cs : List Char)

@[simp] theorem peekChar_nil : charReader.peekChar [] = .done (0, []) := rfl
@[simp] theorem peekChar_cons : charReader.peekChar (c :: cs) = .done (c.toNat, c :: cs) := rfl
@[simp] theorem readChar_nil : charReader.readChar [] = .done (0, []) := rfl
theorem readChar_cons {c : Char} (h : c.toNat ≠ 0) :
    charReader.readChar (c :: cs) = .done (c.toNat, cs) := by simp [charReader, h]
@[simp] theorem skipChar_nil (ch : UInt8) : charReader.skipChar ch [] = .done (false, []) := rfl
@[simp] theorem skipChar_cons (ch : UInt8) : charReader.skipChar ch (c :: cs) =
    if c.toNat = ch.toNat then .done (true, cs) else .done (false, c :: cs) := rfl
@[simp] theorem skipWhitespace_eq :
    charReader.skipWhitespace cs = .done ((), cs.dropWhile isWhitespaceChar) := rfl
@[simp] theorem atEnd_nil : charReader.atEnd [] = .done (true, []) := rfl
@[simp] theorem atEnd_cons : charReader.atEnd (c :: cs) = .done (false, c :: cs) := rfl
@[simp] theorem beforeEnd_nil : charReader.beforeEnd [] = .done (false, []) := rfl
@[simp] theorem beforeEnd_cons : charReader.beforeEnd (c :: cs) = .done (true, c :: cs) := rfl

theorem skipString_of_some {l : Bytes} {cs rest : List Char} (h : matchChars l cs = some rest) :
    charReader.skipString l cs = .done (true, rest) := by simp [charReader, h]

theorem skipString_of_none {l : Bytes} {cs : List Char} (h : matchChars l cs = none) :
    charReader.skipString l cs = .done (false, cs) := by simp [charReader, h]

end Reader

theorem skipChar_literal {d : Char} (hd : d.toNat < 256) (c : Char) (cs : List Char) :
    charReader.skipChar (UInt8.ofNat d.toNat) (c :: cs) =
      if c = d then .done (true, cs) else .done (false, c :: cs) := by
  simp only [skipChar_cons, UInt8.toNat_ofNat', Nat.mod_eq_of_lt hd, Char.toNat_inj]

theorem matchChars_suffix {l : Bytes} {cs rest : List Char} (h : matchChars l cs = some rest) :
    rest <:+ cs := by
  induction l generalizing cs with
  | nil =>
    simp only [matchChars, Option.some.injEq] at h
    exact h ▸ List.suffix_rfl
  | cons b l ih =>
    cases cs with
    | nil => simp [matchChars] at h
    | cons c cs =>
      simp only [matchChars] at h
      split at h
      · exact (ih h).trans (List.suffix_cons c cs)
      · cases h

/-! ## Blanks and comments -/

/-- Where `skipWhitespaceAndComments` is: no line break seen, one seen, or
inside a comment. -/
inductive BlankMode where
  | start
  | line
  | comment
  deriving DecidableEq, Repr

def BlankMode.ofNewLine : Bool → BlankMode
  | false => .start
  | true => .line

def isLineBreak (c : Char) : Bool := c = '\r' ∨ c = '\n'
def isSpace (c : Char) : Bool := c = ' ' ∨ c = '\t'

/-- What `skipWhitespaceAndComments` leaves. -/
def dropBlanks : BlankMode → List Char → List Char
  | _, [] => []
  | .comment, c :: cs => if isLineBreak c then dropBlanks .line cs else dropBlanks .comment cs
  | .start, c :: cs =>
    if isLineBreak c then dropBlanks .line cs
    else if isSpace c then dropBlanks .start cs
    else c :: cs
  | .line, c :: cs =>
    if isLineBreak c then dropBlanks .line cs
    else if isSpace c then dropBlanks .line cs
    else if c = '#' ∨ (c = '/' ∧ cs.head? = some '/') then dropBlanks .comment cs
    else c :: cs

theorem dropBlanks_suffix (m : BlankMode) (cs : List Char) : dropBlanks m cs <:+ cs := by
  induction cs generalizing m with
  | nil => cases m <;> exact List.suffix_rfl
  | cons c cs ih =>
    have h : ∀ m, dropBlanks m cs <:+ c :: cs := fun m => (ih m).trans (List.suffix_cons c cs)
    cases m <;> simp only [dropBlanks] <;> split_ifs <;> first | exact h _ | exact List.suffix_rfl

/-- Inside a comment up to the line break. -/
def dropLine (cs : List Char) : List Char := cs.dropWhile fun c => !isLineBreak c

theorem dropLine_suffix (cs : List Char) : dropLine cs <:+ cs := List.dropWhile_suffix _

theorem dropBlanks_comment (cs : List Char) :
    dropBlanks .comment cs = dropBlanks .line (dropLine cs) := by
  induction cs with
  | nil => rfl
  | cons c cs ih =>
    by_cases h : isLineBreak c = true
    · simp [dropBlanks, dropLine, h]
    · simp only [dropBlanks, h, Bool.false_eq_true, ↓reduceIte, ih]
      simp [dropLine, h]

theorem isLineBreak_iff (c : Char) :
    c.toNat = '\r'.toNat ∨ c.toNat = '\n'.toNat ↔ isLineBreak c = true := by
  simp only [Char.toNat_inj, isLineBreak, decide_eq_true_eq]

theorem isSpace_iff (c : Char) :
    c.toNat = ' '.toNat ∨ c.toNat = '\t'.toNat ↔ isSpace c = true := by
  simp only [Char.toNat_inj, isSpace, decide_eq_true_eq]

theorem skipComment_eq {n : Nat} {cs : List Char} (hn : cs.length < n) (hz : NulFree cs) :
    skipComment charReader n cs = .done ((), dropLine cs) := by
  induction n generalizing cs with
  | zero => omega
  | succ n ih =>
    cases cs with
    | nil => rfl
    | cons c cs =>
      simp only [skipComment, Scan.bind_apply, atEnd_cons, Outcome.bind_done, Bool.false_eq_true,
        ↓reduceIte, peekChar_cons, isLineBreak_iff]
      by_cases h : isLineBreak c = true
      · simp [h, dropLine]
      · simp only [h, Bool.false_eq_true, ↓reduceIte, Scan.bind_apply, readChar_cons cs hz.head,
          Outcome.bind_done]
        rw [ih (by simpa using hn) hz.tail]
        simp [dropLine, h]

theorem startsComment_eq (c : Char) (cs : List Char) :
    startsComment charReader c.toNat (c :: cs) =
      if c = '#' then .done (true, c :: cs)
      else if c = '/' ∧ cs.head? = some '/' then .done (true, cs.tail)
      else .done (false, c :: cs) := by
  unfold startsComment
  simp only [Char.toNat_inj]
  by_cases h1 : c = '#'
  · simp [h1]
  · by_cases h2 : c = '/'
    · subst h2
      cases cs with
      | nil => rfl
      | cons d cs =>
        by_cases h3 : d = '/'
        · subst h3
          rfl
        · have hd : d.toNat ≠ '/'.toNat := fun e => h3 (Char.toNat_inj.mp e)
          have hm : matchChars (lit ['/', '/']) ('/' :: d :: cs) = none := by
            simp only [lit, List.map_cons, List.map_nil, matchChars]
            exact (if_pos (by decide)).trans (if_neg hd)
          simp [skipString_of_none hm, h3]
    · simp [h1, h2]

/-- `skipWhitespaceAndComments` leaves exactly `dropBlanks`. -/
theorem skipWhitespaceAndComments_eq {n : Nat} {cs : List Char} (hn : cs.length + 2 ≤ n)
    (hz : NulFree cs) (newLine : Bool) :
    skipWhitespaceAndComments charReader n newLine cs =
      .done ((), dropBlanks (.ofNewLine newLine) cs) := by
  induction n generalizing cs newLine with
  | zero => omega
  | succ n ih =>
    cases cs with
    | nil => cases newLine <;> rfl
    | cons c cs =>
      simp only [List.length_cons] at hn
      simp only [skipWhitespaceAndComments, Scan.bind_apply, atEnd_cons, Outcome.bind_done,
        Bool.false_eq_true, ↓reduceIte, peekChar_cons, isLineBreak_iff, isSpace_iff]
      by_cases h1 : isLineBreak c = true
      · simp only [h1, ↓reduceIte, Scan.bind_apply, readChar_cons cs hz.head, Outcome.bind_done]
        rw [ih (by omega) hz.tail]
        cases newLine <;> simp [BlankMode.ofNewLine, dropBlanks, h1]
      · by_cases h2 : isSpace c = true
        · simp only [h1, h2, Bool.false_eq_true, ↓reduceIte, Scan.bind_apply,
            readChar_cons cs hz.head, Outcome.bind_done]
          rw [ih (by omega) hz.tail]
          cases newLine <;> simp [BlankMode.ofNewLine, dropBlanks, h1, h2]
        · cases newLine with
          | false => simp [h1, h2, BlankMode.ofNewLine, dropBlanks]
          | true =>
            simp only [h1, h2, Bool.false_eq_true, ↓reduceIte, Scan.bind_apply, startsComment_eq,
              BlankMode.ofNewLine, dropBlanks]
            by_cases h3 : c = '#'
            · simp only [h3, ↓reduceIte, Outcome.bind_done, Scan.bind_apply, true_or]
              have hz' : NulFree ('#' :: cs) := h3 ▸ hz
              rw [skipComment_eq (by simp; omega) hz', Outcome.bind_done]
              have hd : dropLine ('#' :: cs) = dropLine cs := by simp [dropLine, isLineBreak]
              have hs := dropLine_suffix cs
              rw [hd, ih (by have := hs.length_le; omega) (hz.tail.of_suffix hs),
                dropBlanks_comment]
              rfl
            · by_cases h4 : c = '/' ∧ cs.head? = some '/'
              · rw [if_neg h3, if_pos h4, if_pos (Or.inr h4)]
                obtain ⟨d, cs, rfl⟩ : ∃ d cs', cs = d :: cs' := by
                  cases cs with
                  | nil => simp at h4
                  | cons d cs' => exact ⟨d, cs', rfl⟩
                have hd : d = '/' := by simpa using h4.2
                simp only [List.length_cons] at hn
                simp only [List.tail_cons, Outcome.bind_done, ↓reduceIte, Scan.bind_apply]
                rw [skipComment_eq (by omega) hz.tail.tail, Outcome.bind_done]
                have hs := dropLine_suffix cs
                rw [ih (by have := hs.length_le; omega) (hz.tail.tail.of_suffix hs),
                  dropBlanks, dropBlanks_comment]
                simp [hd, isLineBreak, BlankMode.ofNewLine]
              · simp [h3, h4]

/-- What `skipSpacesAndTabs` leaves. -/
def dropSpaces (cs : List Char) : List Char := cs.dropWhile isSpace

theorem dropSpaces_suffix (cs : List Char) : dropSpaces cs <:+ cs := List.dropWhile_suffix _

theorem skipSpacesAndTabs_eq {n : Nat} {cs : List Char} (hn : cs.length < n) (hz : NulFree cs) :
    skipSpacesAndTabs charReader n cs = .done ((), dropSpaces cs) := by
  induction n generalizing cs with
  | zero => omega
  | succ n ih =>
    cases cs with
    | nil => rfl
    | cons c cs =>
      simp only [skipSpacesAndTabs, Scan.bind_apply, beforeEnd_cons, Outcome.bind_done,
        ↓reduceIte, peekChar_cons, isSpace_iff]
      by_cases h : isSpace c = true
      · simp only [h, ↓reduceIte, Scan.bind_apply, readChar_cons cs hz.head, Outcome.bind_done]
        rw [ih (by simpa using hn) hz.tail]
        simp [dropSpaces, h]
      · simp [dropSpaces, h]

/-! ## Strings -/

/-- The characters `parseString` keeps, and those it leaves. -/
def stringChars (quoted : Bool) : List Char → List Char × List Char
  | [] => ([], [])
  | '\\' :: [] => ([], [])
  | '\\' :: d :: cs =>
    let r := stringChars quoted cs
    if legalEscape quoted d.toNat then ((if d = 'n' then '\n' else d) :: r.1, r.2) else r
  | c :: cs =>
    if quoted = false ∧ endsBareString c.toNat then ([], c :: cs)
    else if quoted ∧ c = '\"' then ([], cs)
    else
      let r := stringChars quoted cs
      (c :: r.1, r.2)

theorem stringChars_cons (quoted : Bool) {c : Char} (h : c ≠ '\\') (cs : List Char) :
    stringChars quoted (c :: cs) =
      if quoted = false ∧ endsBareString c.toNat then ([], c :: cs)
      else if quoted ∧ c = '\"' then ([], cs)
      else (c :: (stringChars quoted cs).1, (stringChars quoted cs).2) := by
  rw [stringChars.eq_def]
  split
  · rename_i e
    cases e
  · rename_i e
    exact absurd (List.cons.inj e).1 h
  · rename_i e
    exact absurd (List.cons.inj e).1 h
  · rename_i e
    obtain ⟨rfl, rfl⟩ := List.cons.inj e
    rfl

theorem stringChars_suffix (quoted : Bool) (cs : List Char) : (stringChars quoted cs).2 <:+ cs := by
  fun_induction stringChars quoted cs with
  | case1 => exact List.suffix_rfl
  | case2 => exact List.nil_suffix
  | case3 d cs r h ih => exact ih.trans ((List.suffix_cons d cs).trans (List.suffix_cons _ _))
  | case4 d cs r h ih => exact ih.trans ((List.suffix_cons d cs).trans (List.suffix_cons _ _))
  | case5 c cs h1 h2 h => exact List.suffix_rfl
  | case6 c cs h1 h2 h h' => exact List.suffix_cons _ _
  | case7 c cs h1 h2 h h' r ih => exact ih.trans (List.suffix_cons _ _)

theorem appendChar_toNat {σ : Type} (str : Bytes) (c : Char) :
    (appendChar str c.toNat : Scan σ Bytes) = pure (str ++ utf8 [c]) := by
  unfold appendChar
  rw [encodeUtf8_toNat, ← utf8EncodeChar_eq]
  simp [utf8]

/-- One iteration of `parseString`'s loop. -/
theorem parseStringLoop_cons (quoted : Bool) (n : Nat) (str : Bytes) {c : Char} (cs : List Char)
    (hc : c.toNat ≠ 0) :
    parseStringLoop charReader quoted (n + 1) str (c :: cs) =
      if quoted = false ∧ endsBareString c.toNat then .done (str, c :: cs)
      else if quoted ∧ c = '\"' then .done (str, cs)
      else if c = '\\' then
        (charReader.readChar cs).bind fun r =>
          (if legalEscape quoted r.1 then
            appendChar str (if r.1 = 'n'.toNat then '\n'.toNat else r.1)
              >>= parseStringLoop charReader quoted n
          else parseStringLoop charReader quoted n str) r.2
      else parseStringLoop charReader quoted n (str ++ utf8 [c]) cs := by
  rw [parseStringLoop]
  simp only [Scan.bind_apply, beforeEnd_cons, Outcome.bind_done, ↓reduceIte, peekChar_cons]
  by_cases h1 : quoted = false ∧ endsBareString c.toNat = true
  · rw [if_pos h1, if_pos h1]
    rfl
  · rw [if_neg h1, if_neg h1]
    simp only [Scan.bind_apply, readChar_cons cs hc, Outcome.bind_done, hc, ↓reduceIte,
      Char.toNat_inj]
    split_ifs
    · rfl
    · rfl
    · rw [appendChar_toNat]
      rfl

/-- `parseStringLoop` keeps and leaves what `stringChars` says. -/
theorem parseStringLoop_eq (quoted : Bool) {n : Nat} {cs : List Char} (hn : cs.length < n)
    (hz : NulFree cs) (str : Bytes) :
    parseStringLoop charReader quoted n str cs =
      .done (str ++ utf8 (stringChars quoted cs).1, (stringChars quoted cs).2) := by
  obtain ⟨n, rfl⟩ : ∃ m, n = m + 1 := ⟨n - 1, by omega⟩
  have hb : ¬(quoted = false ∧ endsBareString '\\'.toNat = true) := by cases quoted <;> decide
  have hq : ¬(quoted = true ∧ '\\' = '\"') := fun h => absurd h.2 (by decide)
  fun_induction stringChars quoted cs generalizing n str with
  | case1 => simp [parseStringLoop]
  | case2 =>
    obtain ⟨n, rfl⟩ : ∃ m, n = m + 1 := ⟨n - 1, by simp at hn; omega⟩
    have hl : legalEscape quoted 0 = false := by cases quoted <;> decide
    rw [parseStringLoop_cons _ _ _ _ (by decide), if_neg hb, if_neg hq, if_pos rfl]
    simp [hl, parseStringLoop]
  | case3 d cs r h ih =>
    obtain ⟨n, rfl⟩ : ∃ m, n = m + 1 := ⟨n - 1, by simp at hn; omega⟩
    have hd : (if d.toNat = 'n'.toNat then '\n'.toNat else d.toNat) =
        (if d = 'n' then '\n' else d).toNat := by
      simp only [Char.toNat_inj]
      split <;> rfl
    rw [parseStringLoop_cons _ _ _ _ (by decide), if_neg hb, if_neg hq, if_pos rfl,
      readChar_cons cs hz.tail.head, Outcome.bind_done, if_pos h, hd, appendChar_toNat,
      utf8_cons _ r.1, ← List.append_assoc]
    exact ih hz.tail.tail _ _ (by simp at hn; omega)
  | case4 d cs r h ih =>
    obtain ⟨n, rfl⟩ : ∃ m, n = m + 1 := ⟨n - 1, by simp at hn; omega⟩
    rw [parseStringLoop_cons _ _ _ _ (by decide), if_neg hb, if_neg hq, if_pos rfl,
      readChar_cons cs hz.tail.head, Outcome.bind_done, if_neg h]
    exact ih hz.tail.tail _ _ (by simp at hn; omega)
  | case5 c cs h1 h2 h =>
    rw [parseStringLoop_cons _ _ _ _ hz.head, if_pos h]
    simp
  | case6 c cs h1 h2 h h' =>
    rw [parseStringLoop_cons _ _ _ _ hz.head, if_neg h, if_pos h']
    simp
  | case7 c cs h1 h2 h h' r ih =>
    have hs : c ≠ '\\' := by
      intro e
      cases cs with
      | nil => exact h1 e rfl
      | cons d cs => exact h2 d cs e rfl
    obtain ⟨n, rfl⟩ : ∃ m, n = m + 1 := ⟨n - 1, by simp at hn; omega⟩
    rw [parseStringLoop_cons _ _ _ _ hz.head, if_neg h, if_neg h', if_neg hs, utf8_cons _ r.1,
      ← List.append_assoc]
    exact ih hz.tail _ _ (by simp at hn; omega)

/-- What `parseString` keeps and leaves. -/
def parsedString : List Char → List Char × List Char
  | '\"' :: cs => stringChars true cs
  | cs => stringChars false cs

theorem parsedString_bare {c : Char} {cs : List Char} (h : c ≠ '\"') :
    parsedString (c :: cs) = stringChars false (c :: cs) := by
  unfold parsedString
  split
  · rename_i e
    exact absurd (List.cons.inj e).1 h
  · rfl

theorem parseString_eq {n : Nat} {cs : List Char} (hn : cs.length < n) (hz : NulFree cs) :
    parseString charReader n cs = .done (utf8 (parsedString cs).1, (parsedString cs).2) := by
  unfold parseString
  cases cs with
  | nil => exact parseStringLoop_eq false hn hz []
  | cons c cs =>
    simp only [Scan.bind_apply, peekChar_cons, Outcome.bind_done, Char.toNat_inj]
    by_cases h : c = '\"'
    · subst h
      rw [if_pos rfl]
      simp only [Scan.bind_apply, readChar_cons cs hz.head, Outcome.bind_done]
      exact parseStringLoop_eq true (by simp at hn; omega) hz.tail []
    · rw [if_neg h, parsedString_bare h]
      exact parseStringLoop_eq false hn hz []

theorem parsedString_suffix (cs : List Char) : (parsedString cs).2 <:+ cs := by
  unfold parsedString
  split
  · exact (stringChars_suffix true _).trans (List.suffix_cons _ _)
  · exact stringChars_suffix false cs

theorem stringChars_lt {c : Char} (cs : List Char) (h : endsBareString c.toNat = false) :
    (stringChars false (c :: cs)).2.length < (c :: cs).length := by
  have hb : ¬(false = false ∧ endsBareString c.toNat = true) := by simp [h]
  rw [stringChars.eq_def]
  split
  · rename_i e
    cases e
  · simp
  · rename_i d cs' e
    have hs := (stringChars_suffix false cs').length_le
    rw [(List.cons.inj e).2]
    split <;> simp only [List.length_cons] <;> omega
  · rename_i c' cs' _ _ e
    obtain ⟨rfl, rfl⟩ := List.cons.inj e
    have hs := (stringChars_suffix false cs).length_le
    rw [if_neg hb, if_neg (by simp)]
    simp only [List.length_cons]
    omega

/-- Any character but a delimiter is consumed. -/
theorem parsedString_lt {c : Char} (cs : List Char) (h : endsBareString c.toNat = false) :
    (parsedString (c :: cs)).2.length < (c :: cs).length := by
  unfold parsedString
  split
  · have hs := (stringChars_suffix true cs).length_le
    rename_i e
    rw [← (List.cons.inj e).2]
    simp only [List.length_cons]
    omega
  · exact stringChars_lt cs h

/-- At a delimiter `parseString` returns the empty string and does not move. -/
theorem parsedString_delimiter {c : Char} (cs : List Char) (h : endsBareString c.toNat = true) :
    parsedString (c :: cs) = ([], c :: cs) := by
  have hq : c ≠ '\"' := by rintro rfl; revert h; decide
  have hs : c ≠ '\\' := by rintro rfl; revert h; decide
  rw [parsedString_bare hq, stringChars_cons false hs, if_pos ⟨rfl, h⟩]

/-! ## Numbers -/

/-- What the loop over the signs leaves; `after` a sign, whitespace goes too. -/
def dropSigns (after : Bool) : List Char → List Char
  | [] => []
  | c :: cs =>
    if c = '+' ∨ c = '-' then dropSigns true cs
    else if after ∧ isWhitespaceChar c then dropSigns true cs
    else c :: cs

theorem dropSigns_suffix (after : Bool) (cs : List Char) : dropSigns after cs <:+ cs := by
  induction cs generalizing after with
  | nil => exact List.suffix_rfl
  | cons c cs ih =>
    simp only [dropSigns]
    split_ifs
    · exact (ih true).trans (List.suffix_cons c cs)
    · exact (ih true).trans (List.suffix_cons c cs)
    · exact List.suffix_rfl

theorem dropSigns_true (cs : List Char) :
    dropSigns true cs = dropSigns false (cs.dropWhile isWhitespaceChar) := by
  induction cs with
  | nil => rfl
  | cons c cs ih =>
    by_cases h : isWhitespaceChar c = true
    · simp [dropSigns, h, ih]
    · simp [dropSigns, h]

theorem parseSigns_eq {n : Nat} {cs : List Char} (hn : cs.length < n) (hz : NulFree cs)
    (neg : Bool) : ∃ neg', parseSigns charReader n neg cs = .done (neg', dropSigns false cs) := by
  induction n generalizing cs neg with
  | zero => omega
  | succ n ih =>
    cases cs with
    | nil => exact ⟨neg, rfl⟩
    | cons c cs =>
      simp only [parseSigns, Scan.bind_apply, peekChar_cons, Outcome.bind_done, Char.toNat_inj]
      by_cases h : c = '+' ∨ c = '-'
      · simp only [h, ↓reduceIte, Scan.bind_apply, readChar_cons cs hz.head, Outcome.bind_done,
          skipWhitespace_eq, dropSigns, dropSigns_true]
        have hs := List.dropWhile_suffix (l := cs) isWhitespaceChar
        exact ih (by have := hs.length_le; simp at hn; omega) (hz.tail.of_suffix hs) _
      · exact ⟨neg, by simp [h, dropSigns]⟩

/-- The base, and what is left after an optional `0x`. -/
def baseChars : List Char → Nat × List Char
  | '0' :: 'x' :: cs => (16, cs)
  | '0' :: cs => (10, cs)
  | cs => (10, cs)

theorem parseBase_eq (cs : List Char) : parseBase charReader cs = .done (baseChars cs) := by
  unfold parseBase
  cases cs with
  | nil => rfl
  | cons c cs =>
    simp only [Scan.bind_apply, skipChar_literal (show '0'.toNat < 256 by decide)]
    by_cases h : c = '0'
    · subst h
      cases cs with
      | nil => rfl
      | cons d cs =>
        simp only [↓reduceIte, Outcome.bind_done, Scan.bind_apply,
          skipChar_literal (show 'x'.toNat < 256 by decide)]
        by_cases h' : d = 'x'
        · subst h'
          rfl
        · have hb : baseChars ('0' :: d :: cs) = (10, d :: cs) := by simp [baseChars, h']
          simp [h', hb]
    · have hb : baseChars (c :: cs) = (10, c :: cs) := by simp [baseChars, h]
      simp [h, hb]

theorem baseChars_suffix (cs : List Char) : (baseChars cs).2 <:+ cs := by
  unfold baseChars
  split
  · exact (List.suffix_cons _ _).trans (List.suffix_cons _ _)
  · exact List.suffix_cons _ _
  · exact List.suffix_rfl

/-- The suffixes, in the order they are tried. -/
def suffixes : List Bytes :=
  [lit ['%'], lit ['p', 't'], lit ['e', 'm'], lit ['p', 'x'], lit ['K', 'B'], lit ['M', 'B'],
    lit ['G', 'B']]

def dropSuffix (cs : List Char) : List Char :=
  (suffixes.findSome? fun l => matchChars l cs).getD cs

/-- The characters the digit loop consumes. -/
def isDigitOrPoint (base : Nat) (c : Char) : Bool := isBaseDigit base c.toNat ∨ c = '.'

/-- What `parseNumber` leaves. -/
def dropNumber (cs : List Char) : List Char :=
  let r := baseChars (dropSigns false cs)
  dropSuffix (r.2.dropWhile (isDigitOrPoint r.1))

theorem skipPercent_eq (cs : List Char) :
    charReader.skipChar (UInt8.ofNat '%'.toNat) cs = charReader.skipString (lit ['%']) cs := by
  cases cs with
  | nil => rfl
  | cons c cs =>
    rw [skipChar_literal (by decide)]
    have hm : matchChars (lit ['%']) (c :: cs) = if c = '%' then some cs else none := by
      simp [lit, matchChars, ← Char.toNat_inj]
    by_cases h : c = '%'
    · rw [if_pos h, skipString_of_some (hm.trans (if_pos h))]
    · rw [if_neg h, skipString_of_none (hm.trans (if_neg h))]

section Fpu
variable [Fpu]

theorem parseDigits_eq (base : Nat) {n : Nat} {cs : List Char} (hn : cs.length < n)
    (hz : NulFree cs) (s : NumState) :
    ∃ s', parseDigits charReader base n s cs = .done (s', cs.dropWhile (isDigitOrPoint base)) := by
  induction n generalizing cs s with
  | zero => omega
  | succ n ih =>
    cases cs with
    | nil => exact ⟨s, by simp [parseDigits, isBaseDigit]⟩
    | cons c cs =>
      simp only [List.length_cons] at hn
      simp only [parseDigits, Scan.bind_apply, peekChar_cons, Outcome.bind_done, Char.toNat_inj]
      by_cases h : isBaseDigit base c.toNat = true
      · have hd : isDigitOrPoint base c = true := by simp [isDigitOrPoint, h]
        simp only [h, hd, ↓reduceIte, Scan.bind_apply, readChar_cons cs hz.head,
          Outcome.bind_done, List.dropWhile_cons]
        exact ih (by omega) hz.tail _
      · by_cases h' : c = '.'
        · have hd : isDigitOrPoint base c = true := by simp [isDigitOrPoint, h']
          rw [if_neg h, if_pos h']
          simp only [hd, ↓reduceIte, Scan.bind_apply, readChar_cons cs hz.head,
            Outcome.bind_done, List.dropWhile_cons]
          exact ih (by omega) hz.tail _
        · exact ⟨s, by simp [h, h', isDigitOrPoint]⟩

theorem parseSuffix_eq (v : CVal) (cs : List Char) :
    ∃ v', parseSuffix charReader v cs = .done (v', dropSuffix cs) := by
  have step {l : Bytes} {ls : List Bytes} {m : Scan (List Char) CVal} {v : CVal}
      (hm : ∃ v', m cs = .done (v', (ls.findSome? fun l => matchChars l cs).getD cs)) :
      ∃ v', (do if ← charReader.skipString l then pure v else m : Scan (List Char) CVal) cs =
        .done (v', ((l :: ls).findSome? fun l => matchChars l cs).getD cs) := by
    simp only [Scan.bind_apply, List.findSome?_cons]
    cases h : matchChars l cs with
    | some rest => exact ⟨v, by simp [skipString_of_some h]⟩
    | none => simpa [skipString_of_none h] using hm
  unfold parseSuffix
  rw [Scan.bind_apply, skipPercent_eq]
  exact step (step (step (step (step (step (step ⟨v, rfl⟩))))))

theorem parseNumber_eq {n : Nat} {cs : List Char} (hn : cs.length < n) (hz : NulFree cs) :
    ∃ v, parseNumber charReader n cs = .done (v, dropNumber cs) := by
  have hs := dropSigns_suffix false cs
  have hb := (baseChars_suffix (dropSigns false cs)).trans hs
  obtain ⟨neg, h1⟩ := parseSigns_eq hn hz false
  obtain ⟨s, h2⟩ := parseDigits_eq (baseChars (dropSigns false cs)).1
    (Nat.lt_of_le_of_lt hb.length_le hn) (hz.of_suffix hb)
    { u := 0, isFloat := false, fraction := 0 }
  obtain ⟨v, h3⟩ := parseSuffix_eq (s.toVal neg)
    ((baseChars (dropSigns false cs)).2.dropWhile
      (isDigitOrPoint (baseChars (dropSigns false cs)).1))
  exact ⟨v, by simp only [parseNumber, Scan.bind_apply, h1, Outcome.bind_done, parseBase_eq, h2, h3,
    dropNumber]⟩

end Fpu

theorem dropSuffix_suffix (cs : List Char) : dropSuffix cs <:+ cs := by
  unfold dropSuffix
  cases h : suffixes.findSome? fun l => matchChars l cs with
  | none => exact List.suffix_rfl
  | some rest =>
    obtain ⟨l, _, hl⟩ := List.exists_of_findSome?_eq_some h
    exact matchChars_suffix hl

theorem dropNumber_suffix (cs : List Char) : dropNumber cs <:+ cs :=
  (dropSuffix_suffix _).trans ((List.dropWhile_suffix _).trans
    ((baseChars_suffix _).trans (dropSigns_suffix false cs)))

/-- A number consumes the character that announced it. -/
theorem dropNumber_lt {c : Char} (cs : List Char) (h : isNumberStart c.toNat = true) :
    (dropNumber (c :: cs)).length < (c :: cs).length := by
  have hd : ∀ (base : Nat) (l : List Char),
      (dropSuffix (l.dropWhile (isDigitOrPoint base))).length ≤
      l.length := fun base l =>
    ((dropSuffix_suffix _).trans (List.dropWhile_suffix _)).length_le
  by_cases h1 : c = '+' ∨ c = '-'
  · have hs := (dropSigns_suffix true cs).length_le
    have hb := (baseChars_suffix (dropSigns true cs)).length_le
    have e : dropSigns false (c :: cs) = dropSigns true cs := by simp [dropSigns, h1]
    unfold dropNumber
    rw [e]
    exact Nat.lt_succ_of_le ((hd _ _).trans (hb.trans hs))
  · have e : dropSigns false (c :: cs) = c :: cs := by simp [dropSigns, h1]
    unfold dropNumber
    rw [e]
    by_cases h2 : c = '0'
    · have hb : (baseChars (c :: cs)).2.length ≤ cs.length := by
        subst h2
        unfold baseChars
        split <;> simp_all
      exact Nat.lt_succ_of_le ((hd _ _).trans hb)
    · have hb : baseChars (c :: cs) = (10, c :: cs) := by simp [baseChars, h2]
      have hp : isDigitOrPoint 10 c = true := by
        simp only [isNumberStart, isDigitOrPoint, isBaseDigit, ← Char.toNat_inj, not_or,
          decide_eq_true_eq] at h h1 ⊢
        simp at h h1 ⊢
        omega
      rw [hb]
      simp only [List.dropWhile_cons, hp, ↓reduceIte]
      exact Nat.lt_succ_of_le (hd 10 cs)

end Libacorn
