import Libacorn.Document

/-!
# Items

Integer literals, quoted strings and explicit arrays of these, with whitespace
around the elements. `Item.parsed` says what the body of `parse` does at an item,
in and out of an implicit array: the elements of an explicit array end at a comma
or a bracket, which end an implicit array as well.
-/

namespace Libacorn

open Support

/-! ## Items -/

/-- Whitespace around the elements of an explicit array. -/
structure Blank where
  text : List Char
  blank : ∀ c ∈ text, isWhitespaceChar c = true

theorem nil_blank : ∀ c ∈ ([] : List Char), isWhitespaceChar c = true := List.forall_mem_nil _

def Blank.none : Blank := ⟨[], nil_blank⟩

mutual

/-- Integer literals, quoted strings and explicit arrays of items. -/
inductive Item where
  | int (l : Literal)
  | str (cs : List Char) (plain : IsPlain cs)
  | empty (gap : Blank)
  | arr (gap : Blank) (es : Items)

/-- The elements of an array: each is followed by a blank, and all but the last one by a comma and
another blank. -/
inductive Items where
  | last (it : Item) (after : Blank)
  | cons (it : Item) (after next : Blank) (es : Items)

end

mutual

def Item.text : Item → List Char
  | .int l => l.text
  | .str cs _ => quote cs
  | .empty gap => '[' :: (gap.text ++ [']'])
  | .arr gap es => '[' :: (gap.text ++ (Items.text es ++ [']']))

def Items.text : Items → List Char
  | .last it after => Item.text it ++ after.text
  | .cons it after next es => Item.text it ++ (after.text ++ ',' :: (next.text ++ Items.text es))

end

mutual

/-- The item as a val. -/
def Item.toVal : Item → CVal
  | .int l => intVal (l.value.bmod (2 ^ 64))
  | .str cs _ => .string (utf8 cs)
  | .empty _ => .array []
  | .arr _ es => .array (Items.toVals es)

def Items.toVals : Items → List CVal
  | .last it _ => [Item.toVal it]
  | .cons it _ _ es => Item.toVal it :: Items.toVals es

end

def Item.isArray : Item → Bool
  | .int _ => false
  | .str _ _ => false
  | .empty _ => true
  | .arr _ _ => true

/-! ## Characters -/

theorem isWhitespaceChar_cases {c : Char} (h : isWhitespaceChar c = true) :
    c = ' ' ∨ c = '\r' ∨ c = '\n' ∨ c = '\t' := by
  simpa only [isWhitespaceChar, decide_eq_true_eq] using h

theorem Blank.nulFree (b : Blank) : NulFree b.text := by
  intro c hc
  rcases isWhitespaceChar_cases (b.blank c hc) with rfl | rfl | rfl | rfl
  all_goals decide

/-- The first character of an item. -/
structure ItemStart (c : Char) : Prop where
  lineBreak : isLineBreak c = false
  space : isSpace c = false
  comment : ¬(c = '#' ∨ c = '/')
  bracket : c ≠ ']'
  stop : endsImplicitArray c.toNat = false

/-- Blanks are skipped up to what is no comment. -/
theorem Blank.dropBlanks_eq (b : Blank) {c : Char} (hl : isLineBreak c = false)
    (hs : isSpace c = false) (hc : ¬(c = '#' ∨ c = '/')) (newLine : Bool) (cs : List Char) :
    dropBlanks (.ofNewLine newLine) (b.text ++ c :: cs) = c :: cs := by
  obtain ⟨text, hb⟩ := b
  induction text generalizing newLine with
  | nil =>
    have hc' : ¬(c = '#' ∨ c = '/' ∧ cs.head? = some '/') := fun h => hc (h.imp_right And.left)
    cases newLine with
    | false => exact dropBlanks_start_cons hl hs cs
    | true => simp only [List.nil_append, BlankMode.ofNewLine, dropBlanks, hl, hs, hc', ↓reduceIte,
        Bool.false_eq_true]
  | cons d text ih =>
    have ih' := fun newLine => ih newLine fun c hc => hb c (List.mem_cons_of_mem _ hc)
    have hline := ih' true
    have hsame := ih' newLine
    rcases isWhitespaceChar_cases (hb d (List.mem_cons_self ..)) with rfl | rfl | rfl | rfl
    · cases newLine <;> exact hsame
    · cases newLine <;> exact hline
    · cases newLine <;> exact hline
    · cases newLine <;> exact hsame

theorem isNumberStart_itemStart {c : Char} (h : isNumberStart c.toNat = true) :
    ItemStart c ∧ c ≠ '{' ∧ c ≠ '[' := by
  have hr : ('0'.toNat ≤ c.toNat ∧ c.toNat ≤ '9'.toNat) ∨ c.toNat = '-'.toNat ∨
      c.toNat = '+'.toNat ∨
      c.toNat = '.'.toNat := by
    simpa only [isNumberStart, decide_eq_true_eq] using h
  simp at hr
  refine ⟨?_, ?_⟩
  · constructor
    all_goals simp only [isLineBreak, isSpace, endsImplicitArray, decide_eq_false_iff_not, ne_eq,
      ← Char.toNat_inj]
    all_goals simp
    all_goals omega
  · simp only [ne_eq, ← Char.toNat_inj]
    simp
    omega

/-- A literal starts with a sign or a digit. -/
theorem Literal.text_cons (l : Literal) :
    ∃ c cs, l.text = c :: cs ∧ isNumberStart c.toNat = true := by
  have hd := l.isBaseDigit_digits
  obtain ⟨signs, hex, digits, hne, _⟩ := l
  cases signs with
  | cons s signs =>
    refine ⟨s.char, s.space ++ signsText signs ++ ((if hex then ['0', 'x'] else []) ++ digits),
      by simp [text, signsText], ?_⟩
    rw [Sign.char]
    split
    · rfl
    · rfl
  | nil =>
    cases hex with
    | true => exact ⟨'0', 'x' :: digits, rfl, rfl⟩
    | false =>
      cases digits with
      | nil => exact absurd rfl hne
      | cons d ds =>
        have hdigit : isBaseDigit 10 d.toNat = true := hd d (List.mem_cons_self ..)
        simp only [isBaseDigit, decide_eq_true_eq] at hdigit
        refine ⟨d, ds, rfl, ?_⟩
        simp only [isNumberStart, decide_eq_true_eq]
        rcases hdigit with h | h
        · exact Or.inl h
        · exact absurd h.1 (by decide)

theorem Literal.nulFree (l : Literal) : NulFree l.text := by
  have hsigns : NulFree (signsText l.signs) := by
    intro c hc
    obtain ⟨s, -, hmem⟩ := List.mem_flatMap.mp hc
    rcases List.mem_cons.mp hmem with rfl | hspace
    · exact sign_ne_zero s
    · exact (Blank.mk s.space s.blank).nulFree c hspace
  have hdigits : NulFree l.digits := fun c hc => isBaseDigit_ne_zero (l.isBaseDigit_digits c hc)
  apply nulFree_append hsigns (nulFree_append _ hdigits)
  split
  · exact forall_mem_of_all rfl
  · exact nofun

theorem Item.text_cons (it : Item) : ∃ c cs, it.text = c :: cs ∧ ItemStart c := by
  have hquote : ItemStart '\"' := ⟨by decide, by decide, by decide, by decide, by decide⟩
  have hopen : ItemStart '[' := ⟨by decide, by decide, by decide, by decide, by decide⟩
  cases it with
  | int l =>
    obtain ⟨c, cs, htext, hc⟩ := l.text_cons
    exact ⟨c, cs, by rw [Item.text, htext], (isNumberStart_itemStart hc).1⟩
  | str cs plain => exact ⟨_, _, by rw [Item.text]; rfl, hquote⟩
  | empty gap => exact ⟨_, _, by rw [Item.text], hopen⟩
  | arr gap es => exact ⟨_, _, by rw [Item.text], hopen⟩

theorem Items.text_cons (es : Items) : ∃ c cs, es.text = c :: cs ∧ ItemStart c := by
  cases es with
  | last it after =>
    obtain ⟨c, cs, htext, hc⟩ := it.text_cons
    exact ⟨c, _, by rw [Items.text, htext]; rfl, hc⟩
  | cons it after next es =>
    obtain ⟨c, cs, htext, hc⟩ := it.text_cons
    exact ⟨c, _, by rw [Items.text, htext]; rfl, hc⟩

theorem nulFree_cons {c : Char} {cs : List Char} (hc : c.toNat ≠ 0) (h : NulFree cs) :
    NulFree (c :: cs) := by
  intro d hd
  rcases List.mem_cons.mp hd with rfl | hd
  · exact hc
  · exact h d hd

theorem nulFree_bracket : NulFree [']'] := forall_mem_of_all rfl

mutual

theorem Item.nulFree : ∀ it : Item, NulFree it.text
  | .int l => by
    rw [Item.text]
    exact l.nulFree
  | .str cs plain => by
    rw [Item.text]
    exact nulFree_quote plain
  | .empty gap => by
    rw [Item.text]
    exact nulFree_cons (by decide) (nulFree_append gap.nulFree nulFree_bracket)
  | .arr gap es => by
    rw [Item.text]
    exact nulFree_cons (by decide)
      (nulFree_append gap.nulFree (nulFree_append (Items.nulFree es) nulFree_bracket))

theorem Items.nulFree : ∀ es : Items, NulFree es.text
  | .last it after => by
    rw [Items.text]
    exact nulFree_append (Item.nulFree it) after.nulFree
  | .cons it after next es => by
    rw [Items.text]
    exact nulFree_append (Item.nulFree it) (nulFree_append after.nulFree
      (nulFree_cons (by decide) (nulFree_append next.nulFree (Items.nulFree es))))

end

/-! ## One item -/

/-- The end of a literal: a blank, or what ends an element. -/
theorem endsLiteral_of_space {c : Char} (h : isWhitespaceChar c = true ∨ c = ',' ∨ c = ']')
    (cs : List Char) :
    EndsLiteral (c :: cs) := by
  intro d hd
  cases hd
  rcases h with h | rfl | rfl
  · rcases isWhitespaceChar_cases h with rfl | rfl | rfl | rfl
    all_goals decide
  · decide
  · decide

theorem Blank.endsLiteral (b : Blank) {c : Char} (h : c = ',' ∨ c = ']') (cs : List Char) :
    EndsLiteral (b.text ++ c :: cs) := by
  obtain ⟨text, hb⟩ := b
  cases text with
  | nil => exact endsLiteral_of_space (Or.inr h) cs
  | cons d text => exact endsLiteral_of_space (Or.inl (hb d (List.mem_cons_self ..))) _

/-- What the spaces and tabs behind an item leave ends an implicit array. -/
theorem Blank.dropSpaces_eq (b : Blank) {c : Char} (hs : isSpace c = false)
    (hc : endsImplicitArray c.toNat = true) (cs : List Char) : ∃ b' : Blank, b'.text <:+ b.text ∧
      dropSpaces (b.text ++ c :: cs) = b'.text ++ c :: cs ∧ Stops (b'.text ++ c :: cs) := by
  obtain ⟨text, hb⟩ := b
  induction text with
  | nil =>
    refine ⟨.none, List.suffix_rfl, ?_, Stops.cons hc⟩
    simp [dropSpaces, hs, Blank.none]
  | cons d text ih =>
    by_cases hd : isSpace d = true
    · obtain ⟨b', hsuf, hdrop, hstop⟩ := ih fun c hc => hb c (List.mem_cons_of_mem _ hc)
      refine ⟨b', hsuf.trans (List.suffix_cons ..), ?_, hstop⟩
      rw [← hdrop]
      simp [dropSpaces, hd]
    · have hbreak : endsImplicitArray d.toNat = true := by
        rcases isWhitespaceChar_cases (hb d (List.mem_cons_self ..)) with rfl | rfl | rfl | rfl
        · exact absurd rfl hd
        · decide
        · decide
        · exact absurd rfl hd
      refine ⟨⟨d :: text, hb⟩, List.suffix_rfl, ?_, Stops.cons hbreak⟩
      simp [dropSpaces, hd]

/-- A blank or an item is ahead: the array goes on. -/
theorem parseElements_item (before : Blank) {c : Char} (hc : c ≠ ']') {cs : List Char}
    {value : Scan (List Char) CVal} {k m : Nat} {vec : List CVal} :
    parseElements charReader value k (m + 1) vec (before.text ++ c :: cs) =
      (value (before.text ++ c :: cs)).bind fun r => parseNextElement value k m (vec ++ [r.1])
        r.2 := by
  obtain ⟨text, hb⟩ := before
  cases text with
  | nil => exact (parseElements_cons vec).trans (if_neg hc)
  | cons d text =>
    have hd : d ≠ ']' := by
      rintro rfl
      cases hb ']' (List.mem_cons_self ..)
    exact (parseElements_cons vec).trans (if_neg hd)

section Parse

variable [Fpu]

/-- The body of `parse` reads the item, whatever comes after it. -/
def Item.Parsed (it : Item) : Prop :=
  ∀ (inner : Bool) (n : Nat) (rest : List Char) (more : CVal → Scan (List Char) CVal),
    (it.text ++ rest).length + 3 ≤ n → NulFree (it.text ++ rest) → EndsLiteral rest →
      parseValue charReader false (parse charReader n ⟨false, inner⟩) more n (it.text ++ rest) =
        more it.toVal rest

/-- The loop over the elements reads all of them. -/
def Items.Parsed (es : Items) : Prop :=
  ∀ (inner : Bool) (k m : Nat) (before : Blank) (rest : List Char) (vec : List CVal),
    (before.text ++ (es.text ++ ']' :: rest)).length + 4 ≤ k →
    (before.text ++ (es.text ++ ']' :: rest)).length < m →
    NulFree (before.text ++ (es.text ++ ']' :: rest)) →
      parseElements charReader (parse charReader k ⟨false, inner⟩) k m vec
        (before.text ++ (es.text ++ ']' :: rest)) = .done (vec ++ es.toVals, ']' :: rest)

theorem parsed_int (l : Literal) : (Item.int l).Parsed := by
  intro inner n rest more hn hz hr
  simp only [Item.text] at hn hz ⊢
  obtain ⟨c, cs, htext, hc⟩ := l.text_cons
  obtain ⟨hstart, hbrace, hopen⟩ := isNumberStart_itemStart hc
  have hnum := parseNumber_literal l (hr.endsDigits l.base) (n := n) (by omega)
  rw [parseSuffix_none _ hr.noSuffix] at hnum
  rw [htext, List.cons_append] at hn hz hnum ⊢
  rw [parseValue_cons (by omega) hz, dropBlanks_start_cons hstart.lineBreak hstart.space]
  simp only [hbrace, hopen, hc, ↓reduceIte, hnum, Outcome.bind_done]
  rw [Item.toVal]

theorem parsed_str (cs : List Char) (plain : IsPlain cs) : (Item.str cs plain).Parsed := by
  intro inner n rest more hn hz hr
  have hparsed := parsedString_quote plain rest
  have hquote : quote cs ++ rest = '\"' :: (cs ++ ['\"'] ++ rest) := rfl
  have hnumber : isNumberStart '\"'.toNat = false := by decide
  have hkeyword : keywordChars ('\"' :: (cs ++ ['\"'] ++ rest)) = none := rfl
  simp only [Item.text] at hn hz ⊢
  rw [hquote] at hn hz hparsed ⊢
  rw [parseValue_cons (by omega) hz, dropBlanks_start_cons (by decide) (by decide)]
  simp only [Char.reduceEq, hnumber, Bool.false_eq_true, ↓reduceIte, hkeyword, hparsed]
  rw [Item.toVal]

theorem parsed_empty (gap : Blank) : (Item.empty gap).Parsed := by
  intro inner n rest more hn hz hr
  have htext : (Item.empty gap).text ++ rest = '[' :: (gap.text ++ ']' :: rest) := by
    rw [Item.text]
    simp
  rw [htext] at hn hz ⊢
  obtain ⟨n, rfl⟩ : ∃ m, n = m + 1 := ⟨n - 1, by omega⟩
  have hdrop : dropBlanks .start (gap.text ++ ']' :: rest) = ']' :: rest :=
    gap.dropBlanks_eq (by decide) (by decide) (by decide) false rest
  rw [parseValue_cons (by omega) hz, dropBlanks_start_cons (by decide) (by decide)]
  simp only [Char.reduceEq, ↓reduceIte, hdrop, parseElements_cons, Outcome.bind_done, dropBracket]
  rw [Item.toVal]

theorem parsed_arr (gap : Blank) {es : Items} (h : es.Parsed) : (Item.arr gap es).Parsed := by
  intro inner n rest more hn hz hr
  have htext : (Item.arr gap es).text ++ rest = '[' :: (gap.text ++ (es.text ++ ']' :: rest)) := by
    rw [Item.text]
    simp
  rw [htext] at hn hz ⊢
  obtain ⟨c, cs, hes, hc⟩ := es.text_cons
  have hdrop : dropBlanks .start (gap.text ++ (es.text ++ ']' :: rest)) = es.text ++
      ']' :: rest := by
    rw [hes]
    exact gap.dropBlanks_eq hc.lineBreak hc.space hc.comment false _
  simp only [List.length_cons, List.length_append] at hn
  have hz' : NulFree (es.text ++ ']' :: rest) := hz.tail.of_suffix (List.suffix_append ..)
  have helems : parseElements charReader (parse charReader n ⟨false, inner⟩) n n []
      (es.text ++ ']' :: rest) =
      .done ([] ++ es.toVals, ']' :: rest) :=
    h inner n n .none rest [] (by simp [Blank.none]; omega) (by simp [Blank.none]; omega) hz'
  rw [parseValue_cons (by simp; omega) hz, dropBlanks_start_cons (by decide) (by decide)]
  simp only [Char.reduceEq, ↓reduceIte, hdrop, helems, Outcome.bind_done, List.nil_append,
    dropBracket]
  rw [Item.toVal]

/-! ## The elements of an explicit array -/

/-- The body of `parse` skips a blank before an item. -/
theorem parseValue_blank (before : Blank) {c : Char} (hc : ItemStart c) {cs : List Char}
    {value : Scan (List Char) CVal} {more : CVal → Scan (List Char) CVal} {n : Nat}
    (hn : (before.text ++ c :: cs).length + 2 ≤ n) (hz : NulFree (before.text ++ c :: cs)) :
    parseValue charReader false value more n (before.text ++ c :: cs) =
      parseValue charReader false value more n (c :: cs) := by
  have hdrop : dropBlanks .start (before.text ++ c :: cs) = c :: cs :=
    before.dropBlanks_eq hc.lineBreak hc.space hc.comment false cs
  have hz' : NulFree (c :: cs) := hz.of_suffix (List.suffix_append ..)
  have hle : (c :: cs).length ≤ (before.text ++ c :: cs).length := (List.suffix_append ..).length_le
  rw [parseValue_cons (by omega) hz', dropBlanks_start_cons hc.lineBreak hc.space]
  cases hcons : before.text ++ c :: cs with
  | nil => simp at hcons
  | cons d ds =>
    rw [hcons] at hn hz hdrop
    rw [parseValue_cons hn hz, hdrop]

/-- An element of an explicit array is read up to the blank behind it. -/
theorem Item.Parsed.reads {it : Item} (h : it.Parsed) (inner : Bool) {n : Nat}
    {before after : Blank} {c : Char} {tl : List Char} (hc : c = ',' ∨ c = ']')
    (hn : (before.text ++ (it.text ++ (after.text ++ c :: tl))).length + 4 ≤ n)
    (hz : NulFree (before.text ++ (it.text ++ (after.text ++ c :: tl)))) :
    ∃ after' : Blank, after'.text <:+ after.text ∧
      parse charReader n ⟨false, inner⟩ (before.text ++ (it.text ++ (after.text ++ c :: tl))) =
        .done (it.toVal, after'.text ++ c :: tl) := by
  obtain ⟨n, rfl⟩ : ∃ m, n = m + 1 := ⟨n - 1, by omega⟩
  have hz₁ : NulFree (it.text ++ (after.text ++ c :: tl)) := hz.of_suffix (List.suffix_append ..)
  have hz₂ : NulFree (after.text ++ c :: tl) := hz₁.of_suffix (List.suffix_append ..)
  have hbody : ∀ more : CVal → Scan (List Char) CVal,
      parseValue charReader false (parse charReader n ⟨false, inner⟩) more n
        (before.text ++ (it.text ++ (after.text ++ c :: tl))) =
          more it.toVal (after.text ++ c :: tl) := by
    intro more
    have hitem := h inner n (after.text ++ c :: tl) more (by simp at hn ⊢; omega) hz₁
        (after.endsLiteral hc tl)
    obtain ⟨d, ds, htext, hd⟩ := it.text_cons
    rw [htext, List.cons_append] at hn hz hitem ⊢
    rw [parseValue_blank before hd (by omega) hz, hitem]
  rw [parse, hbody]
  cases inner with
  | true => exact ⟨after, List.suffix_rfl, rfl⟩
  | false =>
    have hspace : isSpace c = false := by rcases hc with rfl | rfl <;> rfl
    have hstop : endsImplicitArray c.toNat = true := by rcases hc with rfl | rfl <;> rfl
    obtain ⟨after', hsuf, hdrop, hstops⟩ := after.dropSpaces_eq hspace hstop tl
    refine ⟨after', hsuf, ?_⟩
    obtain ⟨n, rfl⟩ : ∃ m, n = m + 1 := ⟨n - 1, by omega⟩
    simp only [and_self, ↓reduceIte]
    rw [parseImplicit_succ (by simp at hn ⊢; omega) hz₂, hdrop]
    cases hcons : after'.text ++ c :: tl with
    | nil => rfl
    | cons d ds =>
      rw [hcons] at hstops
      exact if_pos hstops.head

/-- One element, up to the loop's next decision. -/
theorem Item.Parsed.parseElements {it : Item} (h : it.Parsed) (inner : Bool) {k m : Nat}
    {before after : Blank} {c : Char} {tl : List Char} {vec : List CVal} (hc : c = ',' ∨ c = ']')
    (hk : (before.text ++ (it.text ++ (after.text ++ c :: tl))).length + 4 ≤ k)
    (hz : NulFree (before.text ++ (it.text ++ (after.text ++ c :: tl)))) :
    parseElements charReader (parse charReader k ⟨false, inner⟩) k (m + 1) vec
        (before.text ++ (it.text ++ (after.text ++ c :: tl))) =
      if c = ',' then parseElements charReader (parse charReader k ⟨false, inner⟩) k m
        (vec ++ [it.toVal]) tl
      else .done (vec ++ [it.toVal], c :: tl) := by
  obtain ⟨after', hsuf, hval⟩ := h.reads inner hc hk hz
  have hdrop : dropBlanks .start (after'.text ++ c :: tl) = c :: tl := by
    rcases hc with rfl | rfl
    · exact after'.dropBlanks_eq (by decide) (by decide) (by decide) false tl
    · exact after'.dropBlanks_eq (by decide) (by decide) (by decide) false tl
  have hz' : NulFree (after'.text ++ c :: tl) :=
    nulFree_append after'.nulFree (hz.of_suffix ⟨before.text ++ (it.text ++ after.text), by simp⟩)
  have hlen := hsuf.length_le
  simp only [List.length_append, List.length_cons] at hk
  obtain ⟨d, ds, htext, hd⟩ := it.text_cons
  rw [htext, List.cons_append] at hval ⊢
  rw [parseElements_item before hd.bracket, hval, Outcome.bind_done,
    parseNextElement_eq (by simp only [List.length_append, List.length_cons]; omega) hz', hdrop]

theorem parsed_last {it : Item} (h : it.Parsed) (after : Blank) : (Items.last it after).Parsed := by
  intro inner k m before rest vec hk hm hz
  have htext : (Items.last it after).text ++ ']' :: rest = it.text ++
      (after.text ++ ']' :: rest) := by
    rw [Items.text]
    simp
  rw [htext] at hk hm hz ⊢
  obtain ⟨m, rfl⟩ : ∃ l, m = l + 1 := ⟨m - 1, by omega⟩
  rw [h.parseElements inner (Or.inr rfl) hk hz, if_neg (by decide), Items.toVals]

theorem parsed_cons {it : Item} (h : it.Parsed) (after next : Blank) {es : Items}
    (hes : es.Parsed) :
    (Items.cons it after next es).Parsed := by
  intro inner k m before rest vec hk hm hz
  have htext : (Items.cons it after next es).text ++ ']' :: rest =
      it.text ++ (after.text ++ ',' :: (next.text ++ (es.text ++ ']' :: rest))) := by
    rw [Items.text]
    simp
  rw [htext] at hk hm hz ⊢
  obtain ⟨m, rfl⟩ : ∃ l, m = l + 1 := ⟨m - 1, by omega⟩
  have hz' : NulFree (next.text ++ (es.text ++ ']' :: rest)) :=
    hz.of_suffix ⟨before.text ++ (it.text ++ (after.text ++ [','])), by simp⟩
  have hrest := hes inner k m next rest (vec ++ [it.toVal]) (by simp at hk ⊢; omega)
    (by simp at hm ⊢; omega) hz'
  rw [h.parseElements inner (Or.inl rfl) hk hz, if_pos rfl, hrest, Items.toVals]
  simp

mutual

theorem Item.parsed : ∀ it : Item, it.Parsed
  | .int l => parsed_int l
  | .str cs plain => parsed_str cs plain
  | .empty gap => parsed_empty gap
  | .arr gap es => parsed_arr gap (Items.parsed es)

theorem Items.parsed : ∀ es : Items, es.Parsed
  | .last it after => parsed_last (Item.parsed it) after
  | .cons it after next es => parsed_cons (Item.parsed it) after next (Items.parsed es)

end

end Parse

end Libacorn
