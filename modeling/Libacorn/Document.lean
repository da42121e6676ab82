import Libacorn.Decimal

/-!
# Documents

Trees of integers, strings, arrays and maps, and their text in the config and
the JSON syntax. `Parses` says what `parse` does at the text of a document,
whatever ends the value after it; `Doc.Ok.parses` proves it of every document.
-/

namespace Libacorn

open Support

inductive Doc where
  | int (i : Int)
  | str (cs : List Char)
  | arr (ds : List Doc)
  | map (fs : List (List Char × Doc))

/-! ## Rendering -/

/-- The separator before the elements still to come. -/
def comma {α : Type} (next : List α) : List Char := if next.isEmpty then [] else [',']

def quote (cs : List Char) : List Char := '\"' :: cs ++ ['\"']

/-- What follows the opening brace of a map. -/
def mapStart : Bool → List Char
  | false => ['\n']
  | true => []

def renderKey : Bool → List Char → List Char
  | false, k => k ++ [':', ' ']
  | true, k => quote k ++ [':']

/-- What follows a field: a line break, in JSON a comma before the next field. -/
def fieldEnd {α : Type} : Bool → List α → List Char
  | false, _ => ['\n']
  | true, next => comma next

mutual

/-- The text of a document, in JSON or in the config syntax. -/
def Doc.render (json : Bool) : Doc → List Char
  | .int i => decimal i
  | .str cs => quote cs
  | .arr ds => '[' :: Doc.renderElements json ds ++ [']']
  | .map fs => '{' :: mapStart json ++ Doc.renderFields json fs ++ ['}']

def Doc.renderElements (json : Bool) : List Doc → List Char
  | [] => []
  | d :: ds => Doc.render json d ++ comma ds ++ Doc.renderElements json ds

def Doc.renderFields (json : Bool) : List (List Char × Doc) → List Char
  | [] => []
  | (k, d) :: fs =>
    renderKey json k ++ Doc.render json d ++ fieldEnd json fs ++ Doc.renderFields json fs

end

mutual

/-- The document as a val. -/
def Doc.toVal : Doc → CVal
  | .int i => intVal i
  | .str cs => .string (utf8 cs)
  | .arr ds => .array (Doc.toVals ds)
  | .map fs => .map (OrderedMap.ofFields (Doc.toFields fs))

def Doc.toVals : List Doc → List CVal
  | [] => []
  | d :: ds => d.toVal :: Doc.toVals ds

def Doc.toFields : List (List Char × Doc) → List (Bytes × CVal)
  | [] => []
  | (k, d) :: fs => (utf8 k, d.toVal) :: Doc.toFields fs

end

/-- A map of two fields, in both syntaxes. -/
example : (Doc.map [(['b'], .int (-7)), (['a'], .arr [.str ['x'], .int 0])]).render false =
    "\x7b\nb: -7\na: [\"x\",0]\n\x7d".toList := by decide
example : (Doc.map [(['b'], .int (-7)), (['a'], .arr [.str ['x'], .int 0])]).render true =
    "\x7b\"b\":-7,\"a\":[\"x\",0]\x7d".toList := by decide

/-! ## Well-formed documents -/

/-- No double quote, backslash or NUL. -/
def IsPlain (cs : List Char) : Prop := ∀ c ∈ cs, c ≠ '\"' ∧ c ≠ '\\' ∧ c.toNat ≠ 0

/-- The alphabet of unquoted keys: `[A-Za-z0-9_-]`. -/
def isKeyChar (c : Char) : Bool := c.isAlphanum ∨ c = '_' ∨ c = '-'

/-- The keys of a map: plain in JSON, over the alphabet of unquoted keys otherwise. -/
def IsKey : Bool → List Char → Prop
  | true, k => IsPlain k
  | false, k => ∀ c ∈ k, isKeyChar c = true

inductive Doc.Ok (json : Bool) : Doc → Prop
  | int {i : Int} (hl : -2 ^ 63 < i) (hu : i < 2 ^ 63) : Doc.Ok json (.int i)
  | str {cs : List Char} (h : IsPlain cs) : Doc.Ok json (.str cs)
  | arr {ds : List Doc} (h : ∀ d ∈ ds, Doc.Ok json d) : Doc.Ok json (.arr ds)
  | map {fs : List (List Char × Doc)} (hd : (fs.map Prod.fst).Nodup)
      (hk : ∀ f ∈ fs, f.1 ≠ [] ∧ IsKey json f.1) (h : ∀ f ∈ fs, Doc.Ok json f.2) :
      Doc.Ok json (.map fs)

/-! ## Scanning the parts of a text -/

theorem dropBlanks_start_cons {c : Char} (h1 : isLineBreak c = false) (h2 : isSpace c = false)
    (cs : List Char) : dropBlanks .start (c :: cs) = c :: cs := by
  simp [dropBlanks, h1, h2]

/-- A quoted string is read up to its closing quote. -/
theorem stringChars_quoted {cs : List Char} (h : IsPlain cs) (rest : List Char) :
    stringChars true (cs ++ '\"' :: rest) = (cs, rest) := by
  induction cs with
  | nil => exact stringChars_cons true (by decide) rest
  | cons c cs ih =>
    obtain ⟨hq, hb, -⟩ := h c (List.mem_cons_self ..)
    have ih' := ih fun d hd => h d (List.mem_cons_of_mem _ hd)
    rw [List.cons_append, stringChars_cons true hb, ih']
    simp [hq]

theorem parsedString_quote {cs : List Char} (h : IsPlain cs) (rest : List Char) :
    parsedString (quote cs ++ rest) = (cs, rest) := by
  have e : quote cs ++ rest = '\"' :: (cs ++ '\"' :: rest) := by simp [quote]
  rw [e]
  exact stringChars_quoted h rest

theorem isAlpha_range {c : Char} (h : c.isAlpha = true) :
    ('A'.toNat ≤ c.toNat ∧ c.toNat ≤ 'Z'.toNat) ∨ ('a'.toNat ≤ c.toNat ∧ c.toNat ≤ 'z'.toNat) := by
  rcases Bool.or_eq_true_iff.mp h with hupper | hlower
  · exact Or.inl (of_decide_eq_true hupper)
  · obtain ⟨hle, hge⟩ := Bool.and_eq_true_iff.mp hlower
    exact Or.inr ⟨of_decide_eq_true hle, of_decide_eq_true hge⟩

theorem isKeyChar_range {c : Char} (h : isKeyChar c = true) :
    ('A'.toNat ≤ c.toNat ∧ c.toNat ≤ 'Z'.toNat) ∨ ('a'.toNat ≤ c.toNat ∧ c.toNat ≤ 'z'.toNat) ∨
      ('0'.toNat ≤ c.toNat ∧ c.toNat ≤ '9'.toNat) ∨ c.toNat = '_'.toNat ∨ c.toNat = '-'.toNat := by
  simp only [isKeyChar, Char.isAlphanum, Char.isDigit, Bool.or_eq_true, Bool.and_eq_true,
    decide_eq_true_eq, ← Char.toNat_inj] at h
  have e : ∀ a : Char, a.val.toNat = a.toNat := fun _ => rfl
  simp only [ge_iff_le, UInt32.le_iff_toNat_le, e] at h
  rcases h with (h | h) | h | h
  · rcases isAlpha_range h with hupper | hlower
    · exact Or.inl hupper
    · exact Or.inr (Or.inl hlower)
  · exact Or.inr (Or.inr (Or.inl h))
  · exact Or.inr (Or.inr (Or.inr (Or.inl h)))
  · exact Or.inr (Or.inr (Or.inr (Or.inr h)))

theorem isKeyChar_bare {c : Char} (h : isKeyChar c = true) :
    endsBareString c.toNat = false ∧ c ≠ '\"' ∧ c ≠ '\\' := by
  have hr := isKeyChar_range h
  simp only [endsBareString, decide_eq_false_iff_not, ne_eq, ← Char.toNat_inj]
  simp at hr ⊢
  omega

/-- A bare string is read up to what ends one. -/
theorem stringChars_bare_append {k rest : List Char}
    (h : ∀ c ∈ k, endsBareString c.toNat = false ∧ c ≠ '\\')
    (hr : stringChars false rest = ([], rest)) : stringChars false (k ++ rest) = (k, rest) := by
  induction k with
  | nil => exact hr
  | cons c k ih =>
    obtain ⟨hd, hb⟩ := h c (List.mem_cons_self ..)
    have ih' := ih fun d hd => h d (List.mem_cons_of_mem _ hd)
    rw [List.cons_append, stringChars_cons false hb, ih']
    simp [hd]

theorem stringChars_bare {k : List Char} (h : ∀ c ∈ k, endsBareString c.toNat = false ∧ c ≠ '\\')
    (rest : List Char) : stringChars false (k ++ ':' :: rest) = (k, ':' :: rest) :=
  stringChars_bare_append h (stringChars_cons false (by decide) rest)

theorem stringChars_key {k : List Char} (h : ∀ c ∈ k, isKeyChar c = true) (rest : List Char) :
    stringChars false (k ++ ':' :: rest) = (k, ':' :: rest) := by
  apply stringChars_bare
  intro c hc
  obtain ⟨hd, -, hb⟩ := isKeyChar_bare (h c hc)
  exact ⟨hd, hb⟩

/-- A character that starts neither a blank nor a comment and is not the closing brace. -/
structure FieldStart (c : Char) : Prop where
  lineBreak : isLineBreak c = false
  space : isSpace c = false
  comment : c ≠ '#' ∧ c ≠ '/'
  brace : c ≠ '}'

theorem isKeyChar_fieldStart {c : Char} (h : isKeyChar c = true) : FieldStart c := by
  have hr := isKeyChar_range h
  constructor
  · simp only [isLineBreak, decide_eq_false_iff_not, ← Char.toNat_inj]
    simp at hr ⊢
    omega
  · simp only [isSpace, decide_eq_false_iff_not, ← Char.toNat_inj]
    simp at hr ⊢
    omega
  · simp only [ne_eq, ← Char.toNat_inj]
    simp at hr ⊢
    omega
  · simp only [ne_eq, ← Char.toNat_inj]
    simp at hr ⊢
    omega

/-- A key is read up to its colon; a space may follow. -/
theorem parsedString_renderKey {json : Bool} {k : List Char} (hne : k ≠ []) (hk : IsKey json k)
    (rest : List Char) :
    ∃ c tl gap, renderKey json k ++ rest = c :: tl ∧ FieldStart c ∧ (gap = [] ∨ gap = [' ']) ∧
      parsedString (c :: tl) = (k, ':' :: (gap ++ rest)) := by
  cases json with
  | true =>
    have hp := parsedString_quote hk (':' :: rest)
    have hs : FieldStart '\"' := ⟨by decide, by decide, by decide, by decide⟩
    exact ⟨'\"', k ++ '\"' :: ':' :: rest, [], by simp [renderKey, quote], hs, Or.inl rfl,
      by simpa [quote] using hp⟩
  | false =>
    cases k with
    | nil => exact absurd rfl hne
    | cons c k =>
      have hc : isKeyChar c = true := hk c (List.mem_cons_self ..)
      have hs := stringChars_key hk (' ' :: rest)
      refine ⟨c, k ++ ':' :: ' ' :: rest, [' '], by simp [renderKey], isKeyChar_fieldStart hc,
        Or.inr rfl, ?_⟩
      rw [parsedString_bare (isKeyChar_bare hc).2.1]
      exact hs

/-- The first character of a document. -/
structure ValueStart (c : Char) : Prop where
  lineBreak : isLineBreak c = false
  space : isSpace c = false
  bracket : c ≠ ']'

theorem digit_valueStart {c : Char} (h : '0'.toNat ≤ c.toNat ∧ c.toNat ≤ '9'.toNat) :
    ValueStart c := by
  constructor
  · simp only [isLineBreak, decide_eq_false_iff_not, ← Char.toNat_inj]
    simp at h ⊢
    omega
  · simp only [isSpace, decide_eq_false_iff_not, ← Char.toNat_inj]
    simp at h ⊢
    omega
  · simp only [ne_eq, ← Char.toNat_inj]
    simp at h ⊢
    omega

/-- The first character of a decimal integer. -/
theorem decimal_cons (i : Int) :
    ∃ c cs, decimal i = c :: cs ∧ (c = '-' ∨ ('0'.toNat ≤ c.toNat ∧ c.toNat ≤ '9'.toNat)) := by
  cases i with
  | negSucc n => exact ⟨'-', _, rfl, Or.inl rfl⟩
  | ofNat n =>
    cases h : Nat.toDigits 10 n with
    | nil => exact absurd h Nat.toDigits_ne_nil
    | cons c cs =>
      have hd := isDigits_toDigits n c (by rw [h]; exact List.mem_cons_self ..)
      exact ⟨c, cs, h, Or.inr hd⟩

theorem render_cons (json : Bool) (d : Doc) :
    ∃ c cs, d.render json = c :: cs ∧ ValueStart c := by
  cases d with
  | int i =>
    obtain ⟨c, cs, h, hc⟩ := decimal_cons i
    refine ⟨c, cs, by rw [Doc.render, h], ?_⟩
    rcases hc with rfl | hc
    · exact ⟨by decide, by decide, by decide⟩
    · exact digit_valueStart hc
  | str cs => exact ⟨_, _, rfl, by decide, by decide, by decide⟩
  | arr ds => exact ⟨_, _, by rw [Doc.render]; rfl, by decide, by decide, by decide⟩
  | map fs => exact ⟨_, _, by rw [Doc.render]; rfl, by decide, by decide, by decide⟩

theorem dropBlanks_render (json : Bool) (d : Doc) (rest : List Char) :
    dropBlanks .start (d.render json ++ rest) = d.render json ++ rest := by
  obtain ⟨c, cs, h, hc⟩ := render_cons json d
  rw [h]
  exact dropBlanks_start_cons hc.lineBreak hc.space _

/-! ## Parsing a document -/

/-- Nothing is added to a value that is followed by a stop. -/
theorem parseImplicit_stops {rest : List Char} (hr : Stops rest) (hz : NulFree rest)
    {value : Scan (List Char) CVal} {m n : Nat} (hm : rest.length < m) (v : CVal) :
    parseImplicit charReader value m (n + 1) v rest = .done (v, rest) := by
  have hd : dropSpaces rest = rest := by
    cases rest with
    | nil => rfl
    | cons c cs =>
      have hs := hr.head
      have hc : isSpace c = false := by
        simp only [endsImplicitArray, decide_eq_true_eq] at hs
        simp only [isSpace, decide_eq_false_iff_not, ← Char.toNat_inj]
        simp at hs ⊢
        omega
      simp [dropSpaces, hc]
  rw [parseImplicit_succ hm hz, hd]
  cases rest with
  | nil => rfl
  | cons c cs => exact if_pos hr.head

/-- What starts a field, or ends the map after the last one. -/
theorem dropBlanks_newline {α : Type} {next : List α} {c : Char} (hn : next = [] → c = '}')
    (hc : next ≠ [] → FieldStart c) (cs : List Char) :
    dropBlanks .start ('\n' :: c :: cs) = c :: cs := by
  have hl : isLineBreak '\n' = true := by decide
  have hc' : isLineBreak c = false ∧ isSpace c = false ∧ c ≠ '#' ∧ c ≠ '/' := by
    by_cases h : next = []
    · rw [hn h]
      decide
    · have := hc h
      exact ⟨this.lineBreak, this.space, this.comment⟩
  simp [dropBlanks, hl, hc'.1, hc'.2.1, hc'.2.2.1, hc'.2.2.2]

theorem dropBlanks_mapStart (json : Bool) {α : Type} (next : List α) {c : Char}
    (hn : next = [] → c = '}') (hc : next ≠ [] → FieldStart c) (cs : List Char) :
    dropBlanks .start (mapStart json ++ c :: cs) = c :: cs := by
  cases json with
  | false => exact dropBlanks_newline hn hc cs
  | true =>
    by_cases h : next = []
    · rw [hn h]
      exact dropBlanks_start_cons (by decide) (by decide) cs
    · exact dropBlanks_start_cons (hc h).lineBreak (hc h).space cs

/-- The end of a field is skipped. -/
theorem dropFieldComma_fieldEnd (json : Bool) {α : Type} (next : List α) {c : Char}
    (hn : next = [] → c = '}') (hc : next ≠ [] → FieldStart c) (cs : List Char) :
    dropFieldComma json (dropBlanks .start (fieldEnd json next ++ c :: cs)) = c :: cs := by
  cases json with
  | false =>
    have hb := dropBlanks_newline hn hc cs
    simp [fieldEnd, hb, dropFieldComma]
  | true =>
    by_cases h : next = []
    · subst h
      obtain rfl := hn rfl
      simp only [fieldEnd, comma, List.isEmpty_nil, ↓reduceIte, List.nil_append]
      rw [dropBlanks_start_cons (by decide) (by decide)]
      simp [dropFieldComma]
    · have hw : isWhitespaceChar c = false := by
        have h1 := (hc h).lineBreak
        have h2 := (hc h).space
        simp only [isLineBreak, isSpace, decide_eq_false_iff_not] at h1 h2
        simp only [isWhitespaceChar, decide_eq_false_iff_not]
        tauto
      have he : fieldEnd true next = [','] := by simp [fieldEnd, comma, h]
      rw [he, List.singleton_append, dropBlanks_start_cons (by decide) (by decide)]
      simp [dropFieldComma, hw]

/-- The first character of what is left of a map. -/
theorem renderFields_cons {json : Bool} {fs : List (List Char × Doc)}
    (hk : ∀ f ∈ fs, f.1 ≠ [] ∧ IsKey json f.1) (rest : List Char) :
    ∃ c tl, Doc.renderFields json fs ++ '}' :: rest = c :: tl ∧ (fs = [] → c = '}') ∧
      (fs ≠ [] → FieldStart c) := by
  cases fs with
  | nil => exact ⟨'}', rest, by simp [Doc.renderFields], fun _ => rfl, fun h => absurd rfl h⟩
  | cons f fs =>
    obtain ⟨hne, hkey⟩ := hk f (List.mem_cons_self ..)
    obtain ⟨c, tl, -, hct, hc, -⟩ := parsedString_renderKey hne hkey
      (f.2.render json ++ (fieldEnd json fs ++ (Doc.renderFields json fs ++ '}' :: rest)))
    refine ⟨c, tl, ?_, fun h => (nomatch h), fun _ => hc⟩
    rw [Doc.renderFields, ← hct]
    simp

theorem nulFree_append {as bs : List Char} (ha : NulFree as) (hb : NulFree bs) :
    NulFree (as ++ bs) := by
  intro c hc
  rcases List.mem_append.mp hc with h | h
  · exact ha c h
  · exact hb c h

theorem nulFree_decimal (i : Int) : NulFree (decimal i) := by
  have hd : ∀ n, NulFree (Nat.toDigits 10 n) := by
    intro n c hc h0
    have h := isDigits_toDigits n c hc
    rw [h0] at h
    revert h
    decide
  cases i with
  | ofNat n => exact hd n
  | negSucc n =>
    have hm : NulFree ['-'] := forall_mem_of_all rfl
    exact nulFree_append hm (hd (n + 1))

theorem nulFree_quote {cs : List Char} (h : IsPlain cs) : NulFree (quote cs) := by
  have hq : NulFree ['\"'] := forall_mem_of_all rfl
  exact nulFree_append (nulFree_append hq fun c hc => (h c hc).2.2) hq

theorem nulFree_comma {α : Type} (next : List α) : NulFree (comma next) := by
  unfold comma
  split
  · exact forall_mem_of_all rfl
  · exact forall_mem_of_all rfl

theorem nulFree_renderKey {json : Bool} {k : List Char} (h : IsKey json k) :
    NulFree (renderKey json k) := by
  cases json with
  | true => exact nulFree_append (nulFree_quote h) (forall_mem_of_all rfl)
  | false =>
    refine nulFree_append (fun c hc h0 => ?_) (forall_mem_of_all rfl)
    have hr := isKeyChar_range (h c hc)
    rw [h0] at hr
    revert hr
    decide

theorem nulFree_fieldEnd {α : Type} (json : Bool) (next : List α) :
    NulFree (fieldEnd json next) := by
  cases json with
  | true => exact nulFree_comma next
  | false =>
    have h : NulFree ['\n'] := forall_mem_of_all rfl
    exact h

theorem nulFree_renderElements {json : Bool} {ds : List Doc}
    (h : ∀ d ∈ ds, NulFree (d.render json)) : NulFree (Doc.renderElements json ds) := by
  induction ds with
  | nil =>
    intro c hc
    simp [Doc.renderElements] at hc
  | cons d ds ih =>
    rw [Doc.renderElements]
    exact nulFree_append (nulFree_append (h d (List.mem_cons_self ..)) (nulFree_comma ds))
      (ih fun d hd => h d (List.mem_cons_of_mem _ hd))

theorem nulFree_renderFields {json : Bool} {fs : List (List Char × Doc)}
    (hk : ∀ f ∈ fs, f.1 ≠ [] ∧ IsKey json f.1) (h : ∀ f ∈ fs, NulFree (f.2.render json)) :
    NulFree (Doc.renderFields json fs) := by
  induction fs with
  | nil =>
    intro c hc
    simp [Doc.renderFields] at hc
  | cons f fs ih =>
    rw [Doc.renderFields]
    have hf := nulFree_renderKey (hk f (List.mem_cons_self ..)).2
    exact nulFree_append (nulFree_append (nulFree_append hf (h f (List.mem_cons_self ..)))
      (nulFree_fieldEnd json fs))
      (ih (fun f hf => hk f (List.mem_cons_of_mem _ hf)) fun f hf =>
        h f (List.mem_cons_of_mem _ hf))

/-- The text of a document has no NUL. -/
theorem Doc.Ok.nulFree {json : Bool} {d : Doc} (h : d.Ok json) : NulFree (d.render json) := by
  induction h with
  | @int i _ _ => simpa [Doc.render] using nulFree_decimal i
  | str h => simpa [Doc.render] using nulFree_quote h
  | arr _ ih =>
    rw [Doc.render]
    have ho : NulFree ['['] := forall_mem_of_all rfl
    have hc : NulFree [']'] := forall_mem_of_all rfl
    exact nulFree_append (nulFree_append ho (nulFree_renderElements ih)) hc
  | map _ hk _ ih =>
    rw [Doc.render]
    have ho : NulFree ('{' :: mapStart json) := by
      cases json with
      | true => exact forall_mem_of_all rfl
      | false => exact forall_mem_of_all rfl
    have hc : NulFree ['}'] := forall_mem_of_all rfl
    exact nulFree_append (nulFree_append ho (nulFree_renderFields hk ih)) hc

theorem utf8_injective {cs cs' : List Char} (h : utf8 cs = utf8 cs') : cs = cs' := by
  have e : cs.utf8Encode = cs'.utf8Encode := by
    simp only [List.utf8Encode]
    exact congrArg List.toByteArray h
  rw [← String.toByteArray_ofList, ← String.toByteArray_ofList] at e
  simpa using congrArg String.toList (String.toByteArray_inj.mp e)

theorem toFields_keys (fs : List (List Char × Doc)) :
    (Doc.toFields fs).map Prod.fst = (fs.map Prod.fst).map utf8 := by
  induction fs with
  | nil => simp [Doc.toFields]
  | cons f fs ih => simp [Doc.toFields, ih]

section Parse
variable [Fpu]

/-- `parse` reads the document at the head of the text, blanks before it
included, and stops right after it. -/
def Parses (json : Bool) (d : Doc) : Prop :=
  ∀ (n : Nat) (cs rest : List Char), cs.length + 4 ≤ n → NulFree cs → Stops rest →
    dropBlanks .start cs = d.render json ++ rest →
    parse charReader n ⟨json, false⟩ cs = .done (d.toVal, rest)

/-- The elements of an array, up to the closing bracket. -/
theorem parseElements_render {json : Bool} {ds : List Doc} (hv : ∀ d ∈ ds, Parses json d)
    {cs rest : List Char} (he : cs = Doc.renderElements json ds ++ ']' :: rest) (hz : NulFree cs)
    {k m : Nat} (hk : cs.length + 4 ≤ k) (hm : cs.length < m) (vec : List CVal) :
    parseElements charReader (parse charReader k ⟨json, false⟩) k m vec cs =
      .done (vec ++ Doc.toVals ds, ']' :: rest) := by
  induction ds generalizing cs m vec with
  | nil =>
    obtain ⟨m, rfl⟩ : ∃ l, m = l + 1 := ⟨m - 1, by omega⟩
    subst he
    rw [Doc.renderElements, List.nil_append, parseElements_cons, if_pos rfl]
    simp [Doc.toVals]
  | cons d ds ih =>
    obtain ⟨m, rfl⟩ : ∃ l, m = l + 1 := ⟨m - 1, by omega⟩
    obtain ⟨c, tl, hd, hc⟩ := render_cons json d
    -- what the element leaves: a comma and the next one, or the bracket
    have he' : cs = d.render json ++ (comma ds ++ (Doc.renderElements json ds ++ ']' :: rest)) := by
      rw [he, Doc.renderElements]
      simp
    have hstop : Stops (comma ds ++ (Doc.renderElements json ds ++ ']' :: rest)) := by
      cases ds with
      | nil => exact Stops.cons (by decide)
      | cons d' ds => exact Stops.cons (by decide)
    have hval := hv d (List.mem_cons_self ..) k cs _ hk hz hstop (he' ▸ dropBlanks_render json d _)
    have hcs : cs = c :: (tl ++ (comma ds ++ (Doc.renderElements json ds ++ ']' :: rest))) := by
      rw [he', hd]
      rfl
    have hlen : (comma ds ++ (Doc.renderElements json ds ++ ']' :: rest)).length < cs.length := by
      rw [hcs, List.length_cons, @List.length_append _ tl]
      omega
    have hz' : NulFree (comma ds ++ (Doc.renderElements json ds ++ ']' :: rest)) :=
      hz.of_suffix ⟨_, he'.symm⟩
    rw [hcs, parseElements_cons, if_neg hc.bracket, ← hcs, hval, Outcome.bind_done,
      parseNextElement_eq (by omega) hz']
    cases ds with
    | nil =>
      simp only [comma, List.isEmpty_nil, ↓reduceIte, Doc.renderElements, List.nil_append]
      rw [dropBlanks_start_cons (by decide) (by decide)]
      simp [Doc.toVals]
    | cons d' ds =>
      simp only [comma, List.isEmpty_cons, Bool.false_eq_true, ↓reduceIte, List.cons_append,
        List.nil_append] at hlen hz' ⊢
      rw [dropBlanks_start_cons (by decide) (by decide)]
      simp only [↓reduceIte]
      simp only [List.length_cons] at hlen
      rw [ih (fun d hd => hv d (List.mem_cons_of_mem _ hd)) rfl hz'.tail (by omega) (by omega)]
      simp [Doc.toVals]

/-- The fields of a map, up to the closing brace. -/
theorem parseFields_render {json : Bool} {fs : List (List Char × Doc)}
    (hk : ∀ f ∈ fs, f.1 ≠ [] ∧ IsKey json f.1) (hv : ∀ f ∈ fs, Parses json f.2)
    {cs rest : List Char} (he : cs = Doc.renderFields json fs ++ '}' :: rest) (hz : NulFree cs)
    {k m : Nat} (hl : cs.length + 4 ≤ k) (hm : cs.length < m) (fields : List (Bytes × CVal)) :
    parseFields charReader json (parse charReader k ⟨json, false⟩) k m fields cs =
      .done ((OrderedMap.assignAll fields (Doc.toFields fs), false), '}' :: rest) := by
  induction fs generalizing cs m fields with
  | nil =>
    obtain ⟨m, rfl⟩ : ∃ l, m = l + 1 := ⟨m - 1, by omega⟩
    subst he
    rw [Doc.renderFields, List.nil_append] at hz hl ⊢
    rw [parseFields_cons (by omega) hz, if_pos rfl]
    simp [Doc.toFields, OrderedMap.assignAll]
  | cons f fs ih =>
    obtain ⟨m, rfl⟩ : ∃ l, m = l + 1 := ⟨m - 1, by omega⟩
    obtain ⟨key, d⟩ := f
    obtain ⟨hne, hkey⟩ := hk _ (List.mem_cons_self ..)
    have hk' : ∀ f ∈ fs, f.1 ≠ [] ∧ IsKey json f.1 := fun f hf => hk f (List.mem_cons_of_mem _ hf)
    -- the fields after this one, and the text from this field's value on
    obtain ⟨e, more, hmore, hnil, hcons⟩ := renderFields_cons hk' rest
    have hstop : Stops (fieldEnd json fs ++ e :: more) := by
      cases json with
      | false => exact Stops.cons (by decide)
      | true =>
        cases fs with
        | nil =>
          rw [hnil rfl]
          exact Stops.cons (by decide)
        | cons f fs => exact Stops.cons (by decide)
    obtain ⟨c, tl, gap, hct, hc, hgap, hname⟩ :=
      parsedString_renderKey hne hkey (d.render json ++ (fieldEnd json fs ++ e :: more))
    have hcs : cs = c :: tl := by
      rw [he, Doc.renderFields, ← hct, ← hmore]
      simp
    subst hcs
    have hb : dropBlanks .start (c :: tl) = c :: tl := dropBlanks_start_cons hc.lineBreak hc.space _
    have hsuf := parsedString_suffix (c :: tl)
    rw [hname] at hsuf
    have hzv := hz.of_suffix hsuf
    have hlv := hsuf.length_le
    simp only [List.length_cons] at hlv hl hm
    have hdrop : dropBlanks .start (gap ++ (d.render json ++ (fieldEnd json fs ++ e :: more))) =
        d.render json ++ (fieldEnd json fs ++ e :: more) := by
      rcases hgap with rfl | rfl
      · exact dropBlanks_render json d _
      · have hs : isLineBreak ' ' = false ∧ isSpace ' ' = true := by decide
        simp [dropBlanks, hs.1, hs.2, dropBlanks_render]
    have hval := hv _ (List.mem_cons_self ..) k _ _ (by omega) hzv.tail hstop hdrop
    have hzr : NulFree (fieldEnd json fs ++ e :: more) :=
      hzv.tail.of_suffix ⟨gap ++ d.render json, by simp⟩
    have hlr : (e :: more).length < (c :: tl).length := by
      simp only [List.length_append, List.length_cons] at hlv ⊢
      omega
    rw [parseFields_cons (by simp; omega) hz, if_neg hc.brace, hb, hname]
    simp only [hne, ↓reduceIte, dropBlanks_start_cons (show isLineBreak ':' = false by decide)
      (show isSpace ':' = false by decide), hval, Outcome.bind_done]
    rw [parseNextField_eq (by simp only [List.length_append] at hlv ⊢; omega) hzr,
      dropFieldComma_fieldEnd json fs hnil hcons]
    have hze : NulFree (e :: more) := hzr.of_suffix ⟨fieldEnd json fs, rfl⟩
    rw [ih hk' (fun f hf => hv f (List.mem_cons_of_mem _ hf)) hmore.symm hze
      (by simp only [List.length_cons] at hlr ⊢; omega)
      (by simp only [List.length_cons] at hlr ⊢; omega)]
    rfl

/-- What `parse` does once its body has read a value and a stop follows. -/
theorem parse_of_parseValue {json : Bool} {n : Nat} {cs rest : List Char} {v : CVal}
    (hr : Stops rest) (hz : NulFree rest) (hn : rest.length < n)
    (h : ∀ more : CVal → Scan (List Char) CVal,
      parseValue charReader json (parse charReader n ⟨json, false⟩) more n cs = more v rest) :
    parse charReader (n + 1) ⟨json, false⟩ cs = .done (v, rest) := by
  obtain ⟨n, rfl⟩ : ∃ l, n = l + 1 := ⟨n - 1, by omega⟩
  rw [parse, h]
  cases json with
  | true => rfl
  | false => exact parseImplicit_stops hr hz hn v

/-- It is enough to read the document without blanks before it, and without the
implicit-array loop after it. -/
theorem Parses.of_parseValue {json : Bool} {d : Doc}
    (h : ∀ (n : Nat) (c : Char) (tl rest : List Char), (c :: tl).length + 3 ≤ n →
      NulFree (c :: tl) → Stops rest → c :: tl = d.render json ++ rest →
      dropBlanks .start (c :: tl) = c :: tl → ∀ more : CVal → Scan (List Char) CVal,
        parseValue charReader json (parse charReader n ⟨json, false⟩) more n (c :: tl) =
          more d.toVal rest) :
    Parses json d := by
  intro n cs rest hn hz hr hd
  obtain ⟨n, rfl⟩ : ∃ l, n = l + 1 := ⟨n - 1, by omega⟩
  obtain ⟨c, tl, hct, hc⟩ := render_cons json d
  have hcons : d.render json ++ rest = c :: (tl ++ rest) := by rw [hct]; rfl
  have hsuf := dropBlanks_suffix .start cs
  have hrs : rest <:+ cs := (List.suffix_append (d.render json) rest).trans (hd ▸ hsuf)
  rw [hd, hcons] at hsuf
  have hl := hsuf.length_le
  have hb := dropBlanks_start_cons hc.lineBreak hc.space (tl ++ rest)
  apply parse_of_parseValue hr (hz.of_suffix hrs) (by have := hrs.length_le; omega)
  intro more
  rw [← h n c (tl ++ rest) rest (by omega) (hz.of_suffix hsuf) hr hcons.symm hb more]
  cases cs with
  | nil => simp at hl
  | cons a cs =>
    rw [parseValue_cons (by omega) hz, parseValue_cons (by omega) (hz.of_suffix hsuf), hd, hcons,
      hb]

/-- The body of `parse` at a decimal integer, whatever its size. -/
theorem parseValue_decimal {json : Bool} {value : Scan (List Char) CVal} {n : Nat} (i : Int)
    {rest : List Char} (hn : (decimal i ++ rest).length + 2 ≤ n) (hz : NulFree (decimal i ++ rest))
    (hr : Stops rest) (more : CVal → Scan (List Char) CVal) :
    parseValue charReader json value more n (decimal i ++ rest) =
      more (intVal (i.bmod (2 ^ 64))) rest := by
  have hb := dropBlanks_render json (.int i) rest
  have hnum := parseNumber_decimal i hr (n := n) (by omega)
  obtain ⟨c, cs, hcs, hc⟩ := decimal_cons i
  have hns : isNumberStart c.toNat = true := by
    simp only [isNumberStart, decide_eq_true_eq]
    rcases hc with rfl | hc
    · exact Or.inr (Or.inl rfl)
    · exact Or.inl hc
  have hopen : c ≠ '{' ∧ c ≠ '[' := by
    simp only [ne_eq, ← Char.toNat_inj]
    rcases hc with rfl | hc
    · decide
    · simp at hc ⊢
      omega
  rw [Doc.render] at hb
  rw [hcs, List.cons_append] at hn hz hb hnum ⊢
  rw [parseValue_cons hn hz, hb]
  simp only [hopen.1, hopen.2, hns, ↓reduceIte, hnum, Outcome.bind_done]

theorem parses_int {json : Bool} {i : Int} (hl : -2 ^ 63 < i) (hu : i < 2 ^ 63) :
    Parses json (.int i) := by
  apply Parses.of_parseValue
  intro n c tl rest hn hz hr he hb more
  rw [Doc.render] at he
  rw [he] at hn hz ⊢
  rw [parseValue_decimal i (by omega) hz hr, bmod_eq_self_64 (by omega) hu, Doc.toVal]

theorem parses_str {json : Bool} {cs : List Char} (h : IsPlain cs) : Parses json (.str cs) := by
  apply Parses.of_parseValue
  intro n c tl rest hn hz hr he hb more
  have hp := parsedString_quote h rest
  rw [Doc.render] at he
  obtain rfl : c = '\"' := (List.cons.inj he).1
  have hns : isNumberStart '\"'.toNat = false := by decide
  have hk : keywordChars ('\"' :: tl) = none := rfl
  rw [← he] at hp
  rw [parseValue_cons (by omega) hz, hb]
  simp only [Char.reduceEq, hns, Bool.false_eq_true, ↓reduceIte, hk, hp]
  rw [Doc.toVal]

theorem parses_arr {json : Bool} {ds : List Doc} (h : ∀ d ∈ ds, Parses json d) :
    Parses json (.arr ds) := by
  apply Parses.of_parseValue
  intro n c tl rest hn hz hr he hb more
  simp only [Doc.render, List.cons_append, List.append_assoc, List.nil_append] at he
  obtain ⟨rfl, htl⟩ := List.cons.inj he
  have htl' : dropBlanks .start tl = Doc.renderElements json ds ++ ']' :: rest := by
    rw [htl]
    cases ds with
    | nil => exact dropBlanks_start_cons (by decide) (by decide) rest
    | cons d ds =>
      simp only [Doc.renderElements, List.append_assoc]
      exact dropBlanks_render json d _
  have hsuf := dropBlanks_suffix .start tl
  have hlen := hsuf.length_le
  simp only [List.length_cons] at hn
  have helems := parseElements_render h htl' (hz.tail.of_suffix hsuf) (k := n) (m := n)
    (by omega) (by omega) []
  rw [parseValue_cons (by simp; omega) hz, hb]
  simp only [Char.reduceEq, ↓reduceIte, helems, Outcome.bind_done, List.nil_append, dropBracket]
  rw [Doc.toVal]

theorem parses_map {json : Bool} {fs : List (List Char × Doc)} (hd : (fs.map Prod.fst).Nodup)
    (hk : ∀ f ∈ fs, f.1 ≠ [] ∧ IsKey json f.1) (h : ∀ f ∈ fs, Parses json f.2) :
    Parses json (.map fs) := by
  apply Parses.of_parseValue
  intro n c tl rest hn hz hr he hb more
  simp only [Doc.render, List.cons_append, List.append_assoc, List.nil_append] at he
  obtain ⟨rfl, htl⟩ := List.cons.inj he
  obtain ⟨e, more', hmore, hnil, hcons⟩ := renderFields_cons hk rest
  have hblank := dropBlanks_mapStart json fs hnil hcons more'
  rw [← hmore, ← htl] at hblank
  have hsuf := dropBlanks_suffix .start tl
  have hlen := hsuf.length_le
  simp only [List.length_cons] at hn
  have hkeys : ((Doc.toFields fs).map Prod.fst).Nodup := by
    rw [toFields_keys]
    exact hd.map fun _ _ => utf8_injective
  have hfields := parseFields_render hk h hblank (hz.tail.of_suffix hsuf) (k := n) (m := n)
    (by omega) (by omega) []
  rw [OrderedMap.assignAll_eq_ofFields _ hkeys] at hfields
  rw [parseValue_cons (by simp; omega) hz, hb]
  simp only [↓reduceIte, hfields, Outcome.bind_done, Bool.false_eq_true,
    readChar_cons rest (show '}'.toNat ≠ 0 by decide)]
  rw [Doc.toVal]

/-- `parse` reads every document. -/
theorem Doc.Ok.parses {json : Bool} {d : Doc} (h : d.Ok json) : Parses json d := by
  induction h with
  | int hl hu => exact parses_int hl hu
  | str h => exact parses_str h
  | arr _ ih => exact parses_arr ih
  | map hd hk _ ih => exact parses_map hd hk ih

/-- On a whole buffer that holds the text of a document, `parse` returns the
document with its cursor at the end. -/
theorem Doc.Ok.parse_text {json : Bool} {d : Doc} (h : d.Ok json) {s : Text} (hw : s.Whole)
    (hc : s.content = utf8 (d.render json)) :
    ∃ fuel c, s.parse ⟨json, false⟩ fuel = .done (d.toVal, c) ∧ c.it = s.cb := by
  have hdrop : dropBlanks .start (d.render json) = d.render json ++ [] := by
    simpa using dropBlanks_render json d []
  have hp := h.parses _ _ [] (Nat.le_refl _) h.nulFree Stops.nil hdrop
  obtain ⟨c, hs, hb⟩ := hw.parse_eq_done hc hp
  have hit := hb.it_add
  rw [s.length_content] at hit
  exact ⟨_, c, hs, by simpa using hit⟩

/-- Config-mode parsing recovers every document from its text. -/
theorem config_parse_render {d : Doc} (h : d.Ok false) {s : Text} (hw : s.Whole)
    (hc : s.content = utf8 (d.render false)) :
    ∃ fuel c, s.parse .config fuel = .done (d.toVal, c) ∧ c.it = s.cb := h.parse_text hw hc

end Parse

/-- A nested document with a negative integer, a string outside ASCII and an empty map. -/
theorem config_parse_render_nested :
    ∃ fuel c, @Text.parse .ieee
      (.whole (utf8 ['{', '\n', 'b', ':', ' ', '[', '-', '7', ',', '\"', 'é', '\"', ']', '\n', 'a',
        ':', ' ', '{', '\n', '}', '\n', '}']) (by decide)) .config fuel =
      .done (.map [([97], .map []), ([98], .array [.int32 (-7), .string [0xC3, 0xA9]])], c) ∧
        c.it = 23 := by
  let _ := Fpu.ieee
  have hp : IsPlain ['é'] := forall_mem_of_all rfl
  have harr : Doc.Ok false (.arr [.int (-7), .str ['é']]) := by
    apply Doc.Ok.arr
    intro d hd
    rcases List.mem_cons.mp hd with rfl | hd
    · exact .int (by decide) (by decide)
    · obtain rfl := List.mem_singleton.mp hd
      exact .str hp
  have hmap : Doc.Ok false (.map []) := by
    apply Doc.Ok.map (by decide)
    · intro f hf
      cases hf
    · intro f hf
      cases hf
  have hok : Doc.Ok false (.map [(['b'], .arr [.int (-7), .str ['é']]), (['a'], .map [])]) := by
    apply Doc.Ok.map (by decide)
    · intro f hf
      rcases List.mem_cons.mp hf with rfl | hf
      · exact ⟨by decide, forall_mem_of_all rfl⟩
      · obtain rfl := List.mem_singleton.mp hf
        exact ⟨by decide, forall_mem_of_all rfl⟩
    · intro f hf
      rcases List.mem_cons.mp hf with rfl | hf
      · exact harr
      · obtain rfl := List.mem_singleton.mp hf
        exact hmap
  exact config_parse_render hok (Text.whole_isWhole _ _) (Text.content_whole _ _)

end Libacorn
