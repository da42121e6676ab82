import Libacorn.Json

/-!
# Arrays of strings and empty slots in JSON

`toJson` puts the content of a string between quotes as it is, and prints nothing for
an EMPTY val. `json_slots_iff` says which arrays of strings and EMPTY vals `parse`
reads back.
-/

namespace Libacorn

open Support

/-! ## The quoted string that is read -/

/-- How a quoted string `r` that was read compares with the characters `a` up to the
first quote: no quote was read and nothing more than `a`, or an escaped quote was. -/
def ReadUpTo (a r : List Char) : Prop :=
  ('\"' ∉ r ∧ r.length ≤ a.length ∧ (r.length = a.length → '\\' ∉ a)) ∨
    ∃ p q, r = p ++ '\"' :: q ∧ p.length < a.length

theorem ReadUpTo.nil : ReadUpTo [] [] := Or.inl ⟨nofun, Nat.le_refl 0, fun _ => nofun⟩

theorem ReadUpTo.cons {a r : List Char} (h : ReadUpTo a r) {c : Char} (hq : c ≠ '\"')
    (hb : c ≠ '\\') :
    ReadUpTo (c :: a) (c :: r) := by
  rcases h with ⟨hr, hle, hplain⟩ | ⟨p, q, rfl, hlt⟩
  · refine Or.inl ⟨?_, Nat.succ_le_succ hle, ?_⟩
    · intro hmem
      rcases List.mem_cons.mp hmem with rfl | hmem
      · exact hq rfl
      · exact hr hmem
    · intro hlen hmem
      rcases List.mem_cons.mp hmem with rfl | hmem
      · exact hb rfl
      · exact hplain (Nat.succ.inj hlen) hmem
  · exact Or.inr ⟨c :: p, q, rfl, Nat.succ_lt_succ hlt⟩

/-- An escape reads two characters and keeps at most one. -/
theorem ReadUpTo.escape {a r : List Char} (h : ReadUpTo a r) (d : Char) {k : List Char}
    (hk : k.length ≤ 1) (hq : '\"' ∉ k) : ReadUpTo ('\\' :: d :: a) (k ++ r) := by
  rcases h with ⟨hr, hle, -⟩ | ⟨p, q, rfl, hlt⟩
  · refine Or.inl ⟨?_, ?_, ?_⟩
    · intro hmem
      rcases List.mem_append.mp hmem with hmem | hmem
      · exact hq hmem
      · exact hr hmem
    · simp only [List.length_append, List.length_cons]
      omega
    · intro hlen
      simp only [List.length_append, List.length_cons] at hlen
      omega
  · refine Or.inr ⟨k ++ p, q, (List.append_assoc ..).symm, ?_⟩
    simp only [List.length_append, List.length_cons]
    omega

theorem stringChars_readUpTo (b : List Char) :
    ∀ {a : List Char}, '\"' ∉ a → ReadUpTo a (stringChars true (a ++ '\"' :: b)).1
  | [], _ => by
    have hend : stringChars true ('\"' :: b) = ([], b) := stringChars_cons true (by decide) b
    rw [List.nil_append, hend]
    exact .nil
  | [c], h => by
    by_cases hc : c = '\\'
    · -- the quote itself is escaped
      subst hc
      exact Or.inr ⟨[], _, rfl, Nat.zero_lt_one⟩
    · have hq : c ≠ '\"' := fun hcq => h (hcq ▸ List.mem_cons_self ..)
      have hend : stringChars true ('\"' :: b) = ([], b) := stringChars_cons true (by decide) b
      rw [List.cons_append, stringChars_cons true hc, List.nil_append, hend]
      simp only [Bool.true_eq_false, false_and, hq, and_false, ↓reduceIte]
      exact ReadUpTo.nil.cons hq hc
  | c :: d :: a, h => by
    have hq : c ≠ '\"' := fun hcq => h (hcq ▸ List.mem_cons_self ..)
    have htail : '\"' ∉ d :: a := fun hmem => h (List.mem_cons_of_mem c hmem)
    by_cases hc : c = '\\'
    · subst hc
      have ih := stringChars_readUpTo b (fun hmem => htail (List.mem_cons_of_mem d hmem))
      rw [List.cons_append, List.cons_append, stringChars]
      split
      · have hd : '\"' ∉ [if d = 'n' then '\n' else d] := by
          intro hmem
          have hdq := List.mem_singleton.mp hmem
          split at hdq
          · cases hdq
          · exact htail (hdq ▸ List.mem_cons_self ..)
        exact ReadUpTo.escape (k := [_]) ih d (Nat.le_refl 1) hd
      · exact ReadUpTo.escape (k := []) ih d (Nat.zero_le 1) List.not_mem_nil
    · have ih := stringChars_readUpTo b htail
      rw [List.cons_append, stringChars_cons true hc]
      simp only [Bool.true_eq_false, false_and, hq, and_false, ↓reduceIte]
      exact ih.cons hq hc

/-- A string that is read back from between quotes has no quote and no backslash. -/
theorem unescaped_of_stringChars {cs rest : List Char}
    (h : (stringChars true (cs ++ '\"' :: rest)).1 = cs) : '\"' ∉ cs ∧ '\\' ∉ cs := by
  have hquote : '\"' ∉ cs := by
    intro hmem
    obtain ⟨a, b, hab, ha⟩ := List.eq_append_cons_of_mem hmem
    have hread := stringChars_readUpTo (b ++ '\"' :: rest) ha
    rw [← List.cons_append, ← List.append_assoc, ← hab, h] at hread
    rcases hread with ⟨hnone, -, -⟩ | ⟨p, q, hpq, hlt⟩
    · exact hnone hmem
    · -- the quote that was read stands before the first one
      have hget : a[p.length]? = some '\"' := by
        rw [← List.getElem?_append_left hlt, ← hab, hpq, List.getElem?_append_right (Nat.le_refl _),
          Nat.sub_self]
        rfl
      exact ha (List.mem_of_getElem? hget)
  refine ⟨hquote, ?_⟩
  have hread := stringChars_readUpTo rest hquote
  rw [h] at hread
  rcases hread with ⟨-, -, hplain⟩ | ⟨p, q, hpq, -⟩
  · exact hplain rfl
  · exact (hquote (hpq ▸ by simp)).elim

/-! ## The elements that are read -/

/-- The loop only adds elements. -/
theorem parseElements_extends {value : Scan (List Char) CVal} {k m : Nat} {cs : List Char}
    {vec vec' : List CVal} {rest : List Char}
    (h : parseElements charReader value k m vec cs = .done (vec', rest)) :
    vec <+: vec' := by
  induction m generalizing vec cs with
  | zero => cases h
  | succ m ih =>
    rw [parseElements] at h
    obtain ⟨ch, t, hpeek, h⟩ := Scan.bind_eq_done h
    split at h
    next =>
      cases h
      exact List.prefix_rfl
    next =>
      obtain ⟨inside, t₁, -, h⟩ := Scan.bind_eq_done h
      split at h
      next =>
        obtain ⟨element, t₂, -, h⟩ := Scan.bind_eq_done h
        obtain ⟨-, t₃, -, h⟩ := Scan.bind_eq_done h
        obtain ⟨sep, t₄, -, h⟩ := Scan.bind_eq_done h
        split at h
        next =>
          obtain ⟨-, t₅, -, h⟩ := Scan.bind_eq_done h
          exact (List.prefix_append vec [element]).trans (ih h)
        next =>
          cases h
          exact List.prefix_append vec [element]
      next =>
        cases h
        exact List.prefix_rfl

theorem parseNextElement_extends {value : Scan (List Char) CVal} {k m : Nat} {cs : List Char}
    {vec vec' : List CVal} {rest : List Char}
    (h : parseNextElement value k m vec cs = .done (vec', rest)) : vec <+: vec' := by
  rw [parseNextElement] at h
  obtain ⟨-, t₁, -, h⟩ := Scan.bind_eq_done h
  obtain ⟨sep, t₂, -, h⟩ := Scan.bind_eq_done h
  split at h
  next =>
    obtain ⟨-, t₃, -, h⟩ := Scan.bind_eq_done h
    exact parseElements_extends h
  next =>
    cases h
    exact List.prefix_rfl

/-- Of two lists that go on after the same elements, the next elements agree. -/
theorem eq_of_prefix_append {α : Type} {l t : List α} {a b : α} (h : l ++ [a] <+: l ++ b :: t) :
    a = b := by
  rw [List.prefix_append_right_inj, List.cons_prefix_cons] at h
  exact h.1

/-! ## Slots -/

/-- The text of an EMPTY val, or of a string. -/
def slotText : Option (List Char) → List Char
  | none => []
  | some cs => '\"' :: (cs ++ ['\"'])

def slotsText : List (Option (List Char)) → List Char
  | [] => []
  | e :: es => slotText e ++ (comma es ++ slotsText es)

def slotVal : Option (List Char) → CVal
  | none => .empty
  | some cs => .string (utf8 cs)

/-- A string without double quote and backslash. -/
def Unescaped (e : Option (List Char)) : Prop := ∃ cs, e = some cs ∧ '\"' ∉ cs ∧ '\\' ∉ cs

section Parse

variable [Fpu] {k : Nat} {cs : List Char}

/-- A val that starts with a quote is a string. -/
theorem parse_quote (hk : ('\"' :: cs).length + 3 ≤ k) (hz : NulFree ('\"' :: cs)) :
    parse charReader k .jsonOnly ('\"' :: cs) =
      .done (.string (utf8 (stringChars true cs).1), (stringChars true cs).2) := by
  obtain ⟨k, rfl⟩ : ∃ l, k = l + 1 := ⟨k - 1, by omega⟩
  have hns : isNumberStart '\"'.toNat = false := by decide
  have hkey : keywordChars ('\"' :: cs) = none := rfl
  rw [parse, parseValue_cons (by omega) hz, dropBlanks_start_cons (by decide) (by decide)]
  simp only [Char.reduceEq, hns, Bool.false_eq_true, ↓reduceIte, hkey]
  rfl

/-- A val that is missing before a comma is an empty string. -/
theorem parse_comma (hk : (',' :: cs).length + 3 ≤ k) (hz : NulFree (',' :: cs)) :
    parse charReader k .jsonOnly (',' :: cs) = .done (.string [], ',' :: cs) := by
  obtain ⟨k, rfl⟩ : ∃ l, k = l + 1 := ⟨k - 1, by omega⟩
  have hns : isNumberStart ','.toNat = false := by decide
  have hkey : keywordChars (',' :: cs) = none := rfl
  have hstr : parsedString (',' :: cs) = ([], ',' :: cs) := parsedString_delimiter cs rfl
  rw [parse, parseValue_cons (by omega) hz, dropBlanks_start_cons (by decide) (by decide)]
  simp only [Char.reduceEq, hns, Bool.false_eq_true, ↓reduceIte, hkey, hstr]
  rfl

/-- Where the loop reads back the slots, each of them is an unescaped string. -/
theorem unescaped_of_parseElements {es : List (Option (List Char))} {m : Nat} {vec : List CVal}
    {rest : List Char} (hz : NulFree (slotsText es ++ [']']))
    (hk : (slotsText es ++ [']']).length + 3 ≤ k)

    (h : parseElements charReader (parse charReader k .jsonOnly) k m vec (slotsText es ++ [']']) =
      .done (vec ++ es.map slotVal, rest)) :
    ∀ e ∈ es, Unescaped e := by
  induction es generalizing m vec with
  | nil => nofun
  | cons e es ih =>
    cases m with
    | zero => cases h
    | succ m =>
      cases e with
      | none =>
        exfalso
        cases es with
        | nil =>
          -- the bracket ends the loop
          rw [slotsText, slotsText, slotText, List.nil_append, comma] at h
          simp only [List.isEmpty_nil, ↓reduceIte, List.nil_append] at h
          rw [parseElements_cons, if_pos rfl] at h
          have hlen := congrArg (fun r => r.1.length) (Outcome.done.inj h)
          simp at hlen
        | cons e' es =>
          have htext : slotsText (none :: e' :: es) ++ [']'] =
              ',' :: (slotsText (e' :: es) ++ [']']) := rfl
          rw [htext] at h hz
          rw [parseElements_cons, if_neg (by decide), parse_comma (htext ▸ hk) hz,
            Outcome.bind_done] at h
          cases eq_of_prefix_append (parseNextElement_extends h)
      | some cs =>
        have htext : slotsText (some cs :: es) ++ [']'] =
            '\"' :: (cs ++ '\"' :: (comma es ++ (slotsText es ++ [']']))) := by
          simp [slotsText, slotText]
        rw [htext] at h hz hk
        rw [parseElements_cons, if_neg (by decide), parse_quote hk hz, Outcome.bind_done] at h
        have hsame := eq_of_prefix_append (parseNextElement_extends h)
        have hread := utf8_injective (Val.string.inj hsame)
        have hunescaped := unescaped_of_stringChars hread
        -- the string is read up to its closing quote
        have hplain : IsPlain cs := by
          intro c hc
          refine ⟨?_, ?_, ?_⟩
          · rintro rfl
            exact hunescaped.1 hc
          · rintro rfl
            exact hunescaped.2 hc
          · exact hz c (List.mem_cons_of_mem _ (List.mem_append_left _ hc))
        have hz' : NulFree (comma es ++ (slotsText es ++ [']'])) :=
          hz.of_suffix ⟨'\"' :: (cs ++ ['\"']), by simp⟩
        simp only [List.length_cons, List.length_append] at hk
        intro e he
        rcases List.mem_cons.mp he with rfl | he
        · exact ⟨cs, rfl, hunescaped⟩
        · cases es with
          | nil => cases he
          | cons e' es =>
            rw [stringChars_quoted hplain] at h
            simp only [comma, List.isEmpty_cons, Bool.false_eq_true, ↓reduceIte, List.cons_append,
              List.nil_append, List.length_cons] at h hz' hk
            rw [parseNextElement_eq (by simp; omega) hz', dropBlanks_start_cons (by decide)
              (by decide)] at h
            simp only [↓reduceIte] at h
            have hrun : parseElements charReader (parse charReader k .jsonOnly) k m
                (vec ++ [.string (utf8 cs)]) (slotsText (e' :: es) ++ [']']) =
                  .done (vec ++ [.string (utf8 cs)] ++ (e' :: es).map slotVal, rest) := by
              rw [List.append_assoc]
              exact h
            exact ih hz'.tail (by simp; omega) hrun e he

/-- Where the whole array is read back, each slot is an unescaped string. -/
theorem unescaped_of_parse {es : List (Option (List Char))}
    (hz : NulFree ('[' :: (slotsText es ++ [']']))) {fuel : Nat} {rest : List Char}

    (h : parse charReader fuel .jsonOnly ('[' :: (slotsText es ++ [']'])) =
      .done (.array (es.map slotVal), rest)) :
    ∀ e ∈ es, Unescaped e := by
  -- the run with more fuel
  have hmore := (parse_le charReader (Nat.le_add_right fuel ((slotsText es).length + 9)) .jsonOnly
    ('[' :: (slotsText es ++ [']']))).eq_of_done h
  obtain ⟨k, hk⟩ : ∃ k, fuel + ((slotsText es).length + 9) = k + 1 :=
    ⟨fuel + (slotsText es).length + 8, by omega⟩
  have hlen : ('[' :: (slotsText es ++ [']'])).length + 2 ≤ k := by
    simp only [List.length_cons, List.length_append, List.length_nil]
    omega
  have hstart : dropBlanks .start (slotsText es ++ [']']) = slotsText es ++ [']'] := by
    cases es with
    | nil => rfl
    | cons e es =>
      cases e with
      | some cs => rfl
      | none => cases es <;> rfl
  rw [hk, parse, parseValue_cons hlen hz, dropBlanks_start_cons (by decide) (by decide)] at hmore
  simp only [Char.reduceEq, ↓reduceIte, hstart] at hmore
  obtain ⟨⟨vec, t⟩, hr, hmore⟩ := Outcome.bind_eq_done hmore
  have hvec : vec = es.map slotVal := Val.array.inj (congrArg Prod.fst (Outcome.done.inj hmore))
  subst hvec
  rw [← List.nil_append (es.map slotVal)] at hr
  exact unescaped_of_parseElements hz.tail (by simpa using hlen) hr

end Parse

/-! ## The vals -/

/-- An EMPTY val, or a string of characters in a NUL-terminated buffer of its own. -/
inductive SlotVal : Val Text → Option (List Char) → Prop
  | empty : SlotVal .empty none
  | string {s : Text} {cs : List Char} (offset_eq : s.offset = 0)
    (mem_eq : s.mem = s.content ++ [0])
      (chars : s.content = utf8 cs) (hz : NulFree cs) : SlotVal (.string s) (some cs)

theorem SlotVal.content {v : Val Text} {e : Option (List Char)} (h : SlotVal v e) :
    v.content = slotVal e := by
  cases h with
  | empty => rw [Val.content, slotVal]
  | string _ _ hc _ => rw [Val.content, slotVal, hc]

theorem SlotVal.nulFree {v : Val Text} {e : Option (List Char)} (h : SlotVal v e) :
    NulFree (slotText e) := by
  cases h with
  | empty => exact fun c hc => nomatch hc
  | string _ _ _ hz =>
    intro c hc
    rcases List.mem_cons.mp hc with rfl | hc
    · decide
    · rcases List.mem_append.mp hc with hc | hc
      · exact hz c hc
      · rw [List.mem_singleton.mp hc]
        decide

section Print

variable [FormatF]

theorem SlotVal.jsonText {v : Val Text} {e : Option (List Char)} (h : SlotVal v e) :
    v.jsonText = some (utf8 (slotText e)) := by
  cases h with
  | empty =>
    rw [Val.jsonText, slotText]
    rfl
  | @string s cs hoffset hmem hc hz =>
    rw [Val.jsonText, Text.printed hoffset hmem hc hz, hc, slotText]
    exact congrArg some (utf8_quote cs).symm

/-- An array of slots, its text and what can be seen of it. -/
theorem slots_spec {vec : List (Val Text)} {es : List (Option (List Char))}
    (h : List.Forall₂ SlotVal vec es) :
    Val.elementsText true vec = some (utf8 (slotsText es)) ∧ Val.contents vec = es.map slotVal ∧
      NulFree (slotsText es) := by
  induction h with
  | nil =>
    refine ⟨?_, ?_, fun c hc => nomatch hc⟩
    · rw [Val.elementsText, slotsText]
      rfl
    · rw [Val.contents]
      rfl
  | @cons v e vec es hv h ih =>
    obtain ⟨htext, hcontents, hz⟩ := ih
    refine ⟨?_, ?_, ?_⟩
    · rw [Val.elementsText, hv.jsonText, elementsText_false, htext, comma_of_length h.length_eq,
        slotsText]
      simp [separator]
    · rw [Val.contents, hv.content, hcontents]
      rfl
    · rw [slotsText]
      exact nulFree_append hv.nulFree (nulFree_append (nulFree_comma es) hz)

end Print

/-- A string without double quote and backslash. -/
def Val.Unescaped (v : Val Text) : Prop := ∃ cs, SlotVal v (some cs) ∧ '\"' ∉ cs ∧ '\\' ∉ cs

theorem exists_slots {vec : List (Val Text)} (h : ∀ v ∈ vec, ∃ e, SlotVal v e) :
    ∃ es, List.Forall₂ SlotVal vec es := by
  induction vec with
  | nil => exact ⟨[], .nil⟩
  | cons v vec ih =>
    obtain ⟨e, he⟩ := h v (List.mem_cons_self ..)
    obtain ⟨es, hes⟩ := ih fun u hu => h u (List.mem_cons_of_mem v hu)
    exact ⟨e :: es, .cons he hes⟩

theorem unescaped_vals {vec : List (Val Text)} {es : List (Option (List Char))}
    (h : List.Forall₂ SlotVal vec es) (he : ∀ e ∈ es, Unescaped e) : ∀ v ∈ vec, v.Unescaped := by
  induction h with
  | nil => nofun
  | @cons v e vec es hv h ih =>
    intro u hu
    rcases List.mem_cons.mp hu with rfl | hu
    · obtain ⟨cs, rfl, hcs⟩ := he e (List.mem_cons_self ..)
      exact ⟨cs, hv, hcs⟩
    · exact ih (fun d hd => he d (List.mem_cons_of_mem e hd)) u hu

theorem Val.Unescaped.jsonVal {v : Val Text} (h : v.Unescaped) : JsonVal v := by
  obtain ⟨cs, hv, hquote, hbackslash⟩ := h
  cases hv with
  | @string s cs hoffset hmem hc hz =>
    refine .string ⟨hoffset, hmem, cs, hc, ?_⟩
    intro c hmem'
    refine ⟨?_, ?_, hz c hmem'⟩
    · rintro rfl
      exact hquote hmem'
    · rintro rfl
      exact hbackslash hmem'

/-! ## The sizes -/

/-- The bytes that a string takes with its quotes and the separator behind it. -/
def Val.slotSize : Val Text → Nat
  | .string s => s.cb + 3
  | _ => 0

def slotsSize (vec : List (Val Text)) : Nat := (vec.map Val.slotSize).sum

section Sizes

variable [FormatF]

theorem Val.Unescaped.exists_text {v : Val Text} (h : v.Unescaped) :
    ∃ text, v.jsonText = some text ∧ text.length + 1 = v.slotSize ∧
      (v.Fits ↔ v.slotSize < 2 ^ 31) := by
  obtain ⟨cs, hv, -⟩ := h
  cases hv with
  | @string s cs hoffset hmem hc hz =>
    have hprinted := Text.printed hoffset hmem hc hz
    refine ⟨quoteBytes s.content, ?_, ?_, ?_⟩
    · rw [Val.jsonText, hprinted]
      rfl
    · rw [length_quoteBytes, s.length_content]
      rfl
    · rw [Val.Fits, Text.printedSize, hprinted, Option.getD_some, s.length_content]
      rfl

theorem exists_elementsText {vec : List (Val Text)} (h : ∀ v ∈ vec, v.Unescaped) :
    ∃ text, Val.elementsText false vec = some text ∧ text.length = slotsSize vec ∧
      (Val.ElementsFit vec ↔ ∀ v ∈ vec, v.slotSize < 2 ^ 31) := by
  induction vec with
  | nil => exact ⟨[], rfl, rfl, iff_of_true trivial (fun v hv => nomatch hv)⟩
  | cons v vec ih =>
    obtain ⟨hv, hvec⟩ := List.forall_mem_cons.mp h
    obtain ⟨text, htext, hlen, hfit⟩ := hv.exists_text
    obtain ⟨rest, hrest, hlens, hfits⟩ := ih hvec
    refine ⟨_, by rw [Val.elementsText, htext, hrest]; rfl, ?_, ?_⟩
    · have hcomma : (separator false).length = 1 := by decide
      rw [List.length_append, List.length_append, hcomma, hlens, slotsSize, slotsSize,
        List.map_cons, List.sum_cons]
      omega
    · rw [Val.ElementsFit, Val.jsonSize, htext, Option.getD_some, hfit, hfits, List.forall_mem_cons]
      constructor
      · rintro ⟨hv, -, hvec⟩
        exact ⟨hv, hvec⟩
      · rintro ⟨hv, hvec⟩
        exact ⟨hv, by omega, hvec⟩

/-- The text of such an array fits exactly where each string and their sum do. -/
theorem fits_array_iff {vec : List (Val Text)} (h : ∀ v ∈ vec, v.Unescaped) :
    (Val.array vec).Fits ↔ (∀ v ∈ vec, v.slotSize < 2 ^ 31) ∧ slotsSize vec + 1 < 2 ^ 32 := by
  have hbrackets : (utf8 ['[']).length = 1 ∧ (utf8 [']']).length = 1 := by decide
  cases vec with
  | nil =>
    exact iff_of_true ⟨trivial, show 2 < 2 ^ 32 by decide⟩ ⟨fun v hv => (nomatch hv), by decide⟩
  | cons v vec =>
    obtain ⟨hv, hvec⟩ := List.forall_mem_cons.mp h
    obtain ⟨all, -, -, hfits⟩ := exists_elementsText h
    obtain ⟨text, htext, hlen, -⟩ := hv.exists_text
    obtain ⟨rest, hrest, hlens, -⟩ := exists_elementsText hvec
    have hjson : (Val.array (v :: vec)).jsonText =
        some (utf8 ['['] ++ (text ++ rest) ++ utf8 [']']) := by
      rw [Val.jsonText, Val.elementsText, htext, hrest]
      rfl
    rw [Val.Fits, hfits, Val.jsonSize, hjson, Option.getD_some, slotsSize, List.map_cons,
      List.sum_cons]
    apply and_congr_right
    intro _
    simp only [List.length_append, hbrackets, hlens, slotsSize]
    omega

end Sizes

/-! ## Reading the array -/

/-- The text is read back as the array, with every slot in its place. -/
def ReadsArray [Fpu] (s : Text) (vec : List (Val Text)) : Prop :=
  ∃ fuel vec' c, s.parse .jsonOnly fuel = .done (.array vec', c) ∧ vec' = Val.contents vec

/-- `toJson` prints the array, and what it printed is read back as the array. -/
def ArraySurvives [Fpu] [FormatF] (vec : List (Val Text)) : Prop :=
  ∃ text, (Val.array vec).toJson = some text ∧ text.length < 2 ^ 32 ∧
    ∀ s : Text, s.Whole → s.content = text → ReadsArray s vec

section Arrays

variable [FormatF] {vec : List (Val Text)} {es : List (Option (List Char))}

/-- What an array of slots prints. -/
theorem jsonText_slots (h : List.Forall₂ SlotVal vec es) :
    (Val.array vec).jsonText = some (utf8 ('[' :: (slotsText es ++ [']']))) := by
  rw [Val.jsonText, (slots_spec h).1, ← List.cons_append, utf8_enclosed]
  rfl

theorem unescaped_of_readsArray [Fpu] (h : List.Forall₂ SlotVal vec es) {s : Text} (hw : s.Whole)
    (hc : s.content = utf8 ('[' :: (slotsText es ++ [']']))) (hreads : ReadsArray s vec) :
    ∀ e ∈ es, Unescaped e := by
  obtain ⟨fuel, vec', c, hrun, rfl⟩ := hreads
  obtain ⟨-, hcontents, hz⟩ := slots_spec h
  obtain ⟨rest, hrest⟩ := hw.parse_chars hc hrun
  rw [hcontents] at hrest
  have hfree : NulFree ('[' :: (slotsText es ++ [']'])) := by
    rw [← List.singleton_append]
    exact nulFree_append (forall_mem_of_all rfl) (nulFree_append hz (forall_mem_of_all rfl))
  exact unescaped_of_parse hfree hrest

theorem ArraySurvives.unescaped [Fpu] (h : List.Forall₂ SlotVal vec es) (hs : ArraySurvives vec) :
    ∀ e ∈ es, Unescaped e := by
  obtain ⟨text, htext, hlt, hreads⟩ := hs
  have hjson := ((Val.toJson_eq_some _).mp htext).1
  rw [jsonText_slots h] at hjson
  have hw := Text.whole_isWhole text hlt
  have hc := Text.content_whole text hlt
  exact unescaped_of_readsArray h hw (hc.trans (Option.some_inj.mp hjson).symm) (hreads _ hw hc)

end Arrays

/-- JSON keeps an array of strings and EMPTY vals, if and only if each of them is a string
without double quote and backslash and the text fits. -/
theorem json_slots_iff [Fpu] [FormatF] {vec : List (Val Text)} (hv : ∀ v ∈ vec, ∃ e, SlotVal v e) :
    ArraySurvives vec ↔
      (∀ v ∈ vec, v.Unescaped) ∧ (∀ v ∈ vec, v.slotSize < 2 ^ 31) ∧ slotsSize vec + 1 < 2 ^ 32 := by
  constructor
  · intro hs
    obtain ⟨es, hes⟩ := exists_slots hv
    have hun := unescaped_vals hes (hs.unescaped hes)
    obtain ⟨text, htext, -⟩ := hs
    exact ⟨hun, (fits_array_iff hun).mp ((Val.toJson_eq_some _).mp htext).2⟩
  · rintro ⟨hun, hsizes⟩
    have hfit := (fits_array_iff hun).mpr hsizes
    have hval := JsonVal.array fun v hv => (hun v hv).jsonVal
    obtain ⟨d, hok, hjson, hd⟩ := hval.exists_doc
    refine ⟨_, (Val.toJson_eq_some _).mpr ⟨hjson, hfit⟩, hval.length_lt hfit hjson, ?_⟩
    intro s hw hs
    obtain ⟨fuel, c, hrun, -⟩ := hok.parse_text hw hs
    rw [hd, Val.content] at hrun
    exact ⟨fuel, _, c, hrun, rfl⟩

theorem slotVal_whole {cs : List Char} (hz : NulFree cs) (hl : (utf8 cs).length < 2 ^ 32) :
    SlotVal (.string (.whole (utf8 cs) hl)) (some cs) :=
  .string rfl (Text.whole_isWhole _ hl).mem_eq (Text.content_whole _ hl) hz

/-- A string with a line break. -/
theorem json_slots_newline :
    @ArraySurvives .ieee .host [.string (.whole (utf8 ['a', '\n']) (by decide))] := by
  let _ := Fpu.ieee
  let _ := FormatF.host
  have hslot : SlotVal (.string (.whole (utf8 ['a', '\n']) (by decide))) (some ['a', '\n']) :=
    slotVal_whole (forall_mem_of_all rfl) _
  apply (json_slots_iff _).mpr
  · refine ⟨?_, ?_, by decide⟩
    · intro v hv
      rw [List.mem_singleton.mp hv]
      exact ⟨_, hslot, by decide, by decide⟩
    · intro v hv
      rw [List.mem_singleton.mp hv]
      decide
  · intro v hv
    rw [List.mem_singleton.mp hv]
    exact ⟨_, hslot⟩

/-- Neither a string that is a double quote nor an empty slot comes back. -/
theorem json_slots_fail :
    ¬@ArraySurvives .ieee .host [.string (.whole (utf8 ['\"']) (by decide))] ∧
      ¬@ArraySurvives .ieee .host [.empty] := by
  let _ := Fpu.ieee
  let _ := FormatF.host
  have hslot : SlotVal (.string (.whole (utf8 ['\"']) (by decide))) (some ['\"']) :=
    slotVal_whole (forall_mem_of_all rfl) _
  constructor
  · intro h
    obtain ⟨cs, hcs, hquote, -⟩ := h.unescaped (.cons hslot .nil) _ (List.mem_singleton_self _)
    cases hcs
    exact hquote (List.mem_singleton_self _)
  · intro h
    obtain ⟨cs, hcs, -⟩ := h.unescaped (.cons .empty .nil) _ (List.mem_singleton_self _)
    cases hcs

end Libacorn
