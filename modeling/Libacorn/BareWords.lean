import Libacorn.Document

/-!
# Bare words

A keyword is recognised by a test for a prefix, before the scanner for strings
runs. A word is therefore read whole unless it starts with `null`, `true` or
`false`; what is left behind the keyword then stays ahead in JSON, and becomes
the second element of an array in config mode (`bare_words_iff`).
-/

namespace Libacorn

open Support

/-! ## Words and keywords -/

/-- A letter of the ASCII alphabet or a hyphen. -/
def isWordChar (c : Char) : Bool := c.isAlpha ∨ c = '-'

/-- A word starts with a letter. -/
structure IsWord (w : List Char) : Prop where
  start : ∃ c cs, w = c :: cs ∧ c.isAlpha = true
  chars : ∀ c ∈ w, isWordChar c = true

/-- The keywords and their vals. -/
def keywords : List (List Char × CVal) :=
  [(['n', 'u', 'l', 'l'], .empty), (['t', 'r', 'u', 'e'], .int32 1),
    (['f', 'a', 'l', 's', 'e'], .int32 0)]

/-- The parser consumes the text and returns it as a STRING val. -/
def ReadsWhole [Fpu] (s : Text) (flags : Flags) : Prop :=
  ∃ fuel c, s.parse flags fuel = .done (.string s.content, c) ∧ c.it = s.cb

/-- The parser takes the head of the text for the keyword: it returns its val right behind it, or an
implicit array that starts with its val. -/
def TakesKeyword [Fpu] (s : Text) (k : List Char) (v : CVal) : Prop :=
  (∃ fuel c, s.parse .jsonOnly fuel = .done (v, c) ∧ c.it = k.length) ∨
    ∃ fuel c u, s.parse .config fuel = .done (u, c) ∧ (u = v ∨ ∃ vs, u = .array (v :: vs))

/-- The character behind the first `n` is neither a letter nor a hyphen. -/
def EndsWord (w : List Char) (n : Nat) : Prop := ∀ c ∈ (w.drop n).head?, isWordChar c = false

/-- A keyword at the start of a text ends where its word ends. -/
def KeywordsEnd (w : List Char) : Prop := ∀ k v, (k, v) ∈ keywords → k <+: w → EndsWord w k.length

/-- Words are read whole in both modes, and keywords are taken only where the word ends. -/
structure BareWords [Fpu] (s : Text) (w : List Char) : Prop where
  whole : IsWord w → (∀ k v, (k, v) ∈ keywords → w ≠ k) → ∀ flags ∈ [Flags.config, Flags.jsonOnly],
    ReadsWhole s flags
  taken : ∀ k v, (k, v) ∈ keywords → k <+: w → TakesKeyword s k v → EndsWord w k.length

theorem forall_keywords {p : List Char → CVal → Prop} (hnull : p ['n', 'u', 'l', 'l'] .empty)
    (htrue : p ['t', 'r', 'u', 'e'] (.int32 1)) (hfalse : p ['f', 'a', 'l', 's', 'e'] (.int32 0)) :
    ∀ k v, (k, v) ∈ keywords → p k v := by
  intro k v hk
  simp only [keywords, List.mem_cons, List.not_mem_nil, or_false, Prod.mk.injEq] at hk
  rcases hk with ⟨rfl, rfl⟩ | ⟨rfl, rfl⟩ | ⟨rfl, rfl⟩
  · exact hnull
  · exact htrue
  · exact hfalse

theorem not_string_of_keyword : ∀ k v, (k, v) ∈ keywords → ∀ b : Bytes, v ≠ .string b :=
  forall_keywords nofun nofun nofun

theorem length_keyword : ∀ k v, (k, v) ∈ keywords → (utf8 k).length = k.length :=
  forall_keywords rfl rfl rfl

/-! ## Characters -/

/-- The first character of a word. -/
structure WordStart (c : Char) : Prop where
  lineBreak : isLineBreak c = false
  space : isSpace c = false
  number : isNumberStart c.toNat = false
  opener : c ≠ '{' ∧ c ≠ '['

theorem isAlpha_wordStart {c : Char} (h : c.isAlpha = true) : WordStart c := by
  have hr := isAlpha_range h
  constructor
  · simp only [isLineBreak, decide_eq_false_iff_not, ← Char.toNat_inj]
    simp at hr ⊢
    omega
  · simp only [isSpace, decide_eq_false_iff_not, ← Char.toNat_inj]
    simp at hr ⊢
    omega
  · simp only [isNumberStart, decide_eq_false_iff_not]
    simp at hr ⊢
    omega
  · simp only [ne_eq, ← Char.toNat_inj]
    simp at hr ⊢
    omega

theorem isWordChar_isKeyChar {c : Char} (h : isWordChar c = true) : isKeyChar c = true := by
  simp only [isWordChar, decide_eq_true_eq] at h
  simp only [isKeyChar, decide_eq_true_eq]
  rcases h with h | h
  · exact Or.inl (by rw [Char.isAlphanum, h, Bool.true_or])
  · exact Or.inr (Or.inr h)

theorem isWordChar_implicit {c : Char} (h : isWordChar c = true) :
    isSpace c = false ∧ endsImplicitArray c.toNat = false := by
  have hr := isKeyChar_range (isWordChar_isKeyChar h)
  simp only [isSpace, endsImplicitArray, decide_eq_false_iff_not, ← Char.toNat_inj]
  simp at hr ⊢
  omega

/-- In a word that is no keyword only the end of a longer word could end one. -/
theorem IsWord.not_prefix {w : List Char} (hw : IsWord w) (hne : ∀ k v, (k, v) ∈ keywords → w ≠ k)
    (h : KeywordsEnd w) {k : List Char} {v : CVal} (hk : (k, v) ∈ keywords) : ¬k <+: w := by
  rintro ⟨rest, rfl⟩
  cases rest with
  | nil => exact hne k v hk (List.append_nil k)
  | cons c rest =>
    -- the character behind the keyword belongs to the word
    have hend := h k v hk (List.prefix_append ..) c (by rw [List.drop_left]; rfl)
    rw [hw.chars c (List.mem_append_right _ (List.mem_cons_self ..))] at hend
    cases hend

theorem IsWord.nulFree {w : List Char} (h : IsWord w) : NulFree w := by
  intro c hc
  have hr := isKeyChar_range (isWordChar_isKeyChar (h.chars c hc))
  simp at hr
  omega

/-! ## The prefix test -/

theorem matchChars_lit {l cs rest : List Char} (hl : ∀ c ∈ l, c.toNat < 256)
    (h : matchChars (lit l) cs = some rest) : cs = l ++ rest := by
  induction l generalizing cs with
  | nil => exact Option.some.inj h
  | cons c l ih =>
    cases cs with
    | nil => cases h
    | cons d cs =>
      rw [matchChars_lit_cons (hl c (List.mem_cons_self ..))] at h
      split_ifs at h with hd
      rw [hd, ih (fun c hc => hl c (List.mem_cons_of_mem _ hc)) h]
      rfl

theorem keywordChars_mem {cs : List Char} {r : CVal × List Char} (h : keywordChars cs = some r) :
    ∃ k v, (k, v) ∈ keywords ∧ cs = k ++ r.2 := by
  unfold keywordChars at h
  split at h
  · obtain ⟨rest, hm, rfl⟩ := Option.map_eq_some_iff.mp h
    exact ⟨_, _, List.mem_cons_self .., matchChars_lit (forall_mem_of_all rfl) hm⟩
  · obtain ⟨rest, hm, rfl⟩ := Option.map_eq_some_iff.mp h
    exact ⟨_, _, List.mem_cons_of_mem _ (List.mem_cons_self ..),
      matchChars_lit (forall_mem_of_all rfl) hm⟩
  · obtain ⟨rest, hm, rfl⟩ := Option.map_eq_some_iff.mp h
    exact ⟨_, _, List.mem_cons_of_mem _ (List.mem_cons_of_mem _ (List.mem_cons_self ..)),
      matchChars_lit (forall_mem_of_all rfl) hm⟩
  · cases h

theorem keywordChars_append (rest : List Char) :
    ∀ k v, (k, v) ∈ keywords → keywordChars (k ++ rest) = some (v, rest) :=
  forall_keywords rfl rfl rfl

/-- An implicit array that has been started stays an array. -/
theorem parseImplicit_array {value : Scan (List Char) CVal} {m n : Nat} {vec : List CVal}
    {cs : List Char} {r : CVal × List Char}
    (h : parseImplicit charReader value m n (.array vec) cs = .done r) :
    ∃ vec', r.1 = .array vec' := by
  induction n generalizing vec cs with
  | zero => cases h
  | succ n ih =>
    obtain ⟨u, cs₁, -, h⟩ := Scan.bind_eq_done h
    obtain ⟨ch, cs₂, -, h⟩ := Scan.bind_eq_done h
    split_ifs at h with hend
    · obtain rfl := Outcome.done.inj h
      exact ⟨vec, rfl⟩
    · obtain ⟨elem, cs₃, -, h⟩ := Scan.bind_eq_done h
      exact ih h

section Parse

variable [Fpu] {s : Text} {w : List Char}

/-- The scanner for strings reads a word that starts with no keyword. -/
theorem parse_word (hw : IsWord w) (hk : keywordChars w = none) (json : Bool) {n : Nat}
    (hn : w.length + 3 ≤ n) :
    parse charReader (n + 1) ⟨json, false⟩ w = .done (.string (utf8 w), []) := by
  obtain ⟨c, cs, rfl, hc⟩ := hw.start
  have hstart := isAlpha_wordStart hc
  have hkey := fun d hd => isKeyChar_bare (isWordChar_isKeyChar (hw.chars d hd))
  have hparsed : parsedString (c :: cs) = (c :: cs, []) := by
    have hbare := stringChars_bare_append (fun d hd => ⟨(hkey d hd).1, (hkey d hd).2.2⟩)
      (show stringChars false [] = ([], []) from rfl)
    rw [List.append_nil] at hbare
    rw [parsedString_bare (hkey c (List.mem_cons_self ..)).2.1, hbare]
  apply parse_of_parseValue Stops.nil nofun (by simp only [List.length_nil]; omega)
  intro more
  rw [parseValue_cons (by omega) hw.nulFree, dropBlanks_start_cons hstart.lineBreak hstart.space]
  simp only [hstart.opener.1, hstart.opener.2, hstart.number, Bool.false_eq_true, ↓reduceIte, hk,
    hparsed]

/-- The keyword is taken whatever follows it. -/
theorem parse_keyword (rest : List Char) :
    ∀ k v, (k, v) ∈ keywords → parse charReader 2 .jsonOnly (k ++ rest) = .done (v, rest) :=
  forall_keywords rfl rfl rfl

theorem takesKeyword (hs : s.Whole) (hc : s.content = utf8 w) {k : List Char} {v : CVal}
    (hk : (k, v) ∈ keywords) (hpre : k <+: w) : TakesKeyword s k v := by
  left
  obtain ⟨rest, rfl⟩ := hpre
  obtain ⟨c, hparse, hbefore⟩ := hs.parse_eq_done hc (parse_keyword rest k v hk)
  have hit := hbefore.it_add
  rw [hc, utf8_append, List.length_append, length_keyword k v hk] at hit
  exact ⟨2, c, hparse, by omega⟩

/-- What is left of a word behind a keyword becomes the second element of an array. -/
theorem parse_config_keyword {k : List Char} {v : CVal} (hk : (k, v) ∈ keywords) {c : Char}
    {cs : List Char} (hw : IsWord (k ++ c :: cs)) {n : Nat} {r : CVal × List Char}
    (h : parse charReader n .config (k ++ c :: cs) = .done r) : ∃ vec, r.1 = .array vec := by
  obtain ⟨d, ds, hsplit, hd⟩ := hw.start
  have hstart := isAlpha_wordStart hd
  obtain ⟨hspace, hend⟩ := isWordChar_implicit
    (hw.chars c (List.mem_append_right _ (List.mem_cons_self ..)))
  have hz := hw.nulFree
  have hzc : NulFree (c :: cs) := hz.of_suffix (List.suffix_append ..)
  have hkeyword := keywordChars_append (c :: cs) k v hk
  have hlen : (c :: cs).length ≤ (k ++ c :: cs).length := (List.suffix_append ..).length_le
  -- enough fuel for the equations of the loops
  have hmore := (parse_le charReader (show n ≤ n + (k ++ c :: cs).length + 4 by omega) .config
    (k ++ c :: cs)).eq_of_done h
  rw [hsplit] at hmore hkeyword hz hlen
  rw [show n + (d :: ds).length + 4 = n + (d :: ds).length + 2 + 1 + 1 by omega, parse,
    parseValue_cons (by omega) hz, dropBlanks_start_cons hstart.lineBreak hstart.space] at hmore
  simp only [hstart.opener.1, hstart.opener.2, hstart.number, Bool.false_eq_true, ↓reduceIte,
    hkeyword, Flags.config, and_self] at hmore
  have hdrop : dropSpaces (c :: cs) =
      c :: cs := by rw [dropSpaces, List.dropWhile_cons, if_neg (by simp [hspace])]
  rw [parseImplicit_succ (by omega) hzc, hdrop] at hmore
  simp only [hend, Bool.false_eq_true, ↓reduceIte] at hmore
  obtain ⟨elem, -, hrest⟩ := Outcome.bind_eq_done hmore
  exact parseImplicit_array hrest

/-- In either mode a word is read whole exactly if no keyword starts it. -/
theorem readsWhole_iff (hs : s.Whole) (hc : s.content = utf8 w) (hw : IsWord w)
    (hne : ∀ k v, (k, v) ∈ keywords → w ≠ k) (json : Bool) :
    ReadsWhole s ⟨json, false⟩ ↔ KeywordsEnd w := by
  constructor
  · rintro ⟨fuel, c, hrun, hit⟩ k v hk ⟨rest, rfl⟩
    exfalso
    cases rest with
    | nil => exact hne k v hk (List.append_nil k)
    | cons d rest =>
      cases json with
      | true =>
        obtain ⟨c', hkey, -⟩ := hs.parse_eq_done hc (parse_keyword (d :: rest) k v hk)
        have heq := parse_returns_unique s.reader .jsonOnly ⟨fuel, hrun⟩ ⟨2, hkey⟩
        exact not_string_of_keyword k v hk _ (congrArg Prod.fst heq).symm
      | false =>
        obtain ⟨left, hchars⟩ := hs.parse_chars hc hrun
        obtain ⟨vec, hvec⟩ := parse_config_keyword hk hw hchars
        cases hvec
  · intro h
    have hk : keywordChars w = none := by
      cases hkw : keywordChars w with
      | none => rfl
      | some r =>
        obtain ⟨k, v, hmem, hsplit⟩ := keywordChars_mem hkw
        exact absurd ⟨r.2, hsplit.symm⟩ (hw.not_prefix hne h hmem)
    obtain ⟨c, hparse, hbefore⟩ := hs.parse_eq_done hc (parse_word hw hk json (Nat.le_refl _))
    have hit := hbefore.it_add
    rw [utf8_nil, List.length_nil, Nat.add_zero, s.length_content] at hit
    rw [← hc] at hparse
    exact ⟨_, c, hparse, hit⟩

/-- Words are read whole and keywords end where their word ends, exactly in the texts that do not
start with a keyword that a letter or a hyphen follows; for words each mode alone decides it. -/
theorem bare_words_iff (hs : s.Whole) (hc : s.content = utf8 w) :
    (BareWords s w ↔ KeywordsEnd w) ∧
      (IsWord w → (∀ k v, (k, v) ∈ keywords → w ≠ k) → ∀ flags ∈ [Flags.config, Flags.jsonOnly],
        (ReadsWhole s flags ↔ KeywordsEnd w)) := by
  have hwords : IsWord w → (∀ k v, (k, v) ∈ keywords → w ≠ k) →
      ∀ flags ∈ [Flags.config, Flags.jsonOnly],
      (ReadsWhole s flags ↔ KeywordsEnd w) := by
    intro hw hne flags hflags
    simp only [List.mem_cons, List.not_mem_nil, or_false] at hflags
    rcases hflags with rfl | rfl
    · exact readsWhole_iff hs hc hw hne false
    · exact readsWhole_iff hs hc hw hne true
  refine ⟨?_, hwords⟩
  constructor
  · intro h k v hk hpre
    exact h.taken k v hk hpre (takesKeyword hs hc hk hpre)
  · intro h
    constructor
    · intro hw hne flags hflags
      exact (hwords hw hne flags hflags).mpr h
    · intro k v hk hpre _
      exact h k v hk hpre

end Parse

/-- A word that starts with some letters of a keyword. -/
theorem bare_words_nul :
    letI := Fpu.ieee
    ReadsWhole (.whole (utf8 ['n', 'u', 'l', '-', 'x']) (by decide)) .config ∧
      ReadsWhole (.whole (utf8 ['n', 'u', 'l', '-', 'x']) (by decide)) .jsonOnly := by
  let _ := Fpu.ieee
  have hword : IsWord ['n', 'u', 'l', '-', 'x'] := ⟨⟨_, _, rfl, by decide⟩, forall_mem_of_all rfl⟩
  have hne : ∀ k v, (k, v) ∈ keywords → ['n', 'u', 'l', '-', 'x'] ≠ k :=
    forall_keywords (by decide) (by decide) (by decide)
  have hends : KeywordsEnd ['n', 'u', 'l', '-', 'x'] :=
    forall_keywords (fun h => absurd h (by decide)) (fun h => absurd h (by decide))
      (fun h => absurd h (by decide))
  have hread := (bare_words_iff (Text.whole_isWhole _ _) (Text.content_whole _ (by decide))).1.mpr
      hends
  exact ⟨hread.whole hword hne .config (by decide), hread.whole hword hne .jsonOnly (by decide)⟩

/-- `nullable` is not read whole: JSON takes `null` and leaves the rest, and config mode makes an
array of both. -/
theorem bare_words_fail :
    letI := Fpu.ieee
    let w := ['n', 'u', 'l', 'l', 'a', 'b', 'l', 'e']
    let s := Text.whole (utf8 w) (by decide)
    IsWord w ∧ ¬BareWords s w ∧ (∃ c, s.parse .jsonOnly 16 = .done (.empty, c) ∧ c.it = 4) ∧
      ∃ c, s.parse .config 16 = .done (.array [.empty, .string [0x61, 0x62, 0x6C, 0x65]], c) := by
  let _ := Fpu.ieee
  intro w s
  have hs : s.Whole := Text.whole_isWhole _ _
  have hc : s.content = utf8 w := Text.content_whole _ (by decide)
  have hmem : (['n', 'u', 'l', 'l'], Val.empty) ∈ keywords := List.mem_cons_self ..
  have hpre : ['n', 'u', 'l', 'l'] <+: w := by decide
  refine ⟨⟨⟨_, _, rfl, by decide⟩, forall_mem_of_all rfl⟩, ?_, ?_, ?_⟩
  · intro h
    have hend := h.taken _ _ hmem hpre (takesKeyword hs hc hmem hpre)
    cases hend 'a' rfl
  · obtain ⟨c, hrun, hbefore⟩ := hs.parse_eq_done hc
      (show parse charReader 16 .jsonOnly w = .done (.empty, ['a', 'b', 'l', 'e']) from rfl)
    have hit : c.it + 4 = 8 := hbefore.it_add
    exact ⟨c, hrun, by omega⟩
  · obtain ⟨c, hrun, -⟩ := hs.parse_eq_done hc
      (show parse charReader 16 .config w =
        .done (.array [.empty, .string [0x61, 0x62, 0x6C, 0x65]], []) from rfl)
    exact ⟨c, hrun⟩

end Libacorn
