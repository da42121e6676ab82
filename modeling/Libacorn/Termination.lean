import Libacorn.CharParse

/-!
# Where the parser ends

`skip` follows `parse` over the characters without building values. It ends on
every text; `fault` marks a colon met by the implicit-array loop, the one
character that neither leaves the loop nor is consumed by the value parsed in
it. With fuel above the length of the text `parse` returns where `skip` ends,
and at a fault of `skip` it runs forever.
-/

namespace Libacorn

open Support

/-! ## Following the parser without values -/

/-- From the start of a value to the characters after it, or `fault` at a stray
colon. -/
abbrev Skip := List Char → Outcome (List Char)

/-- The fields of a map; the flag is set where `parse` returns early. -/
def skipFields (json : Bool) (value : Skip) : Nat → List Char → Outcome (Bool × List Char)
  | 0, _ => .timeout
  | _ + 1, [] => .done (false, [])
  | n + 1, c :: cs =>
    if c = '}' then .done (false, c :: cs) else
    let name := parsedString (dropBlanks .start (c :: cs))
    if name.1 = [] then .done (true, name.2) else
    match dropBlanks .start name.2 with
    | [] => .done (true, [])
    | d :: cs =>
      if d = ':' then
        (value cs).bind fun cs =>
          skipFields json value n (dropFieldComma json (dropBlanks .start cs))
      else .done (true, cs)

def skipElements (value : Skip) : Nat → Skip
  | 0, _ => .timeout
  | _ + 1, [] => .done []
  | n + 1, c :: cs =>
    if c = ']' then .done (c :: cs) else
    (value (c :: cs)).bind fun cs =>
      match dropBlanks .start cs with
      | [] => .done []
      | d :: cs => if d = ',' then skipElements value n cs else .done (d :: cs)

/-- The implicit array. At a colon the next element is the empty string, read
without moving, and the loop is back where it was. -/
def skipImplicit (value : Skip) : Nat → Skip
  | 0, _ => .timeout
  | n + 1, cs =>
    match dropSpaces cs with
    | [] => .done []
    | c :: cs =>
      if endsImplicitArray c.toNat then .done (c :: cs)
      else if c = ':' then .fault
      else (value (c :: cs)).bind (skipImplicit value n)

def skipValue (json : Bool) (value rest : Skip) (n : Nat) : Skip
  | [] => .done []
  | c :: cs =>
    match dropBlanks .start (c :: cs) with
    | [] => rest []
    | c :: cs =>
      if c = '{' then
        (skipFields json value n (dropBlanks .start cs)).bind fun r =>
          if r.1 then .done r.2 else rest r.2.tail
      else if c = '[' then
        (skipElements value n (dropBlanks .start cs)).bind fun cs => rest (dropBracket cs)
      else if isNumberStart c.toNat then rest (dropNumber (c :: cs))
      else
        match keywordChars (c :: cs) with
        | some r => rest r.2
        | none => rest (parsedString (c :: cs)).2

/-- Follows `parse` with the same fuel and flags. -/
def skip : Nat → Flags → Skip
  | 0, _ => fun _ => .timeout
  | n + 1, flags =>
    skipValue flags.json (skip n flags)
      (fun cs =>
        if flags.json = false ∧ flags.inImplicitArray = false then
          skipImplicit (skip n { flags with inImplicitArray := true }) n cs
        else .done cs) n

/-! ## More fuel -/

section Mono

variable {value value' : Skip} {n n' : Nat}

theorem skipFields_le (json : Bool) (h : ∀ cs, (value cs).Le (value' cs)) (hn : n ≤ n')
    (cs : List Char) : (skipFields json value n cs).Le (skipFields json value' n' cs) := by
  induction n generalizing n' cs with
  | zero => exact Or.inl rfl
  | succ n ih =>
    obtain ⟨n', rfl⟩ : ∃ m, n' = m + 1 := ⟨n' - 1, by omega⟩
    cases cs with
    | nil => exact Outcome.Le.refl _
    | cons c cs =>
      simp only [skipFields]
      split
      · exact Outcome.Le.refl _
      · split
        · exact Outcome.Le.refl _
        · split
          · exact Outcome.Le.refl _
          · split
            · exact (h _).bind fun cs => ih (by omega) _
            · exact Outcome.Le.refl _

theorem skipElements_le (h : ∀ cs, (value cs).Le (value' cs)) (hn : n ≤ n') (cs : List Char) :
    (skipElements value n cs).Le (skipElements value' n' cs) := by
  induction n generalizing n' cs with
  | zero => exact Or.inl rfl
  | succ n ih =>
    obtain ⟨n', rfl⟩ : ∃ m, n' = m + 1 := ⟨n' - 1, by omega⟩
    cases cs with
    | nil => exact Outcome.Le.refl _
    | cons c cs =>
      simp only [skipElements]
      split
      · exact Outcome.Le.refl _
      · refine (h _).bind fun cs => ?_
        split
        · exact Outcome.Le.refl _
        · split
          · exact ih (by omega) _
          · exact Outcome.Le.refl _

theorem skipImplicit_le (h : ∀ cs, (value cs).Le (value' cs)) (hn : n ≤ n') (cs : List Char) :
    (skipImplicit value n cs).Le (skipImplicit value' n' cs) := by
  induction n generalizing n' cs with
  | zero => exact Or.inl rfl
  | succ n ih =>
    obtain ⟨n', rfl⟩ : ∃ m, n' = m + 1 := ⟨n' - 1, by omega⟩
    simp only [skipImplicit]
    split
    · exact Outcome.Le.refl _
    · split
      · exact Outcome.Le.refl _
      · split
        · exact Outcome.Le.refl _
        · exact (h _).bind fun cs => ih (by omega) cs

theorem skipValue_le {rest rest' : Skip} (json : Bool) (h : ∀ cs, (value cs).Le (value' cs))
    (hr : ∀ cs, (rest cs).Le (rest' cs)) (hn : n ≤ n') (cs : List Char) :
    (skipValue json value rest n cs).Le (skipValue json value' rest' n' cs) := by
  cases cs with
  | nil => exact Outcome.Le.refl _
  | cons c cs =>
    simp only [skipValue]
    split
    · exact hr _
    · split
      · refine (skipFields_le json h hn _).bind fun r => ?_
        split
        · exact Outcome.Le.refl _
        · exact hr _
      · split
        · exact (skipElements_le h hn _).bind fun cs => hr _
        · split
          · exact hr _
          · split
            · exact hr _
            · exact hr _

theorem skip_le (hn : n ≤ n') (flags : Flags) (cs : List Char) :
    (skip n flags cs).Le (skip n' flags cs) := by
  induction n generalizing n' flags cs with
  | zero => exact Or.inl rfl
  | succ n ih =>
    obtain ⟨n', rfl⟩ : ∃ m, n' = m + 1 := ⟨n' - 1, by omega⟩
    simp only [skip]
    refine skipValue_le flags.json (fun cs => ih (by omega) flags cs) (fun cs => ?_) (by omega) cs
    split
    · exact skipImplicit_le (fun cs => ih (by omega) _ cs) (by omega) cs
    · exact Outcome.Le.refl _

end Mono

/-! ## parse ends where skip does -/

/-- The parser's run `x` answers as `y` says, or (only if `P`) has no fuel left
where `y` meets a colon. -/
def Tracks {α β : Type} (P : Prop) (Q : α → Prop) (f : α → β) (x : Outcome α) (y : Outcome β) :
    Prop :=
  (∃ r, x = .done r ∧ y = .done (f r) ∧ Q r) ∨ (P ∧ x = .timeout ∧ y = .fault)

section Tracks

variable {α β α' β' : Type} {P : Prop} {Q : α → Prop} {f : α → β} {Q' : α' → Prop} {f' : α' → β'}

theorem Tracks.done {r : α} (h : Q r) : Tracks P Q f (.done r) (.done (f r)) :=
  Or.inl ⟨r, rfl, rfl, h⟩

theorem Tracks.bind {x : Outcome α} {y : Outcome β} {g : α → Outcome α'} {h : β → Outcome β'}
    (hx : Tracks P Q f x y) (hg : ∀ r, Q r → Tracks P Q' f' (g r) (h (f r))) :
    Tracks P Q' f' (x.bind g) (y.bind h) := by
  rcases hx with ⟨r, rfl, rfl, hr⟩ | ⟨hp, rfl, rfl⟩
  · exact hg r hr
  · exact Or.inr ⟨hp, rfl, rfl⟩

theorem Tracks.mono {x : Outcome α} {y : Outcome β} {Q' : α → Prop} (h : Tracks P Q f x y)
    (hq : ∀ r, Q r → Q' r) : Tracks P Q' f x y := by
  rcases h with ⟨r, hx, hy, hr⟩ | h
  · exact Or.inl ⟨r, hx, hy, hq r hr⟩
  · exact Or.inr h

end Tracks

/-- A value parser that ends where `k` does, on texts of at most `L` characters. -/
def TracksUpTo (P : Prop) (L : Nat) (value : Scan (List Char) CVal) (k : Skip) : Prop :=
  ∀ cs, NulFree cs → cs.length ≤ L → Tracks P (fun r => r.2 <:+ cs) Prod.snd (value cs) (k cs)

section Loops

variable {P : Prop} {L : Nat} {value : Scan (List Char) CVal} {k : Skip} {n m : Nat}
  {cs : List Char}

theorem parseFields_tracks (hv : TracksUpTo P L value k) (json : Bool) (hz : NulFree cs)
    (hL : cs.length ≤ L) (hm : cs.length + 2 ≤ m) (hn : cs.length < n)
    (fields : List (Bytes × CVal)) :
    Tracks P (fun r => r.2 <:+ cs) (fun r => (r.1.2, r.2))
      (parseFields charReader json value m n fields cs) (skipFields json k n cs) := by
  induction n generalizing cs fields with
  | zero => omega
  | succ n ih =>
    cases cs with
    | nil => exact Tracks.done (r := ((fields, false), [])) List.suffix_rfl
    | cons c cs =>
      have hb := dropBlanks_suffix .start (c :: cs)
      have hs := (parsedString_suffix (dropBlanks .start (c :: cs))).trans hb
      have hs' := (dropBlanks_suffix .start (parsedString (dropBlanks .start (c :: cs))).2).trans hs
      rw [parseFields_cons hm hz, skipFields]
      split
      · exact Tracks.done (r := ((fields, false), c :: cs)) List.suffix_rfl
      · dsimp only
        split
        · exact Tracks.done (r := ((fields, true), _)) hs
        · cases h : dropBlanks .start (parsedString (dropBlanks .start (c :: cs))).2 with
          | nil => exact Tracks.done (r := ((fields, true), [])) List.nil_suffix
          | cons d cs' =>
            rw [h] at hs'
            dsimp only
            have hs'' := (List.suffix_cons d cs').trans hs'
            split
            · have hlt : cs'.length < (c :: cs).length := by
                have := hs'.length_le
                simp only [List.length_cons] at this ⊢
                omega
              refine (hv cs' (hz.of_suffix hs'') (by omega)).bind fun r hr => ?_
              have hr' := hr.trans hs''
              have hl := hr.length_le
              have hd := (dropFieldComma_suffix json (dropBlanks .start r.2)).trans
                (dropBlanks_suffix .start r.2)
              have hdl := hd.length_le
              rw [parseNextField_eq (by omega) (hz.of_suffix hr')]
              exact (ih (hz.of_suffix (hd.trans hr')) (by omega) (by omega) (by omega) _).mono
                fun q hq => hq.trans (hd.trans hr')
            · exact Tracks.done (r := ((fields, true), cs')) hs''

theorem parseElements_tracks (hv : TracksUpTo P L value k) (hz : NulFree cs)
    (hL : cs.length ≤ L) (hm : cs.length + 2 ≤ m) (hn : cs.length < n) (vec : List CVal) :
    Tracks P (fun r => r.2 <:+ cs) Prod.snd
      (parseElements charReader value m n vec cs) (skipElements k n cs) := by
  induction n generalizing cs vec with
  | zero => omega
  | succ n ih =>
    cases cs with
    | nil => exact Tracks.done (r := (vec, [])) List.suffix_rfl
    | cons c cs =>
      rw [parseElements_cons, skipElements]
      split
      · exact Tracks.done (r := (vec, c :: cs)) List.suffix_rfl
      · refine (hv (c :: cs) hz hL).bind fun r hr => ?_
        have hl := hr.length_le
        have hs := (dropBlanks_suffix .start r.2).trans hr
        rw [parseNextElement_eq (by omega) (hz.of_suffix hr)]
        cases h : dropBlanks .start r.2 with
        | nil => exact Tracks.done (r := (vec ++ [r.1], [])) List.nil_suffix
        | cons d cs' =>
          rw [h] at hs
          dsimp only
          have hs' := (List.suffix_cons d cs').trans hs
          split
          · have hlt : cs'.length < (c :: cs).length := by
              have := hs.length_le
              simp only [List.length_cons] at this ⊢
              omega
            exact (ih (hz.of_suffix hs') (by omega) (by omega) (by omega) _).mono
              fun q hq => hq.trans hs'
          · exact Tracks.done (r := (vec ++ [r.1], d :: cs')) hs

/-- A text whose first character is neither blank nor a delimiter: a value read
there consumes something. -/
def StartsValue (cs : List Char) : Prop :=
  ∃ c cs', cs = c :: cs' ∧ isSpace c = false ∧ isLineBreak c = false ∧
    endsBareString c.toNat = false

/-- `rest` is left of `cs` by a value read there. -/
structure Advances (cs rest : List Char) : Prop where
  suffix : rest <:+ cs
  lt : StartsValue cs → rest.length < cs.length

theorem dropBlanks_of_startsValue {c d : Char} {cs cs' : List Char} (h : StartsValue (c :: cs))
    (hd : dropBlanks .start (c :: cs) = d :: cs') :
    d = c ∧ cs' = cs ∧ endsBareString c.toNat = false := by
  obtain ⟨c', cs'', e, hs, hl, hb⟩ := h
  obtain ⟨rfl, rfl⟩ := List.cons.inj e
  simp only [dropBlanks, hs, hl, Bool.false_eq_true, ↓reduceIte] at hd
  obtain ⟨rfl, rfl⟩ := List.cons.inj hd
  exact ⟨rfl, rfl, hb⟩

/-- What `rest` leaves of a suffix that a value has left. -/
theorem Tracks.advances {x : Outcome (CVal × List Char)} {y : Outcome (List Char)}
    {c d : Char} {cs cs' cs₁ : List Char} (hd : dropBlanks .start (c :: cs) = d :: cs')
    (hs : cs₁ <:+ d :: cs') (hlt : endsBareString d.toNat = false → cs₁.length < (d :: cs').length)
    (h : Tracks P (fun r => r.2 <:+ cs₁) Prod.snd x y) :
    Tracks P (fun r => Advances (c :: cs) r.2) Prod.snd x y := by
  have hb := dropBlanks_suffix .start (c :: cs)
  rw [hd] at hb
  refine h.mono fun r hr => ⟨hr.trans (hs.trans hb), fun hv => ?_⟩
  obtain ⟨rfl, rfl, he⟩ := dropBlanks_of_startsValue hv hd
  exact Nat.lt_of_le_of_lt hr.length_le (hlt he)

variable [Fpu]

theorem parseValue_tracks {c : Char} {rest : CVal → Scan (List Char) CVal} {krest : Skip}
    (hz : NulFree (c :: cs)) (hv : TracksUpTo P cs.length value k)
    (hr : ∀ v, TracksUpTo P (c :: cs).length (rest v) krest) (hn : cs.length + 3 ≤ n)
    (json : Bool) :
    Tracks P (fun r => Advances (c :: cs) r.2) Prod.snd
      (parseValue charReader json value rest n (c :: cs)) (skipValue json k krest n (c :: cs)) := by
  have hb := dropBlanks_suffix .start (c :: cs)
  rw [parseValue_cons (by simpa using hn) hz, skipValue]
  cases h : dropBlanks .start (c :: cs) with
  | nil =>
    refine (hr _ [] (by intro c hc; cases hc) (by simp)).mono fun r hs => ?_
    refine ⟨hs.trans List.nil_suffix, fun _ => ?_⟩
    rw [List.suffix_nil.mp hs]
    simp
  | cons d cs' =>
    rw [h] at hb
    have hz' := hz.of_suffix hb
    have hl : (d :: cs').length ≤ (c :: cs).length := hb.length_le
    -- every branch calls `rest` at a proper suffix of `d :: cs'`, unless `d` is a delimiter
    have go {v : CVal} {cs₁ : List Char} (hs : cs₁ <:+ d :: cs')
        (hlt : endsBareString d.toNat = false → cs₁.length < (d :: cs').length) :
        Tracks P (fun r => Advances (c :: cs) r.2) Prod.snd (rest v cs₁) (krest cs₁) :=
      Tracks.advances h hs hlt
        (hr v cs₁ (hz'.of_suffix hs) (Nat.le_trans hs.length_le hl))
    have hbl := dropBlanks_suffix .start cs'
    have hlen := hbl.length_le
    simp only [List.length_cons] at hl
    dsimp only
    split
    · refine (parseFields_tracks hv json (hz'.tail.of_suffix hbl) (by omega) (by omega) (by omega)
        []).bind fun r hr' => ?_
      have hs := (hr'.trans hbl).trans (List.suffix_cons d cs')
      have hle := (hr'.trans hbl).length_le
      dsimp only
      split
      · exact Tracks.advances (x := .done (.map r.1.1, r.2)) h hs
          (fun _ => Nat.lt_succ_of_le hle) (Tracks.done List.suffix_rfl)
      · have hread : ∃ ch, charReader.readChar r.2 = .done (ch, r.2.tail) := by
          cases hr2 : r.2 with
          | nil => exact ⟨0, rfl⟩
          | cons e cs₂ =>
            exact ⟨_, readChar_cons cs₂ ((hz'.of_suffix hs) e (by simp [hr2]))⟩
        obtain ⟨ch, hread⟩ := hread
        rw [hread]
        exact go ((List.tail_suffix r.2).trans hs) fun _ =>
          Nat.lt_succ_of_le ((List.tail_suffix r.2).length_le.trans hle)
    · split
      · refine (parseElements_tracks hv (hz'.tail.of_suffix hbl) (by omega) (by omega) (by omega)
          []).bind fun r hr' => ?_
        have hs := ((dropBracket_suffix r.2).trans hr').trans hbl
        exact go (hs.trans (List.suffix_cons d cs')) fun _ => Nat.lt_succ_of_le hs.length_le
      · split
        · rename_i hnum
          obtain ⟨v, hnumber⟩ := parseNumber_eq (show (d :: cs').length < n by simp; omega) hz'
          rw [hnumber]
          exact go (dropNumber_suffix _) fun _ => dropNumber_lt cs' hnum
        · cases hk : keywordChars (d :: cs') with
          | some r =>
            obtain ⟨l, hpos, hm⟩ := keywordChars_some hk
            have := matchChars_length hm
            exact go (matchChars_suffix hm) fun _ => by omega
          | none => exact go (parsedString_suffix _) fun he => parsedString_lt cs' he

end Loops

section Implicit

variable {value : Scan (List Char) CVal} {k : Skip} {L m : Nat}

/-- The loop never gets past a colon. -/
theorem parseImplicit_colon {cs : List Char} (hz : NulFree (':' :: cs))
    (hm : (':' :: cs).length < m)
    (hc : value (':' :: cs) = .done (.string [], ':' :: cs)) (n : Nat) (v : CVal) :
    parseImplicit charReader value m n v (':' :: cs) = .timeout := by
  induction n generalizing v with
  | zero => rfl
  | succ n ih =>
    have hd : dropSpaces (':' :: cs) = ':' :: cs := by simp [dropSpaces, isSpace]
    have he : endsImplicitArray ':'.toNat = false := by decide
    rw [parseImplicit_succ hm hz, hd]
    simp only [he, Bool.false_eq_true, ↓reduceIte, hc, Outcome.bind_done]
    exact ih _

theorem startsValue_of_dropSpaces {c : Char} {cs cs' : List Char} (h : dropSpaces cs = c :: cs')
    (he : endsImplicitArray c.toNat = false) (hc : c ≠ ':') : StartsValue (c :: cs') := by
  have hs : isSpace c = false := by
    have := List.head?_dropWhile_not isSpace cs
    rw [show cs.dropWhile isSpace = c :: cs' from h] at this
    simpa using this
  simp only [endsImplicitArray, decide_eq_false_iff_not, not_or, Char.toNat_inj] at he
  refine ⟨c, cs', rfl, hs, ?_, ?_⟩
  · simp [isLineBreak, he]
  · simp only [isSpace, decide_eq_false_iff_not, not_or] at hs
    simp only [endsBareString, decide_eq_false_iff_not, not_or, Char.toNat_inj]
    tauto

theorem parseImplicit_tracks
    (hv : ∀ cs, NulFree cs → cs.length ≤ L →
      Tracks False (fun r => Advances cs r.2) Prod.snd (value cs) (k cs))
    (hc : ∀ cs, NulFree (':' :: cs) → (':' :: cs).length ≤ L →
      value (':' :: cs) = .done (.string [], ':' :: cs))
    {n : Nat} {cs : List Char} (hz : NulFree cs) (hL : cs.length ≤ L) (hm : cs.length < m)
    (hn : cs.length < n) (v : CVal) :
    Tracks True (fun r => r.2 <:+ cs) Prod.snd (parseImplicit charReader value m n v cs)
      (skipImplicit k n cs) := by
  induction n generalizing cs v with
  | zero => omega
  | succ n ih =>
    have hs := dropSpaces_suffix cs
    rw [parseImplicit_succ hm hz, skipImplicit]
    cases h : dropSpaces cs with
    | nil => exact Tracks.done (r := (v, [])) List.nil_suffix
    | cons c cs' =>
      rw [h] at hs
      have hz' := hz.of_suffix hs
      have hl := hs.length_le
      dsimp only
      split
      · exact Tracks.done (r := (v, c :: cs')) hs
      · rename_i he
        split
        · rename_i hcolon
          subst hcolon
          have hcv := hc cs' hz' (by omega)
          rw [hcv, Outcome.bind_done, parseImplicit_colon hz' (by omega) hcv]
          exact Or.inr ⟨trivial, rfl, rfl⟩
        · rename_i hcolon
          have hsv := startsValue_of_dropSpaces h (by simpa using he) hcolon
          rcases hv (c :: cs') hz' (by omega) with ⟨r, hx, hy, hr⟩ | ⟨hf, _⟩
          · have hlt := hr.lt hsv
            rw [hx, hy, Outcome.bind_done, Outcome.bind_done]
            exact (ih (hz'.of_suffix hr.suffix) (by omega) (by omega) (by omega) _).mono
              fun q hq => hq.trans (hr.suffix.trans hs)
          · exact hf.elim

end Implicit

section Parse

variable [Fpu]

theorem parse_eq_nil (n : Nat) (flags : Flags) :
    parse charReader (n + 1) flags [] = .done (.empty, []) ∧ skip (n + 1) flags [] = .done [] :=
  ⟨rfl, rfl⟩

/-- Outside the implicit-array loop the parser always ends. -/
theorem parse_tracks_inner (flags : Flags) (hf : flags.json = true ∨ flags.inImplicitArray = true)
    {n : Nat} {cs : List Char} (hz : NulFree cs) (hn : cs.length + 3 ≤ n) :
    Tracks False (fun r => Advances cs r.2) Prod.snd (parse charReader n flags cs)
      (skip n flags cs) := by
  have hne : ¬(flags.json = false ∧ flags.inImplicitArray = false) := by
    rcases hf with h | h <;> simp [h]
  induction n generalizing cs with
  | zero => omega
  | succ n ih =>
    cases cs with
    | nil =>
      obtain ⟨h, h'⟩ := parse_eq_nil n flags
      rw [h, h']
      exact Tracks.done (r := (Val.empty, []))
        ⟨List.suffix_rfl, fun ⟨_, _, e, _⟩ => by cases e⟩
    | cons c cs =>
      simp only [List.length_cons] at hn
      simp only [parse, skip, hne, ↓reduceIte]
      refine parseValue_tracks hz (fun cs' hz' hl => ?_) (fun v cs' _ _ => ?_) (by omega) flags.json
      · exact (ih hz' (by omega)).mono fun r hr => hr.suffix
      · exact Tracks.done List.suffix_rfl

/-- A colon is read as the empty string and stays ahead. -/
theorem parse_colon {flags : Flags} (hf : flags.json = true ∨ flags.inImplicitArray = true)
    {n : Nat} {cs : List Char} (hz : NulFree (':' :: cs)) (hn : cs.length + 4 ≤ n) :
    parse charReader n flags (':' :: cs) = .done (.string [], ':' :: cs) := by
  have hne : ¬(flags.json = false ∧ flags.inImplicitArray = false) := by
    rcases hf with h | h <;> simp [h]
  obtain ⟨n, rfl⟩ : ∃ m, n = m + 1 := ⟨n - 1, by omega⟩
  have hb : dropBlanks .start (':' :: cs) = ':' :: cs := by simp [dropBlanks, isLineBreak, isSpace]
  have hk : keywordChars (':' :: cs) = none := rfl
  have hs := parsedString_delimiter (c := ':') cs (by decide)
  have hnum : isNumberStart ':'.toNat = false := by decide
  rw [parse, parseValue_cons (by simp; omega) hz, hb]
  simp only [hnum, Bool.false_eq_true, hk, hs, hne, ↓reduceIte]
  rfl

/-- In config mode the parser ends where `skip` does, and runs out of any fuel
above the length of the text where `skip` meets a stray colon. -/
theorem parse_tracks {n : Nat} {cs : List Char} (hz : NulFree cs) (hn : cs.length + 4 ≤ n) :
    Tracks True (fun r => r.2 <:+ cs) Prod.snd (parse charReader n .config cs)
      (skip n .config cs) := by
  induction n generalizing cs with
  | zero => omega
  | succ n ih =>
    cases cs with
    | nil =>
      obtain ⟨h, h'⟩ := parse_eq_nil n .config
      rw [h, h']
      exact Tracks.done (r := (Val.empty, [])) List.suffix_rfl
    | cons c cs =>
      simp only [List.length_cons] at hn
      simp only [parse, skip, Flags.config, and_self, ↓reduceIte]
      refine (parseValue_tracks hz (fun cs' hz' hl => ih hz' (by omega)) (fun v cs' hz' hl => ?_)
        (by omega) false).mono fun r hr => hr.suffix
      simp only [List.length_cons] at hl
      exact parseImplicit_tracks (L := cs.length + 1)
        (fun cs'' hz'' hl' => parse_tracks_inner _ (Or.inr rfl) hz'' (by omega))
        (fun cs'' hz'' hl' => parse_colon (Or.inr rfl) hz'' (by simp at hl'; omega))
        hz' hl (by omega) (by omega) v

/-! ## Whole buffers -/

/-- Outside the elements of an implicit array, some value is followed (after
spaces and tabs) by a colon. -/
def StrayColon (cs : List Char) : Prop := skip (cs.length + 4) .config cs = .fault

instance (cs : List Char) : Decidable (StrayColon cs) := inferInstanceAs (Decidable (_ = _))

theorem parse_config_of_strayColon (cs : List Char) (hz : NulFree cs) (h : StrayColon cs)
    (fuel : Nat) : parse charReader fuel .config cs = .timeout := by
  let n := max fuel (cs.length + 4)
  have hskip : skip n .config cs = .fault := by
    rcases skip_le (Nat.le_max_right fuel (cs.length + 4)) .config cs with h' | h'
    · rw [show skip (cs.length + 4) .config cs = .fault from h] at h'
      cases h'
    · exact h'.symm.trans h
  have hn : parse charReader n .config cs = .timeout := by
    rcases parse_tracks hz (Nat.le_max_right fuel (cs.length + 4)) with ⟨r, _, hy, _⟩ | ⟨_, hx, _⟩
    · rw [hskip] at hy
      cases hy
    · exact hx
  rcases parse_le charReader (Nat.le_max_left fuel (cs.length + 4)) .config cs with h' | h'
  · exact h'
  · exact h'.trans hn

theorem parse_config_of_not_strayColon {cs : List Char} (hz : NulFree cs) (h : ¬StrayColon cs) :
    ∃ r, parse charReader (cs.length + 4) .config cs = .done r := by
  rcases parse_tracks hz (Nat.le_refl (cs.length + 4)) with ⟨r, hx, _⟩ | ⟨_, _, hy⟩
  · exact ⟨r, hx⟩
  · exact absurd hy h

/-- On a whole buffer the config parser returns exactly when no value outside an
implicit-array element is followed by a colon. -/
theorem config_parse_terminates_iff {s : Text} (cs : List Char) (hw : s.Whole)
    (hc : s.content = utf8 cs) (hz : NulFree cs) : s.Terminates .config ↔ ¬StrayColon cs := by
  constructor
  · rintro ⟨fuel, r, hr⟩ h
    have ht := (hw.parse_eq_timeout_iff hc).mpr (parse_config_of_strayColon cs hz h fuel)
    rw [ht] at hr
    cases hr
  · intro h
    obtain ⟨⟨v, rest⟩, hr⟩ := parse_config_of_not_strayColon hz h
    obtain ⟨c, hs, _⟩ := hw.parse_eq_done hc hr
    exact ⟨cs.length + 4, (v, c), hs⟩

/-- The JSON parser returns on every whole buffer, and every position of its
cursor is a character boundary of the text. -/
theorem json_parse_terminates_inside {s : Text} (cs : List Char) (hw : s.Whole)
    (hc : s.content = utf8 cs) (hz : NulFree cs) :
    ∃ fuel v c, s.parse .jsonOnly fuel = .done (v, c) ∧
      ∀ o ∈ c.seen, o ≤ s.cb ∧ CharBoundary s.content o := by
  rcases parse_tracks_inner .jsonOnly (Or.inl rfl) hz (Nat.le_refl _) with
    ⟨⟨v, rest⟩, hr, _⟩ | ⟨hf, _⟩
  · obtain ⟨c, hs, hb⟩ := hw.parse_eq_done hc hr
    refine ⟨cs.length + 3, v, c, hs, fun o ho => ⟨?_, hb.seen o ho⟩⟩
    exact s.length_content ▸ (hb.seen o ho).le
  · exact hf.elim

end Parse

/-- A map of a bare string and an implicit array. -/
theorem config_parse_terminates_map :
    @Text.Terminates .ieee (.whole (utf8 ['{', 'a', ':', 'b', ' ', 'c', '}']) (by decide))
      .config := by
  let _ := Fpu.ieee
  exact (config_parse_terminates_iff ['{', 'a', ':', 'b', ' ', 'c', '}']
    (Text.whole_isWhole _ _) (Text.content_whole _ _)
    (forall_mem_of_all rfl)).mpr (by decide +kernel)

/-- The parser never returns on the text `a:b`. -/
theorem config_parse_diverges :
    (Text.whole (utf8 ['a', ':', 'b']) (by decide)).Whole ∧
      (Text.whole (utf8 ['a', ':', 'b']) (by decide)).content = utf8 ['a', ':', 'b'] ∧
      NulFree ['a', ':', 'b'] ∧
      ¬@Text.Terminates .ieee (.whole (utf8 ['a', ':', 'b']) (by decide)) .config := by
  let _ := Fpu.ieee
  refine ⟨Text.whole_isWhole _ _, Text.content_whole _ _, forall_mem_of_all rfl, ?_⟩
  rintro ⟨fuel, r, hr⟩
  have h := parse_config_of_strayColon ['a', ':', 'b'] (forall_mem_of_all rfl)
    (by decide +kernel) fuel
  have ht := ((Text.whole_isWhole _ (by decide)).parse_eq_timeout_iff
    (Text.content_whole _ (by decide))).mpr h
  exact absurd (ht.symm.trans hr) (by simp)

/-- An unclosed object. -/
theorem json_parse_terminates_unclosed :
    ∃ fuel v c, @Text.parse .ieee
        (.whole (utf8 ['{', '\"', 'é', '\"', ':', '[']) (by decide)) .jsonOnly fuel = .done (v, c) ∧
      ∀ o ∈ c.seen, o ≤ 7 ∧ CharBoundary (utf8 ['{', '\"', 'é', '\"', ':', '[']) o := by
  let _ := Fpu.ieee
  have h := json_parse_terminates_inside ['{', '\"', 'é', '\"', ':', '[']
    (Text.whole_isWhole (utf8 ['{', '\"', 'é', '\"', ':', '[']) (by decide))
    (Text.content_whole _ _) (forall_mem_of_all rfl)
  rwa [Text.content_whole] at h

end Libacorn
