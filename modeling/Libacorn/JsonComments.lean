import Libacorn.Json

/-!
# Comments in a JSON text

A comment on a line of its own may stand between any two tokens of a JSON text, except
before a key that follows a comma: there the line break is skipped together with the
comma, by a helper that knows no comments (`json_comments_iff`).
-/

namespace Libacorn

open Support

/-! ## Tokens -/

/-- The tokens of a JSON text. A key is the first of its map, or follows a comma. -/
inductive Token where
  | openBracket
  | closeBracket
  | openBrace
  | closeBrace
  | comma
  | colon
  | int (i : Int)
  | str (cs : List Char)
  | key (first : Bool) (cs : List Char)

def Token.text : Token → List Char
  | .openBracket => ['[']
  | .closeBracket => [']']
  | .openBrace => ['{']
  | .closeBrace => ['}']
  | .comma => [',']
  | .colon => [':']
  | .int i => decimal i
  | .str cs => quote cs
  | .key _ cs => quote cs

/-- A key that follows a comma. -/
def Token.isNextKey : Token → Bool
  | .key first _ => !first
  | _ => false

def commaToken {α : Type} (next : List α) : List Token := if next.isEmpty then [] else [.comma]

mutual

def Doc.tokens : Doc → List Token
  | .int i => [.int i]
  | .str cs => [.str cs]
  | .arr ds => .openBracket :: (Doc.elementTokens ds ++ [.closeBracket])
  | .map fs => .openBrace :: (Doc.fieldTokens true fs ++ [.closeBrace])

def Doc.elementTokens : List Doc → List Token
  | [] => []
  | d :: ds => d.tokens ++ (commaToken ds ++ Doc.elementTokens ds)

def Doc.fieldTokens (first : Bool) : List (List Char × Doc) → List Token
  | [] => []
  | (k, d) :: fs =>
    .key first k :: .colon :: (d.tokens ++ (commaToken fs ++ Doc.fieldTokens false fs))

end

def tokensText (ts : List Token) : List Char := ts.flatMap Token.text

theorem tokensText_append (ts us : List Token) :
    tokensText (ts ++ us) = tokensText ts ++ tokensText us :=
  List.flatMap_append

theorem tokensText_comma {α : Type} (next : List α) :
    tokensText (commaToken next) = comma next := by
  cases next <;> rfl

mutual

/-- The tokens are those of the printed text. -/
theorem Doc.tokensText_tokens : ∀ d : Doc, tokensText d.tokens = d.render true
  | .int i => by rw [Doc.tokens, Doc.render]; exact List.append_nil _
  | .str cs => by rw [Doc.tokens, Doc.render]; exact List.append_nil _
  | .arr ds => by
    have h := Doc.tokensText_elements ds
    rw [Doc.tokens, Doc.render, ← h, ← List.singleton_append, tokensText_append, tokensText_append]
    rfl
  | .map fs => by
    have h := Doc.tokensText_fields true fs
    rw [Doc.tokens, Doc.render, ← h, ← List.singleton_append, tokensText_append, tokensText_append]
    rfl

theorem Doc.tokensText_elements : ∀ ds : List Doc,
    tokensText (Doc.elementTokens ds) = Doc.renderElements true ds
  | [] => by rw [Doc.elementTokens, Doc.renderElements]; rfl
  | d :: ds => by
    rw [Doc.elementTokens, Doc.renderElements, tokensText_append, tokensText_append,
      tokensText_comma, Doc.tokensText_tokens d, Doc.tokensText_elements ds, List.append_assoc]

theorem Doc.tokensText_fields (first : Bool) : ∀ fs : List (List Char × Doc),
    tokensText (Doc.fieldTokens first fs) = Doc.renderFields true fs
  | [] => by rw [Doc.fieldTokens, Doc.renderFields]; rfl
  | (k, d) :: fs => by
    have hcons : ∀ (t : Token) (ts : List Token), tokensText (t :: ts) = t.text ++ tokensText ts :=
      fun _ _ => rfl
    rw [Doc.fieldTokens, Doc.renderFields, hcons, hcons, tokensText_append, tokensText_append,
      tokensText_comma, Doc.tokensText_tokens d, Doc.tokensText_fields false fs]
    simp [Token.text, renderKey, fieldEnd]

end

/-! ## Comments -/

/-- A comment on a line of its own: line breaks before and after it, and spaces. -/
structure Comment where
  before : List Char
  space : List Char
  slashes : Bool
  body : List Char
  after : List Char
  before_ne : before ≠ []
  after_ne : after ≠ []
  breaks : ∀ c ∈ before ++ after, isLineBreak c = true
  blank : ∀ c ∈ space, isSpace c = true
  line : ∀ c ∈ body, isLineBreak c = false ∧ c.toNat ≠ 0

def Comment.marker (c : Comment) : List Char := if c.slashes then ['/', '/'] else ['#']

def Comment.text (c : Comment) : List Char :=
  c.before ++ (c.space ++ (c.marker ++ (c.body ++ c.after)))

/-- A token and the comment before it, if any. -/
abbrev Spaced := Option Comment × Token

def gapText : Option Comment → List Char
  | none => []
  | some c => c.text

/-- The text of tokens with comments between them. -/
def spread (l : List Spaced) : List Char := l.flatMap fun p => gapText p.1 ++ p.2.text

theorem spread_nil : spread [] = [] := rfl

theorem spread_cons (p : Spaced) (l : List Spaced) :
    spread (p :: l) = gapText p.1 ++ (p.2.text ++ spread l) := List.append_assoc ..

theorem spread_append (l m : List Spaced) : spread (l ++ m) = spread l ++ spread m :=
  List.flatMap_append

/-- No comment stands before a key that follows a comma. -/
def Clean (l : List Spaced) : Prop := ∀ p ∈ l, p.2.isNextKey = true → p.1 = none

theorem clean_append {l m : List Spaced} : Clean (l ++ m) ↔ Clean l ∧ Clean m :=
  List.forall_mem_append

/-- A character that starts neither a blank nor a comment. -/
structure TokenStart (c : Char) : Prop where
  lineBreak : isLineBreak c = false
  space : isSpace c = false
  comment : c ≠ '#' ∧ c ≠ '/'

theorem Token.text_cons (t : Token) : ∃ c cs, t.text = c :: cs ∧ TokenStart c := by
  cases t with
  | int i =>
    obtain ⟨c, cs, h, hc⟩ := decimal_cons i
    refine ⟨c, cs, h, ?_⟩
    rcases hc with rfl | hc
    · exact ⟨rfl, rfl, nofun, nofun⟩
    · obtain ⟨hbreak, hspace, -⟩ := digit_valueStart hc
      refine ⟨hbreak, hspace, ?_⟩
      simp only [ne_eq, ← Char.toNat_inj]
      simp at hc ⊢
      omega
  | str cs => exact ⟨_, _, rfl, rfl, rfl, nofun, nofun⟩
  | key first cs => exact ⟨_, _, rfl, rfl, rfl, nofun, nofun⟩
  | _ => exact ⟨_, _, rfl, rfl, rfl, nofun, nofun⟩

theorem dropBlanks_breaks {bs : List Char} (hb : ∀ c ∈ bs, isLineBreak c = true) (cs : List Char) :
    dropBlanks .line (bs ++ cs) = dropBlanks .line cs := by
  induction bs with
  | nil => rfl
  | cons c bs ih =>
    rw [List.cons_append, dropBlanks, if_pos (hb c (List.mem_cons_self ..))]
    exact ih fun d hd => hb d (List.mem_cons_of_mem c hd)

theorem dropBlanks_space {bs : List Char} (hb : ∀ c ∈ bs, isSpace c = true) (cs : List Char) :
    dropBlanks .line (bs ++ cs) = dropBlanks .line cs := by
  induction bs with
  | nil => rfl
  | cons c bs ih =>
    have hc := hb c (List.mem_cons_self ..)
    rw [List.cons_append, dropBlanks]
    simp only [hc, ↓reduceIte]
    rw [ih fun d hd => hb d (List.mem_cons_of_mem c hd)]
    split <;> rfl

theorem dropBlanks_line {bs : List Char} (hb : ∀ c ∈ bs, isLineBreak c = false ∧ c.toNat ≠ 0)
    {c : Char} (hc : isLineBreak c = true) (cs : List Char) :
    dropBlanks .comment (bs ++ c :: cs) = dropBlanks .line cs := by
  induction bs with
  | nil => rw [List.nil_append, dropBlanks, if_pos hc]
  | cons d bs ih =>
    have hd := (hb d (List.mem_cons_self ..)).1
    rw [List.cons_append, dropBlanks, if_neg (by rw [hd]; exact Bool.false_ne_true)]
    exact ih fun e he => hb e (List.mem_cons_of_mem d he)

/-- A comment is skipped where a line break counts. -/
theorem dropBlanks_gap (g : Option Comment) {c : Char} (hc : TokenStart c) (cs : List Char) :
    dropBlanks .start (gapText g ++ c :: cs) = c :: cs := by
  cases g with
  | none => exact dropBlanks_start_cons hc.lineBreak hc.space cs
  | some g =>
    obtain ⟨before, space, slashes, body, after, hbefore, hafter, hbreaks, hblank, hline⟩ := g
    obtain ⟨b, before, rfl⟩ := List.exists_cons_of_ne_nil hbefore
    obtain ⟨a, after, rfl⟩ := List.exists_cons_of_ne_nil hafter
    have hb : ∀ d ∈ before, isLineBreak d = true := fun d hd => hbreaks d (by simp [hd])
    have ha : ∀ d ∈ after, isLineBreak d = true := fun d hd => hbreaks d (by simp [hd])
    have hstop : dropBlanks .line (c :: cs) = c :: cs := by
      simp [dropBlanks, hc.lineBreak, hc.space, hc.comment]
    have hbody : dropBlanks .comment (body ++ a :: (after ++ c :: cs)) = c :: cs := by
      rw [dropBlanks_line hline (hbreaks a (by simp)), dropBlanks_breaks ha, hstop]
    have htext : gapText (some ⟨b :: before, space, slashes, body, a :: after, hbefore, hafter,
        hbreaks, hblank, hline⟩) ++ c :: cs = b :: (before ++ (space ++
          ((if slashes then ['/', '/'] else ['#']) ++ (body ++ a :: (after ++ c :: cs))))) := by
      simp [gapText, Comment.text, Comment.marker]
    rw [htext, dropBlanks, if_pos (hbreaks b (by simp)), dropBlanks_breaks hb,
      dropBlanks_space hblank]
    cases slashes with
    | true => exact hbody
    | false => exact hbody

theorem dropBlanks_spread (p : Spaced) (l : List Spaced) (rest : List Char) :
    dropBlanks .start (spread (p :: l) ++ rest) = p.2.text ++ (spread l ++ rest) := by
  obtain ⟨c, cs, hc, hstart⟩ := p.2.text_cons
  have htext : spread (p :: l) ++ rest = gapText p.1 ++ c :: (cs ++ (spread l ++ rest)) := by
    rw [spread_cons, hc]
    simp
  rw [htext, dropBlanks_gap p.1 hstart, hc]
  rfl

/-- What comes after tokens is what is left of a text that starts with them. -/
theorem suffix_of_spread {l : List Spaced} (hl : l ≠ []) {cs rest : List Char}
    (h : dropBlanks .start cs = dropBlanks .start (spread l ++ rest)) :
    rest <:+ cs ∧ rest.length < cs.length := by
  obtain ⟨p, l, rfl⟩ := List.exists_cons_of_ne_nil hl
  obtain ⟨c, tl, hc, -⟩ := p.2.text_cons
  have hsuf := dropBlanks_suffix .start cs
  rw [h, dropBlanks_spread, hc] at hsuf
  constructor
  · exact List.IsSuffix.trans ⟨c :: tl ++ spread l, by simp⟩ hsuf
  · have hlen := hsuf.length_le
    simp only [List.length_append, List.length_cons] at hlen
    omega

theorem Comment.text_cons (g : Comment) : ∃ b cs, g.text = b :: cs ∧ isLineBreak b = true := by
  obtain ⟨before, space, slashes, body, after, hbefore, hafter, hbreaks, hblank, hline⟩ := g
  obtain ⟨b, before, rfl⟩ := List.exists_cons_of_ne_nil hbefore
  exact ⟨b, _, rfl, hbreaks b (by simp)⟩

theorem stops_gap (g : Option Comment) {c : Char} (hc : endsImplicitArray c.toNat = true)
    (cs : List Char) : Stops (gapText g ++ c :: cs) := by
  cases g with
  | none => exact Stops.cons hc
  | some g =>
    obtain ⟨b, tl, hg, hb⟩ := g.text_cons
    rw [gapText, hg]
    apply Stops.cons
    simp only [isLineBreak, decide_eq_true_eq] at hb
    rcases hb with rfl | rfl <;> rfl

/-- A value does not start with a bracket that closes an array. -/
theorem Doc.tokens_cons (d : Doc) :
    ∃ t ts c cs, d.tokens = t :: ts ∧ t.text = c :: cs ∧ c ≠ ']' := by
  cases d with
  | int i =>
    obtain ⟨c, cs, h, hc⟩ := decimal_cons i
    refine ⟨.int i, [], c, cs, by rw [Doc.tokens], h, ?_⟩
    rcases hc with rfl | hc
    · nofun
    · exact (digit_valueStart hc).bracket
  | str cs => exact ⟨.str cs, [], _, _, by rw [Doc.tokens], rfl, nofun⟩
  | arr ds => exact ⟨_, _, '[', [], by rw [Doc.tokens], rfl, nofun⟩
  | map fs => exact ⟨_, _, '{', [], by rw [Doc.tokens], rfl, nofun⟩

theorem spread_head {d : Doc} {l : List Spaced} {ts : List Token}
    (hl : l.map Prod.snd = d.tokens ++ ts) (rest : List Char) :
    ∃ c cs, spread l ++ rest = c :: cs ∧ c ≠ ']' := by
  obtain ⟨t, ts', c, cs, htokens, htext, hc⟩ := d.tokens_cons
  rw [htokens, List.cons_append] at hl
  obtain ⟨p, l, rfl, rfl, -⟩ := List.map_eq_cons_iff.mp hl
  rw [spread_cons, htext]
  obtain ⟨g, t⟩ := p
  cases g with
  | none => exact ⟨c, _, rfl, hc⟩
  | some g =>
    obtain ⟨b, tl, hg, hb⟩ := g.text_cons
    rw [gapText, hg]
    refine ⟨b, _, rfl, ?_⟩
    rintro rfl
    cases hb

/-! ## A comment that is read as a field -/

/-- The key that the comment `mark n` is read as where comments are not seen. -/
def markKey (n : Nat) : List Char := '#' :: List.replicate n 'x'

theorem mark_line (n : Nat) : ∀ c ∈ List.replicate n 'x' ++ [':', '0'],
    isLineBreak c = false ∧ c.toNat ≠ 0 := by
  intro c hc
  rcases List.mem_append.mp hc with hc | hc
  · rw [(List.mem_replicate.mp hc).2]
    decide
  · simp only [List.mem_cons, List.not_mem_nil, or_false] at hc
    rcases hc with rfl | rfl
    · decide
    · decide

def mark (n : Nat) : Comment where
  before := ['\n']
  space := []
  slashes := false
  body := List.replicate n 'x' ++ [':', '0']
  after := ['\n']
  before_ne := nofun
  after_ne := nofun
  breaks := forall_mem_of_all rfl
  blank := nofun
  line := mark_line n

/-- The comments before keys that follow a comma are marks. -/
def Marked (n : Nat) (l : List Spaced) : Prop :=
  ∀ p ∈ l, p.2.isNextKey = true → p.1 = none ∨ p.1 = some (mark n)

theorem marked_append {n : Nat} {l m : List Spaced} : Marked n (l ++ m) ↔ Marked n l ∧ Marked n m :=
  List.forall_mem_append

theorem marked_cons {n : Nat} {p : Spaced} {l : List Spaced} (h : Marked n (p :: l)) : Marked n l :=
  fun q hq => h q (List.mem_cons_of_mem p hq)

theorem clean_cons {p : Spaced} {l : List Spaced} (hp : p.2.isNextKey = true → p.1 = none) :
    Clean (p :: l) ↔ Clean l := by
  constructor
  · exact fun h q hq => h q (List.mem_cons_of_mem p hq)
  · intro h q hq
    rcases List.mem_cons.mp hq with rfl | hq
    · exact hp
    · exact h q hq

theorem mark_dropWhile (n : Nat) (cs : List Char) :
    (gapText (some (mark n)) ++ cs).dropWhile isWhitespaceChar =
      markKey n ++ ':' :: '0' :: '\n' :: cs := by
  have htext : gapText (some (mark n)) ++ cs = '\n' :: (markKey n ++ ':' :: '0' :: '\n' :: cs) := by
    simp [gapText, mark, Comment.text, Comment.marker, markKey]
  have hb : isWhitespaceChar '\n' = true := rfl
  have hm : isWhitespaceChar '#' = false := rfl
  rw [htext, List.dropWhile_cons_of_pos hb, markKey, List.cons_append, List.dropWhile_cons_of_neg
    (by rw [hm]; nofun)]

theorem parsedString_markKey (n : Nat) (cs : List Char) :
    parsedString (markKey n ++ ':' :: cs) = (markKey n, ':' :: cs) := by
  rw [markKey, List.cons_append, parsedString_bare (by decide), ← List.cons_append]
  apply stringChars_bare
  intro c hc
  rcases List.mem_cons.mp hc with rfl | hc
  · decide
  · rw [(List.mem_replicate.mp hc).2]
    decide

/-! ## What is read -/

/-- The key stands in a map somewhere inside. -/
inductive Mentions (key : Bytes) : CVal → Prop
  | key {fields : List (Bytes × CVal)} {e : Bytes × CVal} (he : e ∈ fields) (h : e.1 = key) :
      Mentions key (.map fields)
  | field {fields : List (Bytes × CVal)} {e : Bytes × CVal} (he : e ∈ fields)
    (h : Mentions key e.2) :
      Mentions key (.map fields)
  | element {vec : List CVal} {v : CVal} (hv : v ∈ vec) (h : Mentions key v) :
    Mentions key (.array vec)

theorem mentions_map {key : Bytes} {fields : List (Bytes × CVal)} :
    Mentions key (.map fields) ↔ ∃ e ∈ fields, e.1 = key ∨ Mentions key e.2 := by
  constructor
  · intro h
    cases h with
    | key he h => exact ⟨_, he, Or.inl h⟩
    | field he h => exact ⟨_, he, Or.inr h⟩
  · rintro ⟨e, he, h | h⟩
    · exact .key he h
    · exact .field he h

/-- A new key hides none. -/
theorem mentions_assign {key k : Bytes} {v : CVal} {fields : List (Bytes × CVal)}
    (hk : ∀ e ∈ fields, e.1 ≠ k) (h : Mentions key (.map fields)) :
    Mentions key (.map (OrderedMap.assign k v fields)) := by
  obtain ⟨e, he, h⟩ := mentions_map.mp h
  exact mentions_map.mpr
    ⟨e, (OrderedMap.assign_perm k v fields hk).mem_iff.mpr (List.mem_cons_of_mem _ he), h⟩

theorem Doc.tokens_ne_nil (d : Doc) : d.tokens ≠ [] := by
  obtain ⟨t, ts, -, -, h, -⟩ := d.tokens_cons
  rw [h]
  nofun

theorem spread_ne_nil {d : Doc} {l : List Spaced} (hl : l.map Prod.snd = d.tokens) : l ≠ [] := by
  rintro rfl
  exact d.tokens_ne_nil hl.symm

theorem closeBracket_start : TokenStart ']' := ⟨rfl, rfl, nofun, nofun⟩
theorem closeBrace_start : TokenStart '}' := ⟨rfl, rfl, nofun, nofun⟩
theorem comma_start : TokenStart ',' := ⟨rfl, rfl, nofun, nofun⟩

/-- Past the blanks, the text starts with the first token of the value. -/
theorem dropBlanks_head {d : Doc} {l : List Spaced} {ts : List Token}
    (hl : l.map Prod.snd = d.tokens ++ ts) (rest : List Char) :
    dropBlanks .start (dropBlanks .start (spread l ++ rest)) = dropBlanks .start
      (spread l ++ rest) ∧
      ∃ c cs, dropBlanks .start (spread l ++ rest) = c :: cs ∧ c ≠ ']' := by
  obtain ⟨t, ts', c, cs, htokens, htext, hc⟩ := d.tokens_cons
  rw [htokens, List.cons_append] at hl
  obtain ⟨p, l, rfl, rfl, -⟩ := List.map_eq_cons_iff.mp hl
  obtain ⟨c', cs', htext', hstart⟩ := p.2.text_cons
  obtain ⟨rfl, rfl⟩ := List.cons.inj (htext.symm.trans htext')
  rw [dropBlanks_spread, htext]
  exact ⟨dropBlanks_start_cons hstart.lineBreak hstart.space _, c, _, rfl, hc⟩

/-- What stands between an opening and a closing token. -/
theorem enclosed_spread {p : Spaced} {l : List Spaced} {a b : Token} {ts : List Token}
    (h : (p :: l).map Prod.snd = a :: (ts ++ [b])) :
    p.2 = a ∧ ∃ l' g, l = l' ++ [(g, b)] ∧ l'.map Prod.snd = ts ∧
      ∀ rest, spread l ++ rest = spread l' ++ (gapText g ++ (b.text ++ rest)) := by
  obtain ⟨ha, hl⟩ := List.cons.inj h
  obtain ⟨l', l₂, rfl, hl', hl₂⟩ := List.map_eq_append_iff.mp hl
  obtain ⟨⟨g, t⟩, l₃, rfl, rfl, hl₃⟩ := List.map_eq_cons_iff.mp hl₂
  obtain rfl := List.map_eq_nil_iff.mp hl₃
  refine ⟨ha, l', g, rfl, hl', ?_⟩
  intro rest
  rw [spread_append, spread_cons, spread_nil]
  simp

theorem clean_enclosed {p : Spaced} {l : List Spaced} {g : Option Comment} {b : Token}
    (hp : p.2.isNextKey = false) (hb : b.isNextKey = false) :
    Clean (p :: (l ++ [(g, b)])) ↔ Clean l := by
  have hlast : Clean [(g, b)] := by
    intro q hq hkey
    rw [List.mem_singleton.mp hq, hb] at hkey
    cases hkey
  rw [clean_cons, clean_append]
  · exact and_iff_left hlast
  · intro hkey
    rw [hp] at hkey
    cases hkey

theorem mem_toVals {d : Doc} {ds : List Doc} (h : d ∈ ds) : d.toVal ∈ Doc.toVals ds := by
  induction ds with
  | nil => cases h
  | cons e ds ih =>
    rw [Doc.toVals]
    rcases List.mem_cons.mp h with rfl | h
    · exact List.mem_cons_self ..
    · exact List.mem_cons_of_mem _ (ih h)

theorem mem_toFields {f : List Char × Doc} {fs : List (List Char × Doc)} (h : f ∈ fs) :
    (utf8 f.1, f.2.toVal) ∈ OrderedMap.ofFields (Doc.toFields fs) := by
  apply (OrderedMap.ofFields_perm _).mem_iff.mpr
  induction fs with
  | nil => cases h
  | cons e fs ih =>
    rw [Doc.toFields]
    rcases List.mem_cons.mp h with rfl | h
    · exact List.mem_cons_self ..
    · exact List.mem_cons_of_mem _ (ih h)

/-! ## A key that no field has -/

theorem length_renderElements {d : Doc} {ds : List Doc} (h : d ∈ ds) :
    (d.render true).length ≤ (Doc.renderElements true ds).length := by
  induction ds with
  | nil => cases h
  | cons e ds ih =>
    rw [Doc.renderElements]
    simp only [List.length_append]
    rcases List.mem_cons.mp h with rfl | h
    · omega
    · have := ih h
      omega

theorem length_renderFields {f : List Char × Doc} {fs : List (List Char × Doc)} (h : f ∈ fs) :
    f.1.length + (f.2.render true).length ≤ (Doc.renderFields true fs).length := by
  induction fs with
  | nil => cases h
  | cons e fs ih =>
    rw [Doc.renderFields]
    simp only [List.length_append]
    rcases List.mem_cons.mp h with rfl | h
    · simp only [renderKey, quote, List.length_append, List.length_cons]
      omega
    · have := ih h
      omega

theorem exists_of_mem_toVals {w : CVal} {ds : List Doc} (h : w ∈ Doc.toVals ds) :
    ∃ d ∈ ds, w = d.toVal := by
  induction ds with
  | nil => simp [Doc.toVals] at h
  | cons e ds ih =>
    rw [Doc.toVals] at h
    rcases List.mem_cons.mp h with rfl | h
    · exact ⟨e, List.mem_cons_self .., rfl⟩
    · obtain ⟨d, hd, rfl⟩ := ih h
      exact ⟨d, List.mem_cons_of_mem e hd, rfl⟩

theorem exists_of_mem_toFields {e : Bytes × CVal} {fs : List (List Char × Doc)}
    (h : e ∈ OrderedMap.ofFields (Doc.toFields fs)) : ∃ f ∈ fs, e = (utf8 f.1, f.2.toVal) := by
  have hmem := (OrderedMap.ofFields_perm _).mem_iff.mp h
  clear h
  induction fs with
  | nil => simp [Doc.toFields] at hmem
  | cons f fs ih =>
    rw [Doc.toFields] at hmem
    rcases List.mem_cons.mp hmem with rfl | hmem
    · exact ⟨f, List.mem_cons_self .., rfl⟩
    · obtain ⟨g, hg, rfl⟩ := ih hmem
      exact ⟨g, List.mem_cons_of_mem f hg, rfl⟩

/-- A key is no longer than the text it stands in. -/
theorem Doc.Ok.length_key {d : Doc} (h : d.Ok true) {key : List Char}
    (hm : Mentions (utf8 key) d.toVal) :
    key.length ≤ (d.render true).length := by
  induction h with
  | int => 
    rw [Doc.toVal, intVal] at hm
    split at hm
    · cases hm
    · cases hm
  | str =>
    rw [Doc.toVal] at hm
    cases hm
  | @arr ds _ ih =>
    rw [Doc.toVal] at hm
    rw [Doc.render]
    cases hm with
    | element hv hm =>
      obtain ⟨d, hd, rfl⟩ := exists_of_mem_toVals hv
      have hkey := ih d hd hm
      have hlen := length_renderElements hd
      simp only [List.length_append, List.length_cons]
      omega
  | @map fs _ _ _ ih =>
    rw [Doc.toVal] at hm
    rw [Doc.render]
    obtain ⟨e, he, hm⟩ := mentions_map.mp hm
    obtain ⟨f, hf, rfl⟩ := exists_of_mem_toFields he
    have hlen := length_renderFields hf
    simp only [List.length_append]
    rcases hm with hm | hm
    · rw [← utf8_injective hm]
      omega
    · have hkey := ih f hf hm
      omega

theorem Doc.Ok.unmarked {d : Doc} (h : d.Ok true) :
    ¬Mentions (utf8 (markKey (d.render true).length)) d.toVal := by
  intro hm
  have hlen := h.length_key hm
  rw [markKey, List.length_cons, List.length_replicate] at hlen
  omega

/-! ## NUL -/

theorem Comment.nulFree (g : Comment) : NulFree g.text := by
  have hbreak : ∀ c ∈ g.before ++ g.after, c.toNat ≠ 0 := by
    intro c hc
    have h := g.breaks c hc
    simp only [isLineBreak, decide_eq_true_eq] at h
    rcases h with rfl | rfl <;> decide
  have hspace : NulFree g.space := by
    intro c hc
    have h := g.blank c hc
    simp only [isSpace, decide_eq_true_eq] at h
    rcases h with rfl | rfl <;> decide
  have hmarker : NulFree g.marker := by
    rw [Comment.marker]
    split
    · exact forall_mem_of_all rfl
    · exact forall_mem_of_all rfl
  have hbefore : NulFree g.before := fun c hc => hbreak c (List.mem_append_left _ hc)
  have hafter : NulFree g.after := fun c hc => hbreak c (List.mem_append_right _ hc)
  have hbody : NulFree g.body := fun c hc => (g.line c hc).2
  exact nulFree_append hbefore
    (nulFree_append hspace (nulFree_append hmarker (nulFree_append hbody hafter)))

theorem nulFree_spread {l : List Spaced} (h : NulFree (tokensText (l.map Prod.snd))) :
    NulFree (spread l) := by
  induction l with
  | nil => nofun
  | cons p l ih =>
    have htext : tokensText ((p :: l).map Prod.snd) = p.2.text ++ tokensText (l.map Prod.snd) := rfl
    rw [htext] at h
    have hgap : NulFree (gapText p.1) := by
      cases p.1 with
      | none => nofun
      | some g => exact g.nulFree
    rw [spread_cons]
    exact nulFree_append hgap (nulFree_append (fun c hc => h c (List.mem_append_left _ hc))
      (ih fun c hc => h c (List.mem_append_right _ hc)))

/-- The text of a field that another one follows. -/
theorem spread_nextField (l₁ l₃ : List Spaced) (g₂ g₃ : Option Comment) (key : List Char)
    (rest : List Char) :
    spread (l₁ ++ (g₂, .comma) :: (g₃, .key false key) :: l₃) ++ rest =
      spread l₁ ++ (gapText g₂ ++ ',' :: (gapText g₃ ++ (quote key ++ (spread l₃ ++ rest)))) := by
  rw [spread_append, spread_cons, spread_cons]
  simp [Token.text]

theorem clean_nextField {l₁ l₃ : List Spaced} {g₂ g₃ : Option Comment} {key : List Char} :
    Clean (l₁ ++ (g₂, .comma) :: (g₃, .key false key) :: l₃) ↔ Clean l₁ ∧ g₃ = none ∧ Clean l₃ := by
  rw [clean_append, clean_cons fun h => by cases h]
  simp [Clean, Token.isNextKey]

/-- What a field and a mark behind it add is not the key of a later field. -/
theorem fresh_nextField {N : Nat} {fs : List (List Char × Doc)} {key : List Char} {d : Doc}
    {w : CVal} {fields fields₂ : List (Bytes × CVal)} (hmark : ∀ f ∈ fs, f.1 ≠ markKey N)
    (hnodup : (((key, d) :: fs).map Prod.fst).Nodup)
    (hfresh : ∀ e ∈ fields, ∀ f ∈ (key, d) :: fs, e.1 ≠ utf8 f.1)
    (hnew : ∀ e ∈ fields₂, e ∈ OrderedMap.assign (utf8 key) w fields ∨ e.1 = utf8 (markKey N)) :
    ∀ e ∈ fields₂, ∀ f ∈ fs, e.1 ≠ utf8 f.1 := by
  intro e he f hf heq
  rcases hnew e he with he | he
  · rcases OrderedMap.mem_assign he with rfl | he
    · have hmem := List.mem_map_of_mem (f := Prod.fst) hf
      rw [← utf8_injective heq] at hmem
      exact (List.nodup_cons.mp hnodup).1 hmem
    · exact hfresh e he f (List.mem_cons_of_mem _ hf) heq
  · exact hmark f hf (utf8_injective (heq.symm.trans he))

section Read

variable [Fpu] {N : Nat}

/-- The text with comments is read as `w`: the document itself, or, where a mark is among
the comments, a val that has its key. -/
def Told (N : Nat) (l : List Spaced) (v w : CVal) : Prop :=
  (Clean l → w = v) ∧ (¬Clean l → Mentions (utf8 (markKey N)) w)

/-- `Parses`, with comments between the tokens. -/
def ParsesSpread (N : Nat) (d : Doc) : Prop :=
  ∀ (l : List Spaced) (n : Nat) (cs rest : List Char), l.map Prod.snd = d.tokens → Marked N l →
    cs.length + 4 ≤ n → NulFree cs → Stops rest →
    dropBlanks .start cs = dropBlanks .start (spread l ++ rest) →
    ∃ w, parse charReader n .jsonOnly cs = .done (w, rest) ∧ Told N l d.toVal w

/-- The mark becomes a field. -/
theorem parseFields_mark {k m : Nat} {cs : List Char}
    (hz : NulFree (markKey N ++ ':' :: '0' :: '\n' :: '\"' :: cs))
    (hk : (markKey N ++ ':' :: '0' :: '\n' :: '\"' :: cs).length + 4 ≤ k)
    (fields : List (Bytes × CVal)) :
    parseFields charReader true (parse charReader k .jsonOnly) k (m + 1) fields
        (markKey N ++ ':' :: '0' :: '\n' :: '\"' :: cs) =
      parseFields charReader true (parse charReader k .jsonOnly) k m
        (OrderedMap.assign (utf8 (markKey N)) (intVal 0) fields) ('\"' :: cs) := by
  have hname := parsedString_markKey N ('0' :: '\n' :: '\"' :: cs)
  have hz' : NulFree ('0' :: '\n' :: '\"' :: cs) := hz.of_suffix ⟨markKey N ++ [':'], by simp⟩
  simp only [List.length_append, List.length_cons] at hk
  have hvalue : parse charReader k .jsonOnly ('0' :: '\n' :: '\"' :: cs) =
      .done (intVal 0, '\n' :: '\"' :: cs) := by
    have hparses : Parses true (.int 0) := parses_int (by decide) (by decide)
    rw [Parses, Doc.render, Doc.toVal] at hparses
    exact hparses k _ ('\n' :: '\"' :: cs) (by simp; omega) hz' (Stops.cons rfl)
      (dropBlanks_start_cons rfl rfl _)
  have hne : markKey N ≠ [] := List.cons_ne_nil _ _
  have hcons : markKey N ++ ':' :: '0' :: '\n' :: '\"' :: cs =
      '#' :: (List.replicate N 'x' ++ ':' :: '0' :: '\n' :: '\"' :: cs) := rfl
  have hquote : dropBlanks .start ('\n' :: '\"' :: cs) = '\"' :: cs := rfl
  have hlen : (markKey N ++ ':' :: '0' :: '\n' :: '\"' :: cs).length + 2 ≤ k := by
    simp only [List.length_append, List.length_cons]
    omega
  rw [hcons] at hz hname hlen ⊢
  rw [parseFields_cons hlen hz, if_neg (by decide), dropBlanks_start_cons rfl rfl, hname]
  simp only [hne, ↓reduceIte, dropBlanks_start_cons (show isLineBreak ':' = false from rfl)
    (show isSpace ':' = false from rfl), hvalue, Outcome.bind_done]
  rw [parseNextField_eq (by simp; omega) hz'.tail, hquote]
  rfl

/-! ## Arrays -/

section Element

variable {k m : Nat} {cs rest : List Char}

/-- An element and its comments, up to what follows it. -/
theorem parseElements_element {d : Doc} (hd : ParsesSpread N d) {l : List Spaced}
    (hl : l.map Prod.snd = d.tokens) (hmark : Marked N l) (hstops : Stops rest)
    (hcs : dropBlanks .start cs = dropBlanks .start (spread l ++ rest))
    (hhead : ∃ c tl, cs = c :: tl ∧ c ≠ ']') (hz : NulFree cs) (hk : cs.length + 4 ≤ k)
    (vec : List CVal) :
    ∃ w, parseElements charReader (parse charReader k .jsonOnly) k (m + 1) vec cs =
        parseNextElement (parse charReader k .jsonOnly) k m (vec ++ [w]) rest ∧
      Told N l d.toVal w := by
  obtain ⟨w, hw, htold⟩ := hd l k cs rest hl hmark hk hz hstops hcs
  refine ⟨w, ?_, htold⟩
  obtain ⟨c, tl, rfl, hc⟩ := hhead
  rw [parseElements_cons, if_neg hc, hw, Outcome.bind_done]

end Element

/-- The elements of an array and the comments between them, up to the closing bracket. -/
theorem parseElements_spread {ds : List Doc} {d : Doc} (hd : ParsesSpread N d)
    (hds : ∀ e ∈ ds, ParsesSpread N e) {l : List Spaced}
    (hl : l.map Prod.snd = Doc.elementTokens (d :: ds)) (hmark : Marked N l)
    (g : Option Comment) {cs rest : List Char}
    (hcs : dropBlanks .start cs = dropBlanks .start (spread l ++ (gapText g ++ ']' :: rest)))
    (hhead : ∃ c tl, cs = c :: tl ∧ c ≠ ']') (hz : NulFree cs) {k m : Nat} (hk : cs.length + 4 ≤ k)
    (hm : cs.length < m) (vec : List CVal) :
    ∃ ws, parseElements charReader (parse charReader k .jsonOnly) k m vec cs =
        .done (vec ++ ws, ']' :: rest) ∧ (Clean l → ws = Doc.toVals (d :: ds)) ∧
      (¬Clean l → ∃ w ∈ ws, Mentions (utf8 (markKey N)) w) := by
  induction ds generalizing d l cs m vec with
  | nil =>
    obtain ⟨m, rfl⟩ : ∃ j, m = j + 1 := ⟨m - 1, by omega⟩
    have htokens : Doc.elementTokens [d] = d.tokens := by
      rw [Doc.elementTokens, Doc.elementTokens]
      exact List.append_nil _
    rw [htokens] at hl
    obtain ⟨hsuf, -⟩ := suffix_of_spread (spread_ne_nil hl) hcs
    obtain ⟨w, hrun, hclean, hmentions⟩ :=
      parseElements_element (m := m) hd hl hmark (stops_gap g rfl _) hcs hhead hz hk vec
    refine ⟨[w], ?_, ?_, ?_⟩
    · have hlen := hsuf.length_le
      rw [hrun, parseNextElement_eq (by omega) (hz.of_suffix hsuf),
        dropBlanks_gap g closeBracket_start]
      rfl
    · intro h
      rw [hclean h, Doc.toVals, Doc.toVals]
    · intro h
      exact ⟨w, List.mem_singleton_self w, hmentions h⟩
  | cons d' ds ih =>
    obtain ⟨m, rfl⟩ : ∃ j, m = j + 1 := ⟨m - 1, by omega⟩
    rw [Doc.elementTokens] at hl
    obtain ⟨l₁, l₂, rfl, hl₁, hl₂⟩ := List.map_eq_append_iff.mp hl
    obtain ⟨⟨g', t⟩, l₃, rfl, rfl, hl₃⟩ := List.map_eq_cons_iff.mp hl₂
    obtain ⟨hmark₁, hmark₂⟩ := marked_append.mp hmark
    -- the text after the element: the comma, the elements that follow and the bracket
    have htext : spread (l₁ ++ (g', .comma) :: l₃) ++ (gapText g ++ ']' :: rest) =
        spread l₁ ++ (gapText g' ++ ',' :: (spread l₃ ++ (gapText g ++ ']' :: rest))) := by
      rw [spread_append, spread_cons]
      simp [Token.text]
    rw [htext] at hcs
    obtain ⟨hsuf, hlt⟩ := suffix_of_spread (spread_ne_nil hl₁) hcs
    obtain ⟨w, hrun, hclean, hmentions⟩ :=
      parseElements_element (m := m) hd hl₁ hmark₁ (stops_gap g' rfl _) hcs hhead hz hk vec
    have hz' := hz.of_suffix hsuf
    have hz₃ : NulFree (spread l₃ ++ (gapText g ++ ']' :: rest)) :=
      hz'.of_suffix ⟨gapText g' ++ [','], by simp⟩
    simp only [List.length_append, List.length_cons] at hlt
    obtain ⟨ws, hws, hcleans, hmentionss⟩ := ih (hds d' (List.mem_cons_self ..))
      (fun e he => hds e (List.mem_cons_of_mem d' he)) hl₃ (marked_cons hmark₂) rfl
      (spread_head hl₃ _) hz₃ (m := m) (by simp only [List.length_append, List.length_cons]; omega)
      (by simp only [List.length_append, List.length_cons]; omega) (vec ++ [w])
    have hiff : Clean (l₁ ++ (g', .comma) :: l₃) ↔ Clean l₁ ∧ Clean l₃ := by
      rw [clean_append, clean_cons fun h => by cases h]
    refine ⟨w :: ws, ?_, ?_, ?_⟩
    · rw [hrun, parseNextElement_eq (by simp only [List.length_append, List.length_cons]; omega)
        hz', dropBlanks_gap g' comma_start]
      simp only [↓reduceIte, hws, List.append_assoc, List.singleton_append]
    · intro h
      obtain ⟨h₁, h₃⟩ := hiff.mp h
      rw [hclean h₁, hcleans h₃, Doc.toVals]
      rfl
    · intro h
      by_cases h₁ : Clean l₁
      · obtain ⟨w', hw', hmem⟩ := hmentionss fun h₃ => h (hiff.mpr ⟨h₁, h₃⟩)
        exact ⟨w', List.mem_cons_of_mem w hw', hmem⟩
      · exact ⟨w, List.mem_cons_self .., hmentions h₁⟩

/-! ## Maps -/

/-- A field and its comments, up to what follows it. -/
theorem parseFields_field {d : Doc} (hd : ParsesSpread N d) {key : List Char} (hne : key ≠ [])
    (hkey : IsPlain key) {l : List Spaced} (hl : l.map Prod.snd = .colon :: d.tokens)
    (hmark : Marked N l) {rest : List Char} (hstops : Stops rest)
    (hz : NulFree (quote key ++ (spread l ++ rest))) {k m : Nat}
    (hk : (quote key ++ (spread l ++ rest)).length + 4 ≤ k) (fields : List (Bytes × CVal)) :
    ∃ w, parseFields charReader true (parse charReader k .jsonOnly) k (m + 1) fields
          (quote key ++ (spread l ++ rest)) =
        parseFields charReader true (parse charReader k .jsonOnly) k m
          (OrderedMap.assign (utf8 key) w fields) (dropFieldComma true (dropBlanks .start rest)) ∧
      Told N l d.toVal w := by
  obtain ⟨⟨g, t⟩, l, rfl, rfl, hl'⟩ := List.map_eq_cons_iff.mp hl
  have hz' := hz.of_suffix ⟨quote key, rfl⟩
  have hzv : NulFree (spread l ++ rest) :=
    hz'.of_suffix ⟨gapText g ++ [':'], by simp [spread_cons, Token.text]⟩
  have hlen : (spread l ++ rest).length + 4 ≤ k := by
    simp only [spread_cons, Token.text, List.length_append] at hk ⊢
    omega
  obtain ⟨w, hw, htold⟩ := hd l k _ rest hl' (marked_cons hmark) hlen hzv hstops rfl
  have hcolon : dropBlanks .start (spread ((g, .colon) :: l) ++ rest) = ':' :: (spread l ++ rest) :=
    dropBlanks_spread _ l rest
  have hname := parsedString_quote hkey (spread ((g, .colon) :: l) ++ rest)
  refine ⟨w, ?_, ?_⟩
  · have hquote : ∀ X, quote key ++ X = '\"' :: (key ++ ['\"'] ++ X) := fun _ => rfl
    rw [hquote] at hz hk hname ⊢
    have hlen' := hk
    rw [parseFields_cons (by omega) hz, if_neg (by decide), dropBlanks_start_cons rfl rfl, hname]
    simp only [hne, ↓reduceIte, hcolon, hw, Outcome.bind_done]
    rw [parseNextField_eq (by simp only [List.length_append] at hlen ⊢; omega)
      (hzv.of_suffix ⟨spread l, rfl⟩)]
  · have hiff : Clean ((g, .colon) :: l) ↔ Clean l := clean_cons fun h => by cases h
    rw [Told, hiff]
    exact htold

/-- Between a comma and the next key stands nothing, or a mark that becomes a field. -/
theorem parseFields_gap {g : Option Comment} (hg : g = none ∨ g = some (mark N)) {tl : List Char}
    (hz : NulFree (gapText g ++ '\"' :: tl)) {k m : Nat}
    (hk : (gapText g ++ '\"' :: tl).length + 4 ≤ k) (fields : List (Bytes × CVal)) :
    ∃ m' fields', m ≤ m' ∧
      parseFields charReader true (parse charReader k .jsonOnly) k (m + 1) fields
          ((gapText g ++ '\"' :: tl).dropWhile isWhitespaceChar) =
        parseFields charReader true (parse charReader k .jsonOnly) k m' fields' ('\"' :: tl) ∧
      (g = none → fields' = fields) ∧
      (g ≠ none ∨ Mentions (utf8 (markKey N)) (.map fields) →
        Mentions (utf8 (markKey N)) (.map fields')) ∧
      ∀ e ∈ fields', e ∈ fields ∨ e.1 = utf8 (markKey N) := by
  rcases hg with rfl | rfl
  · refine ⟨m + 1, fields, Nat.le_succ m, rfl, fun _ => rfl, ?_, fun e he => Or.inl he⟩
    rintro (h | h)
    · exact absurd rfl h
    · exact h
  · have hdrop := mark_dropWhile N ('\"' :: tl)
    have hsuf : markKey N ++ ':' :: '0' :: '\n' :: '\"' :: tl <:+ gapText (some (mark N)) ++
        '\"' :: tl :=
      hdrop ▸ List.dropWhile_suffix _
    have hlen := hsuf.length_le
    refine ⟨m, OrderedMap.assign (utf8 (markKey N)) (intVal 0) fields, Nat.le_refl m, ?_, nofun, ?_,
      ?_⟩
    · rw [hdrop]
      exact parseFields_mark (hz.of_suffix hsuf) (by omega) fields
    · intro _
      exact .key (OrderedMap.mem_assign_self ..) rfl
    · intro e he
      rcases OrderedMap.mem_assign he with rfl | he
      · exact Or.inr rfl
      · exact Or.inl he

omit [Fpu] in
theorem told_assign {l : List Spaced} {v w : CVal} (h : Told N l v w) {key : Bytes}
    {fields : List (Bytes × CVal)} (hfresh : ∀ e ∈ fields, e.1 ≠ key) :
    (Clean l → OrderedMap.assign key w fields = OrderedMap.assign key v fields) ∧
      (¬Clean l ∨ Mentions (utf8 (markKey N)) (.map fields) →
        Mentions (utf8 (markKey N)) (.map (OrderedMap.assign key w fields))) := by
  obtain ⟨hclean, hmentions⟩ := h
  refine ⟨fun hc => by rw [hclean hc], fun h => ?_⟩
  by_cases hc : Clean l
  · rcases h with h | h
    · exact absurd hc h
    · exact mentions_assign hfresh h
  · exact .field (OrderedMap.mem_assign_self ..) (hmentions hc)

/-- The last field, up to the closing brace. -/
theorem parseFields_lastField {d : Doc} (hd : ParsesSpread N d) {key : List Char} (hne : key ≠ [])
    (hkey : IsPlain key) {l : List Spaced} (hl : l.map Prod.snd = .colon :: d.tokens)
    (hmark : Marked N l) (g : Option Comment) {rest : List Char}
    (hz : NulFree (quote key ++ (spread l ++ (gapText g ++ '}' :: rest)))) {k m : Nat}
    (hk : (quote key ++ (spread l ++ (gapText g ++ '}' :: rest))).length + 4 ≤ k)
    (fields : List (Bytes × CVal)) :
    ∃ w, parseFields charReader true (parse charReader k .jsonOnly) k (m + 2) fields
          (quote key ++ (spread l ++ (gapText g ++ '}' :: rest))) =
        .done ((OrderedMap.assign (utf8 key) w fields, false), '}' :: rest) ∧
      Told N l d.toVal w := by
  obtain ⟨w, hrun, htold⟩ := parseFields_field (m := m + 1) hd hne hkey hl hmark
    (stops_gap g rfl rest) hz hk fields
  have hdrop : dropFieldComma true (dropBlanks .start (gapText g ++ '}' :: rest)) =
      '}' :: rest := by
    rw [dropBlanks_gap g closeBrace_start]
    rfl
  have hzr : NulFree ('}' :: rest) := hz.of_suffix ⟨quote key ++ (spread l ++ gapText g), by simp⟩
  have hlr : ('}' :: rest).length + 2 ≤ k := by
    simp only [List.length_append, List.length_cons] at hk ⊢
    omega
  exact ⟨w, by rw [hrun, hdrop, parseFields_cons hlr hzr, if_pos rfl], htold⟩

/-- A field with another one behind it, up to the key of that one. -/
theorem parseFields_nextField {d : Doc} (hd : ParsesSpread N d) {key : List Char} (hne : key ≠ [])
    (hkey : IsPlain key) {l : List Spaced} (hl : l.map Prod.snd = .colon :: d.tokens)
    (hmark : Marked N l) (g₂ : Option Comment) {g₃ : Option Comment}
    (hg₃ : g₃ = none ∨ g₃ = some (mark N)) {t : List Char}
    (hz : NulFree (quote key ++ (spread l ++ (gapText g₂ ++ ',' :: (gapText g₃ ++ '\"' :: t)))))
    {k m : Nat} (hk : (quote key ++
      (spread l ++ (gapText g₂ ++ ',' :: (gapText g₃ ++ '\"' :: t)))).length + 4 ≤ k)
    {fields : List (Bytes × CVal)} (hfresh : ∀ e ∈ fields, e.1 ≠ utf8 key) :
    ∃ m' w fields₂, m ≤ m' ∧
      parseFields charReader true (parse charReader k .jsonOnly) k (m + 2) fields
          (quote key ++ (spread l ++ (gapText g₂ ++ ',' :: (gapText g₃ ++ '\"' :: t)))) =
        parseFields charReader true (parse charReader k .jsonOnly) k m' fields₂ ('\"' :: t) ∧
      (∀ e ∈ fields₂, e ∈ OrderedMap.assign (utf8 key) w fields ∨ e.1 = utf8 (markKey N)) ∧
      (Clean l → g₃ = none → fields₂ = OrderedMap.assign (utf8 key) d.toVal fields) ∧
      (¬Clean l ∨ g₃ ≠ none ∨ Mentions (utf8 (markKey N)) (.map fields) →
        Mentions (utf8 (markKey N)) (.map fields₂)) := by
  obtain ⟨w, hrun, htold⟩ := parseFields_field (m := m + 1) hd hne hkey hl hmark
    (stops_gap g₂ rfl _) hz hk fields
  obtain ⟨hclean, hmentions⟩ := told_assign htold hfresh
  have hz₃ : NulFree (gapText g₃ ++ '\"' :: t) :=
    hz.of_suffix ⟨quote key ++ (spread l ++ (gapText g₂ ++ [','])), by simp⟩
  have hk₃ : (gapText g₃ ++ '\"' :: t).length + 4 ≤ k := by
    simp only [List.length_append, List.length_cons] at hk ⊢
    omega
  obtain ⟨m', fields₂, hm', hgap, hnone, hsome, hnew⟩ :=
    parseFields_gap (m := m) hg₃ hz₃ hk₃ (OrderedMap.assign (utf8 key) w fields)
  have hdrop : dropFieldComma true (dropBlanks .start
      (gapText g₂ ++ ',' :: (gapText g₃ ++ '\"' :: t))) =
        (gapText g₃ ++ '\"' :: t).dropWhile isWhitespaceChar := by
    rw [dropBlanks_gap g₂ comma_start]
    rfl
  refine ⟨m', w, fields₂, hm', ?_, hnew, ?_, ?_⟩
  · rw [hrun, hdrop]
    exact hgap
  · intro hc hg
    rw [hnone hg, hclean hc]
  · rintro (h | h | h)
    · exact hsome (Or.inr (hmentions (Or.inl h)))
    · exact hsome (Or.inl h)
    · exact hsome (Or.inr (hmentions (Or.inr h)))

/-- The fields of a map and the comments between them, from the first key to the closing brace. -/
theorem parseFields_spread {fs : List (List Char × Doc)} {key : List Char} {d : Doc}
    (hds : ∀ f ∈ (key, d) :: fs, ParsesSpread N f.2)
    (hkeys : ∀ f ∈ (key, d) :: fs, f.1 ≠ [] ∧ IsPlain f.1 ∧ f.1 ≠ markKey N)
    (hnodup : (((key, d) :: fs).map Prod.fst).Nodup) {l : List Spaced}
    (hl : l.map Prod.snd = .colon :: (d.tokens ++ (commaToken fs ++ Doc.fieldTokens false fs)))
    (hmark : Marked N l) (g : Option Comment) {rest : List Char}
    (hz : NulFree (quote key ++ (spread l ++ (gapText g ++ '}' :: rest)))) {k m : Nat}
    (hk : (quote key ++ (spread l ++ (gapText g ++ '}' :: rest))).length + 4 ≤ k)
    (hm : (quote key ++ (spread l ++ (gapText g ++ '}' :: rest))).length < m)
    (fields : List (Bytes × CVal)) (hfresh : ∀ e ∈ fields, ∀ f ∈ (key, d) :: fs, e.1 ≠ utf8 f.1) :
    ∃ fields', parseFields charReader true (parse charReader k .jsonOnly) k m fields
          (quote key ++ (spread l ++ (gapText g ++ '}' :: rest))) =
        .done ((fields', false), '}' :: rest) ∧
      (Clean l → fields' = OrderedMap.assignAll fields (Doc.toFields ((key, d) :: fs))) ∧
      (¬Clean l ∨ Mentions (utf8 (markKey N)) (.map fields) →
        Mentions (utf8 (markKey N)) (.map fields')) := by
  induction fs generalizing key d l m fields with
  | nil =>
    obtain ⟨m, rfl⟩ : ∃ j, m = j + 2 := ⟨m - 2, by
      simp only [quote, List.length_append, List.length_cons] at hm
      omega⟩
    obtain ⟨hne, hplain, -⟩ := hkeys _ (List.mem_cons_self ..)
    have hl' : l.map Prod.snd = .colon :: d.tokens := by
      rw [hl, Doc.fieldTokens]
      exact congrArg (Token.colon :: ·) (List.append_nil _)
    obtain ⟨w, hrun, htold⟩ := parseFields_lastField (m := m) (hds _ (List.mem_cons_self ..)) hne
      hplain hl' hmark g hz hk fields
    obtain ⟨hclean, hmentions⟩ :=
      told_assign htold fun e he => hfresh e he _ (List.mem_cons_self ..)
    refine ⟨_, hrun, fun h => ?_, hmentions⟩
    rw [hclean h, Doc.toFields, Doc.toFields]
    rfl
  | cons f fs ih =>
    obtain ⟨key', d'⟩ := f
    obtain ⟨hne, hplain, -⟩ := hkeys _ (List.mem_cons_self ..)
    have hl' : l.map Prod.snd = (.colon :: d.tokens) ++ (.comma :: .key false key' ::
        .colon :: (d'.tokens ++ (commaToken fs ++ Doc.fieldTokens false fs))) := by
      rw [hl, Doc.fieldTokens]
      rfl
    obtain ⟨l₁, l₂, rfl, hl₁, hl₂⟩ := List.map_eq_append_iff.mp hl'
    obtain ⟨⟨g₂, t⟩, l₂, rfl, rfl, hl₂'⟩ := List.map_eq_cons_iff.mp hl₂
    obtain ⟨⟨g₃, t⟩, l₃, rfl, rfl, hl₃⟩ := List.map_eq_cons_iff.mp hl₂'
    obtain ⟨hmark₁, hmark₂⟩ := marked_append.mp hmark
    have hg₃ := hmark₂ (g₃, .key false key') (by simp) rfl
    -- the text after the field: a comma, perhaps a mark, and the fields that follow
    rw [spread_nextField] at hz hk hm ⊢
    obtain ⟨m, rfl⟩ : ∃ j, m = j + 2 := ⟨m - 2, by
      simp only [quote, List.length_append, List.length_cons] at hm
      omega⟩
    obtain ⟨m', w, fields₂, hm', hrun, hnew, hclean, hmentions⟩ := parseFields_nextField (m := m)
      (t := key' ++ ['\"'] ++ (spread l₃ ++ (gapText g ++ '}' :: rest)))
      (hds _ (List.mem_cons_self ..)) hne hplain hl₁ hmark₁ g₂ hg₃ hz hk
      fun e he => hfresh e he _ (List.mem_cons_self ..)
    obtain ⟨fields', hrest, hcleans, hmentionss⟩ := ih (m := m')
      (fun f hf => hds f (List.mem_cons_of_mem _ hf))
      (fun f hf => hkeys f (List.mem_cons_of_mem _ hf))
      (List.nodup_cons.mp hnodup).2 hl₃ (marked_cons (marked_cons hmark₂))
      (hz.of_suffix ⟨quote key ++ (spread l₁ ++ (gapText g₂ ++ ',' :: gapText g₃)), by simp⟩)
      (by simp only [quote, List.length_append, List.length_cons] at hk ⊢; omega)
      (by simp only [quote, List.length_append, List.length_cons] at hm ⊢; omega) fields₂
      (fresh_nextField (fun f hf => (hkeys f (List.mem_cons_of_mem _ hf)).2.2) hnodup hfresh hnew)
    refine ⟨fields', hrun.trans hrest, ?_, ?_⟩
    · intro h
      obtain ⟨h₁, h₂, h₃⟩ := clean_nextField.mp h
      have htoFields : Doc.toFields ((key, d) :: (key', d') :: fs) =
          (utf8 key, d.toVal) :: Doc.toFields ((key', d') :: fs) := by rw [Doc.toFields]
      rw [hcleans h₃, hclean h₁ h₂, htoFields]
      rfl
    · intro h
      apply hmentionss
      by_cases h₃ : Clean l₃
      · refine Or.inr (hmentions ?_)
        by_cases h₁ : Clean l₁
        · by_cases h₂ : g₃ = none
          · rcases h with h | h
            · exact absurd (clean_nextField.mpr ⟨h₁, h₂, h₃⟩) h
            · exact Or.inr (Or.inr h)
          · exact Or.inr (Or.inl h₂)
        · exact Or.inl h₁
      · exact Or.inl h₃

/-! ## Documents -/

theorem parse_dropBlanks {n : Nat} {cs tl : List Char} {c : Char} (hc : TokenStart c)
    (h : dropBlanks .start cs = c :: tl) (hz : NulFree cs) (hn : cs.length + 3 ≤ n) :
    parse charReader n .jsonOnly cs = parse charReader n .jsonOnly (c :: tl) := by
  obtain ⟨n, rfl⟩ : ∃ j, n = j + 1 := ⟨n - 1, by omega⟩
  have hsuf := dropBlanks_suffix .start cs
  rw [h] at hsuf
  have hlen := hsuf.length_le
  have hhead := dropBlanks_start_cons hc.lineBreak hc.space tl
  rw [parse]
  cases cs with
  | nil => simp at hlen
  | cons a cs =>
    rw [parseValue_cons (by omega) hz, parseValue_cons (by omega) (hz.of_suffix hsuf), h, hhead]

/-- It is enough to read the text from its first token on. -/
theorem ParsesSpread.of_head {d : Doc}

    (h : ∀ (p : Spaced) (l : List Spaced) (n : Nat) (rest : List Char), (p :: l).map Prod.snd =
      d.tokens → Marked N (p :: l) → (p.2.text ++ (spread l ++ rest)).length + 4 ≤ n →
        NulFree (p.2.text ++ (spread l ++ rest)) → Stops rest →
          ∃ w, parse charReader n .jsonOnly (p.2.text ++ (spread l ++ rest)) = .done (w, rest) ∧
            Told N (p :: l) d.toVal w) :
    ParsesSpread N d := by
  intro l n cs rest hl hmark hn hz hstops hcs
  obtain ⟨p, l, rfl⟩ := List.exists_cons_of_ne_nil (spread_ne_nil hl)
  obtain ⟨c, tl, hc, hstart⟩ := p.2.text_cons
  rw [dropBlanks_spread] at hcs
  have hsuf := dropBlanks_suffix .start cs
  rw [hcs] at hsuf
  have hlen := hsuf.length_le
  obtain ⟨w, hw, htold⟩ := h p l n rest hl hmark (by omega) (hz.of_suffix hsuf) hstops
  refine ⟨w, ?_, htold⟩
  rw [hc, List.cons_append] at hcs hw
  rw [parse_dropBlanks hstart hcs hz (by omega)]
  exact hw

/-- A document of one token has no place for a comment. -/
theorem parsesSpread_scalar {d : Doc} (h : Parses true d) {t : Token} (ht : d.tokens = [t])
    (htext : t.text = d.render true) (hkey : t.isNextKey = false) : ParsesSpread N d := by
  apply ParsesSpread.of_head
  intro p l n rest hl _ hn hz hstops
  rw [ht] at hl
  obtain ⟨rfl, hnil⟩ := List.cons.inj hl
  obtain rfl := List.map_eq_nil_iff.mp hnil
  have hclean : Clean [p] := by
    intro q hq hnext
    rw [List.mem_singleton.mp hq, hkey] at hnext
    cases hnext
  rw [htext, spread_nil, List.nil_append] at hn hz ⊢
  exact ⟨d.toVal, h n _ rest hn hz hstops (dropBlanks_render true d rest),
    fun _ => rfl, fun h => absurd hclean h⟩

theorem parsesSpread_arr {ds : List Doc} (h : ∀ d ∈ ds, ParsesSpread N d) :
    ParsesSpread N (.arr ds) := by
  apply ParsesSpread.of_head
  intro p l n rest hl hmark hn hz hstops
  rw [Doc.tokens] at hl
  obtain ⟨hp, l, g, rfl, hl', htext⟩ := enclosed_spread hl
  have hmark' : Marked N l := (marked_append.mp (marked_cons hmark)).1
  obtain ⟨n, rfl⟩ : ∃ j, n = j + 1 := ⟨n - 1, by omega⟩
  rw [htext, hp] at hz hn ⊢
  have hopen : ∀ X, Token.openBracket.text ++ X = '[' :: X := fun _ => rfl
  have hclose : ∀ X, Token.closeBracket.text ++ X = ']' :: X := fun _ => rfl
  rw [hopen, hclose] at hz hn ⊢
  -- the loop starts at the first token after the bracket
  have helems : ∃ ws, parseElements charReader (parse charReader n .jsonOnly) n n []
        (dropBlanks .start (spread l ++ (gapText g ++ ']' :: rest))) = .done (ws, ']' :: rest) ∧
      (Clean l → ws = Doc.toVals ds) ∧ (¬Clean l → ∃ w ∈ ws, Mentions (utf8 (markKey N)) w) := by
    have hsuf := dropBlanks_suffix .start (spread l ++ (gapText g ++ ']' :: rest))
    have hlen := hsuf.length_le
    simp only [List.length_cons] at hn
    cases ds with
    | nil =>
      obtain ⟨n, rfl⟩ : ∃ j, n = j + 1 := ⟨n - 1, by omega⟩
      rw [Doc.elementTokens] at hl'
      obtain rfl := List.map_eq_nil_iff.mp hl'
      refine ⟨[], ?_, fun _ => by rw [Doc.toVals], fun h => absurd (List.forall_mem_nil _) h⟩
      rw [spread_nil, List.nil_append, dropBlanks_gap g closeBracket_start,
        parseElements_cons, if_pos rfl]
    | cons d ds =>
      have hl₁ : l.map Prod.snd = d.tokens ++ (commaToken ds ++ Doc.elementTokens ds) := by
        rw [hl', Doc.elementTokens]
      obtain ⟨hself, hhead⟩ := dropBlanks_head hl₁ (gapText g ++ ']' :: rest)
      exact parseElements_spread (h d (List.mem_cons_self ..))
        (fun e he => h e (List.mem_cons_of_mem d he))
        hl' hmark' g hself hhead (hz.tail.of_suffix hsuf) (by omega) (by omega) []
  obtain ⟨ws, hws, hclean, hmentions⟩ := helems
  have hiff : Clean (p :: (l ++ [(g, .closeBracket)])) ↔ Clean l := clean_enclosed (hp ▸ rfl) rfl
  refine ⟨.array ws, ?_, ?_, ?_⟩
  · rw [parse, parseValue_cons (by omega) hz, dropBlanks_start_cons rfl rfl]
    simp only [Char.reduceEq, ↓reduceIte, hws, Outcome.bind_done, dropBracket]
    rfl
  · intro hc
    rw [hclean (hiff.mp hc), Doc.toVal]
  · intro hc
    obtain ⟨w, hw, hmem⟩ := hmentions fun h => hc (hiff.mpr h)
    exact .element hw hmem

theorem parsesSpread_map {fs : List (List Char × Doc)} (hd : (fs.map Prod.fst).Nodup)
    (hk : ∀ f ∈ fs, f.1 ≠ [] ∧ IsPlain f.1 ∧ f.1 ≠ markKey N) (h : ∀ f ∈ fs, ParsesSpread N f.2) :
    ParsesSpread N (.map fs) := by
  apply ParsesSpread.of_head
  intro p l n rest hl hmark hn hz hstops
  rw [Doc.tokens] at hl
  obtain ⟨hp, l, g, rfl, hl', htext⟩ := enclosed_spread hl
  have hmark' : Marked N l := (marked_append.mp (marked_cons hmark)).1
  obtain ⟨n, rfl⟩ : ∃ j, n = j + 1 := ⟨n - 1, by omega⟩
  rw [htext, hp] at hz hn ⊢
  have hopen : ∀ X, Token.openBrace.text ++ X = '{' :: X := fun _ => rfl
  have hclose : ∀ X, Token.closeBrace.text ++ X = '}' :: X := fun _ => rfl
  rw [hopen, hclose] at hz hn ⊢
  have hkeys : ((Doc.toFields fs).map Prod.fst).Nodup := by
    rw [toFields_keys]
    exact hd.map fun _ _ => utf8_injective
  -- the loop starts at the first key
  have hfields : ∃ fields, parseFields charReader true (parse charReader n .jsonOnly) n n []
        (dropBlanks .start (spread l ++ (gapText g ++ '}' :: rest))) =
          .done ((fields, false), '}' :: rest) ∧
      (Clean l → fields = OrderedMap.ofFields (Doc.toFields fs)) ∧
      (¬Clean l → Mentions (utf8 (markKey N)) (.map fields)) := by
    have hsuf := dropBlanks_suffix .start (spread l ++ (gapText g ++ '}' :: rest))
    have hlen := hsuf.length_le
    simp only [List.length_cons] at hn
    cases fs with
    | nil =>
      obtain ⟨n, rfl⟩ : ∃ j, n = j + 1 := ⟨n - 1, by omega⟩
      rw [Doc.fieldTokens] at hl'
      obtain rfl := List.map_eq_nil_iff.mp hl'
      rw [spread_nil, List.nil_append, dropBlanks_gap g closeBrace_start] at hsuf hlen ⊢
      refine ⟨[], ?_, fun _ => by rw [Doc.toFields]; rfl, fun h => absurd (List.forall_mem_nil _) h⟩
      rw [spread_nil, List.nil_append] at hn
      rw [parseFields_cons (by omega) (hz.tail.of_suffix hsuf), if_pos rfl]
    | cons f fs =>
      obtain ⟨key, d⟩ := f
      rw [Doc.fieldTokens] at hl'
      obtain ⟨⟨g₁, t⟩, l, rfl, rfl, hl₁⟩ := List.map_eq_cons_iff.mp hl'
      have hkey : dropBlanks .start
          (spread ((g₁, .key true key) :: l) ++ (gapText g ++ '}' :: rest)) =
          quote key ++ (spread l ++ (gapText g ++ '}' :: rest)) := dropBlanks_spread _ l _
      rw [hkey] at hsuf hlen ⊢
      obtain ⟨fields, hrun, hclean, hmentions⟩ :=
        parseFields_spread h hk hd hl₁ (marked_cons hmark') g
        (hz.tail.of_suffix hsuf) (k := n) (m := n) (by omega) (by omega) [] (List.forall_mem_nil _)
      have hiff : Clean ((g₁, .key true key) :: l) ↔ Clean l := clean_cons fun h => by cases h
      rw [hiff]
      refine ⟨fields, hrun, ?_, fun h => hmentions (Or.inl h)⟩
      intro hc
      rw [hclean hc, OrderedMap.assignAll_eq_ofFields _ hkeys]
  obtain ⟨fields, hrun, hclean, hmentions⟩ := hfields
  have hiff : Clean (p :: (l ++ [(g, .closeBrace)])) ↔ Clean l := clean_enclosed (hp ▸ rfl) rfl
  refine ⟨.map fields, ?_, ?_, ?_⟩
  · have hjson : Flags.jsonOnly.json = true := rfl
    rw [parse, parseValue_cons (by omega) hz, dropBlanks_start_cons rfl rfl]
    simp only [hjson, ↓reduceIte, hrun, Outcome.bind_done, Bool.false_eq_true,
      readChar_cons rest (show '}'.toNat ≠ 0 by decide)]
    rfl
  · intro hc
    rw [hclean (hiff.mp hc), Doc.toVal]
  · intro hc
    exact hmentions fun h => hc (hiff.mpr h)

/-- `parse` reads every document that has no field under the mark's key. -/
theorem Doc.Ok.parsesSpread {d : Doc} (h : d.Ok true)
    (hmark : ¬Mentions (utf8 (markKey N)) d.toVal) :
    ParsesSpread N d := by
  induction h with
  | int hl hu =>
    exact parsesSpread_scalar (parses_int hl hu) (by rw [Doc.tokens]) (by rw [Doc.render]; rfl) rfl
  | str h =>
    exact parsesSpread_scalar (parses_str h) (by rw [Doc.tokens]) (by rw [Doc.render]; rfl) rfl
  | arr _ ih =>
    rw [Doc.toVal] at hmark
    exact parsesSpread_arr fun d hd => ih d hd fun h => hmark (.element (mem_toVals hd) h)
  | map hd hk _ ih =>
    rw [Doc.toVal] at hmark
    refine parsesSpread_map hd (fun f hf => ⟨(hk f hf).1, (hk f hf).2, ?_⟩) fun f hf =>
      ih f hf fun h => hmark (.field (mem_toFields hf) h)
    intro heq
    exact hmark (.key (mem_toFields hf) (congrArg utf8 heq))

/-- On the whole text, with comments: nothing is left, and the val is the document or mentions
the mark's key. -/
theorem Doc.Ok.parse_spread {d : Doc} (h : d.Ok true) (hmark : ¬Mentions (utf8 (markKey N)) d.toVal)
    {l : List Spaced} (hl : l.map Prod.snd = d.tokens) (hl' : Marked N l) :
    ∃ n w, parse charReader n .jsonOnly (spread l) = .done (w, []) ∧ Told N l d.toVal w := by
  have hz : NulFree (spread l) := by
    apply nulFree_spread
    rw [hl, Doc.tokensText_tokens]
    exact h.nulFree
  obtain ⟨w, hw, htold⟩ := h.parsesSpread hmark l ((spread l).length + 4) (spread l) [] hl hl'
    (Nat.le_refl _) hz Stops.nil (by rw [List.append_nil])
  exact ⟨_, w, hw, htold⟩

end Read

/-! ## Places -/

/-- The tokens, and whether a comment stands before each. -/
def places (l : List Spaced) : List (Bool × Token) := l.map fun p => (p.1.isSome, p.2)

/-- No comment stands before a key that follows a comma. -/
def NoneBeforeNextKey (ps : List (Bool × Token)) : Prop :=
  ∀ p ∈ ps, p.2.isNextKey = true → p.1 = false

theorem clean_iff_places {l : List Spaced} : Clean l ↔ NoneBeforeNextKey (places l) := by
  constructor
  · intro h q hq hkey
    obtain ⟨p, hp, rfl⟩ := List.mem_map.mp hq
    exact congrArg Option.isSome (h p hp hkey)
  · intro h p hp hkey
    have hnone := h _ (List.mem_map_of_mem hp) hkey
    exact Option.isSome_eq_false_iff.mp hnone |> Option.isNone_iff_eq_none.mp

theorem places_tokens (l : List Spaced) : (places l).map Prod.snd = l.map Prod.snd := by
  rw [places, List.map_map]
  rfl

/-- Marks at the places. -/
def marksAt (n : Nat) (ps : List (Bool × Token)) : List Spaced :=
  ps.map fun p => (if p.1 then some (mark n) else none, p.2)

theorem places_marksAt (n : Nat) (ps : List (Bool × Token)) : places (marksAt n ps) = ps := by
  rw [places, marksAt, List.map_map]
  apply List.map_id''
  rintro ⟨b, t⟩
  cases b with
  | true => rfl
  | false => rfl

theorem marked_marksAt (n : Nat) (ps : List (Bool × Token)) : Marked n (marksAt n ps) := by
  intro p hp _
  obtain ⟨⟨b, t⟩, -, rfl⟩ := List.mem_map.mp hp
  cases b with
  | true => exact Or.inr rfl
  | false => exact Or.inl rfl

/-- Reading the text gives the val. -/
def ReadsAs [Fpu] (s : Text) (w : CVal) : Prop := ∃ fuel c, s.parse .jsonOnly fuel = .done (w, c)

theorem ReadsAs.unique [Fpu] {s : Text} {w w' : CVal} (h : ReadsAs s w) (h' : ReadsAs s w') :
    w = w' := by
  obtain ⟨n, c, h⟩ := h
  obtain ⟨m, c', h'⟩ := h'
  have h₁ := (parse_le s.reader (Nat.le_add_right n m) .jsonOnly _).eq_of_done h
  have h₂ := (parse_le s.reader (Nat.le_add_left m n) .jsonOnly _).eq_of_done h'
  exact congrArg Prod.fst (Outcome.done.inj (h₁.symm.trans h₂))

section Comments

variable [FormatF] [Fpu] {v : Val Text} {d : Doc}

theorem readsAs_clean (hd : PrintsAs v d) {l : List Spaced} (hl : l.map Prod.snd = d.tokens)
    (hc : Clean l) {s : Text} (hw : s.Whole) (hs : s.content = utf8 (spread l)) :
    ReadsAs s v.content := by
  obtain ⟨hok, -, hval⟩ := hd
  have hmarked : Marked (d.render true).length l := fun p hp hkey => Or.inl (hc p hp hkey)
  obtain ⟨n, w, hrun, hclean, -⟩ := hok.parse_spread hok.unmarked hl hmarked
  obtain ⟨c, hparse, -⟩ := hw.parse_eq_done hs hrun
  refine ⟨n, c, ?_⟩
  rw [hparse, hclean hc, hval]

theorem not_readsAs_marked {N : Nat} (hd : PrintsAs v d)
    (hfresh : ¬Mentions (utf8 (markKey N)) d.toVal) {l : List Spaced}
    (hl : l.map Prod.snd = d.tokens) (hmarked : Marked N l) (hc : ¬Clean l) {s : Text}
    (hw : s.Whole) (hs : s.content = utf8 (spread l)) : ¬ReadsAs s v.content := by
  intro hread
  have hval := hd.2.2
  obtain ⟨n, w, hrun, -, hmentions⟩ := hd.1.parse_spread hfresh hl hmarked
  obtain ⟨c, hparse, -⟩ := hw.parse_eq_done hs hrun
  obtain rfl := ReadsAs.unique ⟨n, c, hparse⟩ hread
  exact hfresh (hval ▸ hmentions hc)

/-- Comments are transparent exactly where none stands before a key that follows a comma:
elsewhere there is a comment, at each of the same places, with which the text no longer
gives the val. -/
theorem json_comments_iff (h : JsonVal v) :
    (∃ d, PrintsAs v d) ∧ ∀ d, PrintsAs v d → ∀ ps : List (Bool × Token),
      ps.map Prod.snd = d.tokens →
      (NoneBeforeNextKey ps → ∀ l, places l = ps → ∀ s s' : Text, s.Whole → s'.Whole →
        v.toJson = some s.content → s'.content = utf8 (spread l) →
        ReadsAs s v.content ∧ ReadsAs s' v.content) ∧
      (¬NoneBeforeNextKey ps → ∃ l, places l = ps ∧ ∀ s' : Text, s'.Whole →
        s'.content = utf8 (spread l) → ¬ReadsAs s' v.content) := by
  refine ⟨h.exists_doc, ?_⟩
  intro d hd ps hps
  constructor
  · rintro hnone l rfl s s' hw hw' hs hs'
    constructor
    · obtain ⟨hok, hjson, hval⟩ := id hd
      have htext := ((Val.toJson_eq_some v).mp hs).1
      obtain ⟨fuel, c, hparse, -⟩ := hok.parse_text hw (Option.some.inj (htext.symm.trans hjson))
      rw [hval] at hparse
      exact ⟨fuel, c, hparse⟩
    · rw [places_tokens] at hps
      exact readsAs_clean hd hps (clean_iff_places.mpr hnone) hw' hs'
  · intro hnone
    refine ⟨marksAt (d.render true).length ps, places_marksAt _ ps, ?_⟩
    intro s' hw' hs'
    apply not_readsAs_marked hd hd.1.unmarked _ (marked_marksAt _ ps) _ hw' hs'
    · rw [← places_tokens, places_marksAt, hps]
    · rw [clean_iff_places, places_marksAt]
      exact hnone

end Comments

theorem jsonVal_fields :
    JsonVal (.map [(.whole (utf8 ['a']) (by decide), .int32 1),
      (.whole (utf8 ['b']) (by decide), .int32 2)]) := by
  have ha : IsPlain ['a'] := forall_mem_of_all rfl
  have hb : IsPlain ['b'] := forall_mem_of_all rfl
  apply JsonVal.map
  · decide
  · intro f hf
    rcases List.mem_cons.mp hf with rfl | hf
    · exact ⟨plain_whole ha _, by decide⟩
    · obtain rfl := List.mem_singleton.mp hf
      exact ⟨plain_whole hb _, by decide⟩
  · intro f hf
    rcases List.mem_cons.mp hf with rfl | hf
    · exact .int32 1
    · obtain rfl := List.mem_singleton.mp hf
      exact .int32 2

theorem printsAs_fields [FormatF] :
    PrintsAs (.map [(.whole (utf8 ['a']) (by decide), .int32 1),
      (.whole (utf8 ['b']) (by decide), .int32 2)])
      (.map [(['a'], .int 1), (['b'], .int 2)]) := by
  refine ⟨.map (by decide) ?_ ?_, rfl, rfl⟩
  · intro f hf
    rcases List.mem_cons.mp hf with rfl | hf
    · exact ⟨nofun, forall_mem_of_all rfl⟩
    · obtain rfl := List.mem_singleton.mp hf
      exact ⟨nofun, forall_mem_of_all rfl⟩
  · intro f hf
    rcases List.mem_cons.mp hf with rfl | hf
    · exact .int (by decide) (by decide)
    · obtain rfl := List.mem_singleton.mp hf
      exact .int (by decide) (by decide)

def note : Comment where
  before := ['\n']
  space := [' ']
  slashes := true
  body := [' ', 'n']
  after := ['\n']
  before_ne := nofun
  after_ne := nofun
  breaks := forall_mem_of_all rfl
  blank := forall_mem_of_all rfl
  line := forall_mem_of_all rfl

/-- Comments before a colon, before a comma and before the closing brace. -/
theorem json_comments_fields :
    @ReadsAs .ieee (.whole
      (utf8 ['{', '\"', 'a', '\"', '\n', ' ', '/', '/', ' ', 'n', '\n', ':', '1', '\n', ' ', '/',
        '/', ' ', 'n', '\n', ',', '\"', 'b', '\"', ':', '2', '\n', ' ', '/', '/', ' ', 'n', '\n',
          '}'])
        (by decide))
      (.map [([0x61], .int32 1), ([0x62], .int32 2)]) := by
  let _ := Fpu.ieee
  let _ := FormatF.host
  let l : List Spaced :=
    [(none, .openBrace), (none, .key true ['a']), (some note, .colon), (none, .int 1),
    (some note, .comma), (none, .key false ['b']), (none, .colon), (none, .int 2),
    (some note, .closeBrace)]
  obtain ⟨-, h⟩ := json_comments_iff jsonVal_fields
  obtain ⟨h, -⟩ := h _ printsAs_fields (places l) rfl
  have hnone : NoneBeforeNextKey (places l) :=
    clean_iff_places.mp (by simp [Clean, l, Token.isNextKey])
  have htext : (Text.whole
      (utf8 ['{', '\"', 'a', '\"', ':', '1', ',', '\"', 'b', '\"', ':', '2', '}'])
      (by decide)).content = utf8 ['{', '\"', 'a', '\"', ':', '1', ',', '\"', 'b', '\"', ':', '2',
      '}'] :=
    Text.content_whole _ _
  have hjson := (Val.toJson_eq_some _).mpr ⟨printsAs_fields.2.1.trans (congrArg some htext.symm),
    ⟨by decide, trivial, by decide, by decide, trivial, by decide, trivial⟩, by decide⟩
  have hread := h hnone l rfl _ _ (Text.whole_isWhole _ (by decide))
      (Text.whole_isWhole _ (by decide))
    hjson (Text.content_whole _ _)
  exact hread.2

/-- After the comma between two fields, the comment's sign becomes a key and the second field is
lost. -/
theorem json_comments_fail :
    @ReadsAs .ieee (.whole
      (utf8 ['{', '\"', 'a', '\"', ':', '1', ',', '\"', 'b', '\"', ':', '2', '}'])
        (by decide)) (.map [([0x61], .int32 1), ([0x62], .int32 2)]) ∧
      ¬@ReadsAs .ieee (.whole
        (utf8 ['{', '\"', 'a', '\"', ':', '1', ',', '\n', '#', '\n', '\"', 'b', '\"', ':', '2',
          '}']) (by decide)) (.map [([0x61], .int32 1), ([0x62], .int32 2)]) := by
  let _ := Fpu.ieee
  let _ := FormatF.host
  constructor
  · exact readsAs_clean printsAs_fields
      (l := [(none, .openBrace), (none, .key true ['a']), (none, .colon), (none, .int 1),
      (none, .comma), (none, .key false ['b']), (none, .colon), (none, .int 2),
      (none, .closeBrace)]) rfl (by simp [Clean]) (Text.whole_isWhole _ _) (Text.content_whole _ _)
  · intro hread
    have hrun : parse charReader 30 .jsonOnly ['{', '\"', 'a', '\"', ':', '1', ',', '\n', '#', '\n',
        '\"', 'b', '\"', ':', '2', '}'] =
          .done (.map [([0x61], .int32 1)], ['b', '\"', ':', '2', '}']) := rfl
    obtain ⟨c, hparse, -⟩ := (Text.whole_isWhole _ _).parse_eq_done (Text.content_whole _ _) hrun
    cases ReadsAs.unique ⟨30, c, hparse⟩ hread

end Libacorn
