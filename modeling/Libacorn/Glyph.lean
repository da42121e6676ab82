import Libacorn.Text
import Libacorn.ParseSim

/-!
# Texts as sequences of glyphs

`readUtf8` cuts a text into glyphs: a lead byte and as many further bytes as
the lead byte announces. On a list of complete glyphs the scanning interface
is plain list code (`glyphReader`), with the code point that follows the text
as a parameter, because `peekChar` and `skipChar` do not look at `_cb`.

`text_sim_glyph`: a text whose content is a list of complete glyphs, followed
by a glyph that the parser does not probe for, is scanned exactly as that list.
Along the way every cursor stays on a glyph boundary inside the text.
-/

namespace Libacorn

open Support

/-! ## Glyphs -/

/-- The length a lead byte announces. -/
def seqLen (b : UInt8) : Nat :=
  if b &&& 128 = 0 then 1 else if b &&& 32 = 0 then 2 else if b &&& 16 = 0 then 3 else 4

/-- A lead byte with all the bytes it announces. -/
structure Glyph where
  head : UInt8
  tail : Bytes
  complete : tail.length + 1 = seqLen head

namespace Glyph

def bytes (g : Glyph) : Bytes := g.head :: g.tail

/-- The code point `readUtf8` computes. -/
def code (g : Glyph) : Nat :=
  match g.tail with
  | [] => g.head.toNat
  | [b1] => Text.codePoint2 g.head b1
  | [b1, b2] => Text.codePoint3 g.head b1 b2
  | [b1, b2, b3] => Text.codePoint4 g.head b1 b2 b3
  | _ => 0

/-- The glyph of one ASCII byte. -/
def ofAscii (b : UInt8) (h : b &&& 128 = 0) : Glyph := ⟨b, [], by simp [seqLen, h]⟩

/-- The terminator. -/
def nul : Glyph := ofAscii 0 rfl

/-- The glyph is the single byte `b`. -/
def isByte (g : Glyph) (b : UInt8) : Bool := g.head = b ∧ g.tail = []

theorem tail_eq_nil_of_ascii (g : Glyph) (h : g.head &&& 128 = 0) : g.tail = [] := by
  have := g.complete
  simp only [seqLen, h, ↓reduceIte] at this
  exact List.length_eq_zero_iff.mp (by omega)

theorem length_bytes_pos (g : Glyph) : 0 < g.bytes.length := by simp [bytes]

end Glyph

/-- The bytes of a list of glyphs. -/
def flat (gs : List Glyph) : Bytes := gs.flatMap Glyph.bytes

@[simp] theorem flat_nil : flat [] = [] := rfl
@[simp] theorem flat_cons (g : Glyph) (gs : List Glyph) : flat (g :: gs) = g.bytes ++ flat gs := rfl
@[simp] theorem flat_append (gs gs' : List Glyph) : flat (gs ++ gs') = flat gs ++ flat gs' := by
  simp [flat]

theorem length_le_length_flat (gs : List Glyph) : gs.length ≤ (flat gs).length := by
  induction gs with
  | nil => simp
  | cons g gs ih =>
    have := g.length_bytes_pos
    simp only [List.length_cons, flat_cons, List.length_append]
    omega

/-! ## Scanning a list of glyphs -/

/-- The rest of the glyphs after a literal of ASCII bytes. -/
def matchLit : Bytes → List Glyph → Option (List Glyph)
  | [], gs => some gs
  | b :: l, g :: gs => if g.isByte b then matchLit l gs else none
  | _ :: _, [] => none

def isWhitespaceGlyph (g : Glyph) : Bool := Text.isWhitespace g.head ∧ g.tail = []

/-- The scanning interface on the glyphs still ahead; `next` is the code point
that follows the text in its buffer. `readUtf8` does not advance over a NUL. -/
def glyphReader (next : Nat) : Reader (List Glyph) where
  peekChar
    | [] => .done (next, [])
    | g :: gs => .done (g.code, g :: gs)
  readChar
    | [] => .done (0, [])
    | g :: gs => if g.isByte 0 then .done (0, g :: gs) else .done (g.code, gs)
  skipChar ch
    | [] => .done (false, [])
    | g :: gs => if g.isByte ch then .done (true, gs) else .done (false, g :: gs)
  skipString l gs :=
    match matchLit l gs with
    | some gs' => .done (true, gs')
    | none => .done (false, gs)
  skipWhitespace gs := .done ((), gs.dropWhile isWhitespaceGlyph)
  atEnd gs := .done (gs.isEmpty, gs)
  beforeEnd gs := .done (!gs.isEmpty, gs)

theorem matchLit_flat {l : Bytes} {gs gs' : List Glyph} (h : matchLit l gs = some gs') :
    ∃ pre, gs = pre ++ gs' ∧ flat pre = l := by
  induction l generalizing gs with
  | nil => exact ⟨[], by simpa [matchLit] using h, rfl⟩
  | cons b l ih =>
    cases gs with
    | nil => simp [matchLit] at h
    | cons g gs =>
      simp only [matchLit] at h
      split at h
      next hb =>
        obtain ⟨pre, rfl, hl⟩ := ih h
        simp only [Glyph.isByte, decide_eq_true_eq] at hb
        exact ⟨g :: pre, rfl, by simp [Glyph.bytes, hb, hl]⟩
      next => cases h

/-- A literal of ASCII bytes that starts the text is matched glyph by glyph. -/
theorem matchLit_of_isPrefixOf {l : Bytes} (hl : ∀ b ∈ l, b &&& 128 = 0) {gs : List Glyph}
    {t : Bytes} (h : flat gs = l ++ t) : ∃ gs', matchLit l gs = some gs' := by
  induction l generalizing gs with
  | nil => exact ⟨gs, rfl⟩
  | cons b l ih =>
    cases gs with
    | nil => simp at h
    | cons g gs =>
      simp only [flat_cons, Glyph.bytes, List.cons_append, List.cons.injEq] at h
      obtain ⟨hb, h⟩ := h
      have ht : g.tail = [] := g.tail_eq_nil_of_ascii (hb ▸ hl b (List.mem_cons_self ..))
      rw [ht, List.nil_append] at h
      obtain ⟨gs', e⟩ := ih (fun b hb => hl b (List.mem_cons_of_mem _ hb)) h
      exact ⟨gs', by simp [matchLit, Glyph.isByte, hb, ht, e]⟩

/-! ## From buffers to glyphs -/

/-- The text is the glyphs `gs`, followed in its buffer by the glyph `next`. -/
structure Holds (s : Text) (gs : List Glyph) (next : Glyph) : Prop where
  mem : ∃ t, s.mem.drop s.offset = flat gs ++ (next.bytes ++ t)
  cb : s.cb = (flat gs).length
  /-- `next` lies within 32-bit offsets -/
  room : s.cb + next.tail.length < 2 ^ 32

/-- A position between two glyphs of the text. -/
def Boundary (all : List Glyph) (o : Nat) : Prop :=
  ∃ pre post, all = pre ++ post ∧ o = (flat pre).length

/-- The cursor stands before the glyphs `gs` of the text, and every position
it has had is a boundary. -/
structure At (all : List Glyph) (c : Cursor) (gs : List Glyph) : Prop where
  here : ∃ pre, all = pre ++ gs ∧ c.it = (flat pre).length
  seen : ∀ o ∈ c.seen, Boundary all o

theorem At.start (all : List Glyph) : At all Cursor.start all where
  here := ⟨[], rfl, rfl⟩
  seen := by
    intro o ho
    simp only [Cursor.start, List.mem_singleton] at ho
    exact ⟨[], all, rfl, ho⟩

namespace At

variable {all : List Glyph} {c : Cursor} {gs : List Glyph}

theorem it_add (h : At all c gs) : c.it + (flat gs).length = (flat all).length := by
  obtain ⟨pre, rfl, e⟩ := h.here
  simp [e]

/-- Move over the glyphs `p`. -/
theorem moveTo {p : List Glyph} {o : Nat} (h : At all c (p ++ gs))
    (ho : o = c.it + (flat p).length) : At all (c.moveTo o) gs := by
  obtain ⟨pre, rfl, e⟩ := h.here
  have hb : o = (flat (pre ++ p)).length := by rw [ho, e]; simp
  refine ⟨⟨pre ++ p, by simp, hb⟩, ?_⟩
  intro o' ho'
  rcases List.mem_cons.mp ho' with rfl | ho'
  · exact ⟨pre ++ p, gs, by simp, hb⟩
  · exact h.seen o' ho'

end At

section Text

variable {s : Text} {all : List Glyph} {next : Glyph}

/-- The byte `i` places after the cursor. -/
theorem Holds.byte (hs : Holds s all next) {c : Cursor} {gs : List Glyph} (h : At all c gs)
    {b : UInt8} {i : Nat} (hb : (flat gs ++ next.bytes)[i]? = some b) :
    s.byte (c.it + i) = .done b := by
  obtain ⟨t, ht⟩ := hs.mem
  obtain ⟨pre, rfl, e⟩ := h.here
  have hi : i < (flat gs ++ next.bytes).length := (List.getElem?_eq_some_iff.mp hb).1
  have hm : s.mem[s.offset + (c.it + i)]? = some b := by
    rw [← List.getElem?_drop, ht, e, flat_append, List.append_assoc,
      List.getElem?_append_right (by omega), Nat.add_sub_cancel_left, ← hb,
      ← List.append_assoc, List.getElem?_append_left hi]
  simp [Text.byte, hm]

theorem Holds.it_lt (hs : Holds s all next) {c : Cursor} {gs : List Glyph} (h : At all c gs) :
    c.it + (flat gs).length < 2 ^ 32 := by
  have := s.cb_lt
  rw [h.it_add, ← hs.cb]
  exact this

/-- `readUtf8` where the bytes of `g` lie. -/
theorem readUtf8_glyph (g : Glyph) {o : Nat} (hb0 : s.byte o = .done g.head)
    (hbyte : ∀ (i : Nat) (b : UInt8), g.tail[i]? = some b → s.byte (u32 (o + (i + 1))) = .done b) :
    s.readUtf8 o = .done (g.code, if g.isByte 0 then o else u32 (o + g.bytes.length)) := by
  have hc := g.complete
  obtain ⟨head, tail, complete⟩ := g
  simp only [Glyph.bytes, List.length_cons] at hc ⊢ hbyte
  simp only at hb0
  unfold Text.readUtf8
  rw [hb0, Outcome.bind_done]
  unfold seqLen at hc
  match tail, hc with
  | [], hc =>
    have h1 : head &&& 128 = 0 := by
      by_contra hne
      simp only [hne, ↓reduceIte, List.length_nil] at hc
      split_ifs at hc <;> omega
    by_cases h0 : head = 0
    · simp [h0, Glyph.code, Glyph.isByte]
    · simp [h1, h0, Glyph.code, Glyph.isByte]
  | [b1], hc =>
    have h1 : head &&& 128 ≠ 0 := by
      intro he
      simp [he] at hc
    have h2 : head &&& 32 = 0 := by
      by_contra hne
      simp only [h1, hne, ↓reduceIte, List.length_cons, List.length_nil] at hc
      split_ifs at hc <;> omega
    have e1 := hbyte 0 b1 rfl
    simp [h1, h2, e1, Glyph.code, Glyph.isByte]
  | [b1, b2], hc =>
    have h1 : head &&& 128 ≠ 0 := by
      intro he
      simp [he] at hc
    have h2 : head &&& 32 ≠ 0 := by
      intro he
      simp [h1, he] at hc
    have h3 : head &&& 16 = 0 := by
      by_contra hne
      simp [h1, h2, hne] at hc
    have e1 := hbyte 0 b1 rfl
    have e2 := hbyte 1 b2 rfl
    simp [h1, h2, h3, e1, e2, Glyph.code, Glyph.isByte]
  | [b1, b2, b3], hc =>
    have h1 : head &&& 128 ≠ 0 := by
      intro he
      simp [he] at hc
    have h2 : head &&& 32 ≠ 0 := by
      intro he
      simp [h1, he] at hc
    have h3 : head &&& 16 ≠ 0 := by
      intro he
      simp [h1, h2, he] at hc
    have e1 := hbyte 0 b1 rfl
    have e2 := hbyte 1 b2 rfl
    have e3 := hbyte 2 b3 rfl
    simp [h1, h2, h3, e1, e2, e3, Glyph.code, Glyph.isByte]
  | _ :: _ :: _ :: _ :: _, hc =>
    simp only [List.length_cons] at hc
    split_ifs at hc <;> omega

/-- `readUtf8` at a glyph. -/
theorem Holds.readUtf8_cons (hs : Holds s all next) {c : Cursor} {g : Glyph} {gs : List Glyph}
    (h : At all c (g :: gs)) :
    s.readUtf8 c.it = .done (g.code, if g.isByte 0 then c.it else c.it + g.bytes.length) := by
  have hlt := hs.it_lt h
  simp only [flat_cons, Glyph.bytes, List.length_append, List.length_cons] at hlt
  have hb0 : s.byte c.it = .done g.head := hs.byte h (i := 0) (by simp [Glyph.bytes])
  rw [readUtf8_glyph g hb0, u32_of_lt (by simp only [Glyph.bytes, List.length_cons]; omega)]
  intro i b hb
  have hi := (List.getElem?_eq_some_iff.mp hb).1
  rw [u32_of_lt (by omega)]
  refine hs.byte h (i := i + 1) ?_
  simp [Glyph.bytes, List.getElem?_append_left hi, hb]

/-- `readUtf8` just past the text sees the glyph that follows it. -/
theorem Holds.readUtf8_nil (hs : Holds s all next) {c : Cursor} (h : At all c []) :
    ∃ o, s.readUtf8 c.it = .done (next.code, o) := by
  have hb0 : s.byte c.it = .done next.head := hs.byte h (i := 0) (by simp [Glyph.bytes])
  have hroom := hs.room
  have hit := h.it_add
  rw [hs.cb] at hroom
  simp only [flat_nil, List.length_nil, Nat.add_zero] at hit
  refine ⟨_, readUtf8_glyph next hb0 fun i b hb => ?_⟩
  have hi := (List.getElem?_eq_some_iff.mp hb).1
  rw [u32_of_lt (by omega)]
  exact hs.byte h (i := i + 1) (by simpa [Glyph.bytes] using hb)

theorem Holds.not_ge_cb (hs : Holds s all next) {c : Cursor} {g : Glyph} {gs : List Glyph}
    (h : At all c (g :: gs)) : ¬ c.it ≥ s.cb := by
  have := h.it_add
  have := g.length_bytes_pos
  rw [hs.cb]
  simp only [flat_cons, List.length_append] at *
  omega

theorem Holds.it_eq_cb (hs : Holds s all next) {c : Cursor} (h : At all c []) : c.it = s.cb := by
  have := h.it_add
  rw [hs.cb]
  simpa using this

theorem text_peekChar_sim (hs : Holds s all next) :
    Scan.Sim (At all) s.peekChar (glyphReader next.code).peekChar := by
  intro c gs h
  cases gs with
  | nil =>
    obtain ⟨o, e⟩ := hs.readUtf8_nil h
    simp only [Text.peekChar, e, Outcome.bind_done]
    exact ⟨rfl, h⟩
  | cons g gs =>
    simp only [Text.peekChar, hs.readUtf8_cons h, Outcome.bind_done]
    exact ⟨rfl, h⟩

theorem text_readChar_sim (hs : Holds s all next) :
    Scan.Sim (At all) s.readChar (glyphReader next.code).readChar := by
  intro c gs h
  cases gs with
  | nil =>
    have hge : c.it ≥ s.cb := Nat.le_of_eq (hs.it_eq_cb h).symm
    simp only [Text.readChar, hge, ↓reduceIte]
    exact ⟨rfl, h⟩
  | cons g gs =>
    simp only [Text.readChar, hs.not_ge_cb h, ↓reduceIte, hs.readUtf8_cons h, Outcome.bind_done,
      glyphReader]
    by_cases h0 : g.isByte 0 = true
    · simp only [h0, ↓reduceIte]
      simp only [Glyph.isByte, decide_eq_true_eq] at h0
      refine ⟨by simp [Glyph.code, h0], ?_⟩
      exact At.moveTo (p := []) h (by simp)
    · simp only [h0, Bool.false_eq_true, ↓reduceIte]
      exact ⟨rfl, At.moveTo (p := [g]) h (by simp)⟩

theorem text_skipChar_sim (hs : Holds s all next) {ch : UInt8} (ha : ch &&& 128 = 0)
    (hne : next.head ≠ ch) :
    Scan.Sim (At all) (s.skipChar ch) ((glyphReader next.code).skipChar ch) := by
  intro c gs h
  cases gs with
  | nil =>
    have hb0 : s.byte c.it = .done next.head := hs.byte h (i := 0) (by simp [Glyph.bytes])
    simp only [Text.skipChar, hb0, Outcome.bind_done, hne, ↓reduceIte]
    exact ⟨rfl, h⟩
  | cons g gs =>
    have hb0 : s.byte c.it = .done g.head := hs.byte h (i := 0) (by simp [Glyph.bytes])
    have hlt := hs.it_lt h
    simp only [Text.skipChar, hb0, Outcome.bind_done, glyphReader]
    by_cases he : g.head = ch
    · have ht : g.tail = [] := g.tail_eq_nil_of_ascii (he ▸ ha)
      have hby : g.isByte ch = true := by simp [Glyph.isByte, he, ht]
      simp only [he, hby, ↓reduceIte]
      simp only [flat_cons, Glyph.bytes, List.length_append, List.length_cons] at hlt
      rw [u32_of_lt (by omega)]
      exact ⟨rfl, At.moveTo (p := [g]) h (by simp [Glyph.bytes, ht])⟩
    · have hby : g.isByte ch = false := by simp [Glyph.isByte, he]
      simp only [he, hby, ↓reduceIte]
      exact ⟨rfl, h⟩

/-- The bytes ahead of the cursor, up to the end of the text. -/
theorem Holds.bytes (hs : Holds s all next) {c : Cursor} {gs : List Glyph} (h : At all c gs)
    {n : Nat} (hn : n ≤ (flat gs).length) : s.bytes c.it n = .done ((flat gs).take n) := by
  obtain ⟨t, ht⟩ := hs.mem
  obtain ⟨pre, rfl, e⟩ := h.here
  have hlen := congrArg List.length ht
  have hpos := next.length_bytes_pos
  simp only [List.length_drop, flat_append, List.length_append] at hlen
  have hle : s.offset + c.it + n ≤ s.mem.length := by omega
  have hd : s.mem.drop (s.offset + c.it) = flat gs ++ (next.bytes ++ t) := by
    rw [← List.drop_drop, ht, e, flat_append, List.append_assoc, List.drop_left]
  simp only [Text.bytes, hle, ↓reduceIte, hd, List.take_append_of_le_length hn]

theorem text_skipString_sim (hs : Holds s all next) {l : Bytes} (ha : ∀ b ∈ l, b &&& 128 = 0) :
    Scan.Sim (At all) (s.skipString l) ((glyphReader next.code).skipString l) := by
  intro c gs h
  have hadd := h.it_add
  have hlt := s.cb_lt
  have hcb := hs.cb
  have hleft : u32 (s.cb + (2 ^ 32 - c.it)) = (flat gs).length := by
    unfold u32
    omega
  simp only [Text.skipString, hleft, glyphReader]
  by_cases hlen : l.length > (flat gs).length
  · simp only [hlen, ↓reduceIte]
    cases hm : matchLit l gs with
    | none => exact ⟨rfl, h⟩
    | some gs' =>
      obtain ⟨pre, rfl, rfl⟩ := matchLit_flat hm
      simp only [flat_append, List.length_append] at hlen
      omega
  · simp only [hlen, ↓reduceIte, hs.bytes h (Nat.le_of_not_gt hlen), Outcome.bind_done]
    by_cases he : (flat gs).take l.length = l
    · have hsplit : flat gs = l ++ (flat gs).drop l.length := by
        have := List.take_append_drop l.length (flat gs)
        rw [he] at this
        exact this.symm
      obtain ⟨gs', hm⟩ := matchLit_of_isPrefixOf ha hsplit
      obtain ⟨pre, rfl, rfl⟩ := matchLit_flat hm
      simp only [he, ↓reduceIte, hm]
      rw [u32_of_lt (by simp at hadd; omega)]
      exact ⟨rfl, At.moveTo h rfl⟩
    · simp only [he, ↓reduceIte]
      cases hm : matchLit l gs with
      | none => exact ⟨rfl, h⟩
      | some gs' =>
        obtain ⟨pre, rfl, rfl⟩ := matchLit_flat hm
        simp at he

theorem isWhitespace_ascii {b : UInt8} (h : Text.isWhitespace b) : b &&& 128 = 0 := by
  simp only [Text.isWhitespace, decide_eq_true_eq] at h
  rcases h with rfl | rfl | rfl | rfl <;> decide

theorem text_skipWhitespaceLoop (hs : Holds s all next) {c : Cursor} {gs : List Glyph}
    (h : At all c gs) : ∃ c', s.skipWhitespaceLoop (flat gs).length c = .done ((), c') ∧
      At all c' (gs.dropWhile isWhitespaceGlyph) := by
  induction gs generalizing c with
  | nil => exact ⟨c, rfl, h⟩
  | cons g gs ih =>
    have hlt := hs.it_lt h
    have hb0 : s.byte c.it = .done g.head := hs.byte h (i := 0) (by simp [Glyph.bytes])
    have hcb : c.it < s.cb := Nat.lt_of_not_ge (hs.not_ge_cb h)
    simp only [flat_cons, Glyph.bytes, List.cons_append, List.length_cons, List.length_append]
      at hlt ⊢
    simp only [Text.skipWhitespaceLoop, hcb, ↓reduceIte, hb0, Outcome.bind_done]
    by_cases hw : Text.isWhitespace g.head = true
    · have ht : g.tail = [] := g.tail_eq_nil_of_ascii (isWhitespace_ascii hw)
      have hg : isWhitespaceGlyph g = true := by simp [isWhitespaceGlyph, hw, ht]
      rw [List.dropWhile_cons, hg]
      simp only [hw, ↓reduceIte, ht, List.length_nil, Nat.zero_add] at hlt ⊢
      rw [u32_of_lt (by omega)]
      exact ih (At.moveTo (p := [g]) h (by simp [Glyph.bytes, ht]))
    · have hg : isWhitespaceGlyph g = false := by simp [isWhitespaceGlyph, hw]
      rw [List.dropWhile_cons, hg]
      simp only [hw]
      exact ⟨c, rfl, h⟩

theorem text_skipWhitespace_sim (hs : Holds s all next) :
    Scan.Sim (At all) s.skipWhitespace (glyphReader next.code).skipWhitespace := by
  intro c gs h
  have hadd := h.it_add
  have hn : s.cb - c.it = (flat gs).length := by rw [hs.cb]; omega
  obtain ⟨c', e, h'⟩ := text_skipWhitespaceLoop hs h
  simp only [Text.skipWhitespace, hn, e]
  exact ⟨rfl, h'⟩

theorem probedStrings_ascii : ∀ l ∈ probedStrings, ∀ b ∈ l, b &&& 128 = 0 := by
  have hall : ∀ l ∈ probedStrings, (l.all fun b => decide (b &&& 128 = 0)) = true :=
    forall_mem_of_all rfl
  intro l hl
  exact forall_mem_of_all (hall l hl)

/-- A text of complete glyphs, followed by one that is not probed for, is
scanned as the list of its glyphs. -/
theorem text_sim_glyph {probed : Bytes} (ha : ∀ ch ∈ probed, ch &&& 128 = 0)
    (hs : Holds s all next) (hn : next.head ∉ probed) :
    ReaderSim probed (At all) s.reader (glyphReader next.code) where
  peekChar := text_peekChar_sim hs
  readChar := text_readChar_sim hs
  skipChar ch hch := text_skipChar_sim hs (ha ch hch) fun e => hn (e ▸ hch)
  skipString := by
    intro l hl
    exact text_skipString_sim hs (probedStrings_ascii l hl)
  skipWhitespace := text_skipWhitespace_sim hs
  atEnd := by
    intro c gs h
    refine ⟨?_, h⟩
    cases gs with
    | nil => simp [hs.it_eq_cb h]
    | cons g gs =>
      have := hs.not_ge_cb h
      simp
      omega
  beforeEnd := by
    intro c gs h
    refine ⟨?_, h⟩
    cases gs with
    | nil => simp [hs.it_eq_cb h]
    | cons g gs =>
      have := hs.not_ge_cb h
      simp
      omega

theorem probedChars_ascii (json : Bool) : ∀ ch ∈ probedChars json, ch &&& 128 = 0 := by
  cases json with
  | true => exact forall_mem_of_all rfl
  | false => exact forall_mem_of_all rfl

end Text

end Libacorn
