import Libacorn.Unicode

/-!
# Counting and indexing characters: base/string.cpp

`length`, `charIndexToOffset`, `charAt` and the loop that reads a string character
by character. On a text of complete glyphs they count and index the glyphs.
-/

namespace Libacorn

open Support

namespace Text

variable (s : Text)

/-! ## The source -/

/-- The loop of `length()`, with at most `n` more characters. The counter is an
`int32_t`; its overflow is undefined. -/
def lengthLoop : Nat → Nat → Nat → Outcome Nat
  | 0, _, cc => .done cc
  | n + 1, pp, cc =>
    if pp < s.cb then
      (s.byte pp).bind fun b =>
      if cc + 1 < 2 ^ 31 then lengthLoop n (pp + seqLen b) (cc + 1) else .fault
    else .done cc

/-- Every step moves on, so `_cb` steps suffice. -/
def length : Outcome Nat := s.lengthLoop s.cb 0 0

/-- The first loop of `charIndexToOffset`. -/
def charForward : Nat → Nat → Outcome Nat
  | 0, o => .done o
  | n + 1, o => (s.byte o).bind fun b => charForward n (u32 (o + seqLen b))

/-- `o > 0 && (start[o] & 0xC0) == 0x80` -/
def isContinuation (o : Nat) : Outcome Bool :=
  if o > 0 then (s.byte o).bind fun b => .done (b &&& 0xC0 = 0x80) else .done false

/-- `assert(lead == (start[o] & mask))`, and then the result `o`. -/
def assertLead (o : Nat) (mask lead : UInt8) : Outcome Nat :=
  (s.byte o).bind fun b => if lead = b &&& mask then .done o else .fault

/-- One character back from `o > 0`, in `charIndexToOffset` and in `rewind`. -/
def stepBack (o : Nat) : Outcome Nat :=
  (s.isContinuation (o - 1)).bind fun more =>
  if more then
    (s.isContinuation (o - 2)).bind fun more =>
    if more then
      (s.isContinuation (o - 3)).bind fun more =>
      if more then s.assertLead (o - 4) 0xF8 0xF0 else s.assertLead (o - 3) 0xF0 0xE0
    else s.assertLead (o - 2) 0xE0 0xC0
  else s.assertLead (o - 1) 0x80 0

/-- The second loop of `charIndexToOffset`. -/
def charBackward : Nat → Nat → Outcome Nat
  | 0, o => .done o
  | n + 1, o => if o > 0 then (s.stepBack o).bind (charBackward n) else .done o

/-- A negative index counts from the end. -/
def charIndexToOffset : Int → Outcome Nat
  | .ofNat charIndex => s.charForward charIndex 0
  | .negSucc n => s.charBackward (n + 1) s.cb

def charAt (charIndex : Int) : Outcome Nat :=
  (s.charIndexToOffset charIndex).bind fun o => (s.readUtf8 o).bind fun r => .done r.1

/-- `rewind(o)` -/
def rewind (o : Nat) : Outcome Nat := if o > 0 then s.stepBack o else .done o

/-- `while (o < lengthInBytes()) readChar(o)`, with the characters read. -/
def readChars : Nat → Scan Cursor (List Nat)
  | 0 => fun _ => .timeout
  | n + 1 => fun c =>
    if c.it < s.cb then
      (s.readChar c).bind fun r => (readChars n r.2).bind fun rest => .done (r.1 :: rest.1, rest.2)
    else .done ([], c)

end Text

/-! ## On glyphs -/

section Glyphs

variable {s : Text} {all : List Glyph} {next : Glyph}

theorem Glyph.seqLen_head (g : Glyph) : seqLen g.head = g.bytes.length := by
  rw [← g.complete]
  rfl

/-- A byte of the string. -/
theorem Text.byte_of_content {o : Nat} {b : UInt8} (h : s.content[o]? = some b) :
    s.byte o = .done b := by
  have ho : o < s.cb := by
    rw [← s.length_content]
    exact (List.getElem?_eq_some_iff.mp h).1
  rw [Text.content, List.getElem?_take_of_lt ho, List.getElem?_drop] at h
  rw [Text.byte, h]

/-- What the string holds from one of its glyphs on. -/
theorem Text.byte_glyph {pre post : List Glyph} {g : Glyph}
    (hc : s.content = flat (pre ++ g :: post)) {i : Nat} {b : UInt8} (hb : g.bytes[i]? = some b) :
    s.byte ((flat pre).length + i) = .done b := by
  apply Text.byte_of_content
  have hi : i < g.bytes.length := (List.getElem?_eq_some_iff.mp hb).1
  rw [hc, flat_append, List.getElem?_append_right (Nat.le_add_right ..), Nat.add_sub_cancel_left,
    flat_cons, List.getElem?_append_left hi, hb]

/-- The lead byte of a glyph. -/
theorem Text.byte_head {pre post : List Glyph} {g : Glyph}
    (hc : s.content = flat (pre ++ g :: post)) :
    s.byte (flat pre).length = .done g.head :=
  Text.byte_glyph hc (i := 0) rfl

/-- The glyphs lie within 32-bit offsets. -/
theorem Text.end_glyph {pre post : List Glyph} {g : Glyph}
    (hc : s.content = flat (pre ++ g :: post)) :
    (flat pre).length + g.bytes.length ≤ s.cb := by
  rw [← s.length_content, hc]
  simp only [flat_append, flat_cons, List.length_append]
  omega

theorem Text.lengthLoop_eq {pre gs : List Glyph} (hc : s.content = flat (pre ++ gs)) {n : Nat}
    (hn : gs.length ≤ n) (cc : Nat) :
    s.lengthLoop n (flat pre).length cc =
      if gs = [] ∨ cc + gs.length < 2 ^ 31 then .done (cc + gs.length) else .fault := by
  induction gs generalizing pre n cc with
  | nil =>
    have hcb : s.cb = (flat pre).length := by rw [← s.length_content, hc, List.append_nil]
    cases n with
    | zero => simp [Text.lengthLoop]
    | succ n => simp [Text.lengthLoop, hcb]
  | cons g gs ih =>
    obtain ⟨n, rfl⟩ : ∃ m, n = m + 1 := ⟨n - 1, by simp at hn; omega⟩
    have hlt : (flat pre).length < s.cb :=
      Nat.lt_of_lt_of_le (Nat.lt_add_of_pos_right g.length_bytes_pos) (Text.end_glyph hc)
    simp only [Text.lengthLoop, hlt, ↓reduceIte, Text.byte_head hc, Outcome.bind_done]
    have hstep : (flat pre).length + seqLen g.head = (flat (pre ++ [g])).length := by
      simp [g.seqLen_head]
    have hc' : s.content = flat ((pre ++ [g]) ++ gs) := by
      rw [List.append_assoc]
      exact hc
    rw [hstep, ih hc' (Nat.le_of_succ_le_succ hn)]
    simp only [List.length_cons, reduceCtorEq, false_or]
    by_cases hov : cc + 1 < 2 ^ 31
    · simp only [hov, ↓reduceIte]
      by_cases hnil : gs = []
      · subst hnil
        rw [if_pos (Or.inl rfl), List.length_nil, if_pos hov]
      · simp only [hnil, false_or, show cc + 1 + gs.length = cc + (gs.length + 1) by omega]
    · simp only [hov, ↓reduceIte]
      rw [if_neg (by omega)]

/-- `length()` counts the glyphs, up to `2^31 - 1` of them. -/
theorem Text.length_eq (hc : s.content = flat all) :
    s.length = if all.length < 2 ^ 31 then .done all.length else .fault := by
  have hle : all.length ≤ s.cb := by
    rw [← s.length_content, hc]
    exact length_le_length_flat all
  have := Text.lengthLoop_eq (show s.content = flat ([] ++ all) from hc) hle 0
  rw [Text.length]
  simp only [flat_nil, List.length_nil, Nat.zero_add] at this
  rw [this]
  by_cases hnil : all = []
  · simp [hnil]
  · simp [hnil]

theorem Text.charForward_eq {pre mid post : List Glyph}
    (hc : s.content = flat (pre ++ (mid ++ post))) :
    s.charForward mid.length (flat pre).length = .done (flat (pre ++ mid)).length := by
  induction mid generalizing pre with
  | nil => simp [Text.charForward]
  | cons g mid ih =>
    have hstep : u32 ((flat pre).length + seqLen g.head) = (flat (pre ++ [g])).length := by
      have hend := Text.end_glyph (show s.content = flat (pre ++ g :: (mid ++ post)) from hc)
      have := s.cb_lt
      rw [g.seqLen_head, u32_of_lt (by omega)]
      simp
    have hc' : s.content = flat ((pre ++ [g]) ++ (mid ++ post)) := by
      rw [List.append_assoc]
      exact hc
    have hb : s.byte (flat pre).length = .done g.head :=
      Text.byte_head (show s.content = flat (pre ++ g :: (mid ++ post)) from hc)
    simp only [List.length_cons, Text.charForward, hb, Outcome.bind_done, hstep, ih hc']
    simp

/-- The offset of a character is the size of those before it. -/
theorem Text.charIndexToOffset_eq (hc : s.content = flat all) {i : Nat} (hi : i ≤ all.length) :
    s.charIndexToOffset i = .done (flat (all.take i)).length := by
  have hc' : s.content = flat ([] ++ (all.take i ++ all.drop i)) := by
    rw [List.nil_append, List.take_append_drop]
    exact hc
  have := Text.charForward_eq hc'
  rw [List.length_take, Nat.min_eq_left hi] at this
  exact this

/-- `readUtf8` at a glyph. -/
theorem Text.readUtf8_eq {pre post : List Glyph} {g : Glyph}
    (hc : s.content = flat (pre ++ g :: post)) :
    s.readUtf8 (flat pre).length =
      .done (g.code, if g.isByte 0 then (flat pre).length else (flat pre).length +
        g.bytes.length) := by
  have hend := Text.end_glyph hc
  have hlt := s.cb_lt
  rw [readUtf8_glyph g (Text.byte_head hc), u32_of_lt (by omega)]
  intro i b hb
  have hi := (List.getElem?_eq_some_iff.mp hb).1
  simp only [Glyph.bytes, List.length_cons] at hend
  rw [u32_of_lt (by omega)]
  exact Text.byte_glyph hc (i := i + 1) hb

theorem Text.charAt_eq (hc : s.content = flat all) {i : Nat} (hi : i < all.length) :
    s.charAt i = .done (all[i]).code := by
  have hsplit : all = all.take i ++ all[i] :: all.drop (i + 1) := by
    rw [← List.drop_eq_getElem_cons hi, List.take_append_drop]
  have hread := Text.readUtf8_eq (hc.trans (congrArg flat hsplit))
  simp only [Text.charAt, Text.charIndexToOffset_eq hc (Nat.le_of_lt hi), Outcome.bind_done, hread]

theorem Holds.content (hs : Holds s all next) : s.content = flat all := by
  obtain ⟨t, ht⟩ := hs.mem
  rw [Text.content, ht, hs.cb, List.take_left]

theorem Holds.length_eq (hs : Holds s all next) :
    s.length = if all.length < 2 ^ 31 then .done all.length else .fault :=
  Text.length_eq hs.content

theorem Holds.charIndexToOffset_eq (hs : Holds s all next) {i : Nat} (hi : i ≤ all.length) :
    s.charIndexToOffset i = .done (flat (all.take i)).length :=
  Text.charIndexToOffset_eq hs.content hi

theorem Holds.charAt_eq (hs : Holds s all next) {i : Nat} (hi : i < all.length) :
    s.charAt i = .done (all[i]).code :=
  Text.charAt_eq hs.content hi

/-- Reading to the end gives the code points, when there is no NUL among them. -/
theorem Holds.readChars_eq (hs : Holds s all next) {c : Cursor} {gs : List Glyph} (h : At all c gs)
    (hnul : ∀ g ∈ gs, g.isByte 0 = false) {n : Nat} (hn : gs.length < n) :
    ∃ c', s.readChars n c = .done (gs.map Glyph.code, c') ∧ c'.it = s.cb := by
  induction gs generalizing c n with
  | nil =>
    obtain ⟨n, rfl⟩ : ∃ m, n = m + 1 := ⟨n - 1, by simp at hn; omega⟩
    refine ⟨c, ?_, hs.it_eq_cb h⟩
    simp [Text.readChars, hs.it_eq_cb h]
  | cons g gs ih =>
    obtain ⟨n, rfl⟩ : ∃ m, n = m + 1 := ⟨n - 1, by simp at hn; omega⟩
    have hlt : c.it < s.cb := Nat.lt_of_not_le (hs.not_ge_cb h)
    have h0 : g.isByte 0 = false := hnul g (List.mem_cons_self ..)
    have hread : s.readChar c = .done (g.code, c.moveTo (c.it + g.bytes.length)) := by
      simp [Text.readChar, Nat.not_le.mpr hlt, hs.readUtf8_cons h, h0]
    have hat : At all (c.moveTo (c.it + g.bytes.length)) gs := At.moveTo (p := [g]) h (by simp)
    obtain ⟨c', hc', hit⟩ := ih hat (fun g' hg' => hnul g' (List.mem_cons_of_mem _ hg'))
      (Nat.lt_of_succ_lt_succ hn)
    refine ⟨c', ?_, hit⟩
    simp [Text.readChars, hlt, hread, hc']

end Glyphs

end Libacorn
