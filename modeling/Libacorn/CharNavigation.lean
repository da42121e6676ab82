import Libacorn.CharIndex

/-!
# Forward and backward navigation: base/string.cpp

Forward steps look at the lead byte of a character, backward steps at its
continuation bytes. On well-formed UTF-8 both cut the string at the same places,
and no assertion of the backward steps fails (`navigation_agrees`).
-/

namespace Libacorn

open Support

/-! ## Marked glyphs -/

/-- The mask that `assertLead` gets for a character of `n` bytes. -/
def leadMask : Nat → UInt8
  | 1 => 0x80
  | 2 => 0xE0
  | 3 => 0xF0
  | _ => 0xF8

/-- The bits under the mask. -/
def leadBits : Nat → UInt8
  | 1 => 0
  | 2 => 0xC0
  | 3 => 0xE0
  | _ => 0xF0

/-- The lead byte shows the length, and the other bytes are continuation bytes. -/
structure Glyph.Marked (g : Glyph) : Prop where
  head : g.head &&& leadMask g.bytes.length = leadBits g.bytes.length
  tail : ∀ b ∈ g.tail, b &&& 0xC0 = 0x80

theorem lead_not_continuation {n : Nat} {b : UInt8} (h : b &&& leadMask n = leadBits n) :
    b &&& 0xC0 ≠ 0x80 := by
  have h1 : ∀ b : UInt8, b &&& 0x80 = 0 → b &&& 0xC0 ≠ 0x80 := forall_byte (by decide +kernel)
  have h2 : ∀ b : UInt8, b &&& 0xE0 = 0xC0 → b &&& 0xC0 ≠ 0x80 := forall_byte (by decide +kernel)
  have h3 : ∀ b : UInt8, b &&& 0xF0 = 0xE0 → b &&& 0xC0 ≠ 0x80 := forall_byte (by decide +kernel)
  have h4 : ∀ b : UInt8, b &&& 0xF8 = 0xF0 → b &&& 0xC0 ≠ 0x80 := forall_byte (by decide +kernel)
  unfold leadMask leadBits at h
  split at h
  · exact h1 b h
  · exact h2 b h
  · exact h3 b h
  · exact h4 b h

theorem contByte_marked (x : Nat) : contByte x &&& 0xC0 = 0x80 := by
  have h : ∀ y : Fin 64, UInt8.ofNat (y + 0x80) &&& 0xC0 = 0x80 := by decide
  exact h ⟨x % 64, Nat.mod_lt _ (by decide)⟩

theorem Glyph.ofCode_marked (v : Nat) : (Glyph.ofCode v).Marked := by
  have h1 : ∀ y : Fin 128, UInt8.ofNat y &&& 0x80 = 0 := by decide
  have h2 : ∀ y : Fin 32, UInt8.ofNat (y + 0xC0) &&& 0xE0 = 0xC0 := by decide
  have h3 : ∀ y : Fin 16, UInt8.ofNat (y + 0xE0) &&& 0xF0 = 0xE0 := by decide
  have h4 : ∀ y : Fin 8, UInt8.ofNat (y + 0xF0) &&& 0xF8 = 0xF0 := by decide
  have hcont : ∀ l : List Nat, ∀ b ∈ l.map contByte, b &&& 0xC0 = 0x80 := by
    intro l b hb
    obtain ⟨x, -, rfl⟩ := List.mem_map.mp hb
    exact contByte_marked x
  unfold Glyph.ofCode
  split_ifs
  · exact ⟨h1 ⟨v % 128, Nat.mod_lt _ (by decide)⟩, hcont []⟩
  · exact ⟨h2 ⟨v / 2 ^ 6 % 32, Nat.mod_lt _ (by decide)⟩, hcont [v]⟩
  · exact ⟨h3 ⟨v / 2 ^ 12 % 16, Nat.mod_lt _ (by decide)⟩, hcont [v / 2 ^ 6, v]⟩
  · exact ⟨h4 ⟨v / 2 ^ 18 % 8, Nat.mod_lt _ (by decide)⟩, hcont [v / 2 ^ 12, v / 2 ^ 6, v]⟩

/-! ## One step back -/

section Back

variable {s : Text} {all pre post : List Glyph} {g : Glyph}

/-- A backward step stops at the lead byte; at the start of the string the guard stops it. -/
theorem Text.isContinuation_head (hc : s.content = flat (pre ++ g :: post)) (hg : g.Marked) :
    s.isContinuation (flat pre).length = .done false := by
  rw [Text.isContinuation]
  by_cases h0 : (flat pre).length > 0
  · rw [if_pos h0, Text.byte_head hc, Outcome.bind_done,
      decide_eq_false (lead_not_continuation hg.head)]
  · rw [if_neg h0]

theorem Text.isContinuation_tail (hc : s.content = flat (pre ++ g :: post)) (hg : g.Marked)
    {i : Nat} {b : UInt8} (hb : g.tail[i]? = some b) :
    s.isContinuation ((flat pre).length + (i + 1)) = .done true := by
  have hbyte : s.byte ((flat pre).length + (i + 1)) = .done b := Text.byte_glyph hc hb
  rw [Text.isContinuation, if_pos (by omega), hbyte, Outcome.bind_done,
    decide_eq_true (hg.tail b (List.mem_of_getElem? hb))]

/-- The assertion at the lead byte holds. -/
theorem Text.assertLead_head (hc : s.content = flat (pre ++ g :: post)) (hg : g.Marked) {n : Nat}
    (hn : g.bytes.length = n) :
    s.assertLead (flat pre).length (leadMask n) (leadBits n) = .done (flat pre).length := by
  have hhead := hg.head
  rw [hn] at hhead
  rw [Text.assertLead, Text.byte_head hc, Outcome.bind_done, if_pos hhead.symm]

/-- One character back, from its end to its start. -/
theorem Text.stepBack_eq (hc : s.content = flat (pre ++ g :: post)) (hg : g.Marked) :
    s.stepBack ((flat pre).length + g.bytes.length) = .done (flat pre).length := by
  have hhead := Text.isContinuation_head hc hg
  have htail : ∀ {i b}, g.tail[i]? = some b → s.isContinuation ((flat pre).length + (i + 1)) =
      .done true :=
    fun hb => Text.isContinuation_tail hc hg hb
  have hlead : ∀ {n}, g.bytes.length = n →
      s.assertLead (flat pre).length (leadMask n) (leadBits n) = .done (flat pre).length :=
    fun hn => Text.assertLead_head hc hg hn
  have hlen : g.tail.length < 4 := by
    have := g.complete
    unfold seqLen at this
    split_ifs at this <;> omega
  generalize hp : (flat pre).length = p at *
  rw [Text.stepBack]
  match htl : g.tail with
  | [] =>
    have hn : g.bytes.length = 1 := by rw [Glyph.bytes, htl]; rfl
    have h1 : s.isContinuation (p + 1 - 1) = .done false := hhead
    rw [hn, h1]
    exact hlead hn
  | [b1] =>
    have hn : g.bytes.length = 2 := by rw [Glyph.bytes, htl]; rfl
    have h1 : s.isContinuation (p + 2 - 1) = .done true := htail (i := 0) (by rw [htl]; rfl)
    have h2 : s.isContinuation (p + 2 - 2) = .done false := hhead
    rw [hn, h1, Outcome.bind_done, if_pos rfl, h2]
    exact hlead hn
  | [b1, b2] =>
    have hn : g.bytes.length = 3 := by rw [Glyph.bytes, htl]; rfl
    have h1 : s.isContinuation (p + 3 - 1) = .done true := htail (i := 1) (by rw [htl]; rfl)
    have h2 : s.isContinuation (p + 3 - 2) = .done true := htail (i := 0) (by rw [htl]; rfl)
    have h3 : s.isContinuation (p + 3 - 3) = .done false := hhead
    rw [hn, h1, Outcome.bind_done, if_pos rfl, h2, Outcome.bind_done, if_pos rfl, h3]
    exact hlead hn
  | [b1, b2, b3] =>
    have hn : g.bytes.length = 4 := by rw [Glyph.bytes, htl]; rfl
    have h1 : s.isContinuation (p + 4 - 1) = .done true := htail (i := 2) (by rw [htl]; rfl)
    have h2 : s.isContinuation (p + 4 - 2) = .done true := htail (i := 1) (by rw [htl]; rfl)
    have h3 : s.isContinuation (p + 4 - 3) = .done true := htail (i := 0) (by rw [htl]; rfl)
    rw [hn, h1, Outcome.bind_done, if_pos rfl, h2, Outcome.bind_done, if_pos rfl, h3]
    exact hlead hn
  | _ :: _ :: _ :: _ :: _ =>
    rw [htl] at hlen
    simp only [List.length_cons] at hlen
    omega

theorem Text.rewind_eq (hc : s.content = flat (pre ++ g :: post)) (hg : g.Marked) :
    s.rewind ((flat pre).length + g.bytes.length) = .done (flat pre).length := by
  rw [Text.rewind, if_pos (Nat.add_pos_right _ g.length_bytes_pos), Text.stepBack_eq hc hg]

/-! ## Many steps back -/

theorem Text.charBackward_zero (s : Text) (n : Nat) : s.charBackward n 0 = .done 0 := by
  cases n with
  | zero => rfl
  | succ n => rfl

theorem Text.charBackward_add (s : Text) (m n o : Nat) :
    s.charBackward (m + n) o = (s.charBackward m o).bind (s.charBackward n) := by
  induction m generalizing o with
  | zero => rw [Nat.zero_add]; rfl
  | succ m ih =>
    rw [Nat.succ_add]
    simp only [Text.charBackward]
    by_cases h0 : o > 0
    · rw [if_pos h0, if_pos h0]
      cases s.stepBack o with
      | done o' => exact ih o'
      | timeout => rfl
      | fault => rfl
    · rw [if_neg h0, if_neg h0, Outcome.bind_done, show o = 0 by omega, Text.charBackward_zero]

/-- From the end of some glyphs back to their start. -/
theorem Text.charBackward_eq {mid : List Glyph} (hc : s.content = flat (pre ++ mid ++ post))
    (hg : ∀ g ∈ mid, g.Marked) :
    s.charBackward mid.length (flat (pre ++ mid)).length = .done (flat pre).length := by
  induction mid generalizing pre with
  | nil => rw [List.append_nil]; rfl
  | cons g mid ih =>
    have hc₁ : s.content = flat ((pre ++ [g]) ++ mid ++ post) := by simpa using hc
    have hc₂ : s.content = flat (pre ++ g :: (mid ++ post)) := by simpa using hc
    have hrest := ih hc₁ (fun g' hg' => hg g' (List.mem_cons_of_mem _ hg'))
    rw [List.append_assoc] at hrest
    have hend : (flat (pre ++ [g])).length = (flat pre).length + g.bytes.length := by simp
    have hone := Text.stepBack_eq hc₂ (hg g (List.mem_cons_self ..))
    rw [List.length_cons, Text.charBackward_add]
    simp only [List.singleton_append] at hrest
    rw [hrest, Outcome.bind_done, hend, Text.charBackward,
      if_pos (Nat.add_pos_right _ g.length_bytes_pos), hone]
    rfl

end Back

/-! ## Both directions -/

section Navigation

variable {s : Text} {cs : List Char}

theorem Glyph.ofChar_marked (c : Char) : (Glyph.ofChar c).Marked := Glyph.ofCode_marked c.toNat

theorem marked_ofChar (cs : List Char) : ∀ g ∈ cs.map Glyph.ofChar, g.Marked := by
  intro g hg
  obtain ⟨c, -, rfl⟩ := List.mem_map.mp hg
  exact Glyph.ofChar_marked c

theorem Text.content_glyphs {pre post : List Char} (hc : s.content = utf8 (pre ++ post)) :
    s.content = flat (pre.map Glyph.ofChar ++ post.map Glyph.ofChar) := by
  rw [hc, utf8_eq_flat, List.map_append]

/-- Forwards, to the end of the first characters. -/
theorem Text.charIndexToOffset_utf8 (hc : s.content = utf8 cs) {i : Nat} (hi : i ≤ cs.length) :
    s.charIndexToOffset i = .done (utf8 (cs.take i)).length := by
  have hoff := Text.charIndexToOffset_eq (hc.trans (utf8_eq_flat cs))
      (show i ≤ (cs.map Glyph.ofChar).length by
    rwa [List.length_map])
  rw [hoff, utf8_eq_flat, List.map_take]

theorem Text.charIndexToOffset_neg (s : Text) {k : Nat} (hk : 1 ≤ k) :
    s.charIndexToOffset (-k) = s.charBackward k s.cb := by
  obtain ⟨n, rfl⟩ : ∃ n, k = n + 1 := ⟨k - 1, by omega⟩
  rfl

/-- Backwards, over the last characters. -/
theorem Text.charBackward_utf8 {pre post : List Char} (hc : s.content = utf8 (pre ++ post)) :
    s.charBackward post.length s.cb = .done (utf8 pre).length := by
  have hend : s.cb = (flat (pre.map Glyph.ofChar ++ post.map Glyph.ofChar)).length := by
    rw [← s.length_content, Text.content_glyphs hc]
  have hc' : s.content = flat (pre.map Glyph.ofChar ++ post.map Glyph.ofChar ++ []) := by
    rw [List.append_nil, Text.content_glyphs hc]
  have hback := Text.charBackward_eq hc' (marked_ofChar post)
  rw [List.length_map, ← hend] at hback
  rw [hback, utf8_eq_flat]

/-- Beyond the first character the position stays at the start. -/
theorem Text.charBackward_beyond (hc : s.content = utf8 cs) {k : Nat} (hk : cs.length ≤ k) :
    s.charBackward k s.cb = .done 0 := by
  have hall := Text.charBackward_utf8 (show s.content = utf8 ([] ++ cs) from hc)
  obtain ⟨n, rfl⟩ := Nat.exists_eq_add_of_le hk
  rw [Text.charBackward_add, hall, Outcome.bind_done, utf8_nil, List.length_nil,
    Text.charBackward_zero]

theorem Text.charIndexToOffset_agrees (hc : s.content = utf8 cs) {k : Nat} (h1 : 1 ≤ k)
    (hk : k ≤ cs.length) :
    s.charIndexToOffset (-k) = s.charIndexToOffset (cs.length - k) := by
  have hsplit : s.content = utf8 (cs.take (cs.length - k) ++ cs.drop (cs.length - k)) := by
    rw [List.take_append_drop, hc]
  have hback := Text.charBackward_utf8 hsplit
  rw [List.length_drop, show cs.length - (cs.length - k) = k by omega] at hback
  rw [s.charIndexToOffset_neg h1, hback, show (cs.length : Int) - k =
    ((cs.length - k : Nat) : Int) by omega, Text.charIndexToOffset_utf8 hc (Nat.sub_le ..)]

theorem length_utf8_concat (pre : List Char) (ch : Char) :
    (utf8 (pre ++ [ch])).length = (utf8 pre).length + (Glyph.ofChar ch).bytes.length := by
  rw [length_utf8_append, utf8_singleton]

/-- `readUtf8` at a character; it does not move over a NUL. -/
theorem Text.readUtf8_char {pre post : List Char} {ch : Char}
    (hc : s.content = utf8 (pre ++ ch :: post)) :
    s.readUtf8 (utf8 pre).length =
      .done (ch.toNat, if ch.toNat = 0 then (utf8 pre).length else
        (utf8 (pre ++ [ch])).length) := by
  have hg : s.content = flat (pre.map Glyph.ofChar ++ Glyph.ofChar ch :: post.map Glyph.ofChar) :=
    Text.content_glyphs hc
  have hread := Text.readUtf8_eq hg
  rw [isByte_ofChar ch (by decide), Glyph.code_ofChar, ← utf8_eq_flat] at hread
  rw [hread, length_utf8_concat]
  simp

/-- `rewind` from the end of a character. -/
theorem Text.rewind_char {pre post : List Char} {ch : Char}
    (hc : s.content = utf8 (pre ++ ch :: post)) :
    s.rewind (utf8 (pre ++ [ch])).length = .done (utf8 pre).length := by
  have hg : s.content = flat (pre.map Glyph.ofChar ++ Glyph.ofChar ch :: post.map Glyph.ofChar) :=
    Text.content_glyphs hc
  rw [length_utf8_concat, utf8_eq_flat]
  exact Text.rewind_eq hg (Glyph.ofChar_marked ch)

/-- The end of a character of the string. -/
theorem Text.length_concat_le {pre post : List Char} {ch : Char}
    (hc : s.content = utf8 (pre ++ ch :: post)) :
    (utf8 pre).length < (utf8 (pre ++ [ch])).length ∧ (utf8 (pre ++ [ch])).length ≤ s.cb := by
  have hpos := (Glyph.ofChar ch).length_bytes_pos
  have hsplit : utf8 (pre ++ ch :: post) = utf8 (pre ++ [ch]) ++ utf8 post := by
    rw [← utf8_append, List.append_assoc]
    rfl
  constructor
  · rw [length_utf8_concat]
    omega
  · rw [← s.length_content, hc, hsplit, List.length_append]
    exact Nat.le_add_right ..

/-- Reading a character and going back. -/
theorem Text.rewind_readChar {pre post : List Char} {ch : Char}
    (hc : s.content = utf8 (pre ++ ch :: post)) (hnul : (0 : UInt8) ∉ s.content) {c : Cursor}
    (hit : c.it = (utf8 pre).length) :
    ∃ c', s.readChar c = .done (ch.toNat, c') ∧ s.rewind c'.it = .done c.it := by
  have hne : ch.toNat ≠ 0 := by
    intro h0
    apply hnul
    rw [hc, utf8_append]
    have hch : ch = Char.ofNat 0 := Char.toNat_inj.mp h0
    rw [hch]
    exact List.mem_append_right _ (List.mem_cons_self ..)
  obtain ⟨hlt, hle⟩ := Text.length_concat_le hc
  have hread := Text.readUtf8_char hc
  rw [if_neg hne] at hread
  refine ⟨c.moveTo (utf8 (pre ++ [ch])).length, ?_, ?_⟩
  · rw [Text.readChar, if_neg (by omega), hit, hread]
    rfl
  · rw [hit]
    exact Text.rewind_char hc

/-- Going back from a boundary. -/
theorem Text.rewind_boundary {o : Nat} (ho : CharBoundary s.content o) :
    ∃ o', s.rewind o = .done o' := by
  obtain ⟨pre, post, hc, rfl⟩ := ho
  rcases List.eq_nil_or_concat pre with rfl | ⟨pre, ch, rfl⟩
  · exact ⟨0, rfl⟩
  · have hc' : s.content = utf8 (pre ++ ch :: post) := by simpa using hc
    rw [List.concat_eq_append]
    exact ⟨_, Text.rewind_char hc'⟩

/-- Backward and forward navigation cut a NUL-free string at the same places, and the assertions of
the backward steps hold. -/
theorem navigation_agrees (hc : s.content = utf8 cs) (hnul : (0 : UInt8) ∉ s.content) :
    (∀ k : Nat, 1 ≤ k → k ≤ cs.length →
      s.charIndexToOffset (-k) = s.charIndexToOffset (cs.length - k) ∧
        s.charIndexToOffset (-k) = .done (utf8 (cs.take (cs.length - k))).length) ∧
    (∀ k : Nat, cs.length < k → s.charIndexToOffset (-k) = .done 0) ∧
    (∀ c : Cursor, CharBoundary s.content c.it → c.it < s.cb →
      ∃ ch c', s.readChar c = .done (ch, c') ∧ s.rewind c'.it = .done c.it) ∧
    ∀ o, CharBoundary s.content o → ∃ o', s.rewind o = .done o' := by
  refine ⟨?_, ?_, ?_, fun o ho => Text.rewind_boundary ho⟩
  · intro k h1 hk
    have hagree := Text.charIndexToOffset_agrees hc h1 hk
    refine ⟨hagree, ?_⟩
    rw [hagree, show (cs.length : Int) - k = ((cs.length - k : Nat) : Int) by omega]
    exact Text.charIndexToOffset_utf8 hc (Nat.sub_le ..)
  · intro k hk
    rw [s.charIndexToOffset_neg (Nat.one_le_of_lt hk)]
    exact Text.charBackward_beyond hc (Nat.le_of_lt hk)
  · rintro c ⟨pre, post, hsplit, hit⟩ hlt
    cases post with
    | nil =>
      have hcb := s.length_content
      rw [hsplit, List.append_nil] at hcb
      omega
    | cons ch post =>
      obtain ⟨c', hread, hback⟩ := Text.rewind_readChar hsplit hnul hit
      exact ⟨ch.toNat, c', hread, hback⟩

/-- A slice of a larger buffer, with characters of every length. -/
theorem navigation_agrees_mixed :
    let s : Text := ⟨[0x9F, 0x61, 0xC3, 0xA9, 0xE2, 0x82, 0xAC, 0xF0, 0x9F, 0x98, 0x80, 0x80], 1,
      10, false, by decide, by decide⟩
    s.charIndexToOffset (-2) = s.charIndexToOffset 2 ∧ s.charIndexToOffset (-5) = .done 0 ∧
      ∃ ch c', s.readChar ⟨6, [6]⟩ = .done (ch, c') ∧ s.rewind c'.it = .done 6 := by
  intro s
  have hc : s.content = utf8 ['a', 'é', '€', '😀'] := by decide
  obtain ⟨hback, hbeyond, hread, -⟩ := navigation_agrees hc (by decide)
  refine ⟨(hback 2 (by decide) (by decide)).1, hbeyond 5 (by decide), ?_⟩
  exact hread ⟨6, [6]⟩ ⟨['a', 'é', '€'], ['😀'], hc, by decide⟩ (by decide)

end Navigation

end Libacorn
