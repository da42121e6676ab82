import Libacorn.StringEdits
import Libacorn.StringSlice
import Libacorn.StringSubstr

/-!
# substrAt and eraseAt

`charIndexToOffset` takes as many steps as it is told to. `ranges_clamped_iff`: an end
index reaches no further than the terminator just when it is at most one character beyond
the last one. The default of the header, 0x7FFFFFFF, is out of range for any shorter string.
-/

namespace Libacorn

open Support

/-! ## The source -/

/-- The two offsets that `substrAt` and `eraseAt` compute. -/
def Text.rangeOffsets (s : Text) (i j : Int) : Outcome (Nat × Nat) :=
  (s.charIndexToOffset i).bind fun a => (s.charIndexToOffset j).bind fun b => .done (a, b)

namespace StringHeap

/-- `string::substrAt` -/
def substrAt (H : Heap) (h : Handle) (i j : Int) : Except Fault (Heap × Handle) :=
  match (textOf H h).map fun s => s.rangeOffsets i j with
  | some (Outcome.done (a, b)) => substr H h a b
  | _ => .error .bounds

/-- `string::eraseAt`; the end index that stands for the end is -1. -/
def eraseAt [Uninit] (H : Heap) (h : Handle) (startIndex endIndex : Int) :
    Except Fault (Heap × Handle) :=
  if endIndex = -1 then
    match (textOf H h).map fun s => s.charIndexToOffset startIndex with
    | some (Outcome.done a) => erase H h a 0xFFFFFFFF
    | _ => .error .bounds
  else
    match (textOf H h).map fun s => s.rangeOffsets startIndex endIndex with
    | some (Outcome.done (a, b)) => erase H h a b
    | _ => .error .bounds

end StringHeap

/-! ## The string and its terminator -/

/-- A NUL directly behind the string. -/
def Text.Closed (s : Text) : Prop := s.byte s.cb = .done 0

instance (s : Text) : Decidable s.Closed := inferInstanceAs (Decidable (s.byte s.cb = .done 0))

/-- The string and its terminator in a memory of their own, where every other read is a fault. -/
def Text.enclosed (s : Text) : Text where
  mem := s.content ++ if s.Closed then [0] else []
  offset := 0
  cb := s.cb
  static := s.static
  cb_lt := s.cb_lt
  fits := by
    rw [List.length_append, s.length_content]
    omega

section Enclosed

variable {s : Text} {cs : List Char}

theorem Text.enclosed_content (s : Text) : s.enclosed.content = s.content := by
  rw [Text.content, Text.enclosed, List.drop_zero, List.take_left' s.length_content]

/-- The byte behind the string. -/
theorem Text.enclosed_byte_end : s.enclosed.byte s.cb = if s.Closed then .done 0 else .fault := by
  rw [Text.byte, Text.enclosed, Nat.zero_add, List.getElem?_append_right
    (Nat.le_of_eq s.length_content), s.length_content, Nat.sub_self]
  by_cases h : s.Closed <;> simp [h]

/-- The bytes behind the terminator. -/
theorem Text.enclosed_byte_past {o : Nat} (ho : s.cb < o) : s.enclosed.byte o = .fault := by
  have hlen : (s.content ++ if s.Closed then [0] else []).length ≤ s.cb + 1 := by
    rw [List.length_append, s.length_content]
    split <;> simp
  rw [Text.byte, Text.enclosed, Nat.zero_add, List.getElem?_eq_none (Nat.le_trans hlen ho)]

/-- What can be read in the enclosed string is what the string holds. -/
theorem Text.byte_of_enclosed {o : Nat} {b : UInt8} (h : s.enclosed.byte o = .done b) :
    s.byte o = .done b := by
  rcases Nat.lt_trichotomy o s.cb with ho | rfl | ho
  · apply Text.byte_of_content
    rw [Text.byte, Text.enclosed, Nat.zero_add, List.getElem?_append_left
      (by rwa [s.length_content])] at h
    cases hget : s.content[o]? with
    | none => rw [hget] at h; cases h
    | some b' =>
      rw [hget] at h
      rw [Outcome.done.inj h]
  · rw [Text.enclosed_byte_end] at h
    split at h
    next hclosed =>
      rw [← h]
      exact hclosed
    next => cases h
  · rw [Text.enclosed_byte_past ho] at h
    cases h

theorem Text.charForward_of_enclosed {n o o' : Nat} (h : s.enclosed.charForward n o = .done o') :
    s.charForward n o = .done o' := by
  induction n generalizing o with
  | zero => exact h
  | succ n ih =>
    obtain ⟨b, hb, h⟩ := Outcome.bind_eq_done h
    rw [Text.charForward, Text.byte_of_enclosed hb]
    exact ih h

theorem Text.charForward_add (s : Text) (m n o : Nat) :
    s.charForward (m + n) o = (s.charForward m o).bind (s.charForward n) := by
  induction m generalizing o with
  | zero => rw [Nat.zero_add]; rfl
  | succ m ih =>
    rw [Nat.succ_add, Text.charForward, Text.charForward]
    cases s.byte o with
    | done b => exact ih _
    | timeout => rfl
    | fault => rfl

/-- The walk beyond the last character. -/
theorem Text.charForward_beyond (hc : s.content = utf8 cs) (k : Nat) :
    s.charForward (cs.length + k) 0 = s.charForward k s.cb := by
  have hall := Text.charIndexToOffset_utf8 hc (Nat.le_refl cs.length)
  rw [List.take_length, ← hc, s.length_content] at hall
  rw [Text.charForward_add, show s.charForward cs.length 0 = .done s.cb from hall,
    Outcome.bind_done]

/-- The walk in the enclosed string ends at its end, behind the terminator, or, where that is the
last offset there is, somewhere before. -/
theorem Text.enclosed_walk (hc : s.content = utf8 cs) {k o : Nat} :
    s.enclosed.charForward (cs.length + k) 0 = .done o ↔
      (k = 0 ∧ o = s.cb) ∨ s.Closed ∧ ((k = 1 ∧ s.cb + 1 < 2 ^ 32 ∧ o = s.cb + 1) ∨
        ∃ j, k = j + 1 ∧ s.cb + 1 = 2 ^ 32 ∧ s.enclosed.charForward j 0 = .done o) := by
  have hlt := s.cb_lt
  rw [Text.charForward_beyond (s.enclosed_content.trans hc)]
  change s.enclosed.charForward k s.cb = .done o ↔ _
  cases k with
  | zero => simp [Text.charForward, eq_comm]
  | succ j =>
    rw [Text.charForward, Text.enclosed_byte_end]
    by_cases hclosed : s.Closed
    · rw [if_pos hclosed, Outcome.bind_done, show seqLen 0 = 1 from rfl]
      by_cases hwrap : s.cb + 1 < 2 ^ 32
      · rw [u32_of_lt hwrap]
        cases j with
        | zero =>
          rw [Text.charForward]
          constructor
          · intro h
            exact .inr ⟨hclosed, .inl ⟨rfl, hwrap, (Outcome.done.inj h).symm⟩⟩
          · rintro (⟨h, -⟩ | ⟨-, ⟨-, -, rfl⟩ | ⟨j, -, hmax, -⟩⟩)
            · cases h
            · rfl
            · omega
        | succ j =>
          rw [Text.charForward, Text.enclosed_byte_past (Nat.lt_succ_self _)]
          constructor
          · intro h
            cases h
          · rintro (⟨h, -⟩ | ⟨-, ⟨h, -⟩ | ⟨j', -, hmax, -⟩⟩)
            · cases h
            · cases h
            · omega
      · have hmax : s.cb + 1 = 2 ^ 32 := by omega
        rw [hmax, show u32 (2 ^ 32) = 0 from rfl]
        simp [hclosed]
    · simp [hclosed]

end Enclosed

namespace StringHeap

/-! ## Ranges of a string -/

/-- A range that starts at a character and goes to an index at or beyond the end is the rest of the
string, `eraseAt` removes it, and the offsets are those that the string and its terminator give. -/
structure Clamps [Uninit] (H : Heap) (h : Handle) (cs : List Char) (i j : Nat) : Prop where
  reads : ∃ s o, textOf H h = some s ∧ s.enclosed.rangeOffsets i j = .done o
  substr : ∃ r, substrAt H h i j = .ok r ∧ content r.1 r.2 = utf8 (cs.drop i)
  erase : ∃ r, eraseAt H h i j = .ok r ∧ content r.1 r.2 = utf8 (cs.take i)

/-- The index is at most one character beyond the end, and there is a terminator to step over. -/
def NearEnd (s : Text) (n j : Nat) : Prop := j = n ∨ j = n + 1 ∧ s.Closed ∧ s.cb + 1 < 2 ^ 32

/-- In a string of the largest size the walk beyond the terminator starts over: the range ends
before the character that it reaches, and holds the same characters as the rest of the string. -/
def StartsOver (s : Text) (cs : List Char) (i j : Nat) : Prop :=
  cs.length < j ∧ s.Closed ∧ s.cb + 1 = 2 ^ 32 ∧
    utf8 ((cs.take i).drop (j - (cs.length + 1))) = utf8 (cs.drop i)

section Ranges

variable [Uninit] {H : Heap} {h : Handle} {cs : List Char} {i j : Nat} {rest : Multiset Nat}

omit [Uninit] in
theorem substrAt_eq {s : Text} (hs : textOf H h = some s) {a b : Nat}
    (hoff : s.rangeOffsets i j = .done (a, b)) :
    substrAt H h i j = substr H h a b := by
  rw [substrAt, hs, Option.map_some, hoff]

theorem eraseAt_eq {s : Text} (hs : textOf H h = some s) {a b : Nat}
    (hoff : s.rangeOffsets i j = .done (a, b)) :
    eraseAt H h i j = erase H h a b := by
  rw [eraseAt, if_neg (by omega), hs, Option.map_some, hoff]

omit [Uninit] in
/-- The offsets of a range, where only the string and its terminator can be read. -/
theorem rangeOffsets_enclosed {s : Text} (hc : s.content = utf8 cs) (hi : i ≤ cs.length)
    {o : Nat × Nat} :
    s.enclosed.rangeOffsets i j = .done o ↔
      o.1 = (utf8 (cs.take i)).length ∧ s.enclosed.charForward j 0 = .done o.2 := by
  obtain ⟨a, b⟩ := o
  rw [Text.rangeOffsets, Text.charIndexToOffset_utf8 (s.enclosed_content.trans hc) hi,
    Outcome.bind_done, show s.enclosed.charIndexToOffset (j : Int) = s.enclosed.charForward j 0
      from rfl]
  cases s.enclosed.charForward j 0 with
  | done b' => simp [eq_comm]
  | timeout => simp
  | fault => simp

omit [Uninit] in
/-- They are the same where everything can be read. -/
theorem rangeOffsets_of_enclosed {s : Text} (hc : s.content = utf8 cs) (hi : i ≤ cs.length)
    {o : Nat × Nat} (h : s.enclosed.rangeOffsets i j = .done o) : s.rangeOffsets i j = .done o := by
  obtain ⟨ha, hb⟩ := (rangeOffsets_enclosed hc hi).mp h
  rw [Text.rangeOffsets, Text.charIndexToOffset_utf8 hc hi, Outcome.bind_done,
    show s.charIndexToOffset (j : Int) = s.charForward j 0 from rfl, Text.charForward_of_enclosed
      hb, ← ha]
  rfl

/-- What the two functions do once the offsets are known. -/
theorem clamps_iff (hw : WF H h) (hc : content H h = utf8 cs) (hi : i ≤ cs.length) {b : Nat}
    (hb : (h.text H hw).enclosed.charForward j 0 = .done b) :
    Clamps H h cs i j ↔
      (∃ r, substr H h (utf8 (cs.take i)).length b = .ok r ∧ content r.1 r.2 = utf8 (cs.drop i)) ∧
        ∃ r, erase H h (utf8 (cs.take i)).length b = .ok r ∧
          content r.1 r.2 = utf8 (cs.take i) := by
  have htext : (h.text H hw).content = utf8 cs := hc
  have hread := (rangeOffsets_enclosed (j := j) (o := (_, b)) htext hi).mpr ⟨rfl, hb⟩
  have hoff := rangeOffsets_of_enclosed htext hi hread
  rw [← substrAt_eq hw.textOf_eq hoff, ← eraseAt_eq hw.textOf_eq hoff]
  exact ⟨fun h => ⟨h.substr, h.erase⟩, fun h => ⟨⟨_, _, hw.textOf_eq, hread⟩, h.1, h.2⟩⟩

omit [Uninit] in
theorem substr_iff (hw : WF H h) {a b : Nat} {w : Bytes} (hsel : selected (content H h) a b = w) :
    (∃ r, substr H h a b = .ok r ∧ content r.1 r.2 = w) ↔
      h.Retainable ∧ SameWrapped (memory H h.buf) (h.offset + min h.cb (min a b))
        (min h.cb (max a b) - min h.cb (min a b)) := by
  rw [← hsel]
  constructor
  · intro hs
    have hr : h.Retainable := SubstrSelects.retainable hs
    exact ⟨hr, (hw.substrSelects_iff hr a b).mp hs⟩
  · rintro ⟨hr, hsame⟩
    exact (hw.substrSelects_iff hr a b).mpr hsame

omit [Uninit] in
/-- `substr` from a character to the end or beyond. -/
theorem substr_rest (hw : WF H h) (hc : content H h = utf8 cs) {b : Nat} (hb : h.cb ≤ b) :
    (∃ r, substr H h (utf8 (cs.take i)).length b = .ok r ∧ content r.1 r.2 = utf8 (cs.drop i)) ↔
      h.Retainable ∧ SameWrapped (memory H h.buf) (h.offset + (utf8 (cs.take i)).length)
        (h.cb - (utf8 (cs.take i)).length) := by
  have hcb : (utf8 cs).length = h.cb := by rw [← hc, hw.length_content]
  have ha := length_utf8_take_le cs i
  have hsel : selected (content H h) (utf8 (cs.take i)).length b = utf8 (cs.drop i) := by
    rw [hc, selected, Nat.max_eq_right (by omega),
      Nat.min_eq_left (show (utf8 cs).length ≤ b by omega), List.take_length,
      Nat.min_eq_left (show (utf8 (cs.take i)).length ≤ b by omega), Nat.min_eq_right ha,
      utf8_drop]
  rw [substr_iff hw hsel, Nat.max_eq_right (show (utf8 (cs.take i)).length ≤ b by omega),
    Nat.min_eq_left (show (utf8 (cs.take i)).length ≤ b by omega), Nat.min_eq_left hb,
    Nat.min_eq_right (show (utf8 (cs.take i)).length ≤ h.cb by omega)]

/-- `erase` from a character to the end or beyond. -/
theorem erase_rest (hw : WF H h) (hO : H.Owned (own h + rest)) (hcard : rest.card + 1 < 2 ^ 32)
    (hc : content H h = utf8 cs) {b : Nat} (hb : h.cb ≤ b) :
    (∃ r, erase H h (utf8 (cs.take i)).length b = .ok r ∧ content r.1 r.2 = utf8 (cs.take i)) ↔
      cs.drop i = [] ∨ Harmless (editOffset H h) (utf8 (cs.take i)) := by
  have hcb : (utf8 cs).length = h.cb := by rw [← hc, hw.length_content]
  have ha := length_utf8_take_le cs i
  obtain ⟨r, hrun, hiff⟩ := erase_content hw hO hcard (utf8 (cs.take i)).length b
  have hrem : removed (content H h) (utf8 (cs.take i)).length b = utf8 (cs.take i) := by
    rw [hc, removed, Nat.min_eq_left (by omega), List.drop_eq_nil_of_le (by omega), List.append_nil,
      utf8_take]
  have hempty : h.cb = (utf8 (cs.take i)).length ↔ cs.drop i = [] := by
    have hsplit := congrArg List.length (utf8_take_append_drop cs i)
    rw [List.length_append] at hsplit
    constructor
    · intro h
      exact utf8_eq_nil.mp (List.length_eq_zero_iff.mp (by omega))
    · intro h
      rw [h, utf8_nil, List.length_nil] at hsplit
      omega
  rw [hrem, Nat.max_eq_right (show (utf8 (cs.take i)).length ≤ b by omega),
    Nat.min_eq_left (show (utf8 (cs.take i)).length ≤ b by omega), Nat.min_eq_left hb,
    Nat.min_eq_right (show (utf8 (cs.take i)).length ≤ h.cb by omega), hempty] at hiff
  rw [← hiff]
  constructor
  · rintro ⟨r', hrun', hcont⟩
    obtain rfl := Except.ok.inj (hrun.symm.trans hrun')
    exact hcont
  · exact fun hcont => ⟨r, hrun, hcont⟩

omit [Uninit] in
/-- A string of the largest size starts at its buffer. -/
theorem offset_of_largest (hw : WF H h) (hmax : h.cb + 1 = 2 ^ 32) : h.offset = 0 := by
  cases hw with
  | null hb hcb => omega
  | lit hb ht hle hm => omega
  | @heap i b hb ht hget hle =>
    have := b.lt
    omega

omit [Uninit] in
theorem utf8_drop_ne_nil {m : Nat} (hm : m < cs.length) : utf8 (cs.drop m) ≠ [] := by
  intro hnone
  rw [utf8_eq_nil, List.drop_eq_nil_iff] at hnone
  omega

omit [Uninit] in
theorem lt_of_startsOver {m : Nat} (hm : m < cs.length)
    (h : utf8 ((cs.take i).drop m) = utf8 (cs.drop i)) :
    m < i := by
  by_contra hlt
  have hnil : (cs.take i).drop m = [] := by
    apply List.drop_eq_nil_of_le
    rw [List.length_take]
    omega
  rw [hnil, utf8_nil] at h
  exact utf8_drop_ne_nil (by omega) h.symm

omit [Uninit] in
/-- What is left without the characters between two boundaries is those before the first one. -/
theorem removed_utf8 {m : Nat} (hm : m < cs.length) :
    removed (utf8 cs) (utf8 (cs.take i)).length (utf8 (cs.take m)).length = utf8 (cs.take i) ↔
      utf8 ((cs.take i).drop m) = utf8 (cs.drop i) := by
  rcases Nat.le_total m i with hle | hle
  · have hlen := length_utf8_take_mono cs hle
    have htake : (cs.take i).take m = cs.take m := by rw [List.take_take, Nat.min_eq_left hle]
    have hsplit : utf8 (cs.take i) = utf8 (cs.take m) ++ utf8 ((cs.take i).drop m) := by
      rw [← utf8_take_append_drop (cs.take i) m, htake]
    rw [removed, Nat.min_eq_right hlen, Nat.max_eq_left hlen, utf8_take, utf8_drop, eq_comm]
    conv_lhs => rw [hsplit]
    rw [List.append_cancel_left_eq]
  · -- a boundary that is not before the first one leaves the characters behind it
    have hlen := length_utf8_take_mono cs hle
    rw [removed, Nat.min_eq_left hlen, Nat.max_eq_right hlen, utf8_take, utf8_drop]
    constructor
    · intro h
      exact absurd (List.append_right_eq_self.mp h) (utf8_drop_ne_nil hm)
    · intro h
      exact absurd (lt_of_startsOver hm h) (Nat.not_lt.mpr hle)

/-- `erase` from a character to another, in a string that starts at its buffer. -/
theorem erase_between (hw : WF H h) (hO : H.Owned (own h + rest)) (hcard : rest.card + 1 < 2 ^ 32)
    (hc : content H h = utf8 cs) (hoff : h.offset = 0) {m : Nat} (hm : m < cs.length) :
    (∃ r, erase H h (utf8 (cs.take i)).length (utf8 (cs.take m)).length = .ok r ∧
        content r.1 r.2 = utf8 (cs.take i)) ↔
      utf8 ((cs.take i).drop m) = utf8 (cs.drop i) := by
  obtain ⟨r, hrun, hiff⟩ := erase_content hw hO hcard (utf8 (cs.take i)).length
      (utf8 (cs.take m)).length
  have hcont := hiff.mpr
      (.inr fun h0 => absurd h0 (by rw [editOffset_of_zero hoff]; exact Nat.lt_irrefl 0))
  rw [← removed_utf8 hm, ← hc, ← hcont]
  constructor
  · rintro ⟨r', hrun', hleft⟩
    obtain rfl := Except.ok.inj (hrun.symm.trans hrun')
    exact hleft
  · exact fun hleft => ⟨r, hrun, hleft⟩

omit [Uninit] in
/-- The walk to an index at or beyond the end: it ends there, behind the terminator, or starts
over and ends at one of the characters. -/
theorem walk_iff {s : Text} (hc : s.content = utf8 cs) (hj : cs.length ≤ j) (hj32 : j < 2 ^ 31)
    {b : Nat} :
    s.enclosed.charForward j 0 = .done b ↔
      (NearEnd s cs.length j ∧ b = s.cb + (j - cs.length)) ∨
        (cs.length < j ∧ s.Closed ∧ s.cb + 1 = 2 ^ 32) ∧ j - (cs.length + 1) < cs.length ∧
          b = (utf8 (cs.take (j - (cs.length + 1)))).length := by
  obtain ⟨k, rfl⟩ := Nat.exists_eq_add_of_le hj
  have hfour := length_utf8_le cs
  rw [← hc, s.length_content] at hfour
  rw [Text.enclosed_walk hc, NearEnd]
  constructor
  · rintro (⟨rfl, rfl⟩ | ⟨hclosed, ⟨rfl, hlt, rfl⟩ | ⟨m, rfl, hmax, hwalk⟩⟩)
    · exact .inl ⟨.inl rfl, by omega⟩
    · exact .inl ⟨.inr ⟨rfl, hclosed, hlt⟩, by omega⟩
    · -- four bytes a character: an index of 31 bits does not get to the end once more
      have hm : cs.length + (m + 1) - (cs.length + 1) = m := by omega
      have hlt : m < cs.length := by omega
      have hstep := Text.charIndexToOffset_utf8 (s.enclosed_content.trans hc) (Nat.le_of_lt hlt)
      refine .inr ⟨⟨by omega, hclosed, hmax⟩, ?_⟩
      rw [hm]
      exact ⟨hlt, Outcome.done.inj (hwalk.symm.trans hstep)⟩
  · rintro (⟨hend | ⟨hend, hclosed, hlt⟩, rfl⟩ | ⟨⟨hk, hclosed, hmax⟩, hlt, rfl⟩)
    · exact .inl ⟨by omega, by omega⟩
    · exact .inr ⟨hclosed, .inl ⟨by omega, hlt, by omega⟩⟩
    · refine .inr ⟨hclosed, .inr ⟨cs.length + k - (cs.length + 1), by omega, hmax, ?_⟩⟩
      exact Text.charIndexToOffset_utf8 (s.enclosed_content.trans hc) (Nat.le_of_lt hlt)

/-- The range to an index that the walk does not go beyond. -/
theorem clamps_near (hw : WF H h) (hO : H.Owned (own h + rest)) (hcard : rest.card + 1 < 2 ^ 32)
    (hc : content H h = utf8 cs) (hi : i ≤ cs.length) (hj32 : j < 2 ^ 31)
    (hnear : NearEnd (h.text H hw) cs.length j) :
    Clamps H h cs i j ↔ h.Retainable ∧
      SameWrapped (memory H h.buf) (h.offset + (utf8 (cs.take i)).length)
        (h.cb - (utf8 (cs.take i)).length) ∧
      (cs.drop i = [] ∨ Harmless (editOffset H h) (utf8 (cs.take i))) := by
  have htext : (h.text H hw).content = utf8 cs := hc
  have hj : cs.length ≤ j := by
    rcases hnear with h | ⟨h, -⟩ <;> omega
  have hb : h.cb ≤ (h.text H hw).cb + (j - cs.length) := Nat.le_add_right ..
  rw [clamps_iff hw hc hi ((walk_iff htext hj hj32).mpr (.inl ⟨hnear, rfl⟩)), substr_rest hw hc hb,
    erase_rest hw hO hcard hc hb, and_assoc]

/-- The range to an index for which the walk starts over. -/
theorem clamps_over (hw : WF H h) (hO : H.Owned (own h + rest)) (hcard : rest.card + 1 < 2 ^ 32)
    (hc : content H h = utf8 cs) (hi : i ≤ cs.length) (hj32 : j < 2 ^ 31)
    (hover : cs.length < j ∧ (h.text H hw).Closed ∧ h.cb + 1 = 2 ^ 32) :
    Clamps H h cs i j ↔ h.Retainable ∧ StartsOver (h.text H hw) cs i j ∧
      SameWrapped (memory H h.buf) (h.offset + (utf8 (cs.take (j - (cs.length + 1)))).length)
        ((utf8 (cs.take i)).length - (utf8 (cs.take (j - (cs.length + 1)))).length) := by
  have htext : (h.text H hw).content = utf8 cs := hc
  have hcb : (utf8 cs).length = h.cb := by rw [← hc, hw.length_content]
  have hfour := length_utf8_le cs
  obtain ⟨m, hm⟩ : ∃ m, j - (cs.length + 1) = m := ⟨_, rfl⟩
  have hlt : m < cs.length := by omega
  have hwalk := (walk_iff htext (Nat.le_of_lt hover.1) hj32).mpr (.inr ⟨hover, hm.symm ▸ hlt, rfl⟩)
  rw [clamps_iff hw hc hi hwalk, hm, erase_between hw hO hcard hc (offset_of_largest hw hover.2.2)
    hlt, StartsOver, hm]
  have hsubstr (hsame : utf8 ((cs.take i).drop m) = utf8 (cs.drop i)) :
      (∃ r, substr H h (utf8 (cs.take i)).length (utf8 (cs.take m)).length = .ok r ∧
        content r.1 r.2 = utf8 (cs.drop i)) ↔
        h.Retainable ∧ SameWrapped (memory H h.buf) (h.offset + (utf8 (cs.take m)).length)
          ((utf8 (cs.take i)).length - (utf8 (cs.take m)).length) := by
    have hle := Nat.le_of_lt (lt_of_startsOver hlt hsame)
    have hlen := length_utf8_take_mono cs hle
    have ha := length_utf8_take_le cs i
    have hsel : selected (content H h) (utf8 (cs.take i)).length (utf8 (cs.take m)).length =
        utf8 (cs.drop i) := by
      rw [hc, selected, Nat.max_comm, Nat.min_comm (utf8 (cs.take i)).length, ← selected,
        selected_utf8 hle, hsame]
    rw [substr_iff hw hsel, Nat.min_eq_right hlen, Nat.max_eq_left hlen,
      Nat.min_eq_right (show (utf8 (cs.take m)).length ≤ h.cb by omega),
      Nat.min_eq_right (show (utf8 (cs.take i)).length ≤ h.cb by omega)]
  constructor
  · rintro ⟨hsub, hsame⟩
    obtain ⟨hr, hwrap⟩ := (hsubstr hsame).mp hsub
    exact ⟨hr, ⟨hover.1, hover.2.1, hover.2.2, hsame⟩, hwrap⟩
  · rintro ⟨hr, ⟨-, -, -, hsame⟩, hwrap⟩
    exact ⟨(hsubstr hsame).mpr ⟨hr, hwrap⟩, hsame⟩

/-- The range is clamped exactly where the walk stays at the terminator, `substr` keeps its offset
and `erase` hits no byte that stays. In a string of the largest size the walk may start over. -/
theorem ranges_clamped_iff {S : State} {k : Nat} (hS : Reach S) (hk : S.handle? k = some h)
    (hc : content S.heap h = utf8 cs) (hi : i ≤ cs.length) (hj : cs.length ≤ j)
    (hj32 : j < 2 ^ 31) :
    Clamps S.heap h cs i j ↔ h.Retainable ∧
      ((NearEnd (h.text S.heap (hS.inv.1.wf k h hk)) cs.length j ∧
          SameWrapped (memory S.heap h.buf) (h.offset + (utf8 (cs.take i)).length)
            (h.cb - (utf8 (cs.take i)).length) ∧
          (cs.drop i = [] ∨ Harmless (editOffset S.heap h) (utf8 (cs.take i)))) ∨
        (StartsOver (h.text S.heap (hS.inv.1.wf k h hk)) cs i j ∧
          SameWrapped (memory S.heap h.buf)
            (h.offset + (utf8 (cs.take (j - (cs.length + 1)))).length)
            ((utf8 (cs.take i)).length - (utf8 (cs.take (j - (cs.length + 1)))).length))) := by
  obtain ⟨hI, -, hlive⟩ := hS.inv
  have hw := hI.wf k h hk
  have hO := hI.owned_split hk
  have hcard := card_rest_lt hk
  have htext : (h.text S.heap hw).content = utf8 cs := hc
  by_cases hnear : NearEnd (h.text S.heap hw) cs.length j
  · rw [clamps_near hw hO (by omega) hc hi hj32 hnear]
    have hnot : ¬StartsOver (h.text S.heap hw) cs i j := by
      rintro ⟨hlt, -, hmax, -⟩
      rcases hnear with h | ⟨-, -, h⟩ <;> omega
    simp only [hnear, hnot, true_and, false_and, or_false]
  · by_cases hover : cs.length < j ∧ (h.text S.heap hw).Closed ∧ h.cb + 1 = 2 ^ 32
    · rw [clamps_over hw hO (by omega) hc hi hj32 hover]
      simp only [hnear, false_and, false_or]
    · -- the walk reads behind the terminator
      constructor
      · intro h
        obtain ⟨s, o, hs, hread⟩ := h.reads
        obtain rfl := Option.some.inj (hw.textOf_eq.symm.trans hs)
        rcases (walk_iff htext hj hj32).mp ((rangeOffsets_enclosed htext hi).mp hread).2 with ⟨hend,
          -⟩ | ⟨hend, -⟩
        · exact absurd hend hnear
        · exact absurd hend hover
      · rintro ⟨-, ⟨hend, -⟩ | ⟨⟨hlt, hclosed, hmax, -⟩, -⟩⟩
        · exact absurd hend hnear
        · exact absurd ⟨hlt, hclosed, hmax⟩ hover

end Ranges

/-- A string that ends with its buffer: the index just behind the last character. -/
theorem ranges_clamped_behind :
    letI := zeroMemory
    ∃ S h, run .init [.bytes (some [0x61, 0xC3, 0xA9])] = .ok S ∧ S.handle? 0 = some h ∧
      Clamps S.heap h ['a', 'é'] 1 3 := by
  let _ := zeroMemory
  have hS := Reach.bytes [0x61, 0xC3, 0xA9] (by decide) rfl
  refine ⟨_, _, rfl, rfl, ?_⟩
  apply (ranges_clamped_iff hS (k := 0) rfl rfl (by decide) (by decide) (by decide)).mpr
  refine ⟨nofun, .inl ⟨.inr ⟨rfl, rfl, show 3 + 1 < 2 ^ 32 by decide⟩,
    SameWrapped.of_lt (by decide), .inr ?_⟩⟩
  intro h0
  cases h0

/-- The default end of the header, for a string of one character. -/
theorem ranges_clamped_fails :
    letI := zeroMemory
    ∃ S h, run .init [.bytes (some [0x61])] = .ok S ∧ Reach S ∧ S.handle? 0 = some h ∧
      content S.heap h = utf8 ['a'] ∧ ¬Clamps S.heap h ['a'] 0 0x7FFFFFFF := by
  let _ := zeroMemory
  have hS := Reach.bytes [0x61] (by decide) rfl
  refine ⟨_, _, rfl, hS, rfl, rfl, ?_⟩
  intro h
  obtain ⟨s, o, hs, hread⟩ := h.reads
  have hw := hS.inv.1.wf 0 _ rfl
  obtain rfl := Option.some.inj (hw.textOf_eq.symm.trans hs)
  have hwalk := ((rangeOffsets_enclosed (show _ = utf8 ['a'] from rfl) (by decide)).mp hread).2
  rcases (walk_iff (show _ = utf8 ['a'] from rfl) (by decide) (by decide)).mp hwalk with
    ⟨hend | ⟨hend, -⟩, -⟩ | ⟨⟨-, -, hmax⟩, -⟩
  · cases hend
  · cases hend
  · cases hmax

end StringHeap

end Libacorn
