import Libacorn.StringJoin
import Libacorn.StringSlice
import Libacorn.StringSubstr

/-!
# lowercase and readUpToOneOf

Both loops go on by `readChar`, which does not advance over a NUL. `loops_end_iff`: they
return on the strings that are characters up to their end, or up to where the search is
decided.
-/

namespace Libacorn

open Support

/-- `lower` -/
def lower (c : Nat) : Nat :=
  if c ≥ 0x0041 ∧ c ≤ 0x5a then c + 0x20
  else if c ≥ 0xC0 ∧ c ≤ 0xDE then c + 0x20
  else if c = 0x0178 then 0x00FF
  else if c &&& 1 = 0 ∧ (c ≥ 0x0100 ∧ c ≤ 0x0136) then c + 1
  else if c &&& 1 ≠ 0 ∧ (c ≥ 0x0139 ∧ c ≤ 0x0147) then c + 1
  else if c &&& 1 = 0 ∧ (c ≥ 0x014A ∧ c ≤ 0x0176) then c + 1
  else c

namespace StringHeap

/-! ## The source -/

/-- `readChar(offset)`: the character and the new offset. -/
def readCharAt (H : Heap) (h : Handle) (offset : Nat) : Except Fault (Nat × Nat) :=
  if offset ≥ h.cb then .ok (0, offset)
  else
    match (textOf H h).map fun s => s.readUtf8 offset with
    | some (Outcome.done r) => .ok r
    | _ => .error .bounds

section Lowercase
variable [Uninit]

/-- The loop of `lowercase`, with at most `fuel` rounds; `none` if they are not enough. -/
def lowercaseLoop (h : Handle) : Nat → Heap → Handle → Nat → Except Fault (Option (Heap × Handle))
  | 0, _, _, _ => .ok none
  | fuel + 1, H, newstr, o =>
    if o < h.cb then do
      let r ← readCharAt H h o
      let s ← appendChar32 H newstr (lower r.1)
      lowercaseLoop h fuel s.1 s.2 r.2
    else return some (H, newstr)

def lowercase (H : Heap) (h : Handle) (fuel : Nat) : Except Fault (Option (Heap × Handle)) :=
  lowercaseLoop h fuel H .empty 0

end Lowercase

/-- The inner loop of `readUpToOneOf`: whether the character is in the string. -/
def oneOfLoop (H : Heap) (str : Handle) (ch : Nat) : Nat → Nat → Except Fault (Option Bool)
  | 0, _ => .ok none
  | fuel + 1, oo =>
    if oo < str.cb then do
      let r ← readCharAt H str oo
      if r.1 = ch then return some true else oneOfLoop H str ch fuel r.2
    else return some false

/-- The outer loop of `readUpToOneOf`: the offset where it stops. -/
def upToOneOfLoop (H : Heap) (h str : Handle) : Nat → Nat → Except Fault (Option Nat)
  | 0, _ => .ok none
  | fuel + 1, offset =>
    if offset < h.cb then do
      let r ← readCharAt H h offset
      match ← oneOfLoop H str r.1 fuel 0 with
      | some true => return some offset
      | some false => upToOneOfLoop H h str fuel r.2
      | none => return none
    else return some offset

/-- `readUpToOneOf(offset, str)`: the piece and the new offset. -/
def readUpToOneOf (H : Heap) (h : Handle) (offset : Nat) (str : Handle) (fuel : Nat) :
    Except Fault (Option ((Heap × Handle) × Nat)) := do
  match ← upToOneOfLoop H h str fuel offset with
  | some o => return some (← substr H h offset o, o)
  | none => return none

end StringHeap

/-! ## The characters of a text -/

/-- What comes after some characters: the end of the text, a NUL, or anything. -/
inductive SpellEnd where
  | atEnd
  | atNul
  | anywhere
  deriving DecidableEq

/-- From an offset on the text is the characters, none of which is a NUL, and then the stop. -/
inductive Spells (s : Text) : Nat → List Nat → SpellEnd → Prop
  | atEnd {o : Nat} (h : s.cb ≤ o) : Spells s o [] .atEnd
  | atNul {o : Nat} (h : o < s.cb) (hb : s.byte o = .done 0) : Spells s o [] .atNul
  | anywhere (o : Nat) : Spells s o [] .anywhere
  | char {o o' c : Nat} {cs : List Nat} {stop : SpellEnd} (h : o < s.cb) (hb : s.byte o ≠ .done 0)
    (hr : s.readUtf8 o = .done (c, o')) (ht : Spells s o' cs stop) : Spells s o (c :: cs) stop

/-- From the offset on the character occurs in the text, before or as the first NUL. -/
def Member (s : Text) (o c : Nat) : Prop :=
  ∃ cs stop, Spells s o cs stop ∧ (c ∈ cs ∨ c = 0 ∧ stop = .atNul)

/-- From the offset on the text is characters up to its end, without this one. -/
def Lacks (s : Text) (o c : Nat) : Prop := ∃ cs, Spells s o cs .atEnd ∧ c ∉ cs

/-- The text is characters up to its end, and their lower-case forms fit a string. -/
def Lowers (s : Text) : Prop :=
  ∃ cs, Spells s 0 cs .atEnd ∧ StringHeap.encodedSize (cs.map lower) < 2 ^ 32

/-- From the offset on the text is characters that the set lacks, up to the end, or up to one that
is in the set. -/
def SearchEnds (s set : Text) (offset : Nat) : Prop :=
  ∃ cs, (∀ c ∈ cs, Lacks set 0 c) ∧ (Spells s offset cs .atEnd ∨
    Spells s offset cs .atNul ∧ Member set 0 0 ∨
    ∃ c, Spells s offset (cs ++ [c]) .anywhere ∧ Member set 0 c)

section Spells

variable {s : Text} {o : Nat}

theorem Text.readUtf8_nul (hb : s.byte o = .done 0) : s.readUtf8 o = .done (0, o) := by
  rw [Text.readUtf8, hb]
  rfl

/-- No character starts at a NUL. -/
theorem Spells.eq_nil {cs : List Nat} {stop : SpellEnd} (hb : s.byte o = .done 0)
    (hs : Spells s o cs stop) : cs = [] := by
  cases hs with
  | char _ hne => exact absurd hb hne
  | _ => rfl

/-- At a NUL the text does not end. -/
theorem Spells.not_nul {cs : List Nat} (hb : s.byte o = .done 0) (h : o < s.cb) :
    ¬Spells s o cs .atEnd := by
  intro hs
  obtain rfl := hs.eq_nil hb
  cases hs with
  | atEnd hle => exact absurd h (Nat.not_lt.mpr hle)

/-- Two readings of a text agree as far as both go. -/
theorem Spells.prefix_of_atEnd {cs cs' : List Nat} {stop : SpellEnd} (hs : Spells s o cs .atEnd)
    (hs' : Spells s o cs' stop) : cs' <+: cs ∧ stop ≠ .atNul := by
  obtain ⟨e, he⟩ : ∃ e, e = SpellEnd.atEnd := ⟨_, rfl⟩
  rw [← he] at hs
  induction hs generalizing cs' with
  | atNul => cases he
  | anywhere => cases he
  | atEnd hle =>
    cases hs' with
    | atEnd _ => exact ⟨List.prefix_rfl, nofun⟩
    | anywhere => exact ⟨List.prefix_rfl, nofun⟩
    | atNul h => exact absurd h (Nat.not_lt.mpr hle)
    | char h => exact absurd h (Nat.not_lt.mpr hle)
  | char h hb hr _ ih =>
    cases hs' with
    | atEnd hle => exact absurd h (Nat.not_lt.mpr hle)
    | anywhere => exact ⟨List.nil_prefix, nofun⟩
    | atNul _ hb' => exact absurd hb' hb
    | char _ _ hr' ht' =>
      obtain ⟨rfl, rfl⟩ := Prod.mk.inj (Outcome.done.inj (hr.symm.trans hr'))
      obtain ⟨hpre, hne⟩ := ih ht' he
      exact ⟨(List.cons_prefix_cons).mpr ⟨rfl, hpre⟩, hne⟩

/-- A character whose bytes can be read. -/
theorem Text.readUtf8_advances (hb : s.byte o ≠ .done 0) (hroom : s.offset + o + 4 ≤ s.mem.length)
    (hlt : o + 4 < 2 ^ 32) : ∃ c o', s.readUtf8 o = .done (c, o') ∧ o < o' := by
  have hbyte : ∀ k < 4, ∃ b, s.byte (u32 (o + k)) = .done b := by
    intro k hk
    refine ⟨s.mem.get ⟨s.offset + (o + k), by omega⟩, ?_⟩
    rw [u32_of_lt (by omega), Text.byte, List.getElem?_eq_getElem (by omega)]
    rfl
  obtain ⟨b0, h0⟩ := hbyte 0 (by decide)
  obtain ⟨b1, h1⟩ := hbyte 1 (by decide)
  obtain ⟨b2, h2⟩ := hbyte 2 (by decide)
  obtain ⟨b3, h3⟩ := hbyte 3 (by decide)
  rw [u32_of_lt (show o + 0 < 2 ^ 32 by omega), Nat.add_zero] at h0
  have hne : b0 ≠ 0 := by
    rintro rfl
    exact hb h0
  have hu : ∀ k ≤ 4, u32 (o + k) = o + k := fun k hk => u32_of_lt (by omega)
  rw [Text.readUtf8, h0]
  simp only [h1, h2, h3, Outcome.bind_done]
  split_ifs
  · exact ⟨_, _, rfl, by rw [hu 4 (by decide)]; omega⟩
  · exact ⟨_, _, rfl, by rw [hu 3 (by decide)]; omega⟩
  · exact ⟨_, _, rfl, by rw [hu 2 (by decide)]; omega⟩
  · exact ⟨_, _, rfl, by rw [hu 1 (by decide)]; omega⟩

/-- Bytes without a NUL, with three more behind them, are characters up to the end, however
malformed they are. -/
theorem Spells.of_nulFree (hnul : ∀ i < s.cb, s.byte i ≠ .done 0)
    (hroom : s.offset + s.cb + 3 ≤ s.mem.length) (hlt : s.cb + 3 < 2 ^ 32) (o : Nat) :
    ∃ cs, Spells s o cs .atEnd := by
  induction hn : s.cb - o using Nat.strong_induction_on generalizing o with
  | _ n ih =>
    by_cases ho : o < s.cb
    · obtain ⟨c, o', hr, hlt'⟩ := Text.readUtf8_advances (hnul o ho) (by omega) (by omega)
      obtain ⟨cs, hcs⟩ := ih (s.cb - o') (by omega) o' rfl
      exact ⟨c :: cs, .char ho (hnul o ho) hr hcs⟩
    · exact ⟨[], .atEnd (Nat.not_lt.mp ho)⟩

theorem Lacks.not_member {c : Nat} (h : Lacks s o c) : ¬Member s o c := by
  obtain ⟨cs, hs, hc⟩ := h
  rintro ⟨cs', stop, hs', hmem⟩
  obtain ⟨hpre, hne⟩ := hs.prefix_of_atEnd hs'
  rcases hmem with hmem | ⟨-, hstop⟩
  · exact hc (hpre.subset hmem)
  · exact hne hstop

end Spells

namespace StringHeap

/-! ## Reading a handle -/

section Read

variable {H H' : Heap} {h : Handle} {o : Nat} {r : Nat × Nat}

theorem readCharAt_eq_ok (hw : WF H h) (ho : o < h.cb) :
    readCharAt H h o = .ok r ↔ (h.text H hw).readUtf8 o = .done r := by
  rw [readCharAt, if_neg (Nat.not_le.mpr ho), hw.textOf_eq, Option.map_some]
  cases (h.text H hw).readUtf8 o with
  | done r' => simp
  | timeout => simp
  | fault => simp

/-- A round of a loop at a character. -/
theorem spells_cons (hw : WF H h) (ho : o < h.cb) (hread : readCharAt H h o = .ok r) {cs : List Nat}
    {stop : SpellEnd} (hb : (h.text H hw).byte o ≠ .done 0)
    (ht : Spells (h.text H hw) r.2 cs stop) :
    Spells (h.text H hw) o (r.1 :: cs) stop :=
  .char ho hb ((readCharAt_eq_ok hw ho).mp hread) ht

/-- A round of a loop at a NUL. -/
theorem readCharAt_nul (hw : WF H h) (ho : o < h.cb) (hb : (h.text H hw).byte o = .done 0) :
    readCharAt H h o = .ok (0, o) :=
  (readCharAt_eq_ok hw ho).mpr (Text.readUtf8_nul hb)

end Read

/-! ## readUpToOneOf -/

section UpToOneOf

variable {H : Heap} {h str : Handle} {ch o : Nat}

theorem oneOfLoop_char {r : Nat × Nat} (ho : o < str.cb) (hread : readCharAt H str o = .ok r)
    (n : Nat) :
    oneOfLoop H str ch (n + 1) o =
      if r.1 = ch then .ok (some true) else oneOfLoop H str ch n r.2 := by
  rw [oneOfLoop, if_pos ho, hread, ok_bind]
  rfl

theorem oneOfLoop_end (ho : str.cb ≤ o) (n : Nat) :
    oneOfLoop H str ch (n + 1) o = .ok (some false) := by
  rw [oneOfLoop, if_neg (Nat.not_lt.mpr ho)]
  rfl

/-- The inner loop finds a character that comes before the first NUL, or is it. -/
theorem oneOfLoop_member (hstr : WF H str) (hm : Member (str.text H hstr) o ch) :
    ∃ k, ∀ n, oneOfLoop H str ch (n + k) o = .ok (some true) := by
  obtain ⟨cs, stop, hs, hmem⟩ := hm
  induction hs with
  | atEnd => simp at hmem
  | anywhere => simp at hmem
  | @atNul o ho hb =>
    have hch : ch = 0 := by simpa using hmem
    exact ⟨1, fun n => by rw [oneOfLoop_char ho (readCharAt_nul hstr ho hb), if_pos hch.symm]⟩
  | @char o o' c cs stop ho _ hr _ ih =>
    have hread := (readCharAt_eq_ok hstr ho).mpr hr
    by_cases hc : c = ch
    · exact ⟨1, fun n => by rw [oneOfLoop_char ho hread, if_pos hc]⟩
    · obtain ⟨k, hk⟩ := ih (by simpa [Ne.symm hc] using hmem)
      exact ⟨k + 1, fun n => by rw [← Nat.add_assoc, oneOfLoop_char ho hread, if_neg hc, hk]⟩

/-- The inner loop ends on a string of characters, none of which is the right one. -/
theorem oneOfLoop_lacks (hstr : WF H str) (hl : Lacks (str.text H hstr) o ch) :
    ∃ k, ∀ n, oneOfLoop H str ch (n + k) o = .ok (some false) := by
  obtain ⟨cs, hs, hmem⟩ := hl
  obtain ⟨stop, hstop⟩ : ∃ e, e = SpellEnd.atEnd := ⟨_, rfl⟩
  rw [← hstop] at hs
  induction hs with
  | atNul => cases hstop
  | anywhere => cases hstop
  | atEnd ho => exact ⟨1, fun n => oneOfLoop_end ho n⟩
  | @char o o' c cs _ ho _ hr _ ih =>
    have hread := (readCharAt_eq_ok hstr ho).mpr hr
    rw [List.mem_cons, not_or] at hmem
    obtain ⟨hc, hcs⟩ := hmem
    obtain ⟨k, hk⟩ := ih hcs hstop
    exact ⟨k + 1, fun n => by
      rw [← Nat.add_assoc, oneOfLoop_char ho hread, if_neg (Ne.symm hc), hk]⟩

/-- What the inner loop returns. -/
theorem oneOfLoop_returns (hstr : WF H str) {n : Nat} {found : Bool}
    (hrun : oneOfLoop H str ch n o = .ok (some found)) :
    if found then Member (str.text H hstr) o ch else Lacks (str.text H hstr) o ch := by
  induction n generalizing o with
  | zero => cases hrun
  | succ n ih =>
    by_cases ho : o < str.cb
    · obtain ⟨r, hread, -⟩ := bind_eq_ok (by rwa [oneOfLoop, if_pos ho] at hrun)
      rw [oneOfLoop_char ho hread] at hrun
      by_cases hb : (str.text H hstr).byte o = .done 0
      · obtain rfl := Except.ok.inj (hread.symm.trans (readCharAt_nul hstr ho hb))
        split at hrun
        next hc =>
          cases hrun
          exact ⟨[], .atNul, .atNul ho hb, .inr ⟨hc.symm, rfl⟩⟩
        next => exact ih hrun
      · split at hrun
        next hc =>
          cases hrun
          exact ⟨[r.1], .anywhere, spells_cons hstr ho hread hb (.anywhere _), .inl (by simp [hc])⟩
        next hc =>
          cases found with
          | true =>
            obtain ⟨cs, stop, hs, hmem⟩ := ih hrun
            refine ⟨r.1 :: cs, stop, spells_cons hstr ho hread hb hs, ?_⟩
            exact hmem.imp_left (List.mem_cons_of_mem _)
          | false =>
            obtain ⟨cs, hs, hmem⟩ := ih hrun
            refine ⟨r.1 :: cs, spells_cons hstr ho hread hb hs, ?_⟩
            rw [List.mem_cons, not_or]
            exact ⟨Ne.symm hc, hmem⟩
    · rw [oneOfLoop_end (Nat.not_lt.mp ho)] at hrun
      cases hrun
      exact ⟨[], .atEnd (Nat.not_lt.mp ho), List.not_mem_nil⟩

theorem upToOneOfLoop_char {r : Nat × Nat} (ho : o < h.cb) (hread : readCharAt H h o = .ok r)
    {n : Nat} {found : Bool} (hrun : oneOfLoop H str r.1 n 0 = .ok (some found)) :
    upToOneOfLoop H h str (n + 1) o =
      if found then .ok (some o) else upToOneOfLoop H h str n r.2 := by
  rw [upToOneOfLoop, if_pos ho, hread, ok_bind, hrun, ok_bind]
  cases found <;> rfl

theorem upToOneOfLoop_end (ho : h.cb ≤ o) (n : Nat) :
    upToOneOfLoop H h str (n + 1) o = .ok (some o) := by
  rw [upToOneOfLoop, if_neg (Nat.not_lt.mpr ho)]
  rfl

/-- At a character of the set the outer loop ends. -/
theorem upToOneOfLoop_member (hstr : WF H str) {r : Nat × Nat} (ho : o < h.cb)
    (hread : readCharAt H h o = .ok r) (hm : Member (str.text H hstr) 0 r.1) :
    ∃ k, ∀ n, upToOneOfLoop H h str (n + k) o = .ok (some o) := by
  obtain ⟨k, hk⟩ := oneOfLoop_member hstr hm
  exact ⟨k + 1, fun n => by rw [← Nat.add_assoc, upToOneOfLoop_char ho hread (hk n), if_pos rfl]⟩

/-- Over a character that the set lacks the outer loop goes on. -/
theorem upToOneOfLoop_lacks (hstr : WF H str) {r : Nat × Nat} (ho : o < h.cb)
    (hread : readCharAt H h o = .ok r) (hl : Lacks (str.text H hstr) 0 r.1) {o' k : Nat}
    (hrest : ∀ n, upToOneOfLoop H h str (n + k) r.2 = .ok (some o')) :
    ∃ k, ∀ n, upToOneOfLoop H h str (n + k) o = .ok (some o') := by
  obtain ⟨m, hm⟩ := oneOfLoop_lacks hstr hl
  refine ⟨k + m + 1, fun n => ?_⟩
  have hrun := hm (n + k)
  have hloop := hrest (n + m)
  rw [Nat.add_right_comm] at hloop
  rw [← Nat.add_assoc, ← Nat.add_assoc, upToOneOfLoop_char ho hread hrun, if_neg Bool.false_ne_true,
    hloop]

/-- The outer loop ends where the characters of the set are met, or the string ends. -/
theorem upToOneOfLoop_stops (hw : WF H h) (hstr : WF H str)
    (hs : SearchEnds (h.text H hw) (str.text H hstr) o) :
    ∃ k o', ∀ n, upToOneOfLoop H h str (n + k) o = .ok (some o') := by
  obtain ⟨cs, hlacks, hstop⟩ := hs
  induction cs generalizing o with
  | nil =>
    rcases hstop with hs | ⟨hs, hm⟩ | ⟨c, hs, hm⟩
    · cases hs with
      | atEnd ho => exact ⟨1, o, fun n => upToOneOfLoop_end ho n⟩
    · cases hs with
      | atNul ho hb =>
        obtain ⟨k, hk⟩ := upToOneOfLoop_member hstr ho (readCharAt_nul hw ho hb) hm
        exact ⟨k, o, hk⟩
    · cases hs with
      | char ho _ hr _ =>
        obtain ⟨k, hk⟩ := upToOneOfLoop_member hstr ho ((readCharAt_eq_ok hw ho).mpr hr) hm
        exact ⟨k, o, hk⟩
  | cons c cs ih =>
    obtain ⟨hc, hcs⟩ := List.forall_mem_cons.mp hlacks
    have hnext : ∃ o₁, o < h.cb ∧ readCharAt H h o = .ok (c, o₁) ∧
        (Spells (h.text H hw) o₁ cs .atEnd ∨ Spells (h.text H hw) o₁ cs .atNul ∧
          Member (str.text H hstr) 0 0 ∨
          ∃ c', Spells (h.text H hw) o₁ (cs ++ [c']) .anywhere ∧
            Member (str.text H hstr) 0 c') := by
      rcases hstop with hs | ⟨hs, hm⟩ | ⟨c', hs, hm⟩
      · cases hs with
        | char ho _ hr ht => exact ⟨_, ho, (readCharAt_eq_ok hw ho).mpr hr, .inl ht⟩
      · cases hs with
        | char ho _ hr ht => exact ⟨_, ho, (readCharAt_eq_ok hw ho).mpr hr, .inr (.inl ⟨ht, hm⟩)⟩
      · cases hs with
        | char ho _ hr ht =>
          exact ⟨_, ho, (readCharAt_eq_ok hw ho).mpr hr, .inr (.inr ⟨c', ht, hm⟩)⟩
    obtain ⟨o₁, ho, hread, hstop⟩ := hnext
    obtain ⟨k, o', hk⟩ := ih hcs hstop
    obtain ⟨k', hk'⟩ := upToOneOfLoop_lacks hstr ho hread hc hk
    exact ⟨k', o', hk'⟩

theorem SearchEnds.cons (hw : WF H h) {set : Text} {r : Nat × Nat} (ho : o < h.cb)
    (hread : readCharAt H h o = .ok r) (hb : (h.text H hw).byte o ≠ .done 0) (hl : Lacks set 0 r.1)
    (hs : SearchEnds (h.text H hw) set r.2) : SearchEnds (h.text H hw) set o := by
  obtain ⟨cs, hlacks, hstop⟩ := hs
  refine ⟨r.1 :: cs, List.forall_mem_cons.mpr ⟨hl, hlacks⟩, ?_⟩
  rcases hstop with hs | ⟨hs, hm⟩ | ⟨c, hs, hm⟩
  · exact .inl (spells_cons hw ho hread hb hs)
  · exact .inr (.inl ⟨spells_cons hw ho hread hb hs, hm⟩)
  · exact .inr (.inr ⟨c, spells_cons hw ho hread hb hs, hm⟩)

/-- At a NUL that the set lacks it is not decided where to stop. -/
theorem SearchEnds.not_nul (hw : WF H h) {set : Text} (ho : o < h.cb)
    (hb : (h.text H hw).byte o = .done 0) (hl : Lacks set 0 0) :
    ¬SearchEnds (h.text H hw) set o := by
  rintro ⟨cs, -, hs | ⟨-, hm⟩ | ⟨c, hs, -⟩⟩
  · exact hs.not_nul hb ho
  · exact hl.not_member hm
  · simpa using hs.eq_nil hb

/-- Where the outer loop returns. -/
theorem upToOneOfLoop_returns (hw : WF H h) (hstr : WF H str) {n o' : Nat}
    (hrun : upToOneOfLoop H h str n o = .ok (some o')) :
    SearchEnds (h.text H hw) (str.text H hstr) o := by
  induction n generalizing o with
  | zero => cases hrun
  | succ n ih =>
    by_cases ho : o < h.cb
    · obtain ⟨r, hread, hfound⟩ := bind_eq_ok (by rwa [upToOneOfLoop, if_pos ho] at hrun)
      obtain ⟨found, hfound, -⟩ := bind_eq_ok hfound
      cases found with
      | none =>
        rw [upToOneOfLoop, if_pos ho, hread, ok_bind, hfound, ok_bind] at hrun
        cases hrun
      | some found =>
        rw [upToOneOfLoop_char ho hread hfound] at hrun
        have hdec := oneOfLoop_returns hstr hfound
        by_cases hb : (h.text H hw).byte o = .done 0
        · obtain rfl := Except.ok.inj (hread.symm.trans (readCharAt_nul hw ho hb))
          cases found with
          | true => exact ⟨[], List.forall_mem_nil _, .inr (.inl ⟨.atNul ho hb, hdec⟩)⟩
          | false => exact absurd (ih hrun) (SearchEnds.not_nul hw ho hb hdec)
        · cases found with
          | true =>
            exact ⟨[], List.forall_mem_nil _,
              .inr (.inr ⟨r.1, spells_cons hw ho hread hb (.anywhere _), hdec⟩)⟩
          | false => exact SearchEnds.cons hw ho hread hb hdec (ih hrun)
    · exact ⟨[], List.forall_mem_nil _, .inl (.atEnd (Nat.not_lt.mp ho))⟩

/-- `readUpToOneOf` returns. -/
theorem readUpToOneOf_returns_iff (hw : WF H h) (hstr : WF H str) (offset : Nat) :
    (∃ fuel r, readUpToOneOf H h offset str fuel = .ok (some r)) ↔
      h.Retainable ∧ SearchEnds (h.text H hw) (str.text H hstr) offset := by
  constructor
  · rintro ⟨fuel, r, hrun⟩
    obtain ⟨o, hloop, hrun⟩ := bind_eq_ok hrun
    cases o with
    | none => cases hrun
    | some o =>
      obtain ⟨piece, hpiece, -⟩ := bind_eq_ok hrun
      exact ⟨.of_sliceOf hpiece, upToOneOfLoop_returns hw hstr hloop⟩
  · rintro ⟨hretain, hstops⟩
    obtain ⟨k, o, hk⟩ := upToOneOfLoop_stops hw hstr hstops
    obtain ⟨H', hpiece, -⟩ := hw.substr_eq hretain offset o
    have hloop := hk 0
    rw [Nat.zero_add] at hloop
    have hrun : readUpToOneOf H h offset str k = (substr H h offset o).bind fun piece =>
      .ok (some (piece, o)) := by
      rw [readUpToOneOf, hloop]
      rfl
    rw [hpiece] at hrun
    exact ⟨k, _, hrun⟩

end UpToOneOf

/-! ## lowercase -/

section Lowercase

variable [Uninit] {base : Nat} {H H' : Heap} {h s : Handle} {w : Bytes} {o : Nat}

/-- The bytes that `append(char32_t)` writes. -/
def encoded (cs : List Nat) : Bytes := cs.flatMap fun c => (encodeUtf8 c).getD []

omit [Uninit] in
theorem length_encoded (cs : List Nat) : (encoded cs).length = encodedSize cs := by
  rw [encoded, List.length_flatMap]
  rfl

omit [Uninit] in
theorem Appended.length_lt (ha : Appended base H s w) : w.length < 2 ^ 32 := by
  cases ha with
  | nothing he hw => simp [hw]
  | @buffer i b hh hcell hcb =>
    have := b.lt
    omega

/-- The buffer of the handle is older than those from `base` on. -/
def Handle.Below (base : Nat) (h : Handle) : Prop := ∀ i, h.buf = .heap i → i < base

omit [Uninit] in
/-- A handle sees the same bytes while younger buffers are made. -/
theorem memory_oldSame (hin : h.Below base) (hold : OldSame base H H') :
    memory H' h.buf = memory H h.buf := by
  cases hb : h.buf with
  | null => rfl
  | lit m => rfl
  | heap i => rw [memory, memory, hold.same i (hin i hb)]

omit [Uninit] in
theorem readCharAt_congr (hmem : memory H' h.buf = memory H h.buf) (o : Nat) :
    readCharAt H' h o = readCharAt H h o := by
  simp only [readCharAt, textOf, hmem]

omit [Uninit] in
theorem length_encodeUtf8_le {c : Nat} {p : Bytes} (h : encodeUtf8 c = some p) : p.length ≤ 4 := by
  unfold encodeUtf8 at h
  split_ifs at h <;> cases h <;> simp

/-- The new size wraps around, and the end of the string lies behind the new block. -/
theorem insert_appended_overflow {p : Bytes} (ha : Appended base H s w) (hp : p.length ≤ 4)
    (hbig : 2 ^ 32 ≤ w.length + p.length) : insert H s s.cb p = .error .bounds := by
  have hlt := ha.length_lt
  cases ha with
  | nothing he hw =>
    rw [hw, List.length_nil] at hbig
    omega
  | @buffer i b hh hcell hcb hbytes hbase hnext =>
    subst hh
    have hne : p ≠ [] := by
      rintro rfl
      simp at hbig
      omega
    have hsmall : toU32 ((b.cap : Int) + (p.length : Int)) = w.length + p.length - 2 ^ 32 := by
      rw [b.cap_eq, hcb, toU32]
      omega
    obtain ⟨H₁, hmove, hcell₁, -, -⟩ := bufRealloc_cell hcell (p.length : Int)
    rw [hsmall] at hcell₁
    have hprep : prepareToModify H ⟨.heap i, w.length, 0, .Standard⟩ =
        .ok (H, ⟨.heap i, w.length, 0, .Standard⟩) := by
      simp only [prepareToModify, hcell]
      rfl
    have hread : read H₁ (.heap H.next) w.length 0 = .error .bounds := by
      have hsize := (Buf.sized b.bytes (w.length + p.length - 2 ^ 32)).size
      have hcb' : (Buf.sized b.bytes (w.length + p.length - 2 ^ 32)).cb =
          w.length + p.length - 2 ^ 32 := u32_of_lt (by omega)
      simp only [read, get?_of_cell hcell₁]
      exact if_neg (by omega)
    simp only [insert, hne, reduceCtorEq, ↓reduceIte, hprep, ok_bind, hmove, Nat.zero_add,
      Int.sub_self]
    rw [show toU32 0 = 0 from rfl, hread]
    rfl

/-- A character is appended when the size fits. -/
theorem appendChar32_appended (ha : Appended base H s w) (hbase : base ≤ H.next) {c : Nat}
    (hsize : w.length + (encoded [c]).length < 2 ^ 32) :
    ∃ r, appendChar32 H s c = .ok r ∧ Appended base r.1 r.2 (w ++ encoded [c]) ∧
      OldSame base H r.1 := by
  have hone : encoded [c] = (encodeUtf8 c).getD [] := List.append_nil _
  rw [hone] at hsize ⊢
  rw [appendChar32]
  cases he : encodeUtf8 c with
  | none => exact ⟨(H, s), rfl, by simpa using ha, hbase, fun _ _ => rfl⟩
  | some p =>
    rw [he, Option.getD_some] at hsize
    obtain ⟨H', s', hins, ha', hold⟩ := insert_appended ha hbase hsize
    exact ⟨(H', s'), hins, ha', hold⟩

theorem appendChar32_fits (ha : Appended base H s w) {c : Nat} {r : Heap × Handle}
    (hrun : appendChar32 H s c = .ok r) : w.length + (encoded [c]).length < 2 ^ 32 := by
  have hone : encoded [c] = (encodeUtf8 c).getD [] := List.append_nil _
  rw [hone]
  rw [appendChar32] at hrun
  cases he : encodeUtf8 c with
  | none => simpa using ha.length_lt
  | some p =>
    by_contra hbig
    have hfail := insert_appended_overflow ha (length_encodeUtf8_le he) (Nat.not_lt.mp hbig)
    simp only [he, hfail] at hrun
    cases hrun

omit [Uninit] in
theorem encoded_cons (c : Nat) (cs : List Nat) : encoded (c :: cs) = encoded [c] ++ encoded cs := by
  simp only [encoded, List.flatMap_cons, List.flatMap_nil, List.append_nil]

/-- On a string of characters the loop appends their lower-case forms. -/
theorem lowercaseLoop_spells {H₀ : Heap} (hw : WF H₀ h) (hin : h.Below base)
    (hold : OldSame base H₀ H) (ha : Appended base H s w) {cs : List Nat}
    (hs : Spells (h.text H₀ hw) o cs .atEnd)
    (hsize : w.length + (encoded (cs.map lower)).length < 2 ^ 32) :
    ∃ fuel r, lowercaseLoop h fuel H s o = .ok (some r) ∧
      Appended base r.1 r.2 (w ++ encoded (cs.map lower)) ∧ OldSame base H₀ r.1 := by
  induction cs generalizing H s w o with
  | nil =>
    cases hs with
    | atEnd ho =>
      refine ⟨1, (H, s), ?_, ?_, hold⟩
      · rw [lowercaseLoop, if_neg (show ¬o < h.cb from Nat.not_lt.mpr ho)]
        rfl
      · rw [List.map_nil, encoded, List.flatMap_nil, List.append_nil]
        exact ha
  | cons c cs ih =>
    cases hs with
    | char ho _ hr ht =>
      rw [List.map_cons, encoded_cons] at hsize ⊢
      rw [List.length_append] at hsize
      have hread := readCharAt_congr (memory_oldSame hin hold) o
      rw [(readCharAt_eq_ok hw ho).mpr hr] at hread
      obtain ⟨r₁, happ, ha₁, hold₁⟩ := appendChar32_appended ha hold.base_le
        (show w.length + (encoded [lower c]).length < 2 ^ 32 by omega)
      obtain ⟨fuel, r, hloop, har, holdr⟩ :=
        ih (hold.trans hold₁) ha₁ ht (by rw [List.length_append]; omega)
      refine ⟨fuel + 1, r, ?_, ?_, holdr⟩
      · rw [lowercaseLoop, if_pos (show o < h.cb from ho), hread, ok_bind, happ, ok_bind, hloop]
      · rw [← List.append_assoc]
        exact har

/-- Where the loop returns. -/
theorem lowercaseLoop_returns {H₀ : Heap} (hw : WF H₀ h) (hin : h.Below base)
    (hold : OldSame base H₀ H) (ha : Appended base H s w) {n : Nat} {r : Heap × Handle}
    (hrun : lowercaseLoop h n H s o = .ok (some r)) :
    ∃ cs, Spells (h.text H₀ hw) o cs .atEnd ∧ w.length + (encoded (cs.map lower)).length <
      2 ^ 32 := by
  induction n generalizing H s w o with
  | zero => cases hrun
  | succ n ih =>
    by_cases ho : o < h.cb
    · rw [lowercaseLoop, if_pos ho] at hrun
      obtain ⟨r₁, hread, hrun⟩ := bind_eq_ok hrun
      obtain ⟨r₂, happ, hrun⟩ := bind_eq_ok hrun
      rw [readCharAt_congr (memory_oldSame hin hold)] at hread
      obtain ⟨r₂', happ', ha', hold'⟩ :=
        appendChar32_appended ha hold.base_le (appendChar32_fits ha happ)
      obtain rfl := Except.ok.inj (happ.symm.trans happ')
      obtain ⟨cs, hs, hsize⟩ := ih (hold.trans hold') ha' hrun
      by_cases hb : (h.text H₀ hw).byte o = .done 0
      · obtain rfl := Except.ok.inj (hread.symm.trans (readCharAt_nul hw ho hb))
        exact absurd hs (Spells.not_nul hb ho)
      · refine ⟨r₁.1 :: cs, spells_cons hw ho hread hb hs, ?_⟩
        rw [List.map_cons, encoded_cons, List.length_append]
        rw [List.length_append] at hsize
        omega
    · exact ⟨[], .atEnd (Nat.not_lt.mp ho), ha.length_lt⟩

/-- `lowercase` returns. -/
theorem lowercase_returns_iff (hw : WF H h) (hin : h.Below H.next) :
    (∃ fuel r, lowercase H h fuel = .ok (some r)) ↔ Lowers (h.text H hw) := by
  have hold : OldSame H.next H H := ⟨Nat.le_refl _, fun _ _ => rfl⟩
  have hempty : Appended H.next H .empty [] := .nothing rfl rfl
  constructor
  · rintro ⟨fuel, r, hrun⟩
    obtain ⟨cs, hs, hsize⟩ := lowercaseLoop_returns hw hin hold hempty hrun
    rw [List.length_nil, Nat.zero_add, length_encoded] at hsize
    exact ⟨cs, hs, hsize⟩
  · rintro ⟨cs, hs, hsize⟩
    rw [← length_encoded] at hsize
    obtain ⟨fuel, r, hrun, -⟩ := lowercaseLoop_spells hw hin hold hempty hs (by simpa using hsize)
    exact ⟨fuel, r, hrun⟩

end Lowercase

/-- The two loops return if and only if the string is characters without NUL to its end, and to
where the search is decided. -/
theorem loops_end_iff [Uninit] {H : Heap} {h str : Handle} (hw : WF H h) (hstr : WF H str)
    (hin : h.Below H.next) :
    ((∃ fuel r, lowercase H h fuel = .ok (some r)) ↔ Lowers (h.text H hw)) ∧
      ∀ offset, (∃ fuel r, readUpToOneOf H h offset str fuel = .ok (some r)) ↔
        h.Retainable ∧ SearchEnds (h.text H hw) (str.text H hstr) offset :=
  ⟨lowercase_returns_iff hw hin, readUpToOneOf_returns_iff hw hstr⟩

/-- On `aBc` and the set `xc`. -/
theorem loops_end_abc :
    letI := zeroMemory
    (∃ fuel r, lowercase RefHeap.empty (.literal [0x61, 0x42, 0x63]) fuel = .ok (some r)) ∧
      ∃ fuel r, readUpToOneOf RefHeap.empty (.literal [0x61, 0x42, 0x63]) 1 (.literal [0x78, 0x63])
        fuel =
        .ok (some r) := by
  let _ := zeroMemory
  have hw : WF RefHeap.empty (.literal [0x61, 0x42, 0x63]) := .lit rfl rfl (by decide) (by decide)
  have hset : WF RefHeap.empty (.literal [0x78, 0x63]) := .lit rfl rfl (by decide) (by decide)
  have hs : Spells ⟨[0x61, 0x42, 0x63, 0], 0, 3, true, by decide, by decide⟩ 1 [0x42, 0x63]
      .atEnd :=
    .char (by decide) (by decide) rfl (.char (by decide) (by decide) rfl (.atEnd (by decide)))
  have hx : Spells ⟨[0x78, 0x63, 0], 0, 2, true, by decide, by decide⟩ 0 [0x78, 0x63] .atEnd :=
    .char (by decide) (by decide) rfl (.char (by decide) (by decide) rfl (.atEnd (by decide)))
  have hall : Spells ⟨[0x61, 0x42, 0x63, 0], 0, 3, true, by decide, by decide⟩ 0 [0x61, 0x42, 0x63]
      .atEnd :=
    .char (by decide) (by decide) rfl hs
  have hb : Spells ⟨[0x61, 0x42, 0x63, 0], 0, 3, true, by decide, by decide⟩ 1 [0x42, 0x63]
      .anywhere :=
    .char (by decide) (by decide) rfl (.char (by decide) (by decide) rfl (.anywhere _))
  obtain ⟨hlower, hup⟩ := loops_end_iff hw hset nofun
  refine ⟨hlower.mpr ⟨_, hall, by decide⟩,
    (hup 1).mpr ⟨nofun, [0x42], ?_, .inr (.inr ⟨0x63, hb, ?_⟩)⟩⟩
  · intro c hc
    rw [List.mem_singleton.mp hc]
    exact ⟨_, hx, by decide⟩
  · exact ⟨_, _, hx, .inl (by decide)⟩

/-- A NUL behind the first character: neither loop returns. -/
theorem loops_end_fails :
    letI := zeroMemory
    (∀ fuel r, lowercase RefHeap.empty (.literal [0x61, 0]) fuel ≠ .ok (some r)) ∧
      ∀ fuel r, readUpToOneOf RefHeap.empty (.literal [0x61, 0]) 0 (.literal [0x62]) fuel ≠
        .ok (some r) := by
  let _ := zeroMemory
  have hw : WF RefHeap.empty (.literal [0x61, 0]) := .lit rfl rfl (by decide) (by decide)
  have hset : WF RefHeap.empty (.literal [0x62]) := .lit rfl rfl (by decide) (by decide)
  have hnul : (Handle.text RefHeap.empty (.literal [0x61, 0]) hw).byte 1 = .done 0 := rfl
  have hone : (1 : Nat) < (Handle.literal [0x61, 0]).cb := by decide
  have hb : Spells ⟨[0x62, 0], 0, 1, true, by decide, by decide⟩ 0 [0x62] .atEnd :=
    .char (by decide) (by decide) rfl (.atEnd (by decide))
  have hlacks : Lacks (Handle.text RefHeap.empty (.literal [0x62]) hset) 0 0 := ⟨_, hb, by decide⟩
  have hlacks' : Lacks (Handle.text RefHeap.empty (.literal [0x62]) hset) 0 0x61 :=
    ⟨_, hb, by decide⟩
  have hnot : ∀ cs, ¬Spells (Handle.text RefHeap.empty (.literal [0x61, 0]) hw) 0 cs .atEnd := by
    intro cs hs
    cases hs with
    | atEnd ho => exact absurd (show 2 ≤ 0 from ho) (by decide)
    | char _ _ hr ht =>
      cases hr
      exact Spells.not_nul hnul hone ht
  constructor
  · intro fuel r hrun
    obtain ⟨cs, hs, -⟩ := (lowercase_returns_iff hw nofun).mp ⟨fuel, r, hrun⟩
    exact hnot cs hs
  · intro fuel r hrun
    obtain ⟨-, cs, -, hs | ⟨-, hm⟩ | ⟨c, hs, hm⟩⟩ :=
      (readUpToOneOf_returns_iff hw hset 0).mp ⟨fuel, r, hrun⟩
    · exact hnot cs hs
    · exact hlacks.not_member hm
    · cases cs with
      | nil =>
        cases hs with
        | char _ _ hr =>
          cases hr
          exact hlacks'.not_member hm
      | cons c' cs =>
        cases hs with
        | char _ _ hr ht =>
          cases hr
          simpa using ht.eq_nil hnul

end StringHeap

end Libacorn
