import Libacorn.StringFind

/-!
# findLast of base/string.cpp

`findLast` searches forwards again and again and steps over what it finds. It
stops at the last of the occurrences that do not overlap, which is the last one
only if none starts inside it, and it searches what is left behind that one as
well, however short it is (`findLast_last_iff`).
-/

namespace Libacorn

open Support

namespace StringHeap

/-! ## The source -/

/-- The loop of `findLast`: `o` is where `buf` stands, counted from `start()`. Every round moves
on. -/
def findLastLoop (buf text : Bytes) (szTextLen : Int) : Nat → Nat → Nat → Nat → Except Fault Nat
  | 0, _, _, r => .ok r
  | fuel + 1, o, buflen, r =>
    if 0 < buflen then do
      let f ← findStr (buf.drop o) buflen text szTextLen false
      if buflen ≤ f then return r
      else
        let o := o + f
        findLastLoop buf text szTextLen fuel (o + szTextLen).toNat
          (toU32 (buflen - (f + szTextLen))) (u32 o)
    else .ok r

/-- `string::findLast(const char*, int32_t, uint32_t)`, where `buf` is what can be read from
`start()` on. -/
def findLastChars (buf : Option Bytes) (cb : Nat) (szTextToFind : Option Bytes) (szTextLen : Int)
    (fromOffset : Nat) : Except Fault Nat := do
  if ← nothingToFind szTextToFind buf then return 0xFFFFFFFF
  else
    let buf := buf.getD []
    let text := szTextToFind.getD []
    let szTextLen ← textLength text szTextLen
    findLastLoop buf text szTextLen (buf.length + 1) fromOffset (toU32 (cb - fromOffset)) 0xFFFFFFFF

def findLast (H : Heap) (h textToFind : Handle) (fromOffset : Nat) : Except Fault Nat :=
  findLastChars (startOf H h) h.cb (startOf H textToFind) (toI32 textToFind.cb) fromOffset

/-! ## The loop -/

/-- The last of the occurrences from `fromOffset` on that are found one behind the other. -/
def lastPicked (t w : Bytes) (fromOffset d : Nat) : Nat :=
  ((lastPick? t (w.drop fromOffset)).map (fromOffset + ·)).getD d

section Loop

variable {B T : Bytes} {n cb o fuel r x buflen : Nat}

theorem lastPicked_of_missing {t w : Bytes} {d : Nat} (h : ¬t <:+: w.drop o) :
    lastPicked t w o d = d := by
  rw [lastPicked, lastPick?_of_missing h]
  rfl

theorem lastPicked_of_firstAt {t w : Bytes} {d i : Nat} (ht : t ≠ []) (h : FirstAt t (w.drop o) i) :
    lastPicked t w o d = lastPicked t w (o + i + t.length) (o + i) := by
  rw [lastPicked, lastPick?_of_firstAt ht h, Option.map_some, Option.getD_some, lastPicked,
    List.drop_drop, Nat.add_assoc]
  cases lastPick? t (w.drop (o + (i + t.length))) with
  | none => rfl
  | some j => exact (Nat.add_assoc ..).symm

/-- The rounds that find the text in the range. -/
theorem findLastLoop_picks (hn : 0 < n) (h31 : n < 2 ^ 31) (htext : n ≤ T.length)
    (hcb : cb ≤ B.length) (h32 : cb < 2 ^ 32) (ho : o ≤ cb) (hfuel : B.length < o + fuel) :
    ∃ fuel' o', o' ≤ cb ∧ B.length < o' + fuel' ∧
      (B.take cb).drop o' = lastGap (T.take n) ((B.take cb).drop o) ∧
      findLastLoop B T n fuel o (cb - o) r =
        findLastLoop B T n fuel' o' (cb - o') (lastPicked (T.take n) (B.take cb) o r) := by
  have hlen : (T.take n).length = n := by
    rw [List.length_take, Nat.min_eq_left htext]
  have hne : T.take n ≠ [] := List.length_pos_iff.mp (by omega)
  generalize hw : (B.take cb).drop o = w
  induction w using gaps_induction hne generalizing o fuel r with
  | last w hout =>
    refine ⟨fuel, o, ho, hfuel, ?_, ?_⟩
    · rw [lastGap_of_missing hout, hw]
    · rw [lastPicked_of_missing (by rw [hw]; exact hout)]
  | next w i hi ih =>
    have hend := hi.occurs.add_le hne
    rw [hlen, ← hw, List.length_drop, List.length_take, Nat.min_eq_left hcb] at hend
    obtain ⟨fuel, rfl⟩ : ∃ k, fuel = k + 1 := ⟨fuel - 1, by omega⟩
    have hf : findStr (B.drop o) (cb - o) T n false = .ok i := by
      rw [findStr_fits hn h31 htext (by omega) (by rw [List.length_drop]; omega) (by omega),
        ← List.drop_take, hw, first?_eq_some.mpr hi, Option.getD_some]
    have hround : findLastLoop B T n (fuel + 1) o (cb - o) r =
        findLastLoop B T n fuel (o + i + n) (cb - (o + i + n)) (o + i) := by
      rw [findLastLoop, if_pos (by omega), hf, ok_bind, if_neg (by omega)]
      dsimp only
      rw [u32_of_lt (by omega), toU32_of_nonneg (by omega) (by omega)]
      congr 1
      omega
    rw [hround, lastGap_of_firstAt hne hi, hlen, lastPicked_of_firstAt hne (by rw [hw]; exact hi),
      hlen]
    rw [hlen] at ih
    apply ih (by omega) (by omega)
    rw [← hw, List.drop_drop, Nat.add_assoc]

theorem findLastLoop_found (hn : 0 < n) (h31 : n < 2 ^ 31) (htext : n ≤ T.length)
    (hB : B.length ≤ 2 ^ 32) (h : findLastLoop B T n fuel o buflen r = .ok x) :
    x = r ∨ (o ≤ x ∧ x + n ≤ B.length) := by
  have hlen : (T.take n).length = n := by
    rw [List.length_take, Nat.min_eq_left htext]
  induction fuel generalizing o buflen r with
  | zero => exact .inl (Except.ok.inj h).symm
  | succ fuel ih =>
    rw [findLastLoop] at h
    split_ifs at h with hpos
    · obtain ⟨f, hf, h⟩ := bind_eq_ok h
      split_ifs at h with hle
      · exact .inl (Except.ok.inj h).symm
      · rcases findStr_finds hn h31 htext hf with rfl | hfirst
        · exact absurd (Nat.le_refl _) hle
        · have hend := hfirst.occurs.add_le (List.length_pos_iff.mp (by omega))
          rw [hlen, List.length_drop] at hend
          rcases ih h with rfl | ⟨hox, hx⟩
          · rw [u32_of_lt (by omega)]
            exact .inr (by omega)
          · exact .inr (by omega)
    · exact .inl (Except.ok.inj h).symm

theorem findLastLoop_tail (hn : 0 < n) (h31 : n < 2 ^ 31) (htext : n ≤ T.length)
    (hcb : cb ≤ B.length) (hB : B.length ≤ 2 ^ 32) (h32 : cb < 2 ^ 32) (ho : o ≤ cb)
    (hfuel : B.length < o + fuel) (hout : ¬T.take n <:+: (B.take cb).drop o) :
    ((B.take cb).drop o = [] ∨ QuietTail (T.take n) (B.drop o) (cb - o)) ∧
      findLastLoop B T n fuel o (cb - o) r = .ok r ∨
      ¬((B.take cb).drop o = [] ∨ QuietTail (T.take n) (B.drop o) (cb - o)) ∧
        ∀ x, findLastLoop B T n fuel o (cb - o) r = .ok x →
          cb < x + n ∧ x + n ≤ B.length ∧ 2 ≤ n := by
  have hnil : (B.take cb).drop o = [] ↔ ¬0 < cb - o := by
    rw [List.drop_eq_nil_iff, List.length_take, Nat.min_eq_left hcb]
    omega
  obtain ⟨fuel, rfl⟩ : ∃ k, fuel = k + 1 := ⟨fuel - 1, by omega⟩
  rw [findLastLoop, hnil]
  split_ifs with hpos
  · rw [List.drop_take] at hout
    have hquiet := findStr_quiet_iff hn h31 htext (by rw [List.length_drop]; omega)
      (by rw [List.length_drop]; omega) (show cb - o < 2 ^ 32 by omega) hout
    by_cases hq : QuietTail (T.take n) (B.drop o) (cb - o)
    · obtain ⟨f, hf, hle⟩ := hquiet.mpr hq
      left
      rw [hf, ok_bind, if_pos hle]
      exact ⟨.inr hq, rfl⟩
    · right
      refine ⟨fun h => h.elim (absurd hpos) hq, ?_⟩
      intro x hx
      obtain ⟨f, hf, hx⟩ := bind_eq_ok hx
      split_ifs at hx with hle
      · exact absurd (hquiet.mp ⟨f, hf, hle⟩) hq
      · obtain ⟨hover, hend⟩ := findStr_overrun hn h31 htext hout hf (by omega)
        rw [List.length_drop] at hend
        -- a range that the text fits into does not end inside it
        have htwo : 2 ≤ n := by
          by_contra h1
          omega
        rcases findLastLoop_found hn h31 htext hB hx with rfl | ⟨hox, hx⟩
        · rw [u32_of_lt (by omega)]
          omega
        · omega
  · exact .inl ⟨.inl hpos, rfl⟩

/-- A text with a negative length is never found. -/
theorem findLastLoop_negative (h31 : 2 ^ 31 ≤ n) (h32 : n < 2 ^ 32) (htext : n ≤ T.length)
    (hB : B.length ≤ 2 ^ 32) (hfuel : 0 < fuel) :
    findLastLoop B T (toI32 n) fuel o buflen r = .ok x ↔ x = r ∧ (0 < buflen →
      toU32 ((buflen : Int) - n + 1) ≤ (B.drop o).length ∧
        HeadAbsent T (B.drop o) (toU32 ((buflen : Int) - n + 1))) := by
  obtain ⟨fuel, rfl⟩ : ∃ k, fuel = k + 1 := ⟨fuel - 1, by omega⟩
  have hnegative : ∀ f, findStr (B.drop o) buflen T (toI32 n) false = .ok f ↔ f = buflen ∧
      (toU32 ((buflen : Int) - n + 1) ≤ (B.drop o).length ∧
        HeadAbsent T (B.drop o) (toU32 ((buflen : Int) - n + 1))) :=
    fun f => findStr_negative h31 h32 htext (by rw [List.length_drop]; omega)
  rw [findLastLoop]
  split_ifs with hpos
  · constructor
    · intro h
      obtain ⟨f, hf, h⟩ := bind_eq_ok h
      obtain ⟨rfl, habs⟩ := (hnegative f).mp hf
      rw [if_pos (Nat.le_refl _)] at h
      exact ⟨(Except.ok.inj h).symm, fun _ => habs⟩
    · rintro ⟨rfl, habs⟩
      rw [(hnegative buflen).mpr ⟨rfl, habs hpos⟩, ok_bind, if_pos (Nat.le_refl _)]
      rfl
  · constructor
    · intro h
      exact ⟨(Except.ok.inj h).symm, fun h0 => absurd h0 hpos⟩
    · rintro ⟨rfl, -⟩
      rfl

end Loop

/-! ## Last occurrences -/

/-- The greatest position of `t`, if there is one from `fromOffset` on. -/
def GreatestFrom (t w : Bytes) (fromOffset r : Nat) : Prop :=
  (fromOffset ≤ r ∧ OccursAt t w r ∧ ∀ j, r < j → ¬OccursAt t w j) ∨
    (r = 0xFFFFFFFF ∧ ∀ j, fromOffset ≤ j → ¬OccursAt t w j)

/-- `findLast` returns `r`, the last occurrence, and `0xFFFFFFFF` exactly when there is none. -/
structure FindsLast (H : Heap) (h q : Handle) (fromOffset r : Nat) : Prop where
  findLast : findLast H h q fromOffset = .ok r
  greatest : GreatestFrom (content H q) (content H h) fromOffset r
  missing : r = 0xFFFFFFFF ↔ ¬content H q <:+: (content H h).drop fromOffset

/-- What is left behind the last position that is found is searched without a match. -/
structure RestQuiet (H : Heap) (h q : Handle) (fromOffset : Nat) : Prop where
  tail : (needle H q).length < 2 ^ 31 →
    lastGap (needle H q) ((content H h).drop fromOffset) = [] ∨
      QuietTail (needle H q)
        (((startOf H h).getD []).drop
          (h.cb - (lastGap (needle H q) ((content H h).drop fromOffset)).length))
        (lastGap (needle H q) ((content H h).drop fromOffset)).length
  huge : 2 ^ 31 ≤ (needle H q).length → fromOffset < h.cb →
    toU32 (((h.cb - fromOffset : Nat) : Int) - (needle H q).length + 1) ≤
        (((startOf H h).getD []).drop fromOffset).length ∧
      HeadAbsent (content H q) (((startOf H h).getD []).drop fromOffset)
        (toU32 (((h.cb - fromOffset : Nat) : Int) - (needle H q).length + 1))

/-- The states in which `findLast` searches and is right. -/
structure LastSearchable (H : Heap) (h q : Handle) (fromOffset : Nat) : Prop where
  buffer : h.buf ≠ .null
  head : (content H q).head? ≠ some 0
  measured : Measured H q
  last : GreatestFrom (content H q) (content H h) fromOffset
    (lastPicked (needle H q) (content H h) fromOffset 0xFFFFFFFF)
  quiet : RestQuiet H h q fromOffset

/-- `findLast` does not search, and there is nothing to be found. -/
structure NothingMissed (H : Heap) (h q : Handle) (fromOffset : Nat) : Prop where
  nothing : h.buf = .null ∨ (content H q).head? = some 0
  absent : ¬content H q <:+: (content H h).drop fromOffset

section Main

variable {H : Heap} {h q : Handle} {fromOffset r cb : Nat} {buf : Option Bytes} {T B : Bytes}
  {ch : UInt8}
  {len : Int}

theorem GreatestFrom.missing_iff (hw : WF H h) (ht : content H q ≠ [])
    (hg : GreatestFrom (content H q) (content H h) fromOffset r) :
    r = 0xFFFFFFFF ↔ ¬content H q <:+: (content H h).drop fromOffset := by
  have hcb := hw.cb_lt
  rw [not_infix_drop_iff]
  rcases hg with ⟨hle, hocc, -⟩ | ⟨rfl, hnone⟩
  · have hend := hocc.add_le ht
    have hpos := List.length_pos_iff.mpr ht
    rw [hw.length_content] at hend
    exact iff_of_false (by omega) fun hnone => hnone r hle hocc
  · exact iff_of_true rfl hnone

theorem findLastChars_nothing (hno : ch = 0 ∨ buf = none) :
    findLastChars buf cb (some (ch :: T)) len fromOffset = .ok 0xFFFFFFFF := by
  simp only [findLastChars, nothingToFind, ok_bind, decide_eq_true_eq]
  exact if_pos hno

theorem findLastChars_eq_ok (h0 : ch ≠ 0) :
    findLastChars (some B) cb (some (ch :: T)) len fromOffset = .ok r ↔
      ∃ len', textLength (ch :: T) len = .ok len' ∧
        findLastLoop B (ch :: T) len' (B.length + 1) fromOffset (toU32 (cb - fromOffset))
          0xFFFFFFFF = .ok r := by
  simp only [findLastChars, nothingToFind, ok_bind, decide_eq_true_eq, h0, reduceCtorEq, or_self,
    ↓reduceIte, Option.getD_some]
  constructor
  · intro h
    obtain ⟨len', hlen, h⟩ := bind_eq_ok h
    exact ⟨len', hlen, h⟩
  · rintro ⟨len', hlen, h⟩
    rw [hlen, ok_bind]
    exact h

theorem WF.needle_le_content (hq : WF H q) (h31 : (needle H q).length < 2 ^ 31) :
    (needle H q).length ≤ (content H q).length := by
  rw [hq.length_content]
  by_cases hlt : q.cb < 2 ^ 31
  · rw [needle, if_pos hlt, hq.length_content]
  · omega

/-- A text with a negative length that is searched for is not there. -/
theorem RestQuiet.missing (hr : RestQuiet H h q fromOffset) (hw : WF H h) (hq : WF H q)
    (hs : startOf H q = some (ch :: T)) (hh : (content H q).head? = some ch)
    (hb : startOf H h = some B) (hpos : 0 < (needle H q).length)
    (h31 : ¬(needle H q).length < 2 ^ 31) (h32 : (needle H q).length < 2 ^ 32) :
    ¬needle H q <:+: (content H h).drop fromOffset := by
  have hcb := hw.cb_lt
  obtain ⟨hB, -⟩ := hw.start_bounds hb
  intro hin
  have hle := hin.length_le
  rw [List.length_drop, hw.length_content] at hle
  obtain ⟨-, habs⟩ := hr.huge (by omega) (by omega)
  rw [hb, Option.getD_some, HeadAbsent, hh] at habs
  have habs' : HeadAbsent (ch :: T) (B.drop fromOffset)
      (toU32 (((h.cb - fromOffset : Nat) : Int) - (needle H q).length + 1)) := habs
  apply habs'.not_infix_range hpos h32 (hq.needle_le hs) (by rw [List.length_drop]; omega)
    (by omega)
  rw [hq.take_needle hs, take_drop_start hb]
  exact hin

theorem findLastLoop_short (hw : WF H h) (hq : WF H q) (hs : startOf H q = some (ch :: T))
    (hh : (content H q).head? = some ch) (h0 : ch ≠ 0) (hb : startOf H h = some B)
    (hfrom : fromOffset ≤ h.cb) (h31 : (needle H q).length < 2 ^ 31) :
    RestQuiet H h q fromOffset ∧
        findLastLoop B (ch :: T) (needle H q).length (B.length + 1) fromOffset (h.cb - fromOffset)
          0xFFFFFFFF =
          .ok (lastPicked (needle H q) (content H h) fromOffset 0xFFFFFFFF) ∨
      ¬RestQuiet H h q fromOffset ∧ ∀ x,
        findLastLoop B (ch :: T) (needle H q).length (B.length + 1) fromOffset (h.cb - fromOffset)
          0xFFFFFFFF =
          .ok x → ¬GreatestFrom (content H q) (content H h) fromOffset x := by
  have hcb := hw.cb_lt
  obtain ⟨hBcb, hBlen⟩ := hw.start_bounds hb
  have hcontent : content H h = B.take h.cb := by
    rw [content_eq_take, hb, Option.getD_some]
  have htake := hq.take_needle hs
  have hnlen := hq.needle_le hs
  have hpos := needle_pos hh h0
  obtain ⟨fuel, o, ho, hfuel, hgap, heq⟩ := findLastLoop_picks hpos h31 hnlen hBcb hcb hfrom
    (show B.length < fromOffset + (B.length + 1) by omega)
  rw [htake, ← hcontent] at hgap
  rw [heq, htake, ← hcontent]
  have hlen : (lastGap (needle H q) ((content H h).drop fromOffset)).length = h.cb - o := by
    rw [← hgap, List.length_drop, hw.length_content]
  have hquiet : RestQuiet H h q fromOffset ↔
      (B.take h.cb).drop o = [] ∨
        QuietTail ((ch :: T).take (needle H q).length) (B.drop o) (h.cb - o) := by
    have hrest : RestQuiet H h q fromOffset ↔ lastGap (needle H q) ((content H h).drop fromOffset) =
        [] ∨
        QuietTail (needle H q) (B.drop o) (h.cb - o) := by
      have ho' : h.cb - (h.cb - o) = o := by omega
      constructor
      · intro hr
        have ht := hr.tail h31
        rw [hlen, hb, ho'] at ht
        exact ht
      · intro ht
        refine ⟨fun _ => ?_, fun hbig => absurd h31 (by omega)⟩
        rw [hlen, hb, ho']
        exact ht
    rw [hrest, htake, ← hcontent, hgap]
  have hout : ¬(ch :: T).take (needle H q).length <:+: (B.take h.cb).drop o := by
    rw [htake, ← hcontent, hgap]
    exact not_infix_lastGap (List.length_pos_iff.mp hpos) _
  rw [hquiet]
  rcases findLastLoop_tail hpos h31 hnlen hBcb hBlen hcb ho hfuel hout with hr | ⟨hr, hover⟩
  · exact .inl hr
  · refine .inr ⟨hr, ?_⟩
    intro x hx hg
    obtain ⟨hend, hin, htwo⟩ := hover x hx
    rcases hg with ⟨-, hocc, -⟩ | ⟨rfl, -⟩
    · have hle := hocc.add_le (by intro hnil; rw [hnil] at hh; cases hh)
      have hneedle := hq.needle_le_content h31
      rw [hw.length_content] at hle
      omega
    · omega

/-- A text of `2^31` bytes or more: nothing is found, if the search comes to an end. -/
theorem findLastLoop_huge (hw : WF H h) (hq : WF H q) (hs : startOf H q = some (ch :: T))
    (hh : (content H q).head? = some ch) (hb : startOf H h = some B) (hm : Measured H q)
    (h31 : 2 ^ 31 ≤ (needle H q).length) {x : Nat} :
    findLastLoop B (ch :: T) (toI32 (needle H q).length) (B.length + 1) fromOffset
      (h.cb - fromOffset) 0xFFFFFFFF =
      .ok x ↔ x = 0xFFFFFFFF ∧ RestQuiet H h q fromOffset := by
  have hhead : ∀ w n, HeadAbsent (ch :: T) w n ↔ HeadAbsent (content H q) w n := by
    intro w n
    rw [HeadAbsent, HeadAbsent, hh]
    rfl
  rw [findLastLoop_negative h31 (hq.needle_length_lt hm) (hq.needle_le hs) (hw.start_bounds hb).2
    (Nat.succ_pos _), hhead]
  apply and_congr_right
  rintro -
  constructor
  · intro h
    refine ⟨fun hlt => absurd hlt (by omega), fun _ hlt => ?_⟩
    rw [hb]
    exact h (by omega)
  · intro hr hlt
    have hhuge := hr.huge h31 (by omega)
    rw [hb] at hhuge
    exact hhuge

theorem findLastLoop_content (hw : WF H h) (hq : WF H q) (hs : startOf H q = some (ch :: T))
    (hh : (content H q).head? = some ch) (h0 : ch ≠ 0) (hb : startOf H h = some B)
    (hfrom : fromOffset ≤ h.cb) (hm : Measured H q) :
    RestQuiet H h q fromOffset ∧
        findLastLoop B (ch :: T) (toI32 (needle H q).length) (B.length + 1) fromOffset
          (h.cb - fromOffset) 0xFFFFFFFF =
          .ok (lastPicked (needle H q) (content H h) fromOffset 0xFFFFFFFF) ∨
      ¬RestQuiet H h q fromOffset ∧ ∀ x,
        findLastLoop B (ch :: T) (toI32 (needle H q).length) (B.length + 1) fromOffset
          (h.cb - fromOffset) 0xFFFFFFFF =
          .ok x → ¬GreatestFrom (content H q) (content H h) fromOffset x := by
  by_cases h31 : (needle H q).length < 2 ^ 31
  · rw [toI32_of_lt h31]
    exact findLastLoop_short hw hq hs hh h0 hb hfrom h31
  · have hneg : ∀ x, findLastLoop B (ch :: T) (toI32 (needle H q).length) (B.length + 1) fromOffset
        (h.cb - fromOffset) 0xFFFFFFFF = .ok x ↔ x = 0xFFFFFFFF ∧ RestQuiet H h q fromOffset :=
      fun x => findLastLoop_huge hw hq hs hh hb hm (Nat.le_of_not_lt h31)
    by_cases hr : RestQuiet H h q fromOffset
    · left
      rw [hneg, lastPicked_of_missing
        (hr.missing hw hq hs hh hb (needle_pos hh h0) h31 (hq.needle_length_lt hm))]
      exact ⟨hr, rfl, hr⟩
    · exact .inr ⟨hr, fun x hx => absurd ((hneg x).mp hx).2 hr⟩

/-- Where `findLast` does not search, it is right exactly when there is nothing to be found. -/
theorem findLast_nothing_iff (hs : startOf H q = some (ch :: T))
    (hh : (content H q).head? = some ch) (hno : ch = 0 ∨ startOf H h = none) :
    (∃ r, FindsLast H h q fromOffset r) ↔ LastSearchable H h q fromOffset ∨
      NothingMissed H h q fromOffset := by
  have hfind : findLast H h q fromOffset = .ok 0xFFFFFFFF := by
    rw [findLast, hs]
    exact findLastChars_nothing hno
  have hnothing : h.buf = .null ∨ (content H q).head? = some 0 := by
    rcases hno with rfl | hnull
    · exact .inr hh
    · left
      by_contra hbuf
      rw [startOf_eq hbuf] at hnull
      cases hnull
  constructor
  · rintro ⟨r, hf⟩
    obtain rfl := Except.ok.inj (hfind.symm.trans hf.findLast)
    exact .inr ⟨hnothing, hf.missing.mp rfl⟩
  · intro hcond
    have habsent : ¬content H q <:+: (content H h).drop fromOffset := by
      rcases hcond with hsearch | hnot
      · rcases hnothing with hnull | hnul
        · exact absurd hnull hsearch.buffer
        · exact absurd hnul hsearch.head
      · exact hnot.absent
    exact ⟨_, hfind, .inr ⟨rfl, not_infix_drop_iff.mp habsent⟩, iff_of_true rfl habsent⟩

theorem findLast_eq_ok (hw : WF H h) (hq : WF H q) (hs : startOf H q = some (ch :: T)) (h0 : ch ≠ 0)
    (hb : startOf H h = some B) (hfrom : fromOffset ≤ h.cb) :
    findLast H h q fromOffset = .ok r ↔ Measured H q ∧
      findLastLoop B (ch :: T) (toI32 (needle H q).length) (B.length + 1) fromOffset
        (h.cb - fromOffset) 0xFFFFFFFF =
        .ok r := by
  have hmeasure := hq.textLength_eq hs
  rw [findLast, hs, hb, findLastChars_eq_ok h0, toU32_sub hfrom hw.cb_lt]
  constructor
  · rintro ⟨len', hl, hx⟩
    obtain ⟨hm, rfl⟩ := (hmeasure _).mp hl
    exact ⟨hm, hx⟩
  · rintro ⟨hm, hx⟩
    exact ⟨_, (hmeasure _).mpr ⟨hm, rfl⟩, hx⟩

/-- `findLast` returns the last occurrence if and only if it finds nothing that overlaps or stands
behind the content, or has nothing to find. -/
theorem findLast_last_iff (hw : WF H h) (hq : WF H q) (hne : content H q ≠ [])
    (hfrom : fromOffset ≤ h.cb) :
    (∃ r, FindsLast H h q fromOffset r) ↔ LastSearchable H h q fromOffset ∨
      NothingMissed H h q fromOffset := by
  obtain ⟨ch, hh⟩ := Option.ne_none_iff_exists'.mp (mt List.head?_eq_none_iff.mp hne)
  obtain ⟨T, hs⟩ := start_of_head hh
  by_cases hno : ch = 0 ∨ startOf H h = none
  · exact findLast_nothing_iff hs hh hno
  · simp only [not_or] at hno
    obtain ⟨h0, hbuf⟩ := hno
    obtain ⟨B, hb⟩ := Option.ne_none_iff_exists'.mp hbuf
    constructor
    · rintro ⟨r, hf⟩
      left
      obtain ⟨hm, hloop⟩ := (findLast_eq_ok hw hq hs h0 hb hfrom).mp hf.findLast
      rcases findLastLoop_content hw hq hs hh h0 hb hfrom hm with ⟨hquiet, hok⟩ | ⟨-, hwrong⟩
      · obtain rfl := Except.ok.inj (hok.symm.trans hloop)
        refine ⟨?_, ?_, hm, hf.greatest, hquiet⟩
        · intro hnull
          rw [startOf, if_pos hnull] at hb
          cases hb
        · rw [hh]
          exact fun he => h0 (Option.some.inj he)
      · exact absurd hf.greatest (hwrong r hloop)
    · rintro (hsearch | hnothing)
      · rcases findLastLoop_content hw hq hs hh h0 hb hfrom hsearch.measured with ⟨-, hok⟩ | ⟨hnot,
          -⟩
        · exact ⟨_, (findLast_eq_ok hw hq hs h0 hb hfrom).mpr ⟨hsearch.measured, hok⟩, hsearch.last,
            hsearch.last.missing_iff hw hne⟩
        · exact absurd hsearch.quiet hnot
      · rcases hnothing.nothing with hnull | hnul
        · rw [startOf, if_pos hnull] at hb
          cases hb
        · exact absurd (Option.some.inj (hh.symm.trans hnul)) h0

/-- The last position that is found is the last one if no other starts inside it. -/
theorem greatestFrom_lastPicked_iff {t w : Bytes} (ht : t ≠ []) :
    GreatestFrom t w fromOffset (lastPicked t w fromOffset 0xFFFFFFFF) ↔
      ∀ i, lastPick? t (w.drop fromOffset) = some i → ∀ j, i < j → j < i + t.length →
        ¬OccursAt t (w.drop fromOffset) j := by
  rw [lastPicked]
  cases hpick : lastPick? t (w.drop fromOffset) with
  | none => exact iff_of_true (.inr ⟨rfl, not_infix_drop_iff.mp (lastPick?_eq_none hpick)⟩) nofun
  | some i =>
    obtain ⟨hocc, hdrop⟩ := lastPick?_spec ht hpick
    rw [Option.map_some, Option.getD_some]
    constructor
    · rintro (⟨-, -, hafter⟩ | ⟨-, hnone⟩)
      · rintro _ ⟨⟩ j hij - hj
        exact hafter _ (Nat.add_lt_add_left hij _) (occursAt_drop.mp hj)
      · exact absurd (occursAt_drop.mp hocc) (hnone _ (Nat.le_add_right ..))
    · intro hinside
      refine .inl ⟨Nat.le_add_right .., occursAt_drop.mp hocc, ?_⟩
      intro j hij hj
      have hj' : OccursAt t (w.drop fromOffset) (j - fromOffset) := by
        rw [occursAt_drop, Nat.add_sub_cancel' (by omega)]
        exact hj
      by_cases hlt : j - fromOffset < i + t.length
      · exact hinside i rfl _ (by omega) hlt hj'
      · -- behind the last position that is found there is nothing left to find
        apply not_infix_lastGap ht (w.drop fromOffset)
        rw [← hdrop, infix_iff_occursAt]
        refine ⟨j - fromOffset - (i + t.length), ?_⟩
        rw [occursAt_drop, Nat.add_sub_cancel' (by omega)]
        exact hj'

theorem lastSearchable_iff_of_lt (hq : WF H q) (hne : content H q ≠ []) (hlt : q.cb < 2 ^ 31) :
    LastSearchable H h q fromOffset ↔ h.buf ≠ .null ∧ (content H q).head? ≠ some 0 ∧
      (∀ i, lastPick? (content H q) ((content H h).drop fromOffset) = some i →
        ∀ j, i < j → j < i + q.cb → ¬OccursAt (content H q) ((content H h).drop fromOffset) j) ∧
      (lastGap (content H q) ((content H h).drop fromOffset) = [] ∨
        QuietTail (content H q)
          (((startOf H h).getD []).drop
            (h.cb - (lastGap (content H q) ((content H h).drop fromOffset)).length))
          (lastGap (content H q) ((content H h).drop fromOffset)).length) := by
  have hn : needle H q = content H q := if_pos hlt
  have hqlen := hq.length_content
  have hlast : GreatestFrom (content H q) (content H h) fromOffset
      (lastPicked (content H q) (content H h) fromOffset 0xFFFFFFFF) ↔ _ :=
        greatestFrom_lastPicked_iff hne
  rw [hqlen] at hlast
  constructor
  · intro hs
    have hg := hs.last
    have ht := hs.quiet.tail
    rw [hn] at hg ht
    exact ⟨hs.buffer, hs.head, hlast.mp hg, ht (by omega)⟩
  · rintro ⟨hbuf, hhead, hinside, ht⟩
    refine ⟨hbuf, hhead, fun hbig => absurd hbig (by omega), ?_, ?_, ?_⟩
    · rw [hn]
      exact hlast.mpr hinside
    · rw [hn]
      exact fun _ => ht
    · rw [hn]
      intro hbig
      omega

end Main

/-- The last of two texts in a slice, and nothing behind it. -/
theorem findLast_last_slice :
    letI := zeroMemory
    ∃ S h q, run .init [.bytes (some [0x61, 0x62, 0x63, 0x61, 0x62]), .substr 0 1 5,
    .literal [0x62]] = .ok S ∧
      S.handle? 1 = some h ∧ S.handle? 2 = some q ∧ ∃ r, FindsLast S.heap h q 0 r := by
  let _ := zeroMemory
  have hS₁ := Reach.slice [0x61, 0x62, 0x63, 0x61, 0x62] 1 5 (by decide) rfl
  have hS₂ := Reach.step (.literal [0x62]) hS₁ trivial ⟨by decide, by decide⟩ trivial rfl
  refine ⟨_, _, _, rfl, rfl, rfl, ?_⟩
  have hw := hS₂.inv.1.wf
  apply (findLast_last_iff (hw 1 _ rfl) (hw 2 _ rfl) nofun (by decide)).mpr
  left
  apply (lastSearchable_iff_of_lt (hw 2 _ rfl) nofun (by decide)).mpr
  refine ⟨nofun, nofun, ?_, ?_⟩
  · intro i hi j hij hj
    exact absurd hj (Nat.not_lt.mpr hij)
  · left
    decide +kernel

/-- Two texts that overlap: the search steps over the second one. -/
theorem findLast_last_fails :
    ¬∃ r, FindsLast RefHeap.empty (.literal [0x61, 0x61, 0x61]) (.literal [0x61, 0x61]) 0 r := by
  rintro ⟨r, hf⟩
  have hrun : findLast RefHeap.empty (.literal [0x61, 0x61, 0x61]) (.literal [0x61, 0x61]) 0 =
      .ok 0 := by
    decide
  obtain rfl := Except.ok.inj (hf.findLast.symm.trans hrun)
  rcases hf.greatest with ⟨-, -, hafter⟩ | ⟨hnone, -⟩
  · exact hafter 1 (by decide) (by decide)
  · cases hnone

end StringHeap

end Libacorn
