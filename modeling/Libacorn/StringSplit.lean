import Libacorn.CharIndex
import Libacorn.StringJoin
import Libacorn.StringSubstr

/-!
# split of base/string.cpp

The pieces are what is left between the occurrences of the delimiter that are
found one behind the other, and joining them gives the string back but for a
delimiter at its end. What is left behind the last occurrence is searched as
well, with a bound that is right only if the delimiter is at most one byte longer
(`split_loses_nothing_iff`).
-/

namespace Libacorn

open Support

namespace StringHeap

/-! ## The source -/

/-- `string::length()`; its `int32_t` counter may overflow. -/
def length (H : Heap) (h : Handle) : Except Fault Nat :=
  if hfit : h.cb < 2 ^ 32 ∧ h.offset + h.cb ≤ (memory H h.buf).length then
    match (Text.mk (memory H h.buf) h.offset h.cb (h.type = .Static) hfit.1 hfit.2).length with
    | .done n => .ok n
    | _ => .error .overflow
  else .error .bounds

/-- The loop of `split`, with at most `fuel` rounds; `none` if they are not enough. -/
def splitLoop (s delimiter : Handle) :
    Nat → Heap → Int → Nat → List Handle → Except Fault (Option (Heap × List Handle))
  | 0, _, _, _, _ => .ok none
  | fuel + 1, H, maxSplits, o, result =>
    if o < s.cb then do
      let next := o
      let f ← findStr (((startOf H s).getD []).drop o) (toU32 (s.cb - o))
          ((startOf H delimiter).getD [])
        (toI32 delimiter.cb) false
      let o := u32 (o + f)
      let (H, piece) ← substr H s next o
      let result := result ++ [piece]
      if 0 < maxSplits ∧ maxSplits - 1 ≤ 0 then return some (H, result)
      else
        let maxSplits := if 0 < maxSplits then maxSplits - 1 else maxSplits
        splitLoop s delimiter fuel H maxSplits (u32 (o + delimiter.cb)) result
    else return some (H, result)

/-- `string::split` -/
def split (H : Heap) (s delimiter : Handle) (maxSplits : Int) (fuel : Nat) :
    Except Fault (Option (Heap × List Handle)) := do
  if (← length H delimiter) = 0 then
    let (H, piece) ← copyOf H s
    return some (H, [piece])
  else splitLoop s delimiter fuel H maxSplits 0 []

/-! ## Counting the delimiter -/

section Length

variable {H H' : Heap} {h s d : Handle}

theorem seqLen_pos (b : UInt8) : 0 < seqLen b := by
  unfold seqLen
  split_ifs
  all_goals exact Nat.succ_pos _

theorem lengthLoop_le (s : Text) {fuel pp cc n : Nat} (h : s.lengthLoop fuel pp cc = .done n) :
    cc ≤ n := by
  induction fuel generalizing pp cc with
  | zero => exact Nat.le_of_eq (Outcome.done.inj h)
  | succ fuel ih =>
    rw [Text.lengthLoop] at h
    by_cases hpp : pp < s.cb
    · rw [if_pos hpp] at h
      obtain ⟨b, -, h⟩ := Outcome.bind_eq_done h
      split_ifs at h with hcc
      exact Nat.le_of_succ_le (ih h)
    · rw [if_neg hpp] at h
      exact Nat.le_of_eq (Outcome.done.inj h)

/-- The counter does not overflow when there are fewer than `2^31` bytes. -/
theorem lengthLoop_done (s : Text) {fuel pp cc : Nat} (hlt : cc + (s.cb - pp) < 2 ^ 31) :
    ∃ n, s.lengthLoop fuel pp cc = .done n := by
  induction fuel generalizing pp cc with
  | zero => exact ⟨cc, rfl⟩
  | succ fuel ih =>
    rw [Text.lengthLoop]
    by_cases hpp : pp < s.cb
    · rw [if_pos hpp]
      have hfits := s.fits
      obtain ⟨b, hb⟩ : ∃ b, s.byte pp = .done b := by
        rw [Text.byte, List.getElem?_eq_getElem (by omega)]
        exact ⟨_, rfl⟩
      have hpos := seqLen_pos b
      rw [hb, Outcome.bind_done, if_pos (by omega)]
      exact ih (by omega)
    · rw [if_neg hpp]
      exact ⟨cc, rfl⟩

theorem WF.fits (hw : WF H h) : h.cb < 2 ^ 32 ∧ h.offset + h.cb ≤ (memory H h.buf).length :=
  ⟨hw.cb_lt, hw.range⟩

theorem WF.end_lt (hw : WF H h) (hbuf : h.buf ≠ .null) {n : Nat}
    (hsize : (memory H h.buf).length ≤ n) :
    h.offset + h.cb < n := by
  cases hw with
  | null hb => exact absurd hb hbuf
  | lit hb ht hle hm =>
    simp only [memory, hb, List.length_append, List.length_singleton] at hsize
    omega
  | @heap i b hb ht hget hle hz =>
    have hb' := b.size
    simp only [memory, hb, hget, Option.map_some, Option.getD_some] at hsize
    omega

/-- Only an empty string has no characters. -/
theorem length_ne_zero (hne : h.cb ≠ 0) : length H h ≠ .ok 0 := by
  rw [length]
  split_ifs with hfit
  · split
    · rename_i n hn
      intro h0
      obtain rfl := Except.ok.inj h0
      rw [Text.length] at hn
      obtain ⟨k, hk⟩ := Nat.exists_eq_succ_of_ne_zero hne
      simp only [hk, Text.lengthLoop, Nat.succ_pos, ↓reduceIte] at hn
      obtain ⟨b, -, hn⟩ := Outcome.bind_eq_done hn
      have hle := lengthLoop_le _ hn
      omega
    · rintro ⟨⟩
  · rintro ⟨⟩

theorem WF.length_eq_ok (hw : WF H h) (hlt : h.cb < 2 ^ 31) : ∃ n, length H h = .ok n := by
  have hdone : ∃ n, (Text.mk (memory H h.buf) h.offset h.cb (h.type = .Static) hw.fits.1
      hw.fits.2).lengthLoop
      h.cb 0 0 = .done n := lengthLoop_done _ (by simpa using hlt)
  obtain ⟨n, hn⟩ := hdone
  refine ⟨n, ?_⟩
  rw [length, dif_pos hw.fits]
  simp only [Text.length, hn]

end Length

/-! ## What split should give -/

/-- `w` is given back, but for one delimiter if the last one that is cut at ends it. -/
def Rejoined (t w joined : Bytes) : Prop :=
  if (lastPick? t w).map (· + t.length) = some w.length then joined ++ t = w else joined = w

/-- `split` ends, no piece contains the delimiter, and `join` gives the string back. -/
def LosesNothing (H : Heap) [Uninit] (s d : Handle) : Prop :=
  ∃ fuel H₁ pieces, split H s d 0 fuel = .ok (some (H₁, pieces)) ∧
    (∀ p ∈ pieces, ¬content H d <:+: content H₁ p) ∧
    ∃ H₂ joined, join H₁ pieces d = .ok (H₂, joined) ∧
      Rejoined (content H d) (content H s) (content H₂ joined)

/-- The delimiter can be counted, and what is left behind its last occurrence is searched without
a match. A delimiter of `2^31` bytes or more has a negative length there. -/
structure Splittable (H : Heap) (s d : Handle) : Prop where
  counted : ∃ n, length H d = .ok n
  tail : d.cb < 2 ^ 31 → lastGap (content H d) (content H s) = [] ∨
    QuietTail (content H d)
      (((startOf H s).getD []).drop (s.cb - (lastGap (content H d) (content H s)).length))
      (lastGap (content H d) (content H s)).length
  huge : 2 ^ 31 ≤ d.cb → 0 < s.cb → s.cb + d.cb < 2 ^ 32 ∧
    2 ^ 32 + s.cb + 1 - d.cb ≤ ((startOf H s).getD []).length ∧
      HeadAbsent (content H d) ((startOf H s).getD []) (2 ^ 32 + s.cb + 1 - d.cb)

/-! ## The loop -/

/-- The same buffers with the same bytes; the counts may differ. -/
structure SameData (H H' : Heap) : Prop where
  get : ∀ i, H'.get? i = H.get? i
  next : H'.next = H.next

section Same

variable {H H₁ H₂ : Heap} {h : Handle}

theorem SameData.refl (H : Heap) : SameData H H := ⟨fun _ => rfl, rfl⟩

theorem SameData.trans (h : SameData H H₁) (h' : SameData H₁ H₂) : SameData H H₂ :=
  ⟨fun i => (h'.get i).trans (h.get i), h'.next.trans h.next⟩

theorem SameData.content (hs : SameData H H₁) (h : Handle) : content H₁ h = content H h := by
  rw [StringHeap.content, StringHeap.content, memory_congr hs.get]

theorem SameData.startOf (hs : SameData H H₁) (h : Handle) : startOf H₁ h = startOf H h := by
  rw [StringHeap.startOf, StringHeap.startOf, memory_congr hs.get]

theorem SameData.wf (hs : SameData H H₁) (hw : WF H h) : WF H₁ h :=
  (hw.of_frame (le_refl (own h)) fun i _ => hs.get i).1

theorem bufRetain_next {p : Ptr} (hr : bufRetain H p = .ok H₁) : H₁.next = H.next := by
  cases p with
  | null => cases hr
  | lit m => cases hr
  | heap i =>
    rw [bufRetain, RefHeap.retain] at hr
    cases hcell : H.cells i with
    | none =>
      rw [hcell] at hr
      cases hr
    | some c =>
      rw [hcell] at hr
      obtain rfl := Except.ok.inj hr
      rfl

theorem substr_next {a b : Nat} {r : Heap × Handle} (hr : substr H h a b = .ok r) :
    r.1.next = H.next := by
  rw [substr, sliceOf] at hr
  by_cases ht : h.type = .Standard
  · rw [if_pos ht] at hr
    obtain ⟨H', hret, hr⟩ := bind_eq_ok hr
    obtain rfl := Except.ok.inj hr
    exact bufRetain_next hret
  · rw [if_neg ht] at hr
    obtain rfl := Except.ok.inj hr
    rfl

end Same

section Loop

variable {H H₁ : Heap} {s d : Handle} {B T : Bytes} {o f : Nat}

/-- More rounds change nothing. -/
theorem splitLoop_mono {fuel k : Nat} {maxSplits : Int} {result : List Handle}
    {r : Heap × List Handle} (h : splitLoop s d fuel H maxSplits o result = .ok (some r)) :
    splitLoop s d (fuel + k) H maxSplits o result = .ok (some r) := by
  induction fuel generalizing H maxSplits o result with
  | zero => cases h
  | succ fuel ih =>
    rw [Nat.succ_add, splitLoop]
    rw [splitLoop] at h
    by_cases ho : o < s.cb
    · rw [if_pos ho] at h ⊢
      obtain ⟨f, hf, h⟩ := bind_eq_ok h
      obtain ⟨⟨H', piece⟩, hp, h⟩ := bind_eq_ok h
      simp only [hf, ok_bind, hp] at h ⊢
      by_cases hm : 0 < maxSplits ∧ maxSplits - 1 ≤ 0
      · rw [if_pos hm] at h ⊢
        exact h
      · rw [if_neg hm] at h ⊢
        exact ih h
    · rw [if_neg ho] at h ⊢
      exact h

theorem splitLoop_unique {fuel fuel' : Nat} {maxSplits : Int} {result : List Handle}
    {r r' : Heap × List Handle} (h : splitLoop s d fuel H maxSplits o result = .ok (some r))
    (h' : splitLoop s d fuel' H maxSplits o result = .ok (some r')) : r = r' := by
  have hr := splitLoop_mono h (k := fuel')
  rw [Nat.add_comm, splitLoop_mono h'] at hr
  exact (Option.some.inj (Except.ok.inj hr)).symm

/-- The string is split at `o`, with what `findStr` finds from there. -/
theorem splitLoop_round (hw : WF H s) (hbuf : s.buf ≠ .null) (hsize : s.offset + s.cb < 2 ^ 24)
    (hsame : SameData H H₁) (ho : o < s.cb)
    (hf : findStr (((startOf H s).getD []).drop o) (s.cb - o) ((startOf H d).getD []) (toI32 d.cb)
      false = .ok f)
    (hof : o + f < 2 ^ 32) :
    ∃ H₂ piece, SameData H H₂ ∧ WF H piece ∧ piece.cb < 2 ^ 31 ∧
      content H piece = ((content H s).drop o).take f ∧ ∀ fuel result,
        splitLoop s d (fuel + 1) H₁ 0 o result = splitLoop s d fuel H₂ 0 (u32 (o + f + d.cb))
          (result ++ [piece]) := by
  obtain ⟨H₂, hsub, hget⟩ := (hsame.wf hw).substr_eq (fun hnull => absurd hnull hbuf) o (o + f)
  have hcb := hw.cb_lt
  have hlo : min s.cb (min o (o + f)) = o := by omega
  have hhi : min s.cb (max o (o + f)) = min s.cb (o + f) := by omega
  rw [hlo, hhi] at hsub
  have hslice := hw.slice (show o ≤ min s.cb (o + f) by omega) (Nat.min_le_left _ _)
  rw [u32_of_lt (show min s.cb (o + f) - o < 2 ^ 32 by omega)] at hslice
  have hpiece : content H { s with cb := min s.cb (o + f) - o, offset := (s.offset + o) % 2 ^ 24 } =
      ((content H s).drop o).take f := by
    simp only [content]
    rw [Nat.mod_eq_of_lt (by omega), List.drop_take, List.drop_drop, List.take_take]
    congr 1
    omega
  refine ⟨H₂, _, hsame.trans ⟨hget, substr_next hsub⟩, hslice, ?_, hpiece, ?_⟩
  · simp only
    omega
  · intro fuel result
    rw [splitLoop, if_pos ho, hsame.startOf, hsame.startOf, toU32_sub (by omega) hcb, hf, ok_bind,
      u32_of_lt hof]
    simp only [hsub, ok_bind]
    rfl

/-- Handles on parts of the content. -/
def Pieces (H : Heap) (ps : List Handle) (parts : List Bytes) : Prop :=
  ps.map (content H) = parts ∧ ∀ p ∈ ps, WF H p ∧ p.cb < 2 ^ 31

theorem Pieces.concat {ps : List Handle} {parts : List Bytes} {p : Handle} {part : Bytes}
    (h : Pieces H ps parts) (hw : WF H p) (hlt : p.cb < 2 ^ 31) (hp : content H p = part) :
    Pieces H (ps ++ [p]) (parts ++ [part]) := by
  refine ⟨by rw [List.map_append, h.1, List.map_singleton, hp], ?_⟩
  intro p' hmem
  rcases List.mem_append.mp hmem with hin | hin
  · exact h.2 p' hin
  · rw [List.mem_singleton.mp hin]
    exact ⟨hw, hlt⟩

/-- The rounds that find the delimiter in the string. -/
theorem splitLoop_picks (hw : WF H s) (hbuf : s.buf ≠ .null) (hsize : s.offset + s.cb < 2 ^ 24)
    (hd : WF H d) (hne : content H d ≠ []) (h31 : d.cb < 2 ^ 31) (hsame : SameData H H₁)
    (ho : o ≤ s.cb) :
    ∃ k H₂ o' ps, SameData H H₂ ∧ o' ≤ s.cb ∧
      (content H s).drop o' = lastGap (content H d) ((content H s).drop o) ∧
      Pieces H ps (gaps (content H d) ((content H s).drop o)).dropLast ∧
      ∀ fuel result, splitLoop s d (fuel + k) H₁ 0 o result =
        splitLoop s d fuel H₂ 0 o' (result ++ ps) := by
  have hdlen := hd.length_content
  have hslen := hw.length_content
  have hpos := List.length_pos_iff.mpr hne
  have hdle := hd.cb_le_start
  generalize hrest : (content H s).drop o = w
  induction w using gaps_induction hne generalizing o H₁ with
  | last w hout =>
    refine ⟨0, H₁, o, [], hsame, ho, ?_, ?_, ?_⟩
    · rw [lastGap_of_missing hout, hrest]
    · rw [gaps_of_missing hout]
      exact ⟨rfl, nofun⟩
    · intro fuel result
      rw [List.append_nil]
      rfl
  | next w i hi ih =>
    have hend := hi.occurs.add_le hne
    rw [hdlen, ← hrest, List.length_drop, hslen] at hend
    have hB := hw.cb_le_start
    have hf : findStr (((startOf H s).getD []).drop o) (s.cb - o) ((startOf H d).getD [])
        (toI32 d.cb) false =
        .ok i := by
      rw [toI32_of_lt h31, findStr_fits (by omega) h31 hdle (by omega)
        (by rw [List.length_drop]; omega) (by omega), ← content_eq_take, ← List.drop_take,
        ← content_eq_take, hrest, first?_eq_some.mpr hi, Option.getD_some]
    obtain ⟨H₂, piece, hsame₂, hwp, hlt, hcont, hround⟩ :=
      splitLoop_round hw hbuf hsize hsame (by omega) hf (by omega)
    rw [hdlen] at ih
    obtain ⟨k, H₃, o', ps, hsame₃, ho', hgap, hps, hrun⟩ :=
      ih hsame₂ (show o + i + d.cb ≤ s.cb by omega)
      (by rw [← hrest, List.drop_drop, Nat.add_assoc])
    refine ⟨k + 1, H₃, o', piece :: ps, hsame₃, ho', ?_, ?_, ?_⟩
    · rw [lastGap_of_firstAt hne hi, hdlen]
      exact hgap
    · rw [gaps_of_firstAt hne hi, List.dropLast_cons_of_ne_nil (gaps_ne_nil hne _), hdlen]
      refine ⟨by rw [List.map_cons, hps.1, hcont, hrest], ?_⟩
      intro p hp
      rcases List.mem_cons.mp hp with rfl | hin
      · exact ⟨hwp, hlt⟩
      · exact hps.2 p hin
    · intro fuel result
      rw [← Nat.add_assoc, hround, u32_of_lt (by omega), hrun, List.append_assoc,
        List.singleton_append]

/-- The round for what is left behind the last delimiter. -/
theorem splitLoop_tail (hw : WF H s) (hbuf : s.buf ≠ .null)
    (hsize : ((startOf H s).getD []).length ≤ 2 ^ 24) (hoff : s.offset + s.cb < 2 ^ 24)
    (hd : WF H d) (hne : content H d ≠ []) (h31 : d.cb < 2 ^ 31) (hsame : SameData H H₁)
    (ho : o < s.cb) (hout : ¬content H d <:+: (content H s).drop o)

    (hf : findStr (((startOf H s).getD []).drop o) (s.cb - o) ((startOf H d).getD []) (toI32 d.cb)
      false = .ok f) :
    ∃ H₂ piece, SameData H H₂ ∧ WF H piece ∧ piece.cb < 2 ^ 31 ∧
      content H piece = ((content H s).drop o).take f ∧ ∀ fuel result,
        splitLoop s d (fuel + 2) H₁ 0 o result = .ok (some (H₂, result ++ [piece])) := by
  have hdlen := hd.length_content
  have hslen := hw.length_content
  have hpos := List.length_pos_iff.mpr hne
  have hdle := hd.cb_le_start
  have hB := hw.cb_le_start
  have hf' := hf
  rw [toI32_of_lt h31] at hf'
  -- the cursor stops behind the string, and far from the end of its range
  have hend : s.cb ≤ o + f + d.cb ∧ o + f + d.cb < 2 ^ 32 := by
    rcases findStr_finds (by omega) h31 hdle hf' with rfl | hfirst
    · omega
    · have hle := hfirst.occurs.add_le (by rw [← content_eq_take]; exact hne)
      rw [← content_eq_take, hdlen, List.length_drop] at hle
      refine ⟨?_, by omega⟩
      by_contra hlt
      have hover := findStr_overrun (by omega) h31 hdle
        (by rw [← content_eq_take, ← List.drop_take, ← content_eq_take]; exact hout) hf' (by omega)
      omega
  obtain ⟨H₂, piece, hsame₂, hwp, hlt, hcont, hround⟩ :=
    splitLoop_round hw hbuf hoff hsame ho hf (by omega)
  refine ⟨H₂, piece, hsame₂, hwp, hlt, hcont, ?_⟩
  intro fuel result
  rw [hround, u32_of_lt hend.2, splitLoop, if_neg (by omega)]
  rfl

/-- A delimiter of `2^31` bytes or more is never found. -/
theorem findStr_huge (hw : WF H s) (hd : WF H d) (h31 : 2 ^ 31 ≤ d.cb) (ho : o < s.cb)
    (hlt : s.cb < 2 ^ 24) :
    findStr (((startOf H s).getD []).drop o) (s.cb - o) ((startOf H d).getD []) (toI32 d.cb) false =
      .ok f ↔
      f = s.cb - o ∧ 2 ^ 32 + (s.cb - o) + 1 - d.cb ≤ (((startOf H s).getD []).drop o).length ∧
        HeadAbsent (content H d) (((startOf H s).getD []).drop o)
          (2 ^ 32 + (s.cb - o) + 1 - d.cb) := by
  have hdlt := hd.cb_lt
  have hB := hw.length_start_le
  rw [findStr_negative h31 hdlt hd.cb_le_start (by rw [List.length_drop]; omega),
    toU32_bound_wraps (by omega) hdlt, headAbsent_start (by omega)]

/-- The cursor comes back to the string again and again. -/
theorem splitLoop_diverges (hw : WF H s) (hbuf : s.buf ≠ .null) (hsize : s.offset + s.cb < 2 ^ 24)
    (hd : WF H d) (h31 : 2 ^ 31 ≤ d.cb) (hwraps : 2 ^ 32 ≤ s.cb + d.cb) (hsame : SameData H H₁)
    (ho : o < s.cb) {fuel : Nat} {result : List Handle} {r : Heap × List Handle} :
    splitLoop s d fuel H₁ 0 o result ≠ .ok (some r) := by
  have hdlt := hd.cb_lt
  induction fuel generalizing H₁ o result with
  | zero => nofun
  | succ fuel ih =>
    intro h
    have hf : ∃ f, findStr (((startOf H s).getD []).drop o) (s.cb - o) ((startOf H d).getD [])
        (toI32 d.cb) false =
        .ok f := by
      rw [splitLoop, if_pos ho] at h
      obtain ⟨f, hf, -⟩ := bind_eq_ok h
      rw [hsame.startOf, hsame.startOf, toU32_sub (by omega) hw.cb_lt] at hf
      exact ⟨f, hf⟩
    obtain ⟨f, hf⟩ := hf
    obtain ⟨rfl, -⟩ := (findStr_huge hw hd h31 ho (by omega)).mp hf
    obtain ⟨H₂, piece, hsame₂, -, -, -, hround⟩ :=
      splitLoop_round hw hbuf hsize hsame ho hf (by omega)
    rw [hround] at h
    refine ih hsame₂ ?_ h
    rw [u32]
    omega

end Loop

/-! ## Splitting and joining -/

section Rejoin

variable {t w joined : Bytes}

theorem intercalate_concat {t x : Bytes} {gs : List Bytes} (hgs : gs ≠ []) :
    t.intercalate (gs ++ [x]) = t.intercalate gs ++ t ++ x := by
  induction gs with
  | nil => exact absurd rfl hgs
  | cons g gs ih =>
    cases gs with
    | nil => simp
    | cons g' gs =>
      have hrest := ih (List.cons_ne_nil _ _)
      rw [List.cons_append, List.cons_append, List.intercalate_cons_cons, ← List.cons_append, hrest,
        List.intercalate_cons_cons]
      simp only [List.append_assoc]

/-- The last part counts with its length. -/
theorem length_intercalate_concat (t x y : Bytes) (gs : List Bytes) :
    (t.intercalate (gs ++ [x])).length + y.length =
      (t.intercalate (gs ++ [y])).length + x.length := by
  by_cases hgs : gs = []
  · subst hgs
    rw [List.nil_append, List.nil_append, List.intercalate_singleton, List.intercalate_singleton,
      Nat.add_comm]
  · rw [intercalate_concat hgs, intercalate_concat hgs]
    simp only [List.length_append]
    omega

/-- The last part is what is left. -/
theorem gaps_eq_concat (ht : t ≠ []) (w : Bytes) :
    gaps t w = (gaps t w).dropLast ++ [lastGap t w] := by
  have hne := gaps_ne_nil ht w
  rw [lastGap, List.getLast?_eq_some_getLast hne, Option.getD_some, List.dropLast_append_getLast]

theorem rejoined_of_rest (ht : t ≠ []) (hrest : lastGap t w ≠ []) :
    Rejoined t w joined ↔ joined = w := by
  rw [Rejoined, if_neg]
  intro hend
  obtain ⟨i, hi, hlen⟩ := Option.map_eq_some_iff.mp hend
  obtain ⟨-, hdrop⟩ := lastPick?_spec ht hi
  rw [hlen, List.drop_length] at hdrop
  exact hrest hdrop.symm

/-- Nothing is left: the parts before the last delimiter. -/
theorem rejoined_of_no_rest (ht : t ≠ []) (hrest : lastGap t w = []) :
    Rejoined t w (t.intercalate (gaps t w).dropLast) := by
  have hall := intercalate_gaps ht w
  rw [gaps_eq_concat ht, hrest] at hall
  by_cases hgs : (gaps t w).dropLast = []
  · rw [hgs, List.nil_append, List.intercalate_singleton] at hall
    subst hall
    rw [hgs, Rejoined, lastPick?_of_missing (by simpa using ht)]
    exact if_neg nofun |>.mpr rfl
  · cases hpick : lastPick? t w with
    | none =>
      rw [gaps_of_missing (lastPick?_eq_none hpick)] at hgs
      exact absurd rfl hgs
    | some i =>
      obtain ⟨hocc, hdrop⟩ := lastPick?_spec ht hpick
      have hle := hocc.add_le ht
      rw [hrest, List.drop_eq_nil_iff] at hdrop
      rw [Rejoined, hpick, Option.map_some, if_pos (congrArg some (by omega))]
      rw [intercalate_concat hgs, List.append_nil] at hall
      exact hall

theorem Rejoined.length_le (h : Rejoined t w joined) : joined.length ≤ w.length := by
  rw [Rejoined] at h
  split_ifs at h
  · rw [← h, List.length_append]
    exact Nat.le_add_right _ _
  · rw [h]

end Rejoin

section Main

variable {H H₁ : Heap} {s d : Handle}

/-- The pieces of a string that ends with a delimiter, or is empty. -/
theorem splitLoop_no_rest (hw : WF H s) (hbuf : s.buf ≠ .null) (hoff : s.offset + s.cb < 2 ^ 24)
    (hd : WF H d) (hne : content H d ≠ []) (h31 : d.cb < 2 ^ 31)
    (hrest : lastGap (content H d) (content H s) = []) :
    ∃ fuel H₁ ps, splitLoop s d fuel H 0 0 [] = .ok (some (H₁, ps)) ∧ SameData H H₁ ∧
      Pieces H ps (gaps (content H d) (content H s)).dropLast := by
  obtain ⟨k, H₁, o, ps, hsame, ho, hgap, hps, hrun⟩ :=
    splitLoop_picks hw hbuf hoff hd hne h31 (SameData.refl H) (Nat.zero_le s.cb)
  rw [List.drop_zero] at hgap hps
  rw [hrest, List.drop_eq_nil_iff, hw.length_content] at hgap
  refine ⟨1 + k, H₁, ps, ?_, hsame, hps⟩
  rw [hrun, List.nil_append, splitLoop, if_neg (by omega)]
  rfl

/-- The pieces of a string that does not, with what is found in the rest. -/
theorem splitLoop_rest (hw : WF H s) (hbuf : s.buf ≠ .null)
    (hsize : ((startOf H s).getD []).length ≤ 2 ^ 24) (hoff : s.offset + s.cb < 2 ^ 24)
    (hd : WF H d) (hne : content H d ≠ []) (h31 : d.cb < 2 ^ 31)
    (hrest : lastGap (content H d) (content H s) ≠ []) :
    (∀ fuel r, splitLoop s d fuel H 0 0 [] = .ok (some r) → ∃ f,
      findStr (((startOf H s).getD []).drop (s.cb - (lastGap (content H d) (content H s)).length))
        (lastGap (content H d) (content H s)).length ((startOf H d).getD []) d.cb false = .ok f) ∧
    ∀ f, findStr (((startOf H s).getD []).drop
      (s.cb - (lastGap (content H d) (content H s)).length))
        (lastGap (content H d) (content H s)).length ((startOf H d).getD []) d.cb false = .ok f →
      ∃ fuel H₁ ps, splitLoop s d fuel H 0 0 [] = .ok (some (H₁, ps)) ∧ SameData H H₁ ∧
        Pieces H ps ((gaps (content H d) (content H s)).dropLast ++
          [(lastGap (content H d) (content H s)).take f]) := by
  obtain ⟨k, H₁, o, ps, hsame, ho, hgap, hps, hrun⟩ :=
    splitLoop_picks hw hbuf hoff hd hne h31 (SameData.refl H) (Nat.zero_le s.cb)
  rw [List.drop_zero] at hgap hps
  have hlen : (lastGap (content H d) (content H s)).length = s.cb - o := by
    rw [← hgap, List.length_drop, hw.length_content]
  have hpos := List.length_pos_iff.mpr hrest
  rw [hlen, show s.cb - (s.cb - o) = o by omega, ← toI32_of_lt h31]
  constructor
  · intro fuel r hr
    have hr' := splitLoop_mono hr (k := 1 + k)
    rw [← Nat.add_assoc, hrun, splitLoop, if_pos (by omega)] at hr'
    obtain ⟨f, hf, -⟩ := bind_eq_ok hr'
    rw [hsame.startOf, hsame.startOf, toU32_sub ho hw.cb_lt] at hf
    exact ⟨f, hf⟩
  · intro f hf
    obtain ⟨H₂, piece, hsame₂, hwp, hlt, hcont, htail⟩ :=
      splitLoop_tail hw hbuf hsize hoff hd hne h31 hsame
      (by omega) (by rw [hgap]; exact not_infix_lastGap hne _) hf
    refine ⟨0 + 2 + k, H₂, ps ++ [piece], ?_, hsame₂, ?_⟩
    · rw [hrun, List.nil_append]
      exact htail 0 ps
    · rw [hgap] at hcont
      exact hps.concat hwp hlt hcont

/-- What is left is searched without a match. -/
theorem findStr_rest_iff (hw : WF H s) (hd : WF H d) (hne : content H d ≠ [])
    (h31 : d.cb < 2 ^ 31) :
    (∃ f, findStr (((startOf H s).getD []).drop
      (s.cb - (lastGap (content H d) (content H s)).length))
        (lastGap (content H d) (content H s)).length ((startOf H d).getD []) d.cb false = .ok f ∧
          (lastGap (content H d) (content H s)).length ≤ f) ↔
      QuietTail (content H d)
        (((startOf H s).getD []).drop (s.cb - (lastGap (content H d) (content H s)).length))
        (lastGap (content H d) (content H s)).length := by
  have hsuf := lastGap_suffix hne (content H s)
  have hle := hsuf.length_le
  have hpos := List.length_pos_iff.mpr hne
  have hB := hw.cb_le_start
  have hB' := hw.length_start_le
  have hcb := hw.cb_lt
  have hlast := List.suffix_iff_eq_drop.mp hsuf
  rw [hw.length_content] at hle hlast
  rw [hd.length_content] at hpos
  have htake := content_eq_take H d
  rw [findStr_quiet_iff hpos h31 hd.cb_le_start (by rw [List.length_drop]; omega)
    (by rw [List.length_drop]; omega)
    (by omega), ← htake]
  rw [← htake]
  have hrange :
      ((((startOf H s).getD []).drop (s.cb - (lastGap (content H d) (content H s)).length)).take
      (lastGap (content H d) (content H s)).length) = lastGap (content H d) (content H s) := by
    calc (((startOf H s).getD []).drop (s.cb - (lastGap (content H d) (content H s)).length)).take
          (lastGap (content H d) (content H s)).length
        = (((startOf H s).getD []).take s.cb).drop
          (s.cb - (lastGap (content H d) (content H s)).length) := by
          rw [List.drop_take]
          congr 1
          omega
      _ = lastGap (content H d) (content H s) := by
          rw [← content_eq_take]
          exact hlast.symm
  rw [hrange]
  exact not_infix_lastGap hne _

variable [Uninit]

omit [Uninit] in
theorem Inv.unused {S : State} (hI : Inv S) : Unused S.heap.next S.heap := by
  intro i hi
  rw [RefHeap.get?, hI.owned.fresh i hi]
  rfl

/-- Joining the pieces, in the heap that `split` leaves. -/
theorem join_pieces (hd : WF H d) (hunused : Unused H.next H) (hsame : SameData H H₁)
    {ps : List Handle} {parts : List Bytes} (hps : Pieces H ps parts)
    (hone : d.cb < 2 ^ 31 ∨ ps.length ≤ 1)
    (hlen : ((content H d).intercalate parts).length < 2 ^ 32) :
    ∃ H₂ joined, join H₁ ps d = .ok (H₂, joined) ∧
      content H₂ joined = (content H d).intercalate parts := by
  have hmap : ps.map (content H₁) = parts := by
    rw [← hps.1]
    exact List.map_congr_left fun p _ => hsame.content p
  have hu : Unused H₁.next H₁ := by
    intro i hi
    rw [hsame.next] at hi
    rw [hsame.get]
    exact hunused i hi
  have hj := join_content hu (hsame.wf hd) (fun p hp => ⟨hsame.wf (hps.2 p hp).1, (hps.2 p hp).2⟩)
      hone
    (by rw [hsame.content, hmap]; exact hlen)
  rw [hsame.content, hmap] at hj
  exact hj

/-- A split whose parts are known. -/
theorem losesNothing_of_parts (hd : WF H d) (hunused : Unused H.next H) {fuel : Nat}
    {ps : List Handle} {parts : List Bytes} (hsplit : split H s d 0 fuel = .ok (some (H₁, ps)))
    (hsame : SameData H H₁) (hps : Pieces H ps parts) (hone : d.cb < 2 ^ 31 ∨ ps.length ≤ 1)
    (hlen : ((content H d).intercalate parts).length < 2 ^ 32)
    (hparts : ∀ part ∈ parts, ¬content H d <:+: part)
    (hre : Rejoined (content H d) (content H s) ((content H d).intercalate parts)) :
    LosesNothing H s d := by
  obtain ⟨H₂, joined, hjoin, hcont⟩ := join_pieces hd hunused hsame hps hone hlen
  refine ⟨fuel, H₁, ps, hsplit, ?_, H₂, joined, hjoin, ?_⟩
  · intro p hp
    rw [hsame.content]
    apply hparts
    rw [← hps.1]
    exact List.mem_map_of_mem hp
  · rw [hcont]
    exact hre

omit [Uninit] in
/-- A delimiter that can be counted and is not empty starts the loop. -/
theorem split_eq_loop {n : Nat} (hn : length H d = .ok n) (hne : d.cb ≠ 0) (fuel : Nat) :
    split H s d 0 fuel = splitLoop s d fuel H 0 0 [] := by
  have hn0 : n ≠ 0 := by
    rintro rfl
    exact length_ne_zero hne hn
  rw [split, hn, ok_bind, if_neg hn0]

omit [Uninit] in
/-- The run of the loop behind a `split` that returns. -/
theorem split_ok {fuel : Nat} {r : Option (Heap × List Handle)} (hne : d.cb ≠ 0)
    (h : split H s d 0 fuel = .ok r) :
    (∃ n, length H d = .ok n) ∧ splitLoop s d fuel H 0 0 [] = .ok r := by
  have hsplit := h
  rw [split] at hsplit
  obtain ⟨n, hn, -⟩ := bind_eq_ok hsplit
  rw [split_eq_loop hn hne] at h
  exact ⟨⟨n, hn⟩, h⟩

omit [Uninit] in
/-- The bytes from the start of `s` to the end of its block. -/
theorem length_start_le (hbuf : s.buf ≠ .null) (hsize : (memory H s.buf).length ≤ 2 ^ 24) :
    ((startOf H s).getD []).length ≤ 2 ^ 24 := by
  rw [startOf_eq hbuf, Option.getD_some, List.length_drop]
  omega

/-- The last part is not cut short. -/
theorem LosesNothing.quiet (hlose : LosesNothing H s d) (hw : WF H s) (hd : WF H d)
    (hunused : Unused H.next H) (hbuf : s.buf ≠ .null) (hsize : (memory H s.buf).length ≤ 2 ^ 24)
    (hne : content H d ≠ []) (h31 : d.cb < 2 ^ 31) :
    lastGap (content H d) (content H s) = [] ∨
      QuietTail (content H d)
        (((startOf H s).getD []).drop (s.cb - (lastGap (content H d) (content H s)).length))
        (lastGap (content H d) (content H s)).length := by
  have hslen := hw.length_content
  have hpos := List.length_pos_iff.mpr hne
  rw [hd.length_content] at hpos
  obtain ⟨fuel, H₁, pieces, hsplit, -, H₂, joined, hjoin, hre⟩ := hlose
  obtain ⟨-, hsplit⟩ := split_ok (by omega) hsplit
  by_contra hbad
  obtain ⟨hrest, hloud⟩ := not_or.mp hbad
  obtain ⟨hok, hrun⟩ := splitLoop_rest hw hbuf (length_start_le hbuf hsize) (hw.end_lt hbuf hsize)
      hd hne h31 hrest
  obtain ⟨f, hf⟩ := hok fuel _ hsplit
  obtain ⟨fuel', H₁', ps, hloop, hsame, hps⟩ := hrun f hf
  obtain ⟨rfl, rfl⟩ := Prod.mk.inj (splitLoop_unique hsplit hloop)
  have hlength := length_intercalate_concat (content H d)
      ((lastGap (content H d) (content H s)).take f)
    (lastGap (content H d) (content H s)) (gaps (content H d) (content H s)).dropLast
  rw [← gaps_eq_concat hne, intercalate_gaps hne (content H s), hslen, List.length_take] at hlength
  have hlt := hw.cb_lt
  obtain ⟨H₃, joined', hjoin', hcont⟩ := join_pieces hd hunused hsame hps (.inl h31) (by omega)
  obtain ⟨rfl, rfl⟩ := Prod.mk.inj (Except.ok.inj (hjoin'.symm.trans hjoin))
  -- a last piece that is cut short is missed
  have hwhole := (rejoined_of_rest hne hrest).mp hre
  rw [← hcont, hwhole, hslen] at hlength
  exact hloud ((findStr_rest_iff hw hd hne h31).mp ⟨f, hf, by omega⟩)

/-- A delimiter of `2^31` bytes or more is searched for in the first round only, without a match. -/
theorem LosesNothing.huge (hlose : LosesNothing H s d) (hw : WF H s) (hd : WF H d)
    (hbuf : s.buf ≠ .null) (hsize : (memory H s.buf).length ≤ 2 ^ 24) (h31 : 2 ^ 31 ≤ d.cb)
    (h0 : 0 < s.cb) :
    s.cb + d.cb < 2 ^ 32 ∧ 2 ^ 32 + s.cb + 1 - d.cb ≤ ((startOf H s).getD []).length ∧
      HeadAbsent (content H d) ((startOf H s).getD []) (2 ^ 32 + s.cb + 1 - d.cb) := by
  have hoff := hw.end_lt hbuf hsize
  obtain ⟨fuel, H₁, pieces, hsplit, -⟩ := hlose
  obtain ⟨-, hsplit⟩ := split_ok (by omega) hsplit
  obtain ⟨fuel, rfl⟩ : ∃ k, fuel = k + 1 := by
    cases fuel with
    | zero => cases hsplit
    | succ k => exact ⟨k, rfl⟩
  have hloop := hsplit
  rw [splitLoop, if_pos h0] at hloop
  obtain ⟨f, hf, -⟩ := bind_eq_ok hloop
  rw [toU32_sub h0.le hw.cb_lt] at hf
  obtain ⟨-, hread, habs⟩ := (findStr_huge hw hd h31 h0 (by omega)).mp hf
  refine ⟨?_, hread, habs⟩
  by_contra hwraps
  exact splitLoop_diverges hw hbuf hoff hd h31 (by omega) (SameData.refl H) h0 hsplit

/-- A delimiter whose length fits, with the search behind its last occurrence quiet. -/
theorem losesNothing_short (hs : Splittable H s d) (hw : WF H s) (hd : WF H d)
    (hunused : Unused H.next H) (hbuf : s.buf ≠ .null) (hsize : (memory H s.buf).length ≤ 2 ^ 24)
    (hne : content H d ≠ []) (h31 : d.cb < 2 ^ 31) :
    LosesNothing H s d := by
  have hslen := hw.length_content
  have hlt := hw.cb_lt
  have hoff := hw.end_lt hbuf hsize
  have hpos := List.length_pos_iff.mpr hne
  rw [hd.length_content] at hpos
  have hall := intercalate_gaps hne (content H s)
  obtain ⟨n, hn⟩ := hs.counted
  by_cases hrest : lastGap (content H d) (content H s) = []
  · obtain ⟨fuel, H₁, ps, hloop, hsame, hps⟩ := splitLoop_no_rest hw hbuf hoff hd hne h31 hrest
    refine losesNothing_of_parts hd hunused ((split_eq_loop hn (by omega) fuel).trans hloop) hsame
      hps (.inl h31)
      ?_ ?_ (rejoined_of_no_rest hne hrest)
    · have hle := (rejoined_of_no_rest hne hrest).length_le
      omega
    · intro part hpart
      exact not_infix_of_mem_gaps hne (List.mem_of_mem_dropLast hpart)
  · have hquiet := (hs.tail h31).resolve_left hrest
    obtain ⟨f, hf, hle⟩ := (findStr_rest_iff hw hd hne h31).mpr hquiet
    obtain ⟨-, hrun⟩ := splitLoop_rest hw hbuf (length_start_le hbuf hsize) hoff hd hne h31 hrest
    obtain ⟨fuel, H₁, ps, hloop, hsame, hps⟩ := hrun f hf
    rw [List.take_of_length_le hle, ← gaps_eq_concat hne] at hps
    refine losesNothing_of_parts hd hunused ((split_eq_loop hn (by omega) fuel).trans hloop) hsame
      hps (.inl h31)
      ?_ ?_ ?_
    · rw [hall]
      omega
    · exact fun part hpart => not_infix_of_mem_gaps hne hpart
    · exact (rejoined_of_rest hne hrest).mpr hall

/-- A delimiter of `2^31` bytes or more does not occur: the string is the only piece, or there is
none. -/
theorem losesNothing_huge (hs : Splittable H s d) (hw : WF H s) (hd : WF H d)
    (hunused : Unused H.next H) (hbuf : s.buf ≠ .null) (hsize : (memory H s.buf).length ≤ 2 ^ 24)
    (h31 : 2 ^ 31 ≤ d.cb) : LosesNothing H s d := by
  have hslen := hw.length_content
  have hdlen := hd.length_content
  have hoff := hw.end_lt hbuf hsize
  obtain ⟨n, hn⟩ := hs.counted
  have hlong : ¬content H d <:+: content H s := by
    intro hin
    have hle := hin.length_le
    omega
  have hno : lastPick? (content H d) (content H s) = none := lastPick?_of_missing hlong
  by_cases h0 : 0 < s.cb
  · obtain ⟨hwraps, hread, habs⟩ := hs.huge h31 h0
    have hf : findStr (((startOf H s).getD []).drop 0) (s.cb - 0) ((startOf H d).getD [])
        (toI32 d.cb) false =
        .ok s.cb := (findStr_huge hw hd h31 h0 (by omega)).mpr ⟨rfl, hread, habs⟩
    obtain ⟨H₁, piece, hsame, hwp, hlt, hcont, hround⟩ :=
      splitLoop_round hw hbuf hoff (SameData.refl H) h0 hf (by omega)
    rw [List.drop_zero, ← hslen, List.take_length] at hcont
    have hloop : splitLoop s d 2 H 0 0 [] = .ok (some (H₁, [piece])) := by
      rw [hround, u32_of_lt (by omega), splitLoop, if_neg (by omega)]
      rfl
    have hps : Pieces H [piece] [content H s] :=
      ⟨by rw [List.map_singleton, hcont], by simpa using ⟨hwp, hlt⟩⟩
    refine losesNothing_of_parts hd hunused ((split_eq_loop hn (by omega) 2).trans hloop) hsame hps
      (.inr (Nat.le_refl 1)) ?_ ?_ ?_
    · rw [List.intercalate_singleton]
      omega
    · intro part hpart
      rw [List.mem_singleton.mp hpart]
      exact hlong
    · rw [Rejoined, hno, List.intercalate_singleton]
      exact if_neg nofun |>.mpr rfl
  · have hloop : splitLoop s d 1 H 0 0 [] = .ok (some (H, [])) := by
      rw [splitLoop, if_neg h0]
      rfl
    have hnil : content H s = [] := List.eq_nil_of_length_eq_zero (by omega)
    have hps : Pieces H [] [] := ⟨rfl, nofun⟩
    refine losesNothing_of_parts hd hunused ((split_eq_loop hn (by omega) 1).trans hloop)
      (SameData.refl H) hps
      (.inr (Nat.zero_le 1)) (Nat.two_pow_pos 32) nofun ?_
    rw [Rejoined, hno, hnil]
    exact if_neg nofun |>.mpr rfl

/-- `split` and `join` lose nothing if and only if the delimiter can be counted and the search
behind its last occurrence does not go wrong. -/
theorem split_loses_nothing_iff (hw : WF H s) (hd : WF H d) (hunused : Unused H.next H)
    (hbuf : s.buf ≠ .null) (hsize : (memory H s.buf).length ≤ 2 ^ 24) (hne : content H d ≠ []) :
    LosesNothing H s d ↔ Splittable H s d := by
  have hpos := List.length_pos_iff.mpr hne
  rw [hd.length_content] at hpos
  constructor
  · intro hlose
    refine ⟨?_, hlose.quiet hw hd hunused hbuf hsize hne, fun h31 h0 => hlose.huge hw hd hbuf hsize
      h31 h0⟩
    obtain ⟨fuel, H₁, pieces, hsplit, -⟩ := hlose
    exact (split_ok (by omega) hsplit).1
  · intro hs
    by_cases h31 : d.cb < 2 ^ 31
    · exact losesNothing_short hs hw hd hunused hbuf hsize hne h31
    · exact losesNothing_huge hs hw hd hunused hbuf hsize (Nat.le_of_not_lt h31)

end Main

/-- Two pieces between adjacent delimiters, and one at the end. -/
theorem split_loses_nothing_commas :
    letI := zeroMemory
    ∃ S h q, run .init [.bytes (some [0x61, 0x2c, 0x2c, 0x62, 0x2c]), .literal [0x2c]] = .ok S ∧
      S.handle? 0 = some h ∧ S.handle? 1 = some q ∧ LosesNothing S.heap h q := by
  let _ := zeroMemory
  have hS₁ := Reach.bytes [0x61, 0x2c, 0x2c, 0x62, 0x2c] (by decide) rfl
  have hS₂ := Reach.step (.literal [0x2c]) hS₁ trivial ⟨by decide, by decide⟩ trivial rfl
  refine ⟨_, _, _, rfl, rfl, rfl, ?_⟩
  have hI := hS₂.inv.1
  have hq := hI.wf 1 _ rfl
  apply (split_loses_nothing_iff (hI.wf 0 _ rfl) hq hI.unused nofun (by decide +kernel) nofun).mpr
  refine ⟨hq.length_eq_ok (by decide), fun _ => .inl ?_, fun hbig => absurd hbig (by decide)⟩
  decide +kernel

/-- A delimiter that is two bytes longer than the string: the search runs out of the block. -/
theorem split_loses_fails :
    letI := zeroMemory
    ¬LosesNothing RefHeap.empty (.literal [0x61]) (.literal [0x62, 0x63, 0x64]) := by
  let _ := zeroMemory
  have hw : ∀ m : Bytes, m.length < 2 ^ 32 → WF RefHeap.empty (.literal m) :=
    fun m hm => .lit rfl rfl (Nat.le_of_eq (Nat.zero_add _)) hm
  intro hlose
  have hquiet := hlose.quiet (hw [0x61] (by decide)) (hw [0x62, 0x63, 0x64] (by decide))
      (fun _ _ => rfl) nofun
    (by decide) nofun (by decide)
  rw [show lastGap (content RefHeap.empty (.literal [0x62, 0x63, 0x64]))
    (content RefHeap.empty (.literal [0x61])) =
    [0x61] by decide +kernel] at hquiet
  rcases hquiet with hnil | hfit | ⟨m, hm, hfirst⟩ | ⟨-, hread, -⟩
  · cases hnil
  · exact absurd hfit (by decide)
  · have hle := hfirst.occurs.add_le nofun
    exact absurd (Nat.le_trans (Nat.le_add_left 3 m) hle) (by decide)
  · exact absurd hread (by decide)

end StringHeap

end Libacorn
