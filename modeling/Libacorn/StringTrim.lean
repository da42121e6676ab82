import Libacorn.Support.BothEnds
import Libacorn.StringSplit

/-!
# trim of base/string.cpp

The two counting loops of `trim` step by step. They count what `countLead` and
`countTrail` say, so that what is left of a string without NULs is the string cut
at both ends (`trim_cuts_both_ends`).
-/

namespace Libacorn

open Support

namespace StringHeap

/-! ## The source -/

/-- The first loop, over the bytes left; it ends with `i` and `cLead`. `i++` may overflow. -/
def leadLoop (chars : Bytes) : Bytes → Nat → Nat → Except Fault (Nat × Nat)
  | [], i, cLead => .ok (i, cLead)
  | c :: rest, i, cLead =>
    if i + 1 < 2 ^ 31 then
      if inSet chars c then leadLoop chars rest (i + 1) (cLead + 1) else .ok (i + 1, cLead)
    else .error .overflow

/-- The second loop, from `ii + 1` down. -/
def trailLoop (chars content : Bytes) (i : Nat) : Nat → Nat → Except Fault Nat
  | 0, cTrail => .ok cTrail
  | ii + 1, cTrail =>
    if i ≤ ii then
      match content[ii]? with
      | none => .error .bounds
      | some c => if inSet chars c then trailLoop chars content i ii (cTrail + 1) else .ok cTrail
    else .ok cTrail

/-- `string::trim`, with its loops. -/
def trimWithLoops (H : Heap) (h : Handle) (chars : Bytes) : Except Fault (Heap × Handle) := do
  let content ← read H h.buf h.offset h.cb
  let (i, cLead) ← leadLoop chars content 0 0
  -- `_cb-1` is converted to `int32_t`
  let ii := toI32 (toU32 (h.cb - 1))
  let cTrail ← trailLoop chars content i (ii + 1).toNat 0
  if cLead + cTrail > 0 then
    let (H, temp) ← substr H h cLead (h.cb - cTrail)
    let (H, h) ← assignFrom H h temp
    let H ← destroy H temp
    return (H, h)
  else return (H, h)

/-! ## The loops -/

section Loops

variable {chars w : Bytes} {i n t : Nat}

/-- One index behind the last byte that the first loop looks at. -/
theorem leadLoop_eq (chars w : Bytes) (hn : n < 2 ^ 31) :
    leadLoop chars w n n =
      if n + min w.length (leading (inSet chars) w + 1) < 2 ^ 31 then
        .ok (n + min w.length (leading (inSet chars) w + 1), n + leading (inSet chars) w)
      else .error .overflow := by
  induction w generalizing n with
  | nil => 
    rw [List.length_nil, Nat.zero_min, if_pos (by omega)]
    rfl
  | cons c w ih =>
    rw [leadLoop, leading, List.length_cons]
    by_cases hn' : n + 1 < 2 ^ 31
    · rw [if_pos hn']
      by_cases hc : inSet chars c = true
      · rw [if_pos hc, ih hn', List.takeWhile_cons_of_pos hc, List.length_cons, ← leading,
          Nat.add_min_add_right, show n + 1 + min w.length (leading (inSet chars) w + 1) =
            n + (min w.length (leading (inSet chars) w + 1) + 1) by omega]
        congr 3
        omega
      · rw [if_neg hc, List.takeWhile_cons_of_neg hc, List.length_nil, Nat.min_eq_right (by omega),
          if_pos hn']
        rfl
    · rw [if_neg hn', if_neg (by omega)]

/-- The second loop counts from the end of a prefix down to `i`. -/
theorem trailLoop_eq (chars : Bytes) (hn : n ≤ w.length) :
    trailLoop chars w i n t =
      .ok (t + (((w.take n).drop i).reverse.takeWhile (inSet chars)).length) := by
  induction n generalizing t with
  | zero =>
    rw [List.take_zero, List.drop_nil]
    rfl
  | succ n ih =>
    rw [trailLoop]
    by_cases hi : i ≤ n
    · have hlast : (w.take (n + 1)).drop i = (w.take n).drop i ++ [w.get ⟨n, hn⟩] := by
        rw [List.take_succ_eq_append_getElem hn, List.drop_append_of_le_length
          (by rw [List.length_take]; omega)]
        rfl
      rw [if_pos hi, hlast, List.reverse_append, List.getElem?_eq_getElem hn]
      simp only [List.reverse_singleton, List.singleton_append, List.get_eq_getElem]
      split_ifs with hc
      · rw [ih (by omega), List.takeWhile_cons_of_pos hc, List.length_cons]
        congr 1
        omega
      · rw [List.takeWhile_cons_of_neg hc]
        rfl
    · rw [if_neg hi, List.drop_eq_nil_of_le (by rw [List.length_take]; omega)]
      rfl

/-- Where the second loop starts. -/
theorem toI32_pred (hn : n < 2 ^ 32) :
    (toI32 (toU32 ((n : Int) - 1)) + 1).toNat = if n ≤ 2 ^ 31 then n else 0 := by
  cases n with
  | zero => rfl
  | succ n =>
    rw [show ((n + 1 : Nat) : Int) - 1 =
      n by omega, toU32_of_nonneg (by omega) (by omega), Int.toNat_natCast]
    by_cases h : n < 2 ^ 31
    · rw [toI32_of_lt h, if_pos (by omega)]
      omega
    · rw [toI32_of_ge (by omega) (by omega), if_neg (by omega)]
      omega

/-- The first loop counts what `countLead` says. -/
theorem leadLoop_eq_countLead (chars w : Bytes) : leadLoop chars w 0 0 = do
    let cLead ← countLead chars w
    return (min w.length (cLead + 1), cLead) := by
  have hcount : countLead chars w = if 2 ^ 31 - 1 ≤ leading (inSet chars) w ∧
      2 ^ 31 ≤ w.length then .error .overflow
      else .ok (leading (inSet chars) w) := rfl
  rw [leadLoop_eq chars w (Nat.two_pow_pos 31), hcount, Nat.zero_add, Nat.zero_add]
  by_cases hfit : 2 ^ 31 - 1 ≤ leading (inSet chars) w ∧ 2 ^ 31 ≤ w.length
  · rw [if_neg (by omega), if_pos hfit]
    rfl
  · have hle : leading (inSet chars) w ≤ w.length := length_lead_le chars w
    rw [if_pos (by omega), if_neg hfit]
    rfl

/-- The second loop counts what `countTrail` says. -/
theorem trailLoop_eq_countTrail (chars : Bytes) {cLead : Nat} (hlt : w.length < 2 ^ 32) :
    trailLoop chars w (min w.length (cLead + 1)) (toI32 (toU32 ((w.length : Int) - 1)) + 1).toNat
      0 =
      .ok (countTrail chars w cLead) := by
  have hdrop : w.drop (min w.length (cLead + 1)) = w.drop (cLead + 1) := by
    by_cases hle : cLead + 1 ≤ w.length
    · rw [Nat.min_eq_right hle]
    · rw [List.drop_eq_nil_of_le (by omega), List.drop_eq_nil_of_le (by omega)]
  rw [toI32_pred hlt, countTrail]
  split_ifs with hsmall
  · rw [trailLoop_eq chars (Nat.le_refl _), List.take_length, hdrop, Nat.zero_add]
  · rfl

end Loops

/-! ## What trim leaves -/

section Trim

variable {S : State} {H : Heap} {h : Handle} {k : Nat}

theorem trimWithLoops_eq (hw : WF H h) (chars : Bytes) :
    trimWithLoops H h chars = trim H h chars := by
  rw [trimWithLoops, trim, hw.read_eq, ok_bind, ok_bind, leadLoop_eq_countLead]
  cases hlead : countLead chars (content H h) with
  | error e => rfl
  | ok cLead =>
    have hcb := hw.cb_lt
    rw [← hw.length_content] at hcb ⊢
    simp only [ok_bind, pure_bind, trailLoop_eq_countTrail chars hcb]

/-- The bytes are cut at both ends, a second call does nothing, and the other handles keep
theirs. -/
def TrimsBothEnds (S : State) (k : Nat) (h : Handle) (chars : Bytes) : Prop :=
  ∃ r, trimWithLoops S.heap h chars = .ok r ∧
    content r.1 r.2 = cutBoth (fun c => c ∈ chars) (content S.heap h) ∧
    trimWithLoops r.1 r.2 chars = .ok r ∧ Isolated S (S.put k r) (some k)

/-- A NUL is the only byte outside the set that `strchr` finds. -/
theorem cutBoth_inSet {chars w : Bytes} (h0 : 0 ∉ w) :
    cutBoth (inSet chars) w = cutBoth (fun c => c ∈ chars) w := by
  apply cutBoth_congr
  intro c hc
  have hne : c ≠ 0 := by
    rintro rfl
    exact h0 hc
  simp [inSet, hne]

theorem countLead_eq {chars w : Bytes} (hlt : w.length < 2 ^ 31) :
    countLead chars w = .ok (leading (inSet chars) w) := if_neg fun hbig => by omega

theorem countTrail_eq {chars w : Bytes} (hle : w.length ≤ 2 ^ 31) :
    countTrail chars w (leading (inSet chars) w) = trailing (inSet chars) w := if_pos hle

/-- Nothing to cut off. -/
theorem trim_of_clean {chars : Bytes} (hw : WF H h) (hlt : h.cb < 2 ^ 31)
    (hlead : leading (inSet chars) (content H h) = 0)
    (htrail : trailing (inSet chars) (content H h) = 0) : trim H h chars = .ok (H, h) := by
  have hlen := hw.length_content
  rw [trim, hw.read_eq, ok_bind, countLead_eq (by omega), ok_bind, countTrail_eq (by omega), hlead,
    htrail]
  rfl

/-- The bytes of a slice. -/
theorem content_slice {a b : Nat} (hend : h.offset + a < 2 ^ 24) (hlt : b - a < 2 ^ 32)
    (hb : b ≤ h.cb) :
    content H { h with cb := u32 (b - a), offset := (h.offset + a) % 2 ^ 24 } =
      ((content H h).take b).drop a := by
  simp only [content]
  rw [Nat.mod_eq_of_lt hend, u32_of_lt hlt, List.take_take, Nat.min_eq_left hb, List.drop_take,
    List.drop_drop]

/-- `trim` cuts off exactly the two ends, in every state that a run reaches. -/
theorem trim_cuts_both_ends [Uninit] (hS : Reach S) (hk : S.handle? k = some h)
    (hbuf : h.buf ≠ .null) (hsize : (memory S.heap h.buf).length ≤ 2 ^ 24)
    (h0 : 0 ∉ content S.heap h) (chars : Bytes) (hr : Ready S (.trim k chars)) :
    TrimsBothEnds S k h chars := by
  obtain ⟨hI, -, -⟩ := hS.inv
  have hw := hI.wf k h hk
  have hlen := hw.length_content
  have hend := hw.end_lt hbuf hsize
  have hlive : S.live + 1 < 2 ^ 32 := hr.1
  have hc := card_rest_lt hk
  obtain ⟨r, htrim, hkeep, hcont, hcut⟩ := trim_cuts hw (hI.owned_split hk) (by omega) chars
    (countLead_eq (by omega))
  rw [countTrail_eq (by omega)] at hcut
  have hlead : leading (inSet chars) (content S.heap h) ≤ (content S.heap h).length :=
    length_lead_le ..
  have hrange := cutBoth_eq_range (inSet chars) (content S.heap h)
  have hcutBoth : content S.heap r.2 = cutBoth (inSet chars) (content S.heap h) := by
    rw [hrange]
    split_ifs at hcut with hzero
    · rw [hcut, (Nat.add_eq_zero_iff.mp hzero).1, (Nat.add_eq_zero_iff.mp hzero).2, Nat.sub_zero,
        List.take_length, List.drop_zero]
    · rw [hcut, content_slice (by omega) (by omega) (Nat.sub_le _ _), hlen]
  have hclean : content r.1 r.2 = cutBoth (inSet chars) (content S.heap h) := hcont.trans hcutBoth
  refine ⟨r, ?_, ?_, ?_, (hI.put hk hkeep).2⟩
  · rw [trimWithLoops_eq hw, htrim]
  · rw [hclean, cutBoth_inSet h0]
  · have hle : (content r.1 r.2).length ≤ (content S.heap h).length := by
      rw [hclean, hrange, List.length_drop, List.length_take]
      omega
    rw [trimWithLoops_eq hkeep.wf]
    apply trim_of_clean hkeep.wf
    · rw [← hkeep.wf.length_content]
      omega
    · rw [hclean, leading_cutBoth]
    · rw [hclean, trailing_cutBoth]

end Trim

/-- A slice with blanks around it, in a shared buffer. -/
theorem trim_cuts_both_ends_slice :
    letI := zeroMemory
    ∃ S h, run .init [.bytes (some [0x61, 0x20, 0x09, 0x62, 0x20, 0x63, 0x0a, 0x64]),
    .substr 0 1 7] = .ok S ∧
      S.handle? 1 = some h ∧ TrimsBothEnds S 1 h [0x20, 0x09, 0x0d, 0x0a] := by
  let _ := zeroMemory
  have hS := Reach.slice [0x61, 0x20, 0x09, 0x62, 0x20, 0x63, 0x0a, 0x64] 1 7 (by decide) rfl
  refine ⟨_, _, rfl, rfl, ?_⟩
  exact trim_cuts_both_ends hS rfl (by nofun) (by decide +kernel) (by decide +kernel)
    [0x20, 0x09, 0x0d, 0x0a]
    ⟨by decide, _, rfl⟩

end StringHeap

end Libacorn
