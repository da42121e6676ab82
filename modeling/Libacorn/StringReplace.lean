import Libacorn.StringJoin

/-!
# replace of base/string.cpp

Every round erases an occurrence and inserts the replacement, and goes on behind
it. The content ends up right as long as the search behind the last occurrence
is one that `findStr` can make, the sizes fit, and the terminator that `erase`
writes falls on no byte of the content (`replace_replaces`).
-/

namespace Libacorn

open Support

namespace StringHeap

/-! ## The source -/

section Source
variable [Uninit]

/-- The loop of `replace`, with at most `fuel` rounds; `none` if they are not enough. -/
def replaceLoop (search replacement : Handle) :
    Nat → Heap → Handle → Nat → Nat → Except Fault (Option ((Heap × Handle) × Bool))
  | 0, _, _, _, _ => .ok none
  | fuel + 1, H, h, start, c =>
    if start < h.cb then do
      let f ← findStr (((startOf H h).getD []).drop start) (toU32 (h.cb - start))
          ((startOf H search).getD [])
        (toI32 search.cb) false
      let start := u32 (start + f)
      if h.cb ≤ start then return some ((H, h), decide (c > 0))
      else
        let pTo := u32 (start + search.cb)
        let (H, h) ← erase H h start pTo
        let (H, h) ← insertString H h start replacement
        -- `c` is an `int`
        if c + 1 < 2 ^ 31 then
          replaceLoop search replacement fuel H h (u32 (start + replacement.cb)) (c + 1)
        else .error .overflow
    else return some ((H, h), decide (c > 0))

def replace (H : Heap) (h search replacement : Handle) (fuel : Nat) :
    Except Fault (Option ((Heap × Handle) × Bool)) :=
  replaceLoop search replacement fuel H h 0 0

end Source

/-! ## What replace should do -/

/-- `w` with `r` in the place of the occurrences of `t` that are found from left to right. -/
def replaced (t r w : Bytes) : Bytes := r.intercalate (gaps t w)

def occurrences (t w : Bytes) : Nat := (gaps t w).length - 1

/-- The content after the first `j` occurrences have been erased, and one less been replaced. -/
def halfReplaced (t r w : Bytes) (j : Nat) : Bytes :=
  r.intercalate ((gaps t w).take j) ++ t.intercalate ((gaps t w).drop j)

section Lists

variable {t r w : Bytes} {i : Nat}

theorem occurrences_of_missing (h : ¬t <:+: w) : occurrences t w = 0 := by
  rw [occurrences, gaps_of_missing h]
  rfl

theorem occurrences_of_firstAt (ht : t ≠ []) (h : FirstAt t w i) :
    occurrences t w = occurrences t (w.drop (i + t.length)) + 1 := by
  have hpos := List.length_pos_iff.mpr (gaps_ne_nil ht (w.drop (i + t.length)))
  rw [occurrences, occurrences, gaps_of_firstAt ht h, List.length_cons]
  omega

theorem replaced_of_missing (h : ¬t <:+: w) : replaced t r w = w := by
  rw [replaced, gaps_of_missing h, List.intercalate_singleton]

theorem replaced_of_firstAt (ht : t ≠ []) (h : FirstAt t w i) :
    replaced t r w = w.take i ++ r ++ replaced t r (w.drop (i + t.length)) := by
  rw [replaced, gaps_of_firstAt ht h, List.intercalate_cons_of_ne_nil (gaps_ne_nil ht _), replaced]

theorem halfReplaced_one (ht : t ≠ []) (h : FirstAt t w i) :
    halfReplaced t r w 1 = w.take i ++ w.drop (i + t.length) := by
  rw [halfReplaced, gaps_of_firstAt ht h, List.take_succ_cons, List.take_zero,
    List.intercalate_singleton, List.drop_succ_cons, List.drop_zero, intercalate_gaps ht]

theorem halfReplaced_succ (ht : t ≠ []) (h : FirstAt t w i) {j : Nat} (hj : 0 < j) :
    halfReplaced t r w (j + 1) = w.take i ++ r ++ halfReplaced t r (w.drop (i + t.length)) j := by
  have hne : (gaps t (w.drop (i + t.length))).take j ≠ [] := by
    rw [ne_eq, List.take_eq_nil_iff]
    rintro (h0 | hnil)
    · omega
    · exact gaps_ne_nil ht _ hnil
  rw [halfReplaced, halfReplaced, gaps_of_firstAt ht h, List.take_succ_cons, List.drop_succ_cons,
    List.intercalate_cons_of_ne_nil hne, List.append_assoc]

end Lists

/-! ## One round -/

section Round

variable [Uninit] {H H' : Heap} {h h' search replacement : Handle} {rest : Multiset Nat}
  {a n o : Nat} {p : Bytes}

/-- What an edit leaves: the handle at its offset, on a buffer of a known size. -/
structure Edited (H : Heap) (h : Handle) (rest : Multiset Nat) (H' : Heap) (h' : Handle) (w : Bytes)
  (size : Nat) :
    Prop where
  keeps : Keeps H rest (H', h')
  content : content H' h' = w
  offset : editOffset H' h' = editOffset H h
  size : preparedSize H' h' = size
  buf : h'.buf ≠ .null

theorem erase_edited (hw : WF H h) (hO : H.Owned (own h + rest)) (hc : rest.card + 1 < 2 ^ 32)
    (hn : 0 < n) (hle : a + n ≤ h.cb)
    (hharmless : Harmless (editOffset H h) (removed (content H h) a (a + n))) :
    ∃ H' h', erase H h a (a + n) = .ok (H', h') ∧
      Edited H h rest H' h' (removed (content H h) a (a + n)) (preparedSize H h - n) := by
  obtain ⟨H', h', i, b, her, hsole, hcb, hz, hsize, H₁, h₁, hprep, hoff, hcont⟩ :=
    erase_spec hw hO hc rfl rfl (show min h.cb (max a (a + n)) - min h.cb (min a (a + n)) ≠
      0 by omega)
  rw [← hw.length_content, removed_clamp, prepareToModify_offset hprep, strayTerminator_eq_iff.mpr
    hharmless] at hcont
  refine ⟨H', h', her, ?_, hcont, ?_, ?_, ?_⟩
  · apply hsole.keeps
    intro _ hlen
    rw [← hlen]
    exact hz
  · rw [hsole.editOffset_eq, hoff, prepareToModify_offset hprep]
  · rw [hsole.preparedSize_eq, hsize]
    omega
  · rw [hsole.buf]
    rintro ⟨⟩

theorem insert_edited (hw : WF H h) (hO : H.Owned (own h + rest)) (hbuf : h.buf ≠ .null)
    (hc : rest.card + 1 < 2 ^ 32) (ho : o ≤ h.cb) (hfit : preparedSize H h + p.length < 2 ^ 32) :
    ∃ H' h', insert H h o p = .ok (H', h') ∧
      Edited H h rest H' h' (inserted (content H h) o p) (preparedSize H h + p.length) := by
  by_cases hp : p = []
  · subst hp
    refine ⟨H, h, ?_, ⟨hw, hO, Frame.refl H rest⟩, ?_, rfl, rfl, hbuf⟩
    · rw [insert, if_pos rfl]
      rfl
    · rw [inserted, List.append_nil, List.take_append_drop]
  · obtain ⟨H', h', i, b, hins, hsole, hb, hterm, hcont, H₁, h₁, hprep, hoff⟩ :=
      insert_spec hw hO hbuf hc ho hp hfit
    refine ⟨H', h', hins, (hsole.built hterm hcont).keeps, hcont, ?_, ?_, ?_⟩
    · rw [hsole.editOffset_eq, hoff, prepareToModify_offset hprep]
    · rw [hsole.preparedSize_eq, hb]
    · rw [hsole.buf]
      rintro ⟨⟩

theorem edit_round (hw : WF H h) (hO : H.Owned (own h + rest)) (hc : rest.card + 1 < 2 ^ 32)
    (hn : 0 < n) (hle : a + n ≤ h.cb)
    (hharmless : Harmless (editOffset H h) (removed (content H h) a (a + n)))
    (hr : WF H replacement) (hown : own replacement ≤ rest) (hlt : replacement.cb < 2 ^ 31)
    (hfit : preparedSize H h - n + replacement.cb < 2 ^ 32) :
    ∃ H₁ h₁ H₂ h₂, erase H h a (a + n) = .ok (H₁, h₁) ∧ insertString H₁ h₁ a replacement =
      .ok (H₂, h₂) ∧
      Edited H h rest H₂ h₂ ((content H h).take a ++ content H replacement ++ (content H h).drop
        (a + n))
        (preparedSize H h - n + replacement.cb) := by
  obtain ⟨H₁, h₁, her, hk₁, hcont₁, hoff₁, hsize₁, hbuf₁⟩ := erase_edited hw hO hc hn hle hharmless
  obtain ⟨hr₁, hrc⟩ := hr.of_frame hown hk₁.frame
  have hlen := hr.length_content
  have hw₁ : WF H₁ h₁ := hk₁.wf
  have htake : ((content H h).take a).length = a := by
    rw [List.length_take, hw.length_content]
    omega
  have hcb₁ : a ≤ h₁.cb := by
    rw [← hw₁.length_content, hcont₁, removed, List.length_append, Nat.min_eq_left (by omega),
      htake]
    exact Nat.le_add_right _ _
  obtain ⟨H₂, h₂, hins, hk₂, hcont₂, hoff₂, hsize₂, hbuf₂⟩ :=
    insert_edited hw₁ hk₁.owned hbuf₁ hc hcb₁
    (show preparedSize H₁ h₁ + (content H replacement).length < 2 ^ 32 by omega)
  refine ⟨H₁, h₁, H₂, h₂, her, ?_, ⟨hk₂.wf, hk₂.owned, hk₁.frame.trans hk₂.frame⟩, ?_,
    hoff₂.trans hoff₁, ?_, hbuf₂⟩
  · rw [insertString_eq hr₁ hlt, hrc]
    exact hins
  · rw [hcont₂, hcont₁, inserted, removed, Nat.min_eq_left (by omega), Nat.max_eq_right (by omega),
      List.take_left' htake, List.drop_left' htake]
  · rw [hsize₂, hsize₁, hlen]

end Round

/-! ## The loop -/

section Loop

variable {H : Heap} {h search replacement : Handle} {rest : Multiset Nat} {t r w before : Bytes}
  {c i : Nat}

theorem WF.preparedSize_bounds (hw : WF H h) :
    h.cb ≤ preparedSize H h ∧ preparedSize H h < 2 ^ 32 := by
  have hcb := hw.cb_lt
  cases hw with
  | null hb =>
    have hsize : preparedSize H h = h.cb := by simp [preparedSize, hb]
    omega
  | lit hb ht =>
    have hsize : preparedSize H h = h.cb := by simp [preparedSize, ht]
    omega
  | @heap i b hb ht hget hle =>
    obtain ⟨cell, hcell, rfl⟩ := Option.map_eq_some_iff.mp hget
    have hlt := cell.data.lt
    simp only [preparedSize, ht, hb, hcell]
    split_ifs
    · omega
    · omega

theorem size_step {size k m n : Nat} (hall : size + (k + 1) * m < 2 ^ 32 + (k + 1) * n)
    (hlt : size < 2 ^ 32) (hn : n ≤ size) :
    size - n + m < 2 ^ 32 ∧ size - n + m + k * m < 2 ^ 32 + k * n := by
  rw [Nat.succ_mul, Nat.succ_mul] at hall
  constructor
  · by_cases hle : m ≤ n
    · omega
    · have hmul : k * n ≤ k * m := Nat.mul_le_mul_left k (by omega)
      omega
  · omega

variable [Uninit]

omit [Uninit] in
theorem findStr_round (hsearch : content H search = t) (hs : WF H search) (ht : t ≠ [])
    (h31 : search.cb < 2 ^ 31) (hw : WF H h) (hcontent : content H h = before ++ w)
    (hi : FirstAt t w i) :
    findStr (((startOf H h).getD []).drop before.length) (h.cb - before.length)
      ((startOf H search).getD []) (toI32 search.cb) false = .ok i := by
  have hend := hi.occurs.add_le ht
  have hpos := List.length_pos_iff.mpr ht
  have hcblt := hw.cb_lt
  have hB := hw.cb_le_start
  have htlen : search.cb = t.length := by
    rw [← hs.length_content, hsearch]
  have hcb : h.cb = before.length + w.length := by
    rw [← hw.length_content, hcontent, List.length_append]
  have hdrop : (before ++ w).drop before.length = w := List.drop_left
  rw [toI32_of_lt h31, findStr_fits (by omega) h31 hs.cb_le_start (by omega)
    (by rw [List.length_drop]; omega)
    (by omega), ← content_eq_take, hsearch, ← List.drop_take, ← content_eq_take, hcontent, hdrop,
    first?_eq_some.mpr hi, Option.getD_some]

/-- A round that finds the text: the next one starts behind the replacement. -/
theorem replaceLoop_round (hsearch : content H search = t) (hs : WF H search) (ht : t ≠ [])
    (h31 : search.cb < 2 ^ 31) (hrep : content H replacement = r) (hr : WF H replacement)
    (hrown : own replacement ≤ rest) (hr31 : replacement.cb < 2 ^ 31) (hc : rest.card + 1 < 2 ^ 32)
    (hw : WF H h) (hO : H.Owned (own h + rest)) (hcontent : content H h = before ++ w)
    (hi : FirstAt t w i) (hharmless : Harmless (editOffset H h) (before ++ halfReplaced t r w 1))
    (hfit : preparedSize H h - t.length + r.length < 2 ^ 32) (hcount : c + 1 < 2 ^ 31) :
    ∃ H₂ h₂, Edited H h rest H₂ h₂ ((before ++ w.take i ++ r) ++ w.drop (i + t.length))
        (preparedSize H h - t.length + r.length) ∧
      ∀ fuel, replaceLoop search replacement (fuel + 1) H h before.length c =
        replaceLoop search replacement fuel H₂ h₂ (before ++ w.take i ++ r).length (c + 1) := by
  have hend := hi.occurs.add_le ht
  have htlen : search.cb = t.length := by
    rw [← hs.length_content, hsearch]
  have hrlen : replacement.cb = r.length := by
    rw [← hr.length_content, hrep]
  have hcb : h.cb = before.length + w.length := by
    rw [← hw.length_content, hcontent, List.length_append]
  have hpos := List.length_pos_iff.mpr ht
  have hcblt := hw.cb_lt
  have hone : removed (content H h) (before.length + i) (before.length + i + t.length) =
      before ++ halfReplaced t r w 1 := by
    rw [halfReplaced_one ht hi, hcontent, removed, Nat.min_eq_left (by omega),
      Nat.max_eq_right (by omega), List.take_length_add_append, Nat.add_assoc,
      List.drop_length_add_append, List.append_assoc]
  obtain ⟨H₁, h₁, H₂, h₂, her, hins, hed⟩ := edit_round hw hO hc hpos
    (show before.length + i + t.length ≤ h.cb by omega) (by rw [hone]; exact hharmless) hr hrown
      hr31
    (by rw [hrlen]; exact hfit)
  rw [hcontent, hrep, List.take_length_add_append, Nat.add_assoc, List.drop_length_add_append,
    hrlen] at hed
  have hw₂ : WF H₂ h₂ := hed.keeps.wf
  have hlen : (before ++ w.take i ++ r).length = before.length + i + r.length := by
    rw [List.length_append, List.length_append, List.length_take, Nat.min_eq_left (by omega)]
  have hnew : before.length + i + r.length ≤ h₂.cb := by
    rw [← hw₂.length_content, hed.content, List.length_append, hlen]
    exact Nat.le_add_right _ _
  have hnewlt := hw₂.cb_lt
  refine ⟨H₂, h₂, hed, ?_⟩
  intro fuel
  rw [replaceLoop, if_pos (by omega), toU32_sub (by omega) hcblt, findStr_round hsearch hs ht h31 hw
    hcontent hi, ok_bind, u32_of_lt (show before.length + i < 2 ^ 32 by omega)]
  simp only
  rw [if_neg (by omega), u32_of_lt (show before.length + i + search.cb < 2 ^ 32 by omega), htlen,
    her, ok_bind]
  simp only
  rw [hins, ok_bind]
  simp only
  rw [if_pos (by omega), u32_of_lt (by omega), hrlen, ← hlen]

/-- The rounds that find the text: with `before` in front, they replace the occurrences in `w`. -/
theorem replaceLoop_rounds (hsearch : content H search = t) (hs : WF H search)
    (hsown : own search ≤ rest) (hrep : content H replacement = r) (hr : WF H replacement)
    (hrown : own replacement ≤ rest) (ht : t ≠ []) (h31 : search.cb < 2 ^ 31)
    (hr31 : t <:+: w → replacement.cb < 2 ^ 31) (hc : rest.card + 1 < 2 ^ 32) (hw : WF H h)
    (hO : H.Owned (own h + rest)) (hcontent : content H h = before ++ w)
    (hharmless : ∀ j, 0 < j → j ≤ occurrences t w →
      Harmless (editOffset H h) (before ++ halfReplaced t r w j))
    (hfits : preparedSize H h + occurrences t w * r.length < 2 ^ 32 + occurrences t w * t.length)
    (hcount : c + occurrences t w < 2 ^ 31) :
    ∃ k H' h' start, Keeps H rest (H', h') ∧ content H' h' = before ++ replaced t r w ∧
      start ≤ h'.cb ∧
      (content H' h').drop start = lastGap t w ∧
        (¬t <:+: w → H' = H ∧ h' = h ∧ start = before.length) ∧
      ∀ fuel, replaceLoop search replacement (fuel + k) H h before.length c =
        replaceLoop search replacement fuel H' h' start (c + occurrences t w) := by
  induction w using gaps_induction ht generalizing H h before c with
  | last w hout =>
    refine ⟨0, H, h, before.length, ⟨hw, hO, Frame.refl H rest⟩, ?_, ?_, ?_, fun _ =>
      ⟨rfl, rfl, rfl⟩, ?_⟩
    · rw [replaced_of_missing hout, hcontent]
    · rw [← hw.length_content, hcontent, List.length_append]
      exact Nat.le_add_right _ _
    · rw [hcontent, List.drop_left, lastGap_of_missing hout]
    · intro fuel
      rw [occurrences_of_missing hout]
      rfl
  | next w i hi ih =>
    have htlen : search.cb = t.length := by
      rw [← hs.length_content, hsearch]
    have hcb : h.cb = before.length + w.length := by
      rw [← hw.length_content, hcontent, List.length_append]
    have hend := hi.occurs.add_le ht
    obtain ⟨hsize, hsizelt⟩ := hw.preparedSize_bounds
    have hocc := occurrences_of_firstAt ht hi
    rw [hocc] at hfits hcount
    obtain ⟨hfit, hfits₂⟩ := size_step hfits hsizelt (by omega)
    obtain ⟨H₂, h₂, ⟨hk, hcont, hoff₂, hsize₂, -⟩, hround⟩ :=
      replaceLoop_round hsearch hs ht h31 hrep hr hrown
      (hr31 hi.isInfix) hc hw hO hcontent hi (hharmless 1 Nat.one_pos (by omega)) hfit
        (show c + 1 < 2 ^ 31 by omega)
    obtain ⟨hs₂, hsc⟩ := hs.of_frame hsown hk.frame
    obtain ⟨hr₂, hrc⟩ := hr.of_frame hrown hk.frame
    have hharmless₂ : ∀ j, 0 < j → j ≤ occurrences t (w.drop (i + t.length)) →
        Harmless (editOffset H₂ h₂)
        (before ++ w.take i ++ r ++ halfReplaced t r (w.drop (i + t.length)) j) := by
      intro j hj hle
      have hnext := hharmless (j + 1) (Nat.succ_pos j) (by omega)
      rw [halfReplaced_succ ht hi hj, ← List.append_assoc, ← List.append_assoc, ← hoff₂] at hnext
      exact hnext
    obtain ⟨k, H', h', start, hk', hres, hstart, hgap, -, hrun⟩ :=
      ih (hsc.trans hsearch) hs₂ (hrc.trans hrep) hr₂
      (fun _ => hr31 hi.isInfix) hk.wf hk.owned hcont hharmless₂ (by rw [hsize₂]; exact hfits₂)
      (show c + 1 + _ < 2 ^ 31 by omega)
    refine ⟨k + 1, H', h', start, ⟨hk'.wf, hk'.owned, hk.frame.trans hk'.frame⟩, ?_, hstart, ?_, ?_,
      ?_⟩
    · rw [hres, replaced_of_firstAt ht hi]
      simp only [List.append_assoc]
    · rw [hgap, lastGap_of_firstAt ht hi]
    · exact fun hout => absurd hi.isInfix hout
    · intro fuel
      rw [← Nat.add_assoc, hround, hrun, hocc, Nat.add_assoc, Nat.add_comm 1]

end Loop

/-! ## Replacing -/

/-- The content is the replaced one, the result says whether there was an occurrence, and no other
handle changes. -/
def Replaces [Uninit] (S : State) (k : Nat) (h search replacement : Handle) : Prop :=
  ∃ fuel H' h' b, replace S.heap h search replacement fuel = .ok (some ((H', h'), b)) ∧
    content H' h' = replaced (content S.heap search) (content S.heap replacement)
      (content S.heap h) ∧
    (b = true ↔ content S.heap search <:+: content S.heap h) ∧
      Isolated S (S.put k (H', h')) (some k)

/-- No step of `replace` goes wrong. -/
structure Replaceable (H : Heap) (h search replacement : Handle) : Prop where
  /-- what is left behind the last occurrence is searched without a match -/
  tail : search.cb < 2 ^ 31 → lastGap (content H search) (content H h) = [] ∨
    search.cb ≤ (lastGap (content H search) (content H h)).length + 1 ∨
    (¬content H search <:+: content H h ∧ QuietTail (content H search) ((startOf H h).getD []) h.cb)
  /-- a text of `2^31` bytes or more has a negative length -/
  huge : 2 ^ 31 ≤ search.cb → 0 < h.cb →
    toU32 ((h.cb : Int) - search.cb + 1) ≤ ((startOf H h).getD []).length ∧
      HeadAbsent (content H search) ((startOf H h).getD []) (toU32 ((h.cb : Int) - search.cb + 1))
  short : content H search <:+: content H h → replacement.cb < 2 ^ 31
  /-- the terminators of `erase` fall on no byte of the content -/
  harmless : ∀ j, 0 < j → j ≤ occurrences (content H search) (content H h) →
    Harmless (editOffset H h) (halfReplaced (content H search) (content H replacement) (content H h)
      j)
  fits : preparedSize H h + occurrences (content H search) (content H h) * replacement.cb <
    2 ^ 32 + occurrences (content H search) (content H h) * search.cb
  count : occurrences (content H search) (content H h) < 2 ^ 31

section Main

variable [Uninit] {S : State} {H H' : Heap} {h h' search replacement : Handle} {rest : Multiset Nat}
  {w : Bytes}
  {start c f : Nat}

omit [Uninit] in
theorem occurrences_pos_iff {t w : Bytes} (ht : t ≠ []) : 0 < occurrences t w ↔ t <:+: w := by
  by_cases hin : t <:+: w
  · obtain ⟨i, hi⟩ := exists_firstAt hin
    rw [occurrences_of_firstAt ht hi]
    exact iff_of_true (Nat.succ_pos _) hin
  · rw [occurrences_of_missing hin]
    exact iff_of_false (Nat.lt_irrefl 0) hin

theorem replaceLoop_true {fuel : Nat} {r : Heap × Handle} {b : Bool} (hc : 0 < c)
    (hr : replaceLoop search replacement fuel H h start c = .ok (some (r, b))) : b = true := by
  induction fuel generalizing H h start c with
  | zero => cases hr
  | succ fuel ih =>
    rw [replaceLoop] at hr
    by_cases hlt : start < h.cb
    · rw [if_pos hlt] at hr
      obtain ⟨f, -, hr⟩ := bind_eq_ok hr
      simp only at hr
      by_cases hend : h.cb ≤ u32 (start + f)
      · rw [if_pos hend] at hr
        obtain ⟨-, rfl⟩ := Prod.mk.inj (Option.some.inj (Except.ok.inj hr))
        exact decide_eq_true hc
      · rw [if_neg hend] at hr
        obtain ⟨⟨H₁, h₁⟩, -, hr⟩ := bind_eq_ok hr
        obtain ⟨⟨H₂, h₂⟩, -, hr⟩ := bind_eq_ok hr
        simp only at hr
        split_ifs at hr
        exact ih (Nat.succ_pos c) hr
    · rw [if_neg hlt] at hr
      obtain ⟨-, rfl⟩ := Prod.mk.inj (Option.some.inj (Except.ok.inj hr))
      exact decide_eq_true hc

theorem replaceLoop_ends (hcb : h.cb < 2 ^ 32) (hstart : start ≤ h.cb)

    (hf : start < h.cb → ∃ f, findStr (((startOf H h).getD []).drop start) (h.cb - start)
      ((startOf H search).getD []) (toI32 search.cb) false = .ok f ∧ h.cb - start ≤ f ∧
        start + f < 2 ^ 32) :
    replaceLoop search replacement 1 H h start c = .ok (some ((H, h), decide (c > 0))) := by
  rw [replaceLoop]
  by_cases hlt : start < h.cb
  · obtain ⟨f, hf, hle, hsum⟩ := hf hlt
    rw [if_pos hlt, toU32_sub hstart hcb, hf, ok_bind, u32_of_lt hsum]
    simp only
    rw [if_pos (by omega)]
    rfl
  · rw [if_neg hlt]
    rfl

theorem replaceLoop_of_replaceable (hw : WF H h) (hO : H.Owned (own h + rest))
    (hc : rest.card + 1 < 2 ^ 32) (hs : WF H search) (hsown : own search ≤ rest)
    (hr : WF H replacement) (hrown : own replacement ≤ rest) (hne : content H search ≠ [])
    (hrep : Replaceable H h search replacement) (h31 : search.cb < 2 ^ 31) :
    ∃ fuel H' h', Keeps H rest (H', h') ∧
      content H' h' = replaced (content H search) (content H replacement) (content H h) ∧
      replace H h search replacement fuel =
        .ok (some ((H', h'), decide (occurrences (content H search) (content H h) > 0))) := by
  have hslen := hs.length_content
  have hrlen := hr.length_content
  have hpos := List.length_pos_iff.mpr hne
  have hfits := hrep.fits
  rw [← hslen, ← hrlen] at hfits
  have hharmless := hrep.harmless
  have hcount := hrep.count
  obtain ⟨k, H', h', start, hkeep, hcont, hstart, hgap, hsame, hrun⟩ :=
    replaceLoop_rounds rfl hs hsown rfl hr
    hrown hne h31 hrep.short hc hw hO (show content H h = [] ++ content H h from rfl) hharmless
      hfits
    (show 0 + _ < 2 ^ 31 by omega)
  rw [List.nil_append] at hcont
  rw [List.length_nil, Nat.zero_add] at hrun
  rw [List.length_nil] at hsame
  have hw' : WF H' h' := hkeep.wf
  obtain ⟨hs', hsc⟩ := hs.of_frame hsown hkeep.frame
  have hB := hw'.cb_le_start
  have hB' := hw'.length_start_le
  have hcb := hw'.cb_lt
  refine ⟨1 + k, H', h', hkeep, hcont, ?_⟩
  have hends : replaceLoop search replacement 1 H' h' start
      (occurrences (content H search) (content H h)) =
      .ok (some ((H', h'), decide (occurrences (content H search) (content H h) > 0))) := by
    apply replaceLoop_ends hcb hstart
    intro hlt
    have hlen : (lastGap (content H search) (content H h)).length = h'.cb - start := by
      rw [← hgap, List.length_drop, hw'.length_content]
    rcases hrep.tail h31 with hnil | hfit | ⟨hmiss, hquiet⟩
    · rw [hnil, List.length_nil] at hlen
      omega
    · refine ⟨h'.cb - start, ?_, Nat.le_refl _, by omega⟩
      rw [toI32_of_lt h31, findStr_fits (by omega) h31 hs'.cb_le_start (by omega)
        (by rw [List.length_drop]; omega)
        (by omega), ← content_eq_take, hsc, ← List.drop_take, ← content_eq_take, hgap,
        first?_eq_none.mpr (not_infix_lastGap hne _), Option.getD_none]
    · obtain ⟨rfl, rfl, rfl⟩ := hsame hmiss
      rw [List.drop_zero, toI32_of_lt h31]
      obtain ⟨f, hf, hle⟩ := (findStr_quiet_iff (by omega) h31 hs.cb_le_start hB hB' hcb
        (by rw [← content_eq_take, ← content_eq_take]; exact hmiss)).mpr
          (by rw [← content_eq_take]; exact hquiet)
      refine ⟨f, hf, hle, ?_⟩
      rcases findStr_finds (by omega) h31 hs.cb_le_start hf with rfl | hfirst
      · omega
      · have hend := hfirst.occurs.add_le (by rw [← content_eq_take]; exact hne)
        rw [← content_eq_take] at hend
        omega
  rw [replace, hrun]
  exact hends

/-- A text with a negative length is not found. -/
theorem replaceLoop_of_huge (hw : WF H h) (hs : WF H search)
    (hrep : Replaceable H h search replacement) (h31 : 2 ^ 31 ≤ search.cb) :
    ¬content H search <:+: content H h ∧ replace H h search replacement 1 =
      .ok (some ((H, h), false)) := by
  have hcb := hw.cb_lt
  have hscb := hs.cb_lt
  have hB := hw.cb_le_start
  have hB' := hw.length_start_le
  have hslen := hs.length_content
  have hsearch := content_eq_take H search
  have hhead := headAbsent_start (show 0 < search.cb by omega) (H := H)
  by_cases h0 : 0 < h.cb
  · obtain ⟨hread, habs⟩ := hrep.huge h31 h0
    rw [← hhead] at habs
    constructor
    · rw [hsearch, content_eq_take H h]
      exact habs.not_infix_range (by omega) hscb hs.cb_le_start hB hcb
    · apply replaceLoop_ends hcb (Nat.zero_le _)
      intro _
      rw [List.drop_zero]
      exact ⟨h.cb, (findStr_negative h31 hscb hs.cb_le_start hB').mpr ⟨rfl, hread, habs⟩,
        Nat.le_refl _, by omega⟩
  · constructor
    · intro hin
      have hle := hin.length_le
      rw [hslen, hw.length_content] at hle
      omega
    · exact replaceLoop_ends hcb (Nat.zero_le _) fun h => absurd h h0

/-- Where there is nothing to replace, the searches are made. -/
theorem replaceable_of_missing (hw : WF H h) (hs : WF H search) (hne : content H search ≠ [])
    (hmiss : ¬content H search <:+: content H h) {fuel : Nat} {r : Heap × Handle}
    (hrun : replace H h search replacement fuel = .ok (some (r, false))) :
    Replaceable H h search replacement := by
  have hcb := hw.cb_lt
  have hscb := hs.cb_lt
  have hB := hw.cb_le_start
  have hB' := hw.length_start_le
  have hslen := hs.length_content
  have hpos := List.length_pos_iff.mpr hne
  have hnone := occurrences_of_missing hmiss
  have hfound : 0 < h.cb → ∃ f, findStr ((startOf H h).getD []) h.cb ((startOf H search).getD [])
      (toI32 search.cb) false = .ok f ∧ h.cb ≤ u32 f := by
    intro h0
    cases fuel with
    | zero => cases hrun
    | succ fuel =>
      rw [replace, replaceLoop, if_pos h0] at hrun
      obtain ⟨f, hf, hrun⟩ := bind_eq_ok hrun
      rw [List.drop_zero, toU32_sub (Nat.zero_le _) hcb, Nat.sub_zero] at hf
      simp only [Nat.zero_add] at hrun
      refine ⟨f, hf, ?_⟩
      by_contra hlt
      rw [if_neg hlt] at hrun
      obtain ⟨⟨H₁, h₁⟩, -, hrun⟩ := bind_eq_ok hrun
      obtain ⟨⟨H₂, h₂⟩, -, hrun⟩ := bind_eq_ok hrun
      simp only at hrun
      split_ifs at hrun
      cases replaceLoop_true Nat.one_pos hrun
  refine ⟨?_, ?_, fun hin => absurd hin hmiss, ?_, ?_, ?_⟩
  · intro h31
    rw [lastGap_of_missing hmiss]
    by_cases h0 : 0 < h.cb
    · obtain ⟨f, hf, hle⟩ := hfound h0
      rw [toI32_of_lt h31] at hf
      refine .inr (.inr ⟨hmiss, ?_⟩)
      have hquiet := findStr_quiet_iff (by omega) h31 hs.cb_le_start hB hB' hcb
        (show ¬((startOf H search).getD []).take search.cb <:+: ((startOf H h).getD []).take h.cb by
          rw [← content_eq_take, ← content_eq_take]; exact hmiss)
      rw [← content_eq_take] at hquiet
      exact hquiet.mp ⟨f, hf, Nat.le_trans hle (Nat.mod_le _ _)⟩
    · left
      exact List.eq_nil_of_length_eq_zero (by rw [hw.length_content]; omega)
  · intro h31 h0
    obtain ⟨f, hf, -⟩ := hfound h0
    obtain ⟨-, hread, habs⟩ := (findStr_negative h31 hscb hs.cb_le_start hB').mp hf
    exact ⟨hread, (headAbsent_start (by omega) _ _).mp habs⟩
  · intro j hj hle
    omega
  · rw [hnone, Nat.zero_mul, Nat.zero_mul]
    exact hw.preparedSize_bounds.2
  · omega

/-- Where no step of `replace` goes wrong, it replaces; and where there is nothing to replace, it
leaves the string alone only then. -/
theorem replace_replaces {k q p : Nat} (hS : Reach S) (hk : S.handle? k = some h)
    (hq : S.handle? q = some search) (hkq : k ≠ q) (hp : S.handle? p = some replacement)
    (hkp : k ≠ p) (hne : content S.heap search ≠ []) :
    (Replaceable S.heap h search replacement → Replaces S k h search replacement) ∧
      (¬content S.heap search <:+: content S.heap h → Replaces S k h search replacement →
        Replaceable S.heap h search replacement) := by
  obtain ⟨hI, -, hlive⟩ := hS.inv
  have hc := card_rest_lt hk
  have hw := hI.wf k h hk
  have hs := hI.wf q search hq
  constructor
  · intro hrep
    by_cases h31 : search.cb < 2 ^ 31
    · obtain ⟨fuel, H', h', hkeep, hcont, hrun⟩ :=
        replaceLoop_of_replaceable hw (hI.owned_split hk) (by omega) hs
        (own_le_rest hkq hq) (hI.wf p replacement hp) (own_le_rest hkp hp) hne hrep h31
      refine ⟨fuel, H', h', _, hrun, hcont, ?_, (hI.put hk hkeep).2⟩
      rw [decide_eq_true_eq]
      exact occurrences_pos_iff hne
    · obtain ⟨hmiss, hrun⟩ := replaceLoop_of_huge hw hs hrep (by omega)
      refine ⟨1, S.heap, h, false, hrun, (replaced_of_missing hmiss).symm, iff_of_false nofun hmiss,
        ?_⟩
      exact (hI.put hk ⟨hw, hI.owned_split hk, Frame.refl _ _⟩).2
  · rintro hmiss ⟨fuel, H', h', b, hrun, -, hb, -⟩
    have hfalse : b = false := by
      rw [Bool.eq_false_iff]
      exact fun htrue => hmiss (hb.mp htrue)
    rw [hfalse] at hrun
    exact replaceable_of_missing hw hs hne hmiss hrun

end Main

/-- The replacement contains the text, and one occurrence is at the end. -/
theorem replace_replaces_longer :
    letI := zeroMemory
    ∃ S h q p, run .init [.bytes (some [0x61, 0x62, 0x61, 0x62]), .literal [0x62],
    .literal [0x62, 0x62]] = .ok S ∧
      S.handle? 0 = some h ∧ S.handle? 1 = some q ∧ S.handle? 2 = some p ∧ Replaces S 0 h q p := by
  let _ := zeroMemory
  have hS₁ := Reach.bytes [0x61, 0x62, 0x61, 0x62] (by decide) rfl
  have hS₂ := Reach.step (.literal [0x62]) hS₁ trivial ⟨by decide, by decide⟩ trivial rfl
  have hS₃ := Reach.step (.literal [0x62, 0x62]) hS₂ trivial ⟨by decide, by decide⟩ trivial rfl
  refine ⟨_, _, _, _, rfl, rfl, rfl, rfl, ?_⟩
  apply (replace_replaces hS₃ (k := 0) (q := 1) (p := 2) rfl rfl (by decide) rfl (by decide)
    nofun).1
  refine ⟨fun _ => .inl ?_, fun hbig => absurd hbig (by decide), fun _ => by decide, ?_, ?_, ?_⟩
  · decide +kernel
  · intro j _ _ h0
    exact absurd h0 (by decide)
  · decide +kernel
  · decide +kernel

/-- A text that is two bytes longer than the string: the search runs out of the block. -/
theorem replace_replaces_fails :
    letI := zeroMemory
    ∃ S h q p, run .init [.literal [0x61], .literal [0x62, 0x63, 0x64], .empty] = .ok S ∧ Reach S ∧
      S.handle? 0 = some h ∧ S.handle? 1 = some q ∧ S.handle? 2 = some p ∧ ¬Replaces S 0 h q p := by
  let _ := zeroMemory
  have hS₁ := Reach.step (.literal [0x61]) .init trivial ⟨by decide, by decide⟩ trivial rfl
  have hS₂ := Reach.step (.literal [0x62, 0x63, 0x64]) hS₁ trivial ⟨by decide, by decide⟩ trivial
      rfl
  have hS₃ := Reach.step .empty hS₂ trivial ⟨by decide, trivial⟩ trivial rfl
  refine ⟨_, _, _, _, rfl, hS₃, rfl, rfl, rfl, ?_⟩
  have hI := hS₃.inv.1
  rintro ⟨fuel, H', h', b, hrun, -, hb, -⟩
  have hmiss : ¬[0x62, 0x63, 0x64] <:+: ([0x61] : Bytes) := by decide
  have hfalse : b = false := by
    rw [Bool.eq_false_iff]
    exact fun htrue => hmiss (hb.mp htrue)
  rw [hfalse] at hrun
  have hrep := replaceable_of_missing (hI.wf 0 _ rfl) (hI.wf 1 _ rfl) nofun hmiss hrun
  have hgap : lastGap [0x62, 0x63, 0x64] [0x61] = ([0x61] : Bytes) := lastGap_of_missing hmiss
  rcases hrep.tail (by decide) with hnil | hfit | ⟨-, hfit | ⟨m, -, hfirst⟩ | ⟨-, hread, -⟩⟩
  · cases hgap.symm.trans hnil
  · have hlen := congrArg List.length hgap
    exact absurd (hfit.trans_eq (congrArg (· + 1) hlen)) (by decide)
  · exact absurd hfit (by decide)
  · have hle := hfirst.occurs.add_le nofun
    exact absurd (Nat.le_trans (Nat.le_add_left 3 m) hle) (by decide)
  · exact absurd hread (by decide)

end StringHeap

end Libacorn
