import Libacorn.FindStr

/-!
# find and contains of base/string.cpp

`find` returns the first occurrence, and reads nothing but the content, exactly
when the string has a buffer, the text does not start with a NUL, and is at most
one byte longer than what is searched (`find_first_iff`). A text of `2^31` bytes
or more has a negative length there, and is cut at its first NUL.
-/

namespace Libacorn

open Support

namespace StringHeap

/-! ## The source -/

/-- The bytes that can be read from `start()` on; none through a null pointer. -/
def startOf (H : Heap) (h : Handle) : Option Bytes :=
  if h.buf = .null then none else some ((memory H h.buf).drop h.offset)

def strlen (p : Bytes) : Except Fault Nat :=
  match p.idxOf? 0 with
  | some n => .ok n
  | none => .error .bounds

/-- `!szTextToFind || !szTextToFind[0] || !_buf` -/
def nothingToFind (szTextToFind buf : Option Bytes) : Except Fault Bool :=
  match szTextToFind with
  | none => .ok true
  | some [] => .error .bounds
  | some (ch :: _) => .ok (ch = 0 ∨ buf = none)

/-- `if (szTextLen<0) szTextLen = strlen(szTextToFind)` -/
def textLength (szTextToFind : Bytes) (szTextLen : Int) : Except Fault Int := do
  if szTextLen < 0 then
    let n ← strlen szTextToFind
    return toI32 n
  else return szTextLen

/-- `string::find(const char*, int32_t, uint32_t)`, where `buf` is what can be read from `start()`
on. -/
def findChars (buf : Option Bytes) (cb : Nat) (szTextToFind : Option Bytes) (szTextLen : Int)
    (fromOffset : Nat) : Except Fault Nat := do
  if ← nothingToFind szTextToFind buf then return 0xFFFFFFFF
  else
    let buf := buf.getD []
    let text := szTextToFind.getD []
    let szTextLen ← textLength text szTextLen
    let f ← findStr (buf.drop fromOffset) (toU32 (cb - fromOffset)) text szTextLen false
    return u32 (fromOffset + f)

/-- `string::find(const string&, uint32_t)` -/
def find (H : Heap) (h textToFind : Handle) (fromOffset : Nat) : Except Fault Nat :=
  findChars (startOf H h) h.cb (startOf H textToFind) (toI32 textToFind.cb) fromOffset

def contains (H : Heap) (h str : Handle) : Except Fault Bool := do
  let o ← find H h str 0
  return o < h.cb

/-! ## The text that is searched for -/

/-- What `find` and `findLast` look for: a text whose length does not fit in `int32_t` is cut at
its first NUL. -/
def needle (H : Heap) (q : Handle) : Bytes :=
  if q.cb < 2 ^ 31 then content H q else ((startOf H q).getD []).takeWhile (· ≠ 0)

/-- `strlen` finds a NUL, where it is called. -/
def Measured (H : Heap) (q : Handle) : Prop := 2 ^ 31 ≤ q.cb → 0 ∈ (startOf H q).getD []

theorem strlen_eq_ok {p : Bytes} {n : Nat} :
    strlen p = .ok n ↔ 0 ∈ p ∧ n = (p.takeWhile (· ≠ 0)).length := by
  induction p generalizing n with
  | nil => exact iff_of_false nofun fun h => absurd h.1 (List.not_mem_nil)
  | cons b p ih =>
    rw [strlen, List.idxOf?_cons]
    by_cases hb : b = 0
    · subst hb
      simp [eq_comm]
    · have hne : (b == 0) = false := by simpa using hb
      have h0 : (0 : UInt8) ≠ b := Ne.symm hb
      simp only [hne, Bool.false_eq_true, ↓reduceIte, List.mem_cons, h0, false_or]
      rw [List.takeWhile_cons_of_pos (by simpa using hb), List.length_cons]
      cases hidx : p.idxOf? 0 with
      | none =>
        have hout : (0 : UInt8) ∉ p := List.idxOf?_eq_none_iff.mp hidx
        exact iff_of_false nofun fun h => hout h.1
      | some m =>
        have hm : strlen p = .ok m := by
          rw [strlen, hidx]
        obtain ⟨hin, hlen⟩ := ih.mp hm
        simp only [Option.map_some, hin, true_and, ← hlen, Except.ok.injEq]
        exact eq_comm

section Needle

variable {H : Heap} {q h : Handle}

theorem startOf_eq (hbuf : h.buf ≠ .null) : startOf H h = some ((memory H h.buf).drop h.offset) :=
  if_neg hbuf

theorem content_eq_take (H : Heap) (h : Handle) :
    content H h = ((startOf H h).getD []).take h.cb := by
  rw [startOf]
  split_ifs with hbuf
  · rw [content, hbuf]
    simp [memory]
  · rfl

theorem WF.cb_le_start (hw : WF H h) : h.cb ≤ ((startOf H h).getD []).length := by
  have hlen := hw.length_content
  rw [content_eq_take, List.length_take] at hlen
  omega

theorem WF.length_start_le (hw : WF H h) : ((startOf H h).getD []).length ≤ 2 ^ 32 := by
  rw [startOf]
  split_ifs with hbuf
  · exact Nat.zero_le _
  · rw [Option.getD_some, List.length_drop]
    cases hw with
    | null hb => exact absurd hb hbuf
    | lit hb ht hle hm =>
      simp only [memory, hb, List.length_append, List.length_singleton]
      omega
    | @heap i b hb ht hget hle hz =>
      have hs := b.size
      have hlt := b.lt
      simp only [memory, hb, hget, Option.map_some, Option.getD_some]
      omega

theorem WF.start_bounds (hw : WF H h) {B : Bytes} (hb : startOf H h = some B) :
    h.cb ≤ B.length ∧ B.length ≤ 2 ^ 32 := by
  have hle := hw.cb_le_start
  have hle' := hw.length_start_le
  rw [hb] at hle hle'
  exact ⟨hle, hle'⟩

/-- A text with a byte has a buffer, whose first byte is the text's. -/
theorem start_of_head {ch : UInt8} (hch : (content H q).head? = some ch) :
    ∃ rest, startOf H q = some (ch :: rest) := by
  rw [content_eq_take] at hch
  cases hs : startOf H q with
  | none =>
    rw [hs] at hch
    simp at hch
  | some T =>
    rw [hs, Option.getD_some] at hch
    cases T with
    | nil => simp at hch
    | cons b rest =>
      have hpos : 0 < q.cb := by
        by_contra h0
        rw [Nat.eq_zero_of_not_pos h0] at hch
        cases hch
      rw [List.take_cons hpos, List.head?_cons] at hch
      obtain rfl := Option.some.inj hch
      exact ⟨rest, rfl⟩

/-- The text starts as what can be read from it on. -/
theorem headAbsent_start (hpos : 0 < q.cb) (w : Bytes) (n : Nat) :
    HeadAbsent ((startOf H q).getD []) w n ↔ HeadAbsent (content H q) w n := by
  rw [HeadAbsent, HeadAbsent, content_eq_take, List.head?_take, if_neg (by omega)]

/-- The length that the search uses is that of the needle, which is what the block starts with. -/
theorem WF.textLength_eq (hq : WF H q) {T : Bytes} (hs : startOf H q = some T) (len : Int) :
    textLength T (toI32 q.cb) = .ok len ↔ Measured H q ∧ len = toI32 (needle H q).length := by
  have hlt := hq.cb_lt
  rw [textLength, needle, Measured, hs, Option.getD_some]
  by_cases hsmall : q.cb < 2 ^ 31
  · rw [toI32_of_lt hsmall, if_neg (by omega), if_pos hsmall, hq.length_content, toI32_of_lt hsmall]
    constructor
    · intro h
      exact ⟨fun hbig => absurd hbig (by omega), (Except.ok.inj h).symm⟩
    · rintro ⟨-, rfl⟩
      rfl
  · rw [toI32_of_ge (by omega) hlt, if_pos (by omega), if_neg hsmall]
    constructor
    · intro h
      obtain ⟨n, hn, h⟩ := bind_eq_ok h
      obtain ⟨hin, rfl⟩ := strlen_eq_ok.mp hn
      exact ⟨fun _ => hin, (Except.ok.inj h).symm⟩
    · rintro ⟨hin, rfl⟩
      rw [strlen_eq_ok.mpr ⟨hin (by omega), rfl⟩]
      rfl

theorem WF.take_needle (hq : WF H q) {T : Bytes} (hs : startOf H q = some T) :
    T.take (needle H q).length = needle H q := by
  rw [needle]
  split_ifs
  · rw [hq.length_content, content_eq_take, hs, Option.getD_some]
  · rw [hs, Option.getD_some]
    exact (List.prefix_iff_eq_take.mp (List.takeWhile_prefix _)).symm

theorem WF.needle_le (hq : WF H q) {T : Bytes} (hs : startOf H q = some T) :
    (needle H q).length ≤ T.length := by
  have hlen := congrArg List.length (hq.take_needle hs)
  rw [List.length_take] at hlen
  omega

theorem WF.needle_length_lt (hq : WF H q) (hm : Measured H q) : (needle H q).length < 2 ^ 32 := by
  rw [needle]
  split_ifs with hsmall
  · rw [hq.length_content]
    omega
  · have hle := hq.length_start_le
    have hin := hm (by omega)
    have hpre := List.takeWhile_prefix (fun b : UInt8 => decide (b ≠ 0))
        (l := (startOf H q).getD [])
    have hne : ((startOf H q).getD []).takeWhile (fun b => decide (b ≠ 0)) ≠ (startOf H q).getD
        [] := by
      intro heq
      have hall := List.all_takeWhile (p := fun b : UInt8 => decide (b ≠ 0))
          (l := (startOf H q).getD [])
      rw [heq, List.all_eq_true] at hall
      simpa using hall 0 hin
    have := hpre.length_le
    have hlen : (((startOf H q).getD []).takeWhile fun b => decide (b ≠ 0)).length ≠
        ((startOf H q).getD []).length :=
      fun he => hne (hpre.eq_of_length he)
    omega

/-- A needle for a text that does not start with a NUL is not empty. -/
theorem needle_pos {ch : UInt8} (hch : (content H q).head? = some ch) (h0 : ch ≠ 0) :
    0 < (needle H q).length := by
  obtain ⟨rest, hs⟩ := start_of_head hch
  rw [needle]
  split_ifs
  · cases hc : content H q with
    | nil => rw [hc] at hch; cases hch
    | cons b bs => exact Nat.succ_pos _
  · rw [hs, Option.getD_some, List.takeWhile_cons_of_pos (by simpa using h0)]
    exact Nat.succ_pos _

end Needle

/-! ## First occurrences -/

/-- The least position of `t` from `fromOffset` on, or `d` if there is none. -/
def LeastFrom (t w : Bytes) (fromOffset d r : Nat) : Prop :=
  (fromOffset ≤ r ∧ OccursAt t w r ∧ ∀ j, fromOffset ≤ j → j < r → ¬OccursAt t w j) ∨
    (r = d ∧ ∀ j, fromOffset ≤ j → ¬OccursAt t w j)

/-- `find` returns `r`, the first occurrence, also when nothing but the content can be read; and
`contains` says whether there is one. -/
structure FindsFirst (H : Heap) (h q : Handle) (fromOffset r : Nat) : Prop where
  find : find H h q fromOffset = .ok r
  least : LeastFrom (content H q) (content H h) fromOffset h.cb r
  inside : findChars ((startOf H h).map fun _ => content H h) h.cb (startOf H q) (toI32 q.cb)
    fromOffset = .ok r
  contains : fromOffset = 0 → ∃ b, contains H h q = .ok b ∧
    (b = true ↔ content H q <:+: content H h)

/-- The states in which `find` is right. -/
structure Searchable (H : Heap) (h q : Handle) (fromOffset : Nat) : Prop where
  buffer : h.buf ≠ .null
  head : (content H q).head? ≠ some 0
  measured : Measured H q
  fits : (needle H q).length ≤ h.cb - fromOffset + 1
  absent : 2 ^ 31 ≤ (needle H q).length →
    HeadAbsent (content H q) ((content H h).drop fromOffset)
      (h.cb - fromOffset + 1 - (needle H q).length)
  same : first? (needle H q) ((content H h).drop fromOffset) = first? (content H q)
    ((content H h).drop fromOffset)

/-- A text that starts with a NUL and is not there: `find` returns `0xFFFFFFFF`, which is the
length. -/
structure NulMissed (H : Heap) (h q : Handle) (fromOffset : Nat) : Prop where
  head : (content H q).head? = some 0
  cb : h.cb = 0xFFFFFFFF
  absent : ¬content H q <:+: (content H h).drop fromOffset

section First

variable {H : Heap} {h q : Handle} {t u w : Bytes} {fromOffset r : Nat}

/-- The usual texts. -/
theorem searchable_iff_of_lt (hq : WF H q) (hlt : q.cb < 2 ^ 31) :
    Searchable H h q fromOffset ↔
      h.buf ≠ .null ∧ (content H q).head? ≠ some 0 ∧ q.cb ≤ h.cb - fromOffset + 1 := by
  have hn : needle H q = content H q := if_pos hlt
  have hlen := hq.length_content
  constructor
  · intro hs
    have hfits := hs.fits
    rw [hn, hlen] at hfits
    exact ⟨hs.buffer, hs.head, hfits⟩
  · rintro ⟨hbuf, hhead, hfits⟩
    refine ⟨hbuf, hhead, fun hbig => absurd hbig (by omega), ?_, ?_, ?_⟩
    · rw [hn, hlen]
      exact hfits
    · intro hbig
      rw [hn, hlen] at hbig
      omega
    · rw [hn]

theorem not_infix_drop_iff : ¬t <:+: w.drop fromOffset ↔ ∀ j, fromOffset ≤ j → ¬OccursAt t w j := by
  rw [infix_iff_occursAt, not_exists]
  constructor
  · intro h j hj hocc
    apply h (j - fromOffset)
    rw [occursAt_drop, Nat.add_sub_cancel' hj]
    exact hocc
  · intro h i hi
    exact h (fromOffset + i) (Nat.le_add_right ..) (occursAt_drop.mp hi)

/-- The first position in the rest. -/
theorem leastFrom_of_firstAt {i d : Nat} (h : FirstAt t (w.drop fromOffset) i) :
    LeastFrom t w fromOffset d (fromOffset + i) := by
  refine .inl ⟨Nat.le_add_right .., occursAt_drop.mp h.occurs, ?_⟩
  intro j hj hlt hocc
  apply h.before (j - fromOffset) (by omega)
  rw [occursAt_drop, Nat.add_sub_cancel' hj]
  exact hocc

theorem LeastFrom.unique {d r' : Nat} (h : LeastFrom t w fromOffset d r)
    (h' : LeastFrom t w fromOffset d r') :
    r = r' := by
  rcases h with ⟨hle, hocc, hbefore⟩ | ⟨rfl, hnone⟩
  · rcases h' with ⟨hle', hocc', hbefore'⟩ | ⟨rfl, hnone'⟩
    · rcases Nat.lt_trichotomy r r' with hlt | heq | hlt
      · exact absurd hocc (hbefore' r hle hlt)
      · exact heq
      · exact absurd hocc' (hbefore r' hle' hlt)
    · exact absurd hocc (hnone' r hle)
  · rcases h' with ⟨hle', hocc', -⟩ | ⟨rfl, -⟩
    · exact absurd hocc' (hnone r' hle')
    · rfl

theorem leastFrom_first? (hfrom : fromOffset ≤ w.length) :
    LeastFrom t w fromOffset w.length
      (fromOffset + (first? t (w.drop fromOffset)).getD (w.drop fromOffset).length) := by
  cases hf : first? t (w.drop fromOffset) with
  | some i => exact leastFrom_of_firstAt (first?_eq_some.mp hf)
  | none =>
    refine .inr ⟨?_, not_infix_drop_iff.mp (first?_eq_none.mp hf)⟩
    rw [Option.getD_none, List.length_drop]
    omega

/-- The search for another text finds the first position exactly when both have the same one. -/
theorem leastFrom_other_iff (ht : t ≠ []) (hu : u ≠ []) (hfrom : fromOffset ≤ w.length) :
    LeastFrom t w fromOffset w.length
      (fromOffset + (first? u (w.drop fromOffset)).getD (w.drop fromOffset).length) ↔
      first? u (w.drop fromOffset) = first? t (w.drop fromOffset) := by
  constructor
  · intro h
    have heq := Nat.add_left_cancel (h.unique (leastFrom_first? hfrom))
    -- a position leaves room for a byte, the length does not
    have hroom : ∀ {v : Bytes} {i : Nat}, v ≠ [] → first? v (w.drop fromOffset) = some i →
        i < (w.drop fromOffset).length := by
      intro v i hv hi
      have hle := (first?_eq_some.mp hi).occurs.add_le hv
      have hpos := List.length_pos_iff.mpr hv
      omega
    cases hfu : first? u (w.drop fromOffset) with
    | none =>
      cases hft : first? t (w.drop fromOffset) with
      | none => rfl
      | some j =>
        have := hroom ht hft
        rw [hfu, hft, Option.getD_none, Option.getD_some] at heq
        omega
    | some i =>
      cases hft : first? t (w.drop fromOffset) with
      | none =>
        have := hroom hu hfu
        rw [hfu, hft, Option.getD_none, Option.getD_some] at heq
        omega
      | some j =>
        rw [hfu, hft, Option.getD_some, Option.getD_some] at heq
        rw [heq]
  · intro h
    rw [h]
    exact leastFrom_first? hfrom

/-- A result of `find` that is the first occurrence decides `contains`. -/
theorem contains_of_least (hw : WF H h) (ht : content H q ≠ []) (hf : find H h q 0 = .ok r)
    (hl : LeastFrom (content H q) (content H h) 0 h.cb r) :
    ∃ b, contains H h q = .ok b ∧ (b = true ↔ content H q <:+: content H h) := by
  refine ⟨decide (r < h.cb), by rw [contains, hf]; rfl, ?_⟩
  rw [decide_eq_true_eq, infix_iff_occursAt]
  rcases hl with ⟨-, hocc, -⟩ | ⟨rfl, hnone⟩
  · have hle := hocc.add_le ht
    rw [hw.length_content] at hle
    have hpos := List.length_pos_iff.mpr ht
    exact iff_of_true (by omega) ⟨r, hocc⟩
  · exact iff_of_false (Nat.lt_irrefl _) fun ⟨j, hj⟩ => hnone j (Nat.zero_le j) hj

end First

section Main

variable {H : Heap} {h q : Handle} {fromOffset r cb : Nat} {buf : Option Bytes} {T B : Bytes}
  {ch : UInt8}
  {len : Int}

/-- The search is not made. -/
theorem findChars_nothing (hno : ch = 0 ∨ buf = none) :
    findChars buf cb (some (ch :: T)) len fromOffset = .ok 0xFFFFFFFF := by
  simp only [findChars, nothingToFind, ok_bind, decide_eq_true_eq, hno, ↓reduceIte]
  rfl

theorem findChars_eq_ok (h0 : ch ≠ 0) :
    findChars (some B) cb (some (ch :: T)) len fromOffset = .ok r ↔
    ∃ len' f, textLength (ch :: T) len = .ok len' ∧
      findStr (B.drop fromOffset) (toU32 (cb - fromOffset)) (ch :: T) len' false = .ok f ∧
      r = u32 (fromOffset + f) := by
  simp only [findChars, nothingToFind, ok_bind, decide_eq_true_eq, h0, reduceCtorEq, or_self,
    ↓reduceIte, Option.getD_some]
  constructor
  · intro h
    obtain ⟨len', hlen, h⟩ := bind_eq_ok h
    obtain ⟨f, hf, h⟩ := bind_eq_ok h
    exact ⟨len', f, hlen, hf, (Except.ok.inj h).symm⟩
  · rintro ⟨len', f, hlen, hf, rfl⟩
    rw [hlen, ok_bind, hf]
    rfl

/-- Without a search the result is right only for a string of the largest size. -/
theorem findsFirst_nothing_iff (hw : WF H h) (ht : content H q ≠ [])
    (hs : startOf H q = some (ch :: T)) (hno : ch = 0 ∨ startOf H h = none) :
    FindsFirst H h q fromOffset r ↔
      r = 0xFFFFFFFF ∧ h.cb = 0xFFFFFFFF ∧ ¬content H q <:+: (content H h).drop fromOffset := by
  have hfind : find H h q fromOffset = .ok 0xFFFFFFFF := by
    rw [find, hs]
    exact findChars_nothing hno
  have hcb := hw.cb_lt
  constructor
  · intro hf
    obtain rfl := Except.ok.inj (hfind.symm.trans hf.find)
    rcases hf.least with ⟨-, hocc, -⟩ | ⟨heq, hnone⟩
    · have hle := hocc.add_le ht
      have hpos := List.length_pos_iff.mpr ht
      rw [hw.length_content] at hle
      omega
    · exact ⟨rfl, heq.symm, not_infix_drop_iff.mpr hnone⟩
  · rintro ⟨rfl, heq, hnone⟩
    have hleast : LeastFrom (content H q) (content H h) fromOffset h.cb 0xFFFFFFFF :=
      .inr ⟨heq.symm, not_infix_drop_iff.mp hnone⟩
    refine ⟨hfind, hleast, ?_, ?_⟩
    · rw [hs]
      apply findChars_nothing
      rcases hno with h0 | hnull
      · exact .inl h0
      · exact .inr (by rw [hnull]; rfl)
    · rintro rfl
      exact contains_of_least hw ht hfind hleast

/-- The part of the block that is searched. -/
theorem take_drop_start (hs : startOf H h = some B) :
    (B.drop fromOffset).take (h.cb - fromOffset) = (content H h).drop fromOffset := by
  rw [content_eq_take, hs, Option.getD_some, List.drop_take]

/-- What is found when nothing but the content can be read. -/
theorem findChars_inside_iff (hw : WF H h) (hq : WF H q) (hs : startOf H q = some (ch :: T))
    (hh : (content H q).head? = some ch) (h0 : ch ≠ 0) (hfrom : fromOffset ≤ h.cb) (r : Nat) :
    findChars (some (content H h)) h.cb (startOf H q) (toI32 q.cb) fromOffset = .ok r ↔
      Measured H q ∧ (needle H q).length ≤ h.cb - fromOffset + 1 ∧
        (2 ^ 31 ≤ (needle H q).length → HeadAbsent (content H q) ((content H h).drop fromOffset)
          (h.cb - fromOffset + 1 - (needle H q).length)) ∧
        r = fromOffset + (first? (needle H q) ((content H h).drop fromOffset)).getD
          ((content H h).drop fromOffset).length := by
  have hcb := hw.cb_lt
  have hlen := hw.length_content
  have hrest : ((content H h).drop fromOffset).length = h.cb - fromOffset := by
    rw [List.length_drop, hlen]
  have hrem := toU32_sub hfrom hcb
  have htake := hq.take_needle hs
  have hnlen := hq.needle_le hs
  have hpos := needle_pos hh h0
  have habs : ∀ n, HeadAbsent (ch :: T) ((content H h).drop fromOffset) n ↔
      HeadAbsent (content H q) ((content H h).drop fromOffset) n := by
    intro n
    rw [HeadAbsent, HeadAbsent, hh]
    rfl
  have hmeasure := hq.textLength_eq hs
  have hgetD : (first? (needle H q) ((content H h).drop fromOffset)).getD
      ((content H h).drop fromOffset).length ≤
      h.cb - fromOffset := by
    cases hf : first? (needle H q) ((content H h).drop fromOffset) with
    | none => exact Nat.le_of_eq hrest
    | some i =>
      have hle := (first?_eq_some.mp hf).occurs.add_le (List.length_pos_iff.mp hpos)
      rw [hrest] at hle
      rw [Option.getD_some]
      omega
  rw [hs, findChars_eq_ok h0, hrem]
  constructor
  · rintro ⟨len', f, hl, hf, rfl⟩
    obtain ⟨hm, rfl⟩ := (hmeasure _).mp hl
    rw [← hrest] at hf
    obtain ⟨hfit, habsent, rfl⟩ :=
      (findStr_within hpos (hq.needle_length_lt hm) hnlen (by omega)).mp hf
    rw [htake]
    rw [hrest] at hfit habsent
    exact ⟨hm, hfit, fun hbig => (habs _).mp (habsent hbig), u32_of_lt (by omega)⟩
  · rintro ⟨hm, hfit, habsent, rfl⟩
    refine ⟨_, _, (hmeasure _).mpr ⟨hm, rfl⟩, ?_, (u32_of_lt (by omega)).symm⟩
    have hwithin := findStr_within (f := (first? (needle H q) ((content H h).drop fromOffset)).getD
      ((content H h).drop fromOffset).length) hpos (hq.needle_length_lt hm) hnlen
      (show ((content H h).drop fromOffset).length < 2 ^ 32 by omega)
    rw [htake, hrest] at hwithin
    rw [hrest]
    exact hwithin.mpr ⟨hfit, fun hbig => (habs _).mpr (habsent hbig), rfl⟩

/-- What is found inside the content is found. -/
theorem find_of_inside (hw : WF H h) (hq : WF H q) (hs : startOf H q = some (ch :: T))
    (hh : (content H q).head? = some ch) (h0 : ch ≠ 0) (hb : startOf H h = some B)
    (hfrom : fromOffset ≤ h.cb)
    (hin : findChars (some (content H h)) h.cb (startOf H q) (toI32 q.cb) fromOffset = .ok r) :
    find H h q fromOffset = .ok r := by
  have hcb := hw.cb_lt
  have hrem := toU32_sub hfrom hcb
  obtain ⟨hBcb, hBlen⟩ := hw.start_bounds hb
  rw [hs, findChars_eq_ok h0, hrem] at hin
  obtain ⟨len', f, hl, hf, rfl⟩ := hin
  have hmeasure := hq.textLength_eq hs
  obtain ⟨hm, rfl⟩ := (hmeasure _).mp hl
  have hnlen := hq.needle_le hs
  rw [find, hs, hb, findChars_eq_ok h0, hrem]
  refine ⟨_, f, (hmeasure _).mpr ⟨hm, rfl⟩, ?_, rfl⟩
  rw [← take_drop_start hb] at hf
  exact findStr_of_within (needle_pos hh h0) (hq.needle_length_lt hm) hnlen
    (by rw [List.length_drop]; omega) (by omega) (by rw [List.length_drop]; omega) hf

/-- `find` returns the first occurrence, reads nothing but the content and decides `contains` if
and only if the text can be searched for, or starts with a NUL and is missing in a string of
`2^32 - 1` bytes. -/
theorem find_first_iff (hw : WF H h) (hq : WF H q) (hne : content H q ≠ [])
    (hfrom : fromOffset ≤ h.cb) :
    (∃ r, FindsFirst H h q fromOffset r) ↔ Searchable H h q fromOffset ∨
      NulMissed H h q fromOffset := by
  obtain ⟨ch, hh⟩ := Option.ne_none_iff_exists'.mp (mt List.head?_eq_none_iff.mp hne)
  obtain ⟨T, hs⟩ := start_of_head hh
  by_cases hno : ch = 0 ∨ startOf H h = none
  · simp only [findsFirst_nothing_iff hw hne hs hno]
    constructor
    · rintro ⟨r, rfl, hcb, hnone⟩
      rcases hno with rfl | hnull
      · exact .inr ⟨hh, hcb, hnone⟩
      · have hcb' := hw.cb_le_start
        rw [hnull] at hcb'
        simp only [Option.getD_none, List.length_nil] at hcb'
        omega
    · rintro (hsearch | hnul)
      · rcases hno with rfl | hnull
        · exact absurd hh hsearch.head
        · rw [startOf_eq hsearch.buffer] at hnull
          cases hnull
      · exact ⟨_, rfl, hnul.cb, hnul.absent⟩
  · simp only [not_or] at hno
    obtain ⟨h0, hbuf⟩ := hno
    obtain ⟨B, hb⟩ := Option.ne_none_iff_exists'.mp hbuf
    have hpos := needle_pos hh h0
    have hleast := leastFrom_other_iff hne (List.length_pos_iff.mp hpos)
      (show fromOffset ≤ (content H h).length by rw [hw.length_content]; exact hfrom)
    rw [hw.length_content] at hleast
    have hinside := findChars_inside_iff hw hq hs hh h0 hfrom
    constructor
    · rintro ⟨r, hf⟩
      left
      have hin := hf.inside
      rw [hb, Option.map_some] at hin
      obtain ⟨hm, hfit, habs, rfl⟩ := (hinside r).mp hin
      refine ⟨?_, ?_, hm, hfit, habs, hleast.mp hf.least⟩
      · intro hnull
        rw [startOf, if_pos hnull] at hb
        cases hb
      · rw [hh]
        exact fun he => h0 (Option.some.inj he)
    · rintro (hsearch | hnul)
      · have hin := (hinside _).mpr ⟨hsearch.measured, hsearch.fits, hsearch.absent, rfl⟩
        have hfind := find_of_inside hw hq hs hh h0 hb hfrom hin
        have hl := hleast.mpr hsearch.same
        refine ⟨_, hfind, hl, ?_, ?_⟩
        · rw [hb]
          exact hin
        · rintro rfl
          exact contains_of_least hw hne hfind hl
      · exact absurd (Option.some.inj (hh.symm.trans hnul.head)) h0

end Main

/-- A text in the middle of a slice. -/
theorem find_first_slice :
    letI := zeroMemory
    ∃ S h q, run .init [.bytes (some [0x61, 0x62, 0x63, 0x61, 0x62]), .substr 0 1 5,
    .literal [0x63, 0x61]] =
      .ok S ∧ S.handle? 1 = some h ∧ S.handle? 2 = some q ∧ ∃ r, FindsFirst S.heap h q 1 r := by
  let _ := zeroMemory
  have hS₁ := Reach.slice [0x61, 0x62, 0x63, 0x61, 0x62] 1 5 (by decide) rfl
  have hS₂ := Reach.step (.literal [0x63, 0x61]) hS₁ trivial ⟨by decide, by decide⟩ trivial rfl
  refine ⟨_, _, _, rfl, rfl, rfl, ?_⟩
  have hw := hS₂.inv.1.wf
  apply (find_first_iff (hw 1 _ rfl) (hw 2 _ rfl) nofun (by decide)).mpr
  left
  exact (searchable_iff_of_lt (hw 2 _ rfl) (by decide)).mpr ⟨nofun, nofun, by decide⟩

/-- A text that is two bytes longer than the string: the search reads past the content. -/
theorem find_first_fails :
    ¬∃ r, FindsFirst RefHeap.empty (.literal [0x61]) (.literal [0x62, 0x63, 0x64]) 0 r := by
  have hw : ∀ m : Bytes, m.length < 2 ^ 32 → WF RefHeap.empty (.literal m) :=
    fun m hm => .lit rfl rfl (Nat.le_of_eq (Nat.zero_add _)) hm
  rintro ⟨r, hf⟩
  obtain ⟨-, hfit, -⟩ :=
    (findChars_inside_iff (hw [0x61] (by decide)) (hw [0x62, 0x63, 0x64] (by decide)) rfl rfl
    (by decide) (by decide) r).mp hf.inside
  exact absurd hfit (by decide)

end StringHeap

end Libacorn
