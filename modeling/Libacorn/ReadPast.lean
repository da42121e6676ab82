import Libacorn.Support.CutBehind
import Libacorn.StringSplit

/-!
# readPast and readUpTo with a character: base/string.cpp

What is not found is taken to be at the end of the string, so that reading past
one `ch` after the other gives all of the string (`readPast_lossless`).
-/

namespace Libacorn

open Support

namespace StringHeap

/-! ## The source -/

/-- `readUpTo` and `readPast` with a `char`: the piece and the new offset. -/
def readToChar (H : Heap) (h : Handle) (offset : Nat) (ch : UInt8) (includeText : Bool) :
    Except Fault ((Heap × Handle) × Nat) := do
  let o := offset
  let f ← findStr (((startOf H h).getD []).drop o) (toU32 (h.cb - o)) [ch] 1 includeText
  let offset := u32 (offset + f)
  let piece ← substr H h o offset
  return (piece, offset)

/-- `string::readUpTo(uint32_t& offset, char ch)` -/
def readUpTo (H : Heap) (h : Handle) (offset : Nat) (ch : UInt8) :
    Except Fault ((Heap × Handle) × Nat) :=
  readToChar H h offset ch false

/-- `string::readPast(uint32_t& offset, char ch)` -/
def readPast (H : Heap) (h : Handle) (offset : Nat) (ch : UInt8) :
    Except Fault ((Heap × Handle) × Nat) :=
  readToChar H h offset ch true

/-- Calls of `readPast` until the offset is `lengthInBytes()`, at most `fuel` of them; `none` if
they are not enough. -/
def readPieces (h : Handle) (ch : UInt8) :
    Nat → Heap → Nat → List Handle → Except Fault (Option (Heap × List Handle))
  | fuel, H, offset, pieces =>
    if offset = h.cb then .ok (some (H, pieces))
    else
      match fuel with
      | 0 => .ok none
      | fuel + 1 => do
        let ((H, piece), offset) ← readPast H h offset ch
        readPieces h ch fuel H offset (pieces ++ [piece])

/-! ## What the two should give -/

/-- The pieces give the string back and are cut behind every `ch`, and `readUpTo` gives the piece
that `readPast` gives, without a `ch` at its end. -/
structure ReadsLossless (H : Heap) (h : Handle) (ch : UInt8) : Prop where
  pieces : ∃ fuel H₁ ps, readPieces h ch fuel H 0 [] = .ok (some (H₁, ps)) ∧
    (ps.map (content H₁)).flatten = content H h ∧ CutBehind ch (ps.map (content H₁))
  upTo : ∀ o < 2 ^ 32, ∀ H₁ piece o₁, readPast H h o ch = .ok ((H₁, piece), o₁) →
    ∃ H₂ piece' o₂, readUpTo H h o ch = .ok ((H₂, piece'), o₂) ∧
      content H₂ piece' = dropFinal ch (content H₁ piece)
  returns : ∀ o ≤ h.cb, ∃ r, readPast H h o ch = .ok r

/-! ## The search for one character -/

section Find

variable {B : Bytes} {n m : Nat} {ch : UInt8} {includeText : Bool}

theorem findStr_char (hlt : n < 2 ^ 32) : findStr B n [ch] 1 includeText = do
    let x ← memchr B 0 ch n
    return x.elim n fun m => if includeText then toU32 (m + 1) else m := by
  have hbound : toU32 ((n : Int) - 1 + 1) = n := by
    rw [Int.sub_add_cancel, toU32_of_nonneg (by omega) (by omega), Int.toNat_natCast]
  rw [findStr, hbound]
  cases n with
  | zero =>
    rw [memchr_eq_none.mpr ⟨Nat.zero_le _, by rw [List.take_zero]; exact List.not_mem_nil⟩]
    rfl
  | succ n =>
    rw [findStrLoop, if_pos (Nat.succ_pos n), Nat.sub_zero]
    cases hchr : memchr B 0 ch (n + 1) with
    | error e => rfl
    | ok x =>
      cases x with
      | none => rfl
      | some m => rfl

/-- A character in a range is found at its first position, and is taken to be at the end
otherwise. -/
theorem findStr_char_range (hle : n ≤ B.length) (hlt : n < 2 ^ 32) :
    findStr B n [ch] 1 includeText =
    .ok (if includeText then (throughFirst ch (B.take n)).length else (B.take n).idxOf ch) := by
  have hlen : (B.take n).length = n := by
    rw [List.length_take, Nat.min_eq_left hle]
  have hthrough : (throughFirst ch (B.take n)).length = min ((B.take n).idxOf ch + 1) n := by
    rw [throughFirst_eq_take, List.length_take, hlen]
  rw [findStr_char hlt, memchr, List.drop_zero, Nat.zero_add]
  cases hidx : (B.take n).idxOf? ch with
  | none =>
    have hout := List.idxOf_of_notMem (List.idxOf?_eq_none_iff.mp hidx)
    simp only [if_pos hle, ok_bind, Option.elim_none, hthrough, hout, hlen]
    split_ifs
    · rw [Nat.min_eq_right (Nat.le_succ n)]
      rfl
    · rfl
  | some j =>
    have hj : (B.take n).idxOf ch = j := by
      rw [List.idxOf_eq_getD_idxOf?, hidx, Option.getD_some]
    obtain ⟨hjlt, -⟩ := List.idxOf?_eq_some_iff.mp hidx
    simp only [ok_bind, Option.elim_some, hthrough, hj, Nat.zero_add]
    rw [hlen] at hjlt
    rw [toU32_of_nonneg (by omega) (by omega), Nat.min_eq_left (by omega)]
    rfl

end Find

/-! ## One call -/

section Call

variable {H H₁ : Heap} {h : Handle} {ch : UInt8} {a b o f : Nat} {includeText : Bool}

theorem SameData.of_substr (hw : WF H h) (hr : h.Retainable) {r : Heap × Handle}
    (hs : substr H h a b = .ok r) :
    SameData H r.1 := by
  obtain ⟨H', hok, hget⟩ := hw.substr_eq hr a b
  obtain rfl := Except.ok.inj (hok.symm.trans hs)
  exact ⟨hget, substr_next hs⟩

/-- The piece behind the offset, of the length that the search has found. -/
theorem readToChar_eq (hw : WF H h) (hbuf : h.buf ≠ .null) (hend : h.offset + h.cb < 2 ^ 24)
    (hsame : SameData H H₁) (ho : o ≤ h.cb)
    (hf : findStr (((startOf H h).getD []).drop o) (h.cb - o) [ch] 1 includeText = .ok f)
    (hof : o + f ≤ h.cb) :
    ∃ H₂ piece, readToChar H₁ h o ch includeText = .ok ((H₂, piece), o + f) ∧ SameData H H₂ ∧
      content H piece = ((content H h).drop o).take f := by
  have hw₁ := hsame.wf hw
  have hr : h.Retainable := fun hnull => absurd hnull hbuf
  obtain ⟨⟨H₂, piece⟩, hsub, hsel⟩ :=
    (hw₁.substrSelects_iff hr o (o + f)).mpr (SameWrapped.of_lt (by omega))
  have hsame₂ := hsame.trans (SameData.of_substr hw₁ hr hsub)
  refine ⟨H₂, piece, ?_, hsame₂, ?_⟩
  · rw [readToChar, hsame.startOf, toU32_sub ho hw.cb_lt, hf, ok_bind, u32_of_lt (by omega)]
    simp only [hsub, ok_bind]
    rfl
  · rw [← hsame₂.content, hsel, hsame.content, selected, hw.length_content,
      show min h.cb (max o (o + f)) = o + f by omega, show min h.cb (min o (o + f)) = o by
        omega, List.drop_take,
      Nat.add_sub_cancel_left]

/-- What is searched from an offset on. -/
theorem content_drop_eq (H : Heap) (h : Handle) (o : Nat) :
    (((startOf H h).getD []).drop o).take (h.cb - o) = (content H h).drop o := by
  rw [content_eq_take, List.drop_take]

theorem findStr_content (hw : WF H h) (ho : o ≤ h.cb) :
    findStr (((startOf H h).getD []).drop o) (h.cb - o) [ch] 1 includeText =
      .ok (if includeText then (throughFirst ch ((content H h).drop o)).length
        else ((content H h).drop o).idxOf ch) := by
  have hlt := hw.cb_lt
  have hle := hw.cb_le_start
  rw [findStr_char_range (by rw [List.length_drop]; omega) (by omega), content_drop_eq]

/-- `readPast` gives the bytes through the next `ch`. -/
theorem readPast_eq (hw : WF H h) (hbuf : h.buf ≠ .null) (hend : h.offset + h.cb < 2 ^ 24)
    (hsame : SameData H H₁) (ho : o ≤ h.cb) (ch : UInt8) :
    ∃ H₂ piece, readPast H₁ h o ch =
        .ok ((H₂, piece), o + (throughFirst ch ((content H h).drop o)).length) ∧ SameData H H₂ ∧
      content H piece = throughFirst ch ((content H h).drop o) := by
  have hle := length_throughFirst_le ch ((content H h).drop o)
  rw [List.length_drop, hw.length_content] at hle
  have hf : findStr (((startOf H h).getD []).drop o) (h.cb - o) [ch] 1 true =
      .ok (throughFirst ch ((content H h).drop o)).length := findStr_content hw ho
  obtain ⟨H₂, piece, hread, hsame₂, hcont⟩ := readToChar_eq hw hbuf hend hsame ho hf (by omega)
  refine ⟨H₂, piece, hread, hsame₂, ?_⟩
  have happ := throughFirst_append_drop ch ((content H h).drop o)
  rw [hcont]
  exact (List.prefix_iff_eq_take.mp ⟨_, happ⟩).symm

/-- `readUpTo` gives the bytes before the next `ch`. -/
theorem readUpTo_eq (hw : WF H h) (hbuf : h.buf ≠ .null) (hend : h.offset + h.cb < 2 ^ 24)
    (hsame : SameData H H₁) (ho : o ≤ h.cb) (ch : UInt8) :
    ∃ H₂ piece, readUpTo H₁ h o ch = .ok ((H₂, piece), o + ((content H h).drop o).idxOf ch) ∧
      SameData H H₂ ∧
      content H piece = ((content H h).drop o).take (((content H h).drop o).idxOf ch) := by
  have hle : ((content H h).drop o).idxOf ch ≤ _ := List.idxOf_le_length
  rw [List.length_drop, hw.length_content] at hle
  have hf : findStr (((startOf H h).getD []).drop o) (h.cb - o) [ch] 1 false =
      .ok (((content H h).drop o).idxOf ch) := findStr_content hw ho
  exact readToChar_eq hw hbuf hend hsame ho hf (by omega)

/-- Behind the end, the search returns only if it finds the character somewhere in the block. Both
pieces are then empty. -/
theorem readToChar_behind (hw : WF H h) (hbuf : h.buf ≠ .null) (hend : h.offset + h.cb < 2 ^ 24)
    (hlen : ((startOf H h).getD []).length ≤ 2 ^ 24) (ho : h.cb < o) (ho32 : o < 2 ^ 32)
    (ch : UInt8) (includeText : Bool) :
    (∃ e, memchr (((startOf H h).getD []).drop o) 0 ch (2 ^ 32 + h.cb - o) = .error e ∧
        readToChar H h o ch includeText = .error e) ∨
      ∃ m, memchr (((startOf H h).getD []).drop o) 0 ch (2 ^ 32 + h.cb - o) = .ok (some m) ∧
        ∃ H₁ piece o₁, readToChar H h o ch includeText = .ok ((H₁, piece), o₁) ∧
          content H₁ piece = [] := by
  have hn : toU32 ((h.cb : Int) - o) = 2 ^ 32 + h.cb - o := by
    rw [toU32, ← Int.add_emod_right, Int.emod_eq_of_lt (by omega) (by omega)]
    omega
  rw [readToChar, hn, findStr_char (by omega)]
  cases hchr : memchr (((startOf H h).getD []).drop o) 0 ch (2 ^ 32 + h.cb - o) with
  | error e => exact .inl ⟨e, rfl, rfl⟩
  | ok x =>
    cases x with
    | none =>
      have hle := (memchr_eq_none.mp hchr).1
      rw [List.length_drop] at hle
      omega
    | some m =>
      obtain ⟨-, -, hm, -⟩ := memchr_eq_some hchr
      have hin := (List.getElem?_eq_some_iff.mp hm).1
      rw [List.length_drop] at hin
      have hf : ∀ f, f = (if includeText then toU32 (m + 1) else m) →
          h.cb < o + f ∧ o + f < 2 ^ 32 := by
        rintro f rfl
        rw [toU32_of_nonneg (by omega) (by omega)]
        split_ifs
        · omega
        · omega
      refine .inr ⟨m, rfl, ?_⟩
      simp only [ok_bind, Option.elim_some]
      generalize hfe : (if includeText then toU32 (m + 1) else m) = f at hf ⊢
      obtain ⟨hgt, hlt⟩ := hf f rfl
      have hnone : min h.cb (max o (o + f)) - min h.cb (min o (o + f)) = 0 := by omega
      obtain ⟨⟨H₁, piece⟩, hsub, hsel⟩ :=
        (hw.substrSelects_iff (fun hnull => absurd hnull hbuf) o (o + f)).mpr
        (by rw [hnone]; exact SameWrapped.nothing ..)
      refine ⟨H₁, piece, o + f, ?_, ?_⟩
      · simp only [pure_bind, u32_of_lt hlt, hsub, ok_bind]
        rfl
      · rw [hsel, selected, hw.length_content, List.drop_take, hnone, List.take_zero]

end Call

/-! ## All of the pieces -/

section Pieces

variable {H H₁ : Heap} {h : Handle} {ch : UInt8} {o : Nat}

/-- Reading on from an offset cuts the rest of the string behind every `ch`. -/
theorem readPieces_eq (hw : WF H h) (hbuf : h.buf ≠ .null) (hend : h.offset + h.cb < 2 ^ 24)
    (hsame : SameData H H₁) (ho : o ≤ h.cb) (ch : UInt8) (result : List Handle) :
    ∃ fuel H₂ ps, readPieces h ch fuel H₁ o result = .ok (some (H₂, result ++ ps)) ∧ SameData H H₂ ∧
      (ps.map (content H)).flatten = (content H h).drop o ∧ CutBehind ch (ps.map (content H)) ∧
      (ps ≠ [] → o < h.cb) := by
  have hlen := hw.length_content
  -- induction on the number of bytes left: a piece that is not empty is read in each round
  induction hk : h.cb - o using Nat.strong_induction_on generalizing o H₁ result with
  | _ k ih =>
    by_cases hdone : o = h.cb
    · refine ⟨0, H₁, [], ?_, hsame, ?_, CutBehind.nil ch, fun hne => absurd rfl hne⟩
      · rw [readPieces, if_pos hdone, List.append_nil]
      · rw [List.drop_eq_nil_of_le (by omega)]
        rfl
    · have hrest : ((content H h).drop o).length = h.cb - o := by
        rw [List.length_drop, hlen]
      have hpos : 0 < (throughFirst ch ((content H h).drop o)).length := by
        rw [List.length_pos_iff, ne_eq, throughFirst_eq_nil]
        intro hnil
        rw [hnil, List.length_nil] at hrest
        omega
      have hle := length_throughFirst_le ch ((content H h).drop o)
      obtain ⟨H₂, piece, hread, hsame₂, hcont⟩ := readPast_eq hw hbuf hend hsame ho ch
      obtain ⟨fuel, H₃, ps, hrun, hsame₃, hflat, hcut, hmore⟩ := ih _ (by omega) hsame₂
        (show o + (throughFirst ch ((content H h).drop o)).length ≤ h.cb by omega)
          (result ++ [piece]) rfl
      refine ⟨fuel + 1, H₃, piece :: ps, ?_, hsame₃, ?_, ?_, fun _ => by omega⟩
      · rw [readPieces, if_neg hdone]
        simp only [hread, ok_bind]
        rw [hrun, List.append_assoc, List.singleton_append]
      · rw [List.map_cons, List.flatten_cons, hflat, hcont, ← List.drop_drop,
          throughFirst_append_drop]
      · rw [List.map_cons, hcont]
        apply hcut.cons (notMem_dropLast_throughFirst ch _)
        intro hne
        -- another piece follows, so this one has not reached the end
        have hlt := hmore fun hnil => hne (by rw [hnil, List.map_nil])
        exact getLast?_throughFirst (by omega)

/-- Reading past one character after the other loses nothing. -/
theorem readPast_lossless (hw : WF H h) (hbuf : h.buf ≠ .null)
    (hsize : (memory H h.buf).length ≤ 2 ^ 24) (ch : UInt8) : ReadsLossless H h ch where
  pieces := by
    have hend := hw.end_lt hbuf hsize
    obtain ⟨fuel, H₁, ps, hrun, hsame, hflat, hcut, -⟩ :=
      readPieces_eq hw hbuf hend (SameData.refl H) (Nat.zero_le _) ch []
    have hmap : ps.map (content H₁) = ps.map (content H) :=
      List.map_congr_left fun p _ => hsame.content p
    refine ⟨fuel, H₁, ps, hrun, ?_, ?_⟩
    · rw [hmap]
      exact hflat
    · rw [hmap]
      exact hcut
  upTo := by
    intro o ho32 H₁ piece o₁ hread
    have hend := hw.end_lt hbuf hsize
    by_cases ho : o ≤ h.cb
    · obtain ⟨H₁', piece', hread', hsame, hcont⟩ := readPast_eq hw hbuf hend (SameData.refl H) ho ch
      obtain ⟨hpiece, -⟩ := Prod.mk.inj (Except.ok.inj (hread'.symm.trans hread))
      obtain ⟨rfl, rfl⟩ := Prod.mk.inj hpiece
      obtain ⟨H₂, piece₂, hup, hsame₂, hcont₂⟩ := readUpTo_eq hw hbuf hend (SameData.refl H) ho ch
      refine ⟨H₂, piece₂, _, hup, ?_⟩
      rw [hsame₂.content, hcont₂, hsame.content, hcont, dropFinal_throughFirst]
    · have hlen := length_start_le hbuf hsize
      rcases readToChar_behind hw hbuf hend hlen (by omega) ho32 ch true with
        ⟨e, -, hfault⟩ | ⟨m, hchr, H₁', piece', o', hread', hnil⟩
      · cases hfault.symm.trans hread
      · obtain ⟨hpiece, -⟩ := Prod.mk.inj (Except.ok.inj (hread'.symm.trans hread))
        obtain ⟨rfl, rfl⟩ := Prod.mk.inj hpiece
        rcases readToChar_behind hw hbuf hend hlen (by omega) ho32 ch false with
          ⟨e, hfault, -⟩ | ⟨m', -, H₂, piece₂, o₂, hup, hnil₂⟩
        · cases hchr.symm.trans hfault
        · refine ⟨H₂, piece₂, o₂, hup, ?_⟩
          rw [hnil, hnil₂]
          rfl
  returns := by
    intro o ho
    obtain ⟨H₁, piece, hread, -⟩ := readPast_eq hw hbuf (hw.end_lt hbuf hsize) (SameData.refl H) ho
        ch
    exact ⟨_, hread⟩

end Pieces

/-- A slice with an empty line in it. -/
theorem readPast_lossless_lines :
    letI := zeroMemory
    ∃ S h, run .init [.bytes (some [0x61, 0x62, 0x0a, 0x0a, 0x63]), .substr 0 1 5] = .ok S ∧
      S.handle? 1 = some h ∧ ReadsLossless S.heap h 0x0a := by
  let _ := zeroMemory
  have hS := Reach.slice [0x61, 0x62, 0x0a, 0x0a, 0x63] 1 5 (by decide) rfl
  refine ⟨_, _, rfl, rfl, ?_⟩
  exact readPast_lossless (hS.inv.1.wf 1 _ rfl) nofun (by decide +kernel) 0x0a

end StringHeap

end Libacorn
