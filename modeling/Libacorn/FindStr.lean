import Libacorn.Support.Search
import Libacorn.StringEdits

/-!
# findStr of base/string.cpp

The search behind `find`, `findLast`, `split` and `replace`, over the bytes that
can be read from two addresses on. Its bound is computed in `uint32_t`, so it is
right as long as the text is at most one byte longer than the range that is
searched (`findStr_fits`), and wraps around otherwise.
-/

namespace Libacorn

open Support

namespace StringHeap

/-! ## The source -/

/-- Conversion to `int32_t`. -/
def toI32 (n : Nat) : Int := if u32 n < 2 ^ 31 then (u32 n : Int) else (u32 n : Int) - 2 ^ 32

/-- Conversion to `size_t`. -/
def toSize (i : Int) : Nat := (i % 2 ^ 64).toNat

/-- `memchr(buf + o, ch, n)`, with the offset of the byte that is found. The bytes are read in
order, up to that one. -/
def memchr (buf : Bytes) (o : Nat) (ch : UInt8) (n : Nat) : Except Fault (Option Nat) :=
  match ((buf.drop o).take n).idxOf? ch with
  | some j => .ok (some (o + j))
  | none => if o + n ≤ buf.length then .ok none else .error .bounds

/-- `0 == memcmp(p, q, n)`; all of the bytes are read. -/
def memEqual (p q : Bytes) (n : Nat) : Except Fault Bool :=
  if n ≤ p.length ∧ n ≤ q.length then .ok (p.take n = q.take n) else .error .bounds

/-- The loop of `findStr`, with at most `fuel` more matches of the first byte. -/
def findStrLoop (buf text : Bytes) (textLen : Int) (toOff : Nat) :
    Nat → Nat → Except Fault (Option Nat)
  | 0, _ => .ok none
  | fuel + 1, o =>
    if o < toOff then
      match text with
      | [] => .error .bounds
      | ch :: rest => do
        match ← memchr buf o ch (toOff - o) with
        | none => return none
        | some o =>
          -- the size is `textLen - 1`, converted from `int`
          if ← memEqual (buf.drop (o + 1)) rest (toSize (textLen - 1)) then return some o
          else findStrLoop buf text textLen toOff fuel (o + 1)
    else .ok none

/-- `findStr`: `buf` and `text` are the bytes that can be read from the two pointers on. Every
round moves on, so `toOff` rounds suffice. -/
def findStr (buf : Bytes) (buflen : Nat) (text : Bytes) (textLen : Int) (includeText : Bool) :
    Except Fault Nat := do
  let toOff := toU32 (buflen - textLen + 1)
  match ← findStrLoop buf text textLen toOff toOff 0 with
  | none => return buflen
  | some o => return if includeText then toU32 (o + textLen) else o

/-! ## Reading -/

theorem memchr_eq_some {buf : Bytes} {o n m : Nat} {ch : UInt8}
    (h : memchr buf o ch n = .ok (some m)) :
    o ≤ m ∧ m < o + n ∧ buf[m]? = some ch ∧ ∀ j, o ≤ j → j < m → buf[j]? ≠ some ch := by
  unfold memchr at h
  split at h
  · rename_i j hidx
    obtain rfl := Option.some.inj (Except.ok.inj h)
    obtain ⟨hlt, hget, hbefore⟩ := List.idxOf?_eq_some_iff.mp hidx
    have hlen : j < n := by
      rw [List.length_take] at hlt
      omega
    refine ⟨Nat.le_add_right o j, by omega, ?_, ?_⟩
    · rw [List.getElem_take, List.getElem_drop] at hget
      exact List.getElem?_eq_some_iff.mpr ⟨_, hget⟩
    · intro i hoi hi hch
      obtain ⟨hin, hch⟩ := List.getElem?_eq_some_iff.mp hch
      apply hbefore (i - o) (by omega)
      rw [List.getElem_take, List.getElem_drop]
      rw [← hch]
      congr 1
      omega
  · split at h
    · cases h
    · cases h

theorem mem_window {buf : Bytes} {o n : Nat} {ch : UInt8} :
    ch ∈ (buf.drop o).take n ↔ ∃ j, o ≤ j ∧ j < o + n ∧ buf[j]? = some ch := by
  rw [List.mem_iff_getElem?]
  constructor
  · rintro ⟨j, hj⟩
    have hlt : j < n := by
      have := (List.getElem?_eq_some_iff.mp hj).1
      rw [List.length_take] at this
      omega
    rw [List.getElem?_take_of_lt hlt, List.getElem?_drop] at hj
    exact ⟨o + j, by omega, by omega, hj⟩
  · rintro ⟨j, hoj, hj, hch⟩
    refine ⟨j - o, ?_⟩
    rw [List.getElem?_take_of_lt (by omega), List.getElem?_drop, Nat.add_sub_cancel' hoj]
    exact hch

theorem memchr_eq_none {buf : Bytes} {o n : Nat} {ch : UInt8} :
    memchr buf o ch n = .ok none ↔ o + n ≤ buf.length ∧ ch ∉ (buf.drop o).take n := by
  unfold memchr
  split
  · rename_i j hidx
    obtain ⟨hlt, hget, -⟩ := List.idxOf?_eq_some_iff.mp hidx
    exact iff_of_false nofun fun h => h.2 (hget ▸ List.getElem_mem hlt)
  · rename_i hidx
    have hout := List.idxOf?_eq_none_iff.mp hidx
    split_ifs with hle
    · exact iff_of_true rfl ⟨hle, hout⟩
    · exact iff_of_false nofun fun h => hle h.1

/-! ## The loop -/

/-- What a search of the positions from `o` to `toOff` returns. -/
inductive Finds (t buf : Bytes) (o toOff : Nat) : Option Nat → Prop
  | found {m : Nat} (hle : o ≤ m) (hlt : m < toOff) (h : OccursAt t buf m)
      (hbefore : ∀ j, o ≤ j → j < m → ¬OccursAt t buf j) : Finds t buf o toOff (some m)
  | nothing (h : ∀ j, o ≤ j → j < toOff → ¬OccursAt t buf j) : Finds t buf o toOff none

section Loop

variable {buf rest : Bytes} {ch : UInt8} {n o toOff fuel m : Nat} {x : Option Nat}

theorem toSize_pred (hn : 0 < n) (h31 : n < 2 ^ 31) : toSize ((n : Int) - 1) = n - 1 := by
  rw [toSize, Int.emod_eq_of_lt (by omega) (by omega)]
  omega

theorem Finds.extend {t : Bytes} {o' : Nat} (hf : Finds t buf o' toOff x) (hle : o ≤ o')
    (hbetween : ∀ j, o ≤ j → j < o' → ¬OccursAt t buf j) : Finds t buf o toOff x := by
  have hbefore : ∀ {m : Nat}, (∀ j, o' ≤ j → j < m → ¬OccursAt t buf j) →
      ∀ j, o ≤ j → j < m → ¬OccursAt t buf j := by
    intro m hm j hoj hj
    by_cases hlt : j < o'
    · exact hbetween j hoj hlt
    · exact hm j (by omega) hj
  cases hf with
  | found h1 h2 h3 h4 => exact .found (by omega) h2 h3 (hbefore h4)
  | nothing h => exact .nothing (hbefore h)

/-- A loop that returns has searched the positions for the first `n` bytes of the text. -/
theorem findStrLoop_finds (hn : 0 < n) (h31 : n < 2 ^ 31) (hrest : n - 1 ≤ rest.length)
    (hfuel : toOff ≤ o + fuel) (h : findStrLoop buf (ch :: rest) n toOff fuel o = .ok x) :
    Finds (ch :: rest.take (n - 1)) buf o toOff x := by
  induction fuel generalizing o with
  | zero =>
    obtain rfl := Except.ok.inj h
    exact .nothing fun j hoj hj => absurd hj (by omega)
  | succ fuel ih =>
    rw [findStrLoop] at h
    split_ifs at h with hlt
    · obtain ⟨found, hchr, h⟩ := bind_eq_ok h
      cases found with
      | none =>
        obtain rfl := Except.ok.inj h
        obtain ⟨-, hout⟩ := memchr_eq_none.mp hchr
        exact .nothing fun j hoj hj hocc => hout (mem_window.mpr ⟨j, hoj, by omega, hocc.head⟩)
      | some m =>
        obtain ⟨hom, hm, hget, hbefore⟩ := memchr_eq_some hchr
        have hskip : ∀ j, o ≤ j → j < m → ¬OccursAt (ch :: rest.take (n - 1)) buf j :=
          fun j hoj hj hocc => hbefore j hoj hj hocc.head
        simp only [toSize_pred hn h31] at h
        obtain ⟨same, hcmp, h⟩ := bind_eq_ok h
        rw [memEqual] at hcmp
        split_ifs at hcmp with hin
        have hsame := Except.ok.inj hcmp
        have hocc : OccursAt (ch :: rest.take (n - 1)) buf m ↔ same = true := by
          rw [← hsame, occursAt_cons, List.length_take, Nat.min_eq_left hrest, decide_eq_true_eq,
            and_iff_right hget]
        cases same with
        | true =>
          obtain rfl := Except.ok.inj h
          exact .found hom (by omega) (hocc.mpr rfl) hskip
        | false =>
          refine (ih (by omega) h).extend (by omega) ?_
          intro j hoj hj
          by_cases hjm : j = m
          · rw [hjm, hocc]
            nofun
          · exact hskip j hoj (by omega)
    · obtain rfl := Except.ok.inj h
      exact .nothing fun j hoj hj => absurd hj (by omega)

/-- The loop returns when everything that it may compare can be read. -/
theorem findStrLoop_returns (hn : 0 < n) (h31 : n < 2 ^ 31) (hrest : n - 1 ≤ rest.length)
    (hread : toOff ≤ buf.length) (hwindow : ∀ m < toOff, buf[m]? = some ch → m + n ≤ buf.length) :
    ∃ x, findStrLoop buf (ch :: rest) n toOff fuel o = .ok x := by
  induction fuel generalizing o with
  | zero => exact ⟨none, rfl⟩
  | succ fuel ih =>
    rw [findStrLoop]
    split_ifs with hlt
    · cases hchr : memchr buf o ch (toOff - o) with
      | error e =>
        exfalso
        unfold memchr at hchr
        split at hchr
        · cases hchr
        · rw [if_pos (by omega)] at hchr
          cases hchr
      | ok found =>
        cases found with
        | none => exact ⟨none, rfl⟩
        | some m =>
          obtain ⟨-, hm, hget, -⟩ := memchr_eq_some hchr
          have hin := hwindow m (by omega) hget
          simp only [ok_bind, toSize_pred hn h31, memEqual]
          rw [if_pos ⟨by rw [List.length_drop]; omega, hrest⟩, ok_bind]
          split_ifs
          · exact ⟨some m, rfl⟩
          · exact ih
    · exact ⟨none, rfl⟩

/-- An occurrence ends the loop, whatever stands behind it. -/
theorem findStrLoop_of_occurs (hn : 0 < n) (h31 : n < 2 ^ 31) (hrest : n - 1 ≤ rest.length)
    (hfuel : toOff ≤ o + fuel) (ho : o ≤ m) (hm : m < toOff)
    (hocc : OccursAt (ch :: rest.take (n - 1)) buf m) :
    ∃ k, findStrLoop buf (ch :: rest) n toOff fuel o = .ok (some k) := by
  have hend := hocc.add_le (List.cons_ne_nil _ _)
  rw [List.length_cons, List.length_take, Nat.min_eq_left hrest] at hend
  induction fuel generalizing o with
  | zero => omega
  | succ fuel ih =>
    rw [findStrLoop, if_pos (by omega)]
    cases hchr : memchr buf o ch (toOff - o) with
    | error e =>
      exfalso
      unfold memchr at hchr
      split at hchr
      · cases hchr
      · rename_i hidx
        exact List.idxOf?_eq_none_iff.mp hidx (mem_window.mpr ⟨m, ho, by omega, hocc.head⟩)
    | ok found =>
      cases found with
      | none =>
        exact absurd (mem_window.mpr ⟨m, ho, by omega, hocc.head⟩) (memchr_eq_none.mp hchr).2
      | some k =>
        obtain ⟨hok, -, -, hbefore⟩ := memchr_eq_some hchr
        have hkm : k ≤ m := by
          by_contra hlt
          exact hbefore m ho (by omega) hocc.head
        simp only [ok_bind, toSize_pred hn h31, memEqual]
        rw [if_pos ⟨by rw [List.length_drop]; omega, hrest⟩, ok_bind]
        split_ifs with hsame
        · exact ⟨k, rfl⟩
        · apply ih (by omega)
          -- the bytes at `k` differ, so that the occurrence is behind it
          rcases Nat.lt_or_eq_of_le hkm with hlt | rfl
          · exact hlt
          · exfalso
            have hmatch := (occursAt_cons.mp hocc).2
            rw [List.length_take, Nat.min_eq_left hrest] at hmatch
            exact hsame (by simpa using hmatch)

/-- A loop that finds nothing has compared at every position of the first byte. -/
theorem findStrLoop_none_window (hn : 0 < n) (h31 : n < 2 ^ 31) (hfuel : toOff ≤ o + fuel)
    (h : findStrLoop buf (ch :: rest) n toOff fuel o = .ok none) (ho : o ≤ m) (hm : m < toOff)
    (hget : buf[m]? = some ch) : m + n ≤ buf.length := by
  induction fuel generalizing o with
  | zero => omega
  | succ fuel ih =>
    rw [findStrLoop, if_pos (by omega)] at h
    obtain ⟨found, hchr, h⟩ := bind_eq_ok h
    cases found with
    | none => exact absurd (mem_window.mpr ⟨m, ho, by omega, hget⟩) (memchr_eq_none.mp hchr).2
    | some k =>
      obtain ⟨hok, -, hgetk, hbefore⟩ := memchr_eq_some hchr
      obtain ⟨hk, -⟩ := List.getElem?_eq_some_iff.mp hgetk
      simp only [toSize_pred hn h31] at h
      obtain ⟨same, hcmp, h⟩ := bind_eq_ok h
      rw [memEqual] at hcmp
      split_ifs at hcmp with hin
      rw [List.length_drop] at hin
      cases same with
      | true => cases h
      | false =>
        by_cases hkm : k = m
        · omega
        · have hlt : k < m := by
            by_contra hge
            exact hbefore m ho (by omega) hget
          exact ih (by omega) h (by omega)

/-- A loop that finds nothing has read all of its positions. -/
theorem findStrLoop_none_le {textLen : Int} (hfuel : toOff ≤ o + fuel) (ho : o ≤ buf.length)
    (h : findStrLoop buf (ch :: rest) textLen toOff fuel o = .ok none) : toOff ≤ buf.length := by
  induction fuel generalizing o with
  | zero => omega
  | succ fuel ih =>
    rw [findStrLoop] at h
    split_ifs at h with hlt
    · obtain ⟨found, hchr, h⟩ := bind_eq_ok h
      cases found with
      | none =>
        obtain ⟨hle, -⟩ := memchr_eq_none.mp hchr
        omega
      | some m =>
        obtain ⟨hom, -, hget, -⟩ := memchr_eq_some hchr
        obtain ⟨hm, -⟩ := List.getElem?_eq_some_iff.mp hget
        obtain ⟨same, -, h⟩ := bind_eq_ok h
        cases same with
        | true => cases h
        | false => exact ih (by omega) (by omega) h
    · omega

/-- With a negative length, which is a huge size, the loop returns only if the first byte is not
there. -/
theorem findStrLoop_negative {textLen : Int} (hneg : toSize (textLen - 1) > buf.length) :
    findStrLoop buf (ch :: rest) textLen toOff fuel o = .ok x ↔
      x = none ∧ (o < toOff → 0 < fuel → memchr buf o ch (toOff - o) = .ok none) := by
  cases fuel with
  | zero =>
    constructor
    · intro h
      exact ⟨(Except.ok.inj h).symm, fun _ h0 => absurd h0 (Nat.lt_irrefl 0)⟩
    · rintro ⟨rfl, -⟩
      rfl
  | succ fuel =>
    rw [findStrLoop]
    split_ifs with hlt
    · constructor
      · intro h
        obtain ⟨found, hchr, h⟩ := bind_eq_ok h
        cases found with
        | none => exact ⟨(Except.ok.inj h).symm, fun _ _ => hchr⟩
        | some m =>
          obtain ⟨same, hcmp, -⟩ := bind_eq_ok h
          rw [memEqual, if_neg (by rw [List.length_drop]; omega)] at hcmp
          cases hcmp
      · rintro ⟨rfl, hchr⟩
        rw [hchr hlt (Nat.succ_pos fuel)]
        rfl
    · constructor
      · intro h
        exact ⟨(Except.ok.inj h).symm, fun h => absurd h hlt⟩
      · rintro ⟨rfl, -⟩
        rfl

end Loop

/-! ## The search -/

section Search

variable {buf text : Bytes} {textLen : Int} {n buflen f : Nat}

theorem findStr_eq_ok : findStr buf buflen text textLen false = .ok f ↔
    ∃ x, findStrLoop buf text textLen (toU32 (buflen - textLen + 1)) (toU32 (buflen - textLen + 1))
      0 = .ok x ∧
      f = x.getD buflen := by
  rw [findStr]
  constructor
  · intro h
    obtain ⟨x, hx, h⟩ := bind_eq_ok h
    refine ⟨x, hx, ?_⟩
    cases x with
    | none => exact (Except.ok.inj h).symm
    | some o => exact (Except.ok.inj h).symm
  · rintro ⟨x, hx, rfl⟩
    simp only [hx, ok_bind]
    cases x with
    | none => rfl
    | some o => rfl

theorem toU32_bound (hn : n ≤ buflen + 1) (h0 : 0 < n) (hlt : buflen < 2 ^ 32) :
    toU32 ((buflen : Int) - n + 1) = buflen + 1 - n := by
  rw [toU32_of_nonneg (by omega) (by omega)]
  omega

/-- The bound of a text that is longer than the range. -/
theorem toU32_bound_wraps (hn : buflen + 2 ≤ n) (hlt : n < 2 ^ 32) :
    toU32 ((buflen : Int) - n + 1) = 2 ^ 32 + buflen + 1 - n := by
  rw [toU32, ← Int.add_emod_right, Int.emod_eq_of_lt (by omega) (by omega)]
  omega

/-- What a search returns is the length of the range, or the first position of the text in all
that can be read. -/
theorem findStr_finds (hn : 0 < n) (h31 : n < 2 ^ 31) (htext : n ≤ text.length)
    (h : findStr buf buflen text n false = .ok f) : f = buflen ∨ FirstAt (text.take n) buf f := by
  obtain ⟨x, hx, rfl⟩ := findStr_eq_ok.mp h
  cases text with
  | nil =>
    rw [List.length_nil] at htext
    omega
  | cons ch rest =>
    rw [List.length_cons] at htext
    have hfinds := findStrLoop_finds hn h31 (by omega) (by omega) hx
    rw [List.take_cons hn]
    cases hfinds with
    | nothing => exact .inl rfl
    | found _ _ hocc hbefore => exact .inr ⟨hocc, fun j hj => hbefore j (Nat.zero_le j) hj⟩

/-- The text is at most one byte longer than the range: the search finds its first position in
the range. -/
theorem findStr_fits (hn : 0 < n) (h31 : n < 2 ^ 31) (htext : n ≤ text.length)
    (hfit : n ≤ buflen + 1) (hbuf : buflen ≤ buf.length) (hlt : buflen < 2 ^ 32) :
    findStr buf buflen text n false =
      .ok ((first? (text.take n) (buf.take buflen)).getD buflen) := by
  have hlen : (text.take n).length = n := by
    rw [List.length_take, Nat.min_eq_left htext]
  cases text with
  | nil =>
    rw [List.length_nil] at htext
    omega
  | cons ch rest =>
    rw [List.length_cons] at htext
    apply findStr_eq_ok.mpr
    rw [toU32_bound hfit hn hlt]
    have hreturns : ∃ x, findStrLoop buf (ch :: rest) n (buflen + 1 - n) (buflen + 1 - n) 0 =
        .ok x :=
      findStrLoop_returns hn h31 (by omega) (by omega) (fun m hm _ => by omega)
    obtain ⟨x, hx⟩ := hreturns
    refine ⟨x, hx, ?_⟩
    have hfinds := findStrLoop_finds hn h31 (by omega) (by omega) hx
    rw [List.take_cons hn] at hlen ⊢
    cases hfinds with
    | found _ hm hocc hbefore =>
      rw [first?_eq_some.mpr ⟨(occursAt_take (by omega)).mpr hocc,
        fun j hj hj' => hbefore j (Nat.zero_le j) hj hj'.of_take⟩]
    | nothing hnone =>
      rw [first?_eq_none.mpr]
      intro hin
      obtain ⟨j, hj⟩ := infix_iff_occursAt.mp hin
      have hle := hj.add_le (List.cons_ne_nil _ _)
      rw [List.length_take] at hle
      exact hnone j (Nat.zero_le j) (by omega) hj.of_take

/-- How a search of `buflen` bytes without the text ends behind them: at once, or with the first
position in all that can be read, or after the whole range of the bound that has wrapped around. -/
def QuietTail (t buf : Bytes) (buflen : Nat) : Prop :=
  t.length ≤ buflen + 1 ∨ (∃ m, buflen ≤ m ∧ FirstAt t buf m) ∨
    (¬t <:+: buf ∧ 2 ^ 32 + buflen + 1 - t.length ≤ buf.length ∧
      ∀ m < 2 ^ 32 + buflen + 1 - t.length, buf[m]? = t.head? → m + t.length ≤ buf.length)

/-- A match that starts in a range without the text ends behind it. -/
theorem findStr_overrun (hn : 0 < n) (h31 : n < 2 ^ 31) (htext : n ≤ text.length)
    (hout : ¬text.take n <:+: buf.take buflen) (hf : findStr buf buflen text n false = .ok f)
    (hlt : f < buflen) :
    buflen < f + n ∧ f + n ≤ buf.length := by
  have hlen : (text.take n).length = n := by
    rw [List.length_take, Nat.min_eq_left htext]
  rcases findStr_finds hn h31 htext hf with rfl | hfirst
  · exact absurd hlt (Nat.lt_irrefl _)
  · have hle := hfirst.occurs.add_le
        (by rintro h; rw [h] at hlen; exact absurd hlen.symm (Nat.ne_of_gt hn))
    rw [hlen] at hle
    refine ⟨?_, hle⟩
    by_contra hin
    exact hout (infix_iff_occursAt.mpr ⟨f, (occursAt_take (by omega)).mpr hfirst.occurs⟩)

theorem findStr_quiet_iff (hn : 0 < n) (h31 : n < 2 ^ 31) (htext : n ≤ text.length)
    (hbuf : buflen ≤ buf.length) (hblock : buf.length ≤ 2 ^ 32) (hlt : buflen < 2 ^ 32)
    (hout : ¬text.take n <:+: buf.take buflen) :
    (∃ f, findStr buf buflen text n false = .ok f ∧ buflen ≤ f) ↔
      QuietTail (text.take n) buf buflen := by
  have hlen : (text.take n).length = n := by
    rw [List.length_take, Nat.min_eq_left htext]
  by_cases hfit : n ≤ buflen + 1
  · refine iff_of_true ⟨buflen, ?_, Nat.le_refl _⟩ (.inl (by omega))
    rw [findStr_fits hn h31 htext hfit hbuf hlt, first?_eq_none.mpr hout, Option.getD_none]
  · have hwraps := toU32_bound_wraps (show buflen + 2 ≤ n by omega) (by omega)
    cases text with
    | nil =>
      rw [List.length_nil] at htext
      omega
    | cons ch rest =>
      rw [List.length_cons] at htext
      have hrest : n - 1 ≤ rest.length := by omega
      rw [List.take_cons hn] at hlen ⊢
      rw [QuietTail, hlen, List.head?_cons]
      constructor
      · rintro ⟨f, hf, hle⟩
        obtain ⟨x, hx, rfl⟩ := findStr_eq_ok.mp hf
        rw [hwraps] at hx
        have hfinds := findStrLoop_finds hn h31 hrest (by omega) hx
        refine .inr ?_
        cases hfinds with
        | found _ _ hocc hbefore =>
          exact .inl ⟨_, hle, hocc, fun j hj => hbefore j (Nat.zero_le j) hj⟩
        | nothing hnone =>
          have hread := findStrLoop_none_le (by omega) (Nat.zero_le _) hx
          refine .inr ⟨?_, hread, ?_⟩
          · intro hin
            obtain ⟨j, hj⟩ := infix_iff_occursAt.mp hin
            have hend := hj.add_le (List.cons_ne_nil _ _)
            exact hnone j (Nat.zero_le j) (by omega) hj
          · intro m hm hget
            exact findStrLoop_none_window hn h31 (by omega) hx (Nat.zero_le m) hm hget
      · rintro (hle | ⟨m, hle, hfirst⟩ | ⟨hnone, hread, hwindow⟩)
        · omega
        · have hend := hfirst.occurs.add_le (List.cons_ne_nil _ _)
          rw [hlen] at hend
          have hfound : ∃ k, findStrLoop buf (ch :: rest) n (2 ^ 32 + buflen + 1 - n)
              (2 ^ 32 + buflen + 1 - n) 0 =
              .ok (some k) :=
            findStrLoop_of_occurs hn h31 hrest (by omega) (Nat.zero_le m) (by omega) hfirst.occurs
          obtain ⟨k, hk⟩ := hfound
          refine ⟨k, findStr_eq_ok.mpr ⟨some k, by rw [hwraps]; exact hk, rfl⟩, ?_⟩
          cases findStrLoop_finds hn h31 hrest (by omega) hk with
          | found _ _ hocc hbefore =>
            have hfirst' : FirstAt (ch :: rest.take (n - 1)) buf k :=
              ⟨hocc, fun j hj => hbefore j (Nat.zero_le j) hj⟩
            rw [hfirst'.unique hfirst]
            exact hle
        · have hreturns : ∃ x, findStrLoop buf (ch :: rest) n (2 ^ 32 + buflen + 1 - n)
              (2 ^ 32 + buflen + 1 - n) 0 =
              .ok x :=
            findStrLoop_returns hn h31 hrest hread fun m hm hget => hwindow m hm hget
          obtain ⟨x, hx⟩ := hreturns
          refine ⟨x.getD buflen, findStr_eq_ok.mpr ⟨x, by rw [hwraps]; exact hx, rfl⟩, ?_⟩
          cases findStrLoop_finds hn h31 hrest (by omega) hx with
          | found _ _ hocc _ => exact absurd (infix_iff_occursAt.mpr ⟨_, hocc⟩) hnone
          | nothing _ => exact Nat.le_refl _

/-! ## Texts of any length -/

theorem toI32_of_lt (h : n < 2 ^ 31) : toI32 n = n := by
  rw [toI32, u32_of_lt (by omega), if_pos h]

theorem toI32_of_ge (h : 2 ^ 31 ≤ n) (hlt : n < 2 ^ 32) : toI32 n = (n : Int) - 2 ^ 32 := by
  rw [toI32, u32_of_lt hlt, if_neg (by omega)]

theorem toU32_sub_toI32 (hlt : n < 2 ^ 32) :
    toU32 ((buflen : Int) - toI32 n + 1) = toU32 ((buflen : Int) - n + 1) := by
  by_cases h : n < 2 ^ 31
  · rw [toI32_of_lt h]
  · rw [toI32_of_ge (by omega) hlt, toU32, toU32]
    congr 1
    omega

/-- A negative length is a size that nothing has. -/
theorem toSize_negative (h : 2 ^ 31 ≤ n) (hlt : n < 2 ^ 32) : 2 ^ 63 ≤ toSize (toI32 n - 1) := by
  rw [toI32_of_ge h hlt, toSize, ← Int.add_emod_right, Int.emod_eq_of_lt (by omega) (by omega)]
  omega

/-- The first byte of the text is not among the first `n` bytes. -/
def HeadAbsent (text w : Bytes) (n : Nat) : Prop := ∀ ch, text.head? = some ch → ch ∉ w.take n

theorem HeadAbsent.missing {w : Bytes} (hn : 0 < n) (htext : n ≤ text.length)
    (h : HeadAbsent text w (w.length + 1 - n)) : ¬text.take n <:+: w := by
  intro hin
  obtain ⟨j, hj⟩ := infix_iff_occursAt.mp hin
  cases text with
  | nil =>
    rw [List.length_nil] at htext
    omega
  | cons ch rest =>
    have hlen : ((ch :: rest).take n).length = n := by
      rw [List.length_take, Nat.min_eq_left htext]
    rw [List.take_cons hn] at hj hlen
    have hle := hj.add_le (List.cons_ne_nil _ _)
    exact h ch rfl (mem_window.mpr ⟨j, Nat.zero_le j, by omega, hj.head⟩)

/-- A search for a text with a negative length. -/
theorem findStr_negative (h31 : 2 ^ 31 ≤ n) (h32 : n < 2 ^ 32) (htext : n ≤ text.length)
    (hbuf : buf.length ≤ 2 ^ 32) :
    findStr buf buflen text (toI32 n) false = .ok f ↔ f = buflen ∧
      (toU32 ((buflen : Int) - n + 1) ≤ buf.length ∧
        HeadAbsent text buf (toU32 ((buflen : Int) - n + 1))) := by
  have hneg := toSize_negative h31 h32
  rw [findStr_eq_ok, toU32_sub_toI32 h32]
  generalize toU32 ((buflen : Int) - n + 1) = toOff
  cases text with
  | nil =>
    rw [List.length_nil] at htext
    omega
  | cons ch rest =>
    have hiff : (0 < toOff → 0 < toOff → memchr buf 0 ch (toOff - 0) = .ok none) ↔
        toOff ≤ buf.length ∧ HeadAbsent (ch :: rest) buf toOff := by
      rw [memchr_eq_none, Nat.sub_zero, Nat.zero_add, List.drop_zero]
      constructor
      · intro h
        by_cases h0 : 0 < toOff
        · obtain ⟨hle, hout⟩ := h h0 h0
          refine ⟨hle, ?_⟩
          rintro _ ⟨⟩
          exact hout
        · obtain rfl : toOff = 0 := by omega
          refine ⟨Nat.zero_le _, ?_⟩
          intro _ _
          rw [List.take_zero]
          exact List.not_mem_nil
      · rintro ⟨hle, hout⟩ - -
        exact ⟨hle, hout ch rfl⟩
    rw [← hiff]
    constructor
    · rintro ⟨x, hx, rfl⟩
      obtain ⟨rfl, hchr⟩ := (findStrLoop_negative (by omega)).mp hx
      exact ⟨rfl, hchr⟩
    · rintro ⟨rfl, hchr⟩
      exact ⟨none, (findStrLoop_negative (by omega)).mpr ⟨rfl, hchr⟩, rfl⟩

/-- A text with a negative length that is searched for is not there. -/
theorem HeadAbsent.not_infix_range (hn : 0 < n) (hlt : n < 2 ^ 32) (htext : n ≤ text.length)
    (hbuf : buflen ≤ buf.length) (hbuflen : buflen < 2 ^ 32)
    (h : HeadAbsent text buf (toU32 ((buflen : Int) - n + 1))) :
    ¬text.take n <:+: buf.take buflen := by
  intro hin
  have hle := hin.length_le
  rw [List.length_take, List.length_take, Nat.min_eq_left htext, Nat.min_eq_left hbuf] at hle
  rw [toU32_bound (by omega) hn hbuflen] at h
  have hrange : HeadAbsent text (buf.take buflen) ((buf.take buflen).length + 1 - n) := by
    rw [List.length_take, Nat.min_eq_left hbuf, HeadAbsent, List.take_take,
      Nat.min_eq_left (by omega)]
    exact h
  exact hrange.missing hn htext hin

/-- A search that can read nothing but the range it searches. -/
theorem findStr_within {w : Bytes} (hn : 0 < n) (h32 : n < 2 ^ 32) (htext : n ≤ text.length)
    (hlt : w.length < 2 ^ 32) :
    findStr w w.length text (toI32 n) false = .ok f ↔ n ≤ w.length + 1 ∧
      (2 ^ 31 ≤ n → HeadAbsent text w (w.length + 1 - n)) ∧
        f = (first? (text.take n) w).getD w.length := by
  by_cases h31 : n < 2 ^ 31
  · rw [toI32_of_lt h31]
    by_cases hfit : n ≤ w.length + 1
    · rw [findStr_fits hn h31 htext hfit (Nat.le_refl _) hlt, List.take_length]
      constructor
      · intro h
        exact ⟨hfit, fun hbig => absurd hbig (by omega), (Except.ok.inj h).symm⟩
      · rintro ⟨-, -, rfl⟩
        rfl
    · -- the bound has wrapped around: the search runs out of the range
      refine iff_of_false ?_ fun h => hfit h.1
      intro h
      obtain ⟨x, hx, -⟩ := findStr_eq_ok.mp h
      rw [toU32_bound_wraps (by omega) h32] at hx
      cases text with
      | nil =>
        rw [List.length_nil] at htext
        omega
      | cons ch rest =>
        have hlen : ((ch :: rest).take n).length = n := by
          rw [List.length_take, Nat.min_eq_left htext]
        rw [List.take_cons hn] at hlen
        rw [List.length_cons] at htext
        cases findStrLoop_finds hn h31 (by omega) (by omega) hx with
        | found _ _ hocc _ =>
          have := hocc.add_le (List.cons_ne_nil _ _)
          omega
        | nothing =>
          have := findStrLoop_none_le (by omega) (Nat.zero_le _) hx
          omega
  · rw [findStr_negative (by omega) h32 htext (by omega)]
    by_cases hfit : n ≤ w.length + 1
    · rw [toU32_bound hfit hn hlt]
      constructor
      · rintro ⟨rfl, -, habs⟩
        refine ⟨hfit, fun _ => habs, ?_⟩
        rw [first?_eq_none.mpr (habs.missing hn htext)]
        rfl
      · rintro ⟨-, habs, rfl⟩
        have habs := habs (by omega)
        rw [first?_eq_none.mpr (habs.missing hn htext)]
        exact ⟨rfl, by omega, habs⟩
    · rw [toU32_bound_wraps (by omega) h32]
      exact iff_of_false (fun h => by omega) fun h => hfit h.1

/-- The same search where more can be read. -/
theorem findStr_of_within (hn : 0 < n) (h32 : n < 2 ^ 32) (htext : n ≤ text.length)
    (hbuf : buflen ≤ buf.length) (hlt : buflen < 2 ^ 32) (hlen : buf.length ≤ 2 ^ 32)
    (h : findStr (buf.take buflen) buflen text (toI32 n) false = .ok f) :
    findStr buf buflen text (toI32 n) false = .ok f := by
  have hw : (buf.take buflen).length = buflen := by
    rw [List.length_take, Nat.min_eq_left hbuf]
  obtain ⟨hfit, habs, rfl⟩ := (findStr_within (w := buf.take buflen) hn h32 htext (by omega)).mp
    (by rw [hw]; exact h)
  rw [hw] at hfit habs ⊢
  by_cases h31 : n < 2 ^ 31
  · rw [toI32_of_lt h31]
    exact findStr_fits hn h31 htext hfit hbuf hlt
  · have habs := habs (by omega)
    rw [findStr_negative (by omega) h32 htext hlen, toU32_bound hfit hn hlt]
    rw [first?_eq_none.mpr (HeadAbsent.missing hn htext (by rw [hw]; exact habs))]
    refine ⟨rfl, by omega, ?_⟩
    rw [HeadAbsent, List.take_take, Nat.min_eq_left (by omega)] at habs
    exact habs

end Search

end StringHeap

end Libacorn
