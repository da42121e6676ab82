import Libacorn.JsString
import Libacorn.StringSlice
import Libacorn.StringSubstr
import Libacorn.Support.LongestPrefix

/-!
# readIdentifier, readNumber and readToEndOfLine

Each reads one character too far and rewinds. The predicates take a `char`, so they see
the lowest byte of a character, and a NUL is rewound over although nothing was read.
`scanners_iff`: what comes behind the run decides whether the cursor stops there.
-/

namespace Libacorn

open Support

/-! ## The source -/

/-- Conversion of a `char32_t` to a `char`. -/
def charOf (c : Nat) : UInt8 := UInt8.ofNat c

/-- `isDigit`. A `char` is signed, and a negative one is in none of the ranges. -/
def isDigit (ch : UInt8) : Bool := UInt8.ofNat '0'.toNat ≤ ch ∧ ch ≤ UInt8.ofNat '9'.toNat

/-- `isIdentifierChar` -/
def isIdentifierChar (ch : UInt8) : Bool :=
  (UInt8.ofNat 'A'.toNat ≤ ch ∧ ch ≤ UInt8.ofNat 'Z'.toNat) ∨
    (UInt8.ofNat 'a'.toNat ≤ ch ∧ ch ≤ UInt8.ofNat 'z'.toNat) ∨ isDigit ch ∨
    ch = UInt8.ofNat '_'.toNat ∨ ch = UInt8.ofNat '-'.toNat ∨ ch = UInt8.ofNat '@'.toNat

/-- The body of a scanner's loop: what it keeps from one character to the next, and which ones it
goes on at. -/
structure Scanner (σ : Type) where
  start : σ
  accepts : σ → Nat → Option σ

/-- The loop of `readIdentifier`. -/
def identifiers : Scanner Unit where
  start := ()
  accepts _ ch := if !isIdentifierChar (charOf ch) then none else some ()

/-- The loop of `readNumber`; it keeps `seenDecimalPoint`. -/
def numbers : Scanner Bool where
  start := false
  accepts seenDecimalPoint ch :=
    if isDigit (charOf ch) then some seenDecimalPoint
    else if ch = '.'.toNat ∧ !seenDecimalPoint then some true
    else none

/-- The loop of `readToEndOfLine`. -/
def lines : Scanner Unit where
  start := ()
  accepts _ ch := if ch = '\r'.toNat ∨ ch = '\n'.toNat then none else some ()

section Scan

variable {σ : Type} (s : Text) (k : Scanner σ)

/-- The loop from an offset on, with at most `n` rounds: the offset where it ends. -/
def Text.scan : Nat → σ → Nat → Outcome Nat
  | 0, _, _ => .timeout
  | n + 1, st, o =>
    if o < s.cb then
      (s.readUtf8 o).bind fun r =>
      match k.accepts st r.1 with
      | some st' => Text.scan n st' r.2
      | none => s.rewind r.2
    else .done o

end Scan

namespace StringHeap

section Source

variable {σ : Type}

/-- The loop on a handle. -/
def scanFrom (H : Heap) (h : Handle) (k : Scanner σ) (start fuel : Nat) :
    Except Fault (Option Nat) :=
  match (textOf H h).map fun s => s.scan k fuel k.start start with
  | some (Outcome.done o) => .ok (some o)
  | some Outcome.timeout => .ok none
  | _ => .error .bounds

/-- A scanner returns `string(*this, start, stop)` and the new offset. -/
def readRun (H : Heap) (h : Handle) (k : Scanner σ) (stop : Nat → Nat) (start fuel : Nat) :
    Except Fault (Option ((Heap × Handle) × Nat)) := do
  match ← scanFrom H h k start fuel with
  | some o => return some (← sliceOf H h start (stop o), o)
  | none => return none

def readIdentifier (H : Heap) (h : Handle) (o fuel : Nat) := readRun H h identifiers id o fuel

def readNumber (H : Heap) (h : Handle) (o fuel : Nat) := readRun H h numbers id o fuel

/-- `readToEndOfLine`; the piece ends at `_offset`. -/
def readToEndOfLine (H : Heap) (h : Handle) (o fuel : Nat) :=
    readRun H h lines (fun _ => h.offset) o fuel

end Source

end StringHeap

/-! ## Runs -/

/-- Bytes of identifiers. -/
def IdentifierBytes (w : Bytes) : Prop := ∀ b ∈ w, isIdentifierChar b = true

/-- Digits, and at most one point. -/
def NumberBytes (w : Bytes) : Prop :=
  (∀ b ∈ w, isDigit b = true ∨ b = UInt8.ofNat '.'.toNat) ∧ w.count (UInt8.ofNat '.'.toNat) ≤ 1

/-- Neither CR nor LF. -/
def LineBytes (w : Bytes) : Prop := ∀ b ∈ w, b ≠ UInt8.ofNat '\r'.toNat ∧ b ≠ UInt8.ofNat '\n'.toNat

instance (w : Bytes) : Decidable (IdentifierBytes w) := List.decidableBAll _ w
instance (w : Bytes) : Decidable (NumberBytes w) := @instDecidableAnd _ _ (List.decidableBAll _ w) _
instance (w : Bytes) : Decidable (LineBytes w) := List.decidableBAll _ w

/-- A property of runs of bytes: a run ends between two characters. -/
structure RunProperty (P : Bytes → Prop) : Prop where
  nil : P []
  closed : ∀ u v, P (u ++ v) → P u
  whole : ∀ {cs : List Char} {c : Char} {b : UInt8} {t : Bytes}, utf8 [c] = b :: t →
    P (utf8 cs ++ [b]) →
    P (utf8 (cs ++ [c]))

/-- An ASCII character is its own byte; no other has an ASCII byte. -/
theorem utf8_char (c : Char) :
    (c.toNat < 128 ∧ utf8 [c] = [charOf c.toNat]) ∨
      (128 ≤ c.toNat ∧ ∀ b ∈ utf8 [c], 128 ≤ b.toNat) := by
  rcases Nat.lt_or_ge c.toNat 128 with h | h
  · left
    refine ⟨h, ?_⟩
    rw [utf8_singleton, Glyph.ofChar, Glyph.ofCode, if_pos (by omega)]
    change [UInt8.ofNat (c.toNat % 128)] = _
    rw [Nat.mod_eq_of_lt h, charOf]
  · right
    refine ⟨h, ?_⟩
    obtain ⟨hhead, -, htail⟩ := ofChar_shape h
    intro b hb
    rw [utf8_singleton, Glyph.bytes, List.mem_cons] at hb
    rcases hb with rfl | hb
    · omega
    · exact (of_decide_eq_true (htail b hb)).1

theorem utf8_char_ne_nil (c : Char) : utf8 [c] ≠ [] := by
  rw [ne_eq, utf8_eq_nil]
  exact List.cons_ne_nil c []

section Runs

variable {P : Bytes → Prop} {R tail : List Char} {c : Char}

/-- The longest run of a text. -/
theorem RunProperty.longest (hP : RunProperty P) (hR : P (utf8 R))
    (hstuck : ∀ c t, tail = c :: t → ¬P (utf8 (R ++ [c]))) :
    Longest P (utf8 (R ++ tail)) (utf8 R) := by
  refine Longest.of_stuck hP.closed (utf8_append R tail).symm hR ?_
  intro b t hb hmore
  cases tail with
  | nil => cases hb
  | cons c tail =>
    rw [utf8_cons] at hb
    obtain ⟨b', t', hbytes⟩ := List.exists_cons_of_ne_nil (utf8_char_ne_nil c)
    rw [hbytes, List.cons_append, List.cons.injEq] at hb
    obtain ⟨rfl, -⟩ := hb
    exact hstuck c tail rfl (hP.whole hbytes hmore)

theorem RunProperty.exists_longest (hP : RunProperty P) (post : List Char) :
    ∃ R tail, post = R ++ tail ∧ Longest P (utf8 post) (utf8 R) := by
  obtain ⟨R, tail, hsplit, hR, hstuck⟩ := exists_stuck (P := fun cs => P (utf8 cs)) (p := []) hP.nil
      post
  rw [List.nil_append] at hsplit
  refine ⟨R, tail, hsplit, ?_⟩
  rw [hsplit]
  exact hP.longest hR hstuck

/-- The character behind the longest run cannot be added to it. -/
theorem Longest.stuck_char (h : Longest P (utf8 (R ++ c :: tail)) (utf8 R)) :
    ¬P (utf8 (R ++ [c])) := by
  rw [utf8_append]
  apply h.stuck (utf8_char_ne_nil c)
  refine ⟨utf8 tail, ?_⟩
  rw [← utf8_append, ← utf8_append, List.append_assoc]
  rfl

end Runs

/-! ## The loop -/

/-- Some characters, none of them a NUL, on which the loop goes from one state to the other. -/
inductive Scanner.Goes {σ : Type} (k : Scanner σ) : σ → List Char → σ → Prop
  | nil (st : σ) : Goes k st [] st
  | cons {st st' st'' : σ} {c : Char} {cs : List Char} (hc : c.toNat ≠ 0)
    (h : k.accepts st c.toNat = some st')
    (ht : Goes k st' cs st'') : Goes k st (c :: cs) st''

section Loop

variable {σ : Type} {s : Text} {k : Scanner σ} {st st' : σ} {pre post R tail : List Char} {c : Char}
  {n o o' : Nat}

theorem Text.scan_end (hc : s.content = utf8 pre) (n : Nat) (st : σ) :
    s.scan k (n + 1) st (utf8 pre).length = .done (utf8 pre).length := by
  rw [Text.scan, ← hc, s.length_content, if_neg (Nat.lt_irrefl _)]

/-- A round of the loop. -/
theorem Text.scan_char (hc : s.content = utf8 (pre ++ c :: post)) (hne : c.toNat ≠ 0) (n : Nat)
    (st : σ) :
    s.scan k (n + 1) st (utf8 pre).length =
      match k.accepts st c.toNat with
      | some st' => s.scan k n st' (utf8 (pre ++ [c])).length
      | none => .done (utf8 pre).length := by
  obtain ⟨hlt, hle⟩ := Text.length_concat_le hc
  rw [Text.scan, if_pos (by omega), Text.readUtf8_char hc, if_neg hne, Outcome.bind_done]
  cases k.accepts st c.toNat with
  | some st' => rfl
  | none => exact Text.rewind_char hc

/-- A round of the loop at a NUL, which moves back. -/
theorem Text.scan_nul (hc : s.content = utf8 (pre ++ c :: post)) (hz : c.toNat = 0) (n : Nat)
    (st : σ) :
    s.scan k (n + 1) st (utf8 pre).length =
      match k.accepts st 0 with
      | some st' => s.scan k n st' (utf8 pre).length
      | none => s.rewind (utf8 pre).length := by
  obtain ⟨hlt, hle⟩ := Text.length_concat_le hc
  rw [Text.scan, if_pos (by omega), Text.readUtf8_char hc, if_pos hz, Outcome.bind_done, hz]

/-- More rounds change nothing. -/
theorem Text.scan_mono (h : s.scan k n st o = .done o') (m : Nat) :
    s.scan k (n + m) st o = .done o' := by
  induction n generalizing st o with
  | zero => cases h
  | succ n ih =>
    rw [Nat.succ_add]
    rw [Text.scan] at h ⊢
    split at h
    next hlt =>
      rw [if_pos hlt]
      obtain ⟨r, hread, h⟩ := Outcome.bind_eq_done h
      rw [hread, Outcome.bind_done]
      cases hacc : k.accepts st r.1 with
      | some st' =>
        rw [hacc] at h
        exact ih h
      | none =>
        rw [hacc] at h
        exact h
    next hge =>
      rw [if_neg hge]
      exact h

/-- The rounds over a run. -/
theorem Text.scan_goes (hc : s.content = utf8 (pre ++ (R ++ tail))) (hgo : k.Goes st R st')
    (n : Nat) :
    s.scan k (n + R.length) st (utf8 pre).length = s.scan k n st' (utf8 (pre ++ R)).length := by
  induction hgo generalizing pre with
  | nil st => rw [List.append_nil]; rfl
  | @cons st st₁ st' c R hne hacc hgo ih =>
    rw [List.length_cons, ← Nat.add_assoc, Text.scan_char hc hne, hacc]
    have hnext : s.content = utf8 ((pre ++ [c]) ++ (R ++ tail)) := by
      rw [hc, List.append_assoc]
      rfl
    have hrun := ih hnext
    rw [List.append_assoc] at hrun
    exact hrun

/-- Behind a run only the rounds from there on matter. -/
theorem Text.scan_goes_iff (hc : s.content = utf8 (pre ++ (R ++ tail))) (hgo : k.Goes st R st') :
    (∃ n, s.scan k n st (utf8 pre).length = .done o) ↔
      ∃ n, s.scan k (n + 1) st' (utf8 (pre ++ R)).length = .done o := by
  constructor
  · rintro ⟨n, h⟩
    have hmore := Text.scan_mono h (1 + R.length)
    rw [← Nat.add_assoc, Text.scan_goes hc hgo] at hmore
    exact ⟨n, hmore⟩
  · rintro ⟨n, h⟩
    exact ⟨n + 1 + R.length, (Text.scan_goes hc hgo (n + 1)).trans h⟩

/-- Where the loop does not go on at a NUL, it ends behind its first character, or at it, unless
that is a NUL. -/
theorem Text.le_of_scan (hnul : ∀ st, k.accepts st 0 = none) (hc : s.content = utf8 (pre ++ post))
    (h : s.scan k n st (utf8 pre).length = .done o) :
    (utf8 pre).length ≤ o ∨ ∃ c t, post = c :: t ∧ c.toNat = 0 := by
  induction n generalizing pre post st with
  | zero => cases h
  | succ n ih =>
    cases post with
    | nil =>
      rw [List.append_nil] at hc
      rw [Text.scan_end hc] at h
      exact .inl (Nat.le_of_eq (Outcome.done.inj h))
    | cons c post =>
      by_cases hz : c.toNat = 0
      · exact .inr ⟨c, post, rfl, hz⟩
      · left
        rw [Text.scan_char hc hz] at h
        cases hacc : k.accepts st c.toNat with
        | none =>
          rw [hacc] at h
          exact Nat.le_of_eq (Outcome.done.inj h)
        | some st' =>
          rw [hacc] at h
          change s.scan k n st' _ = _ at h
          obtain ⟨hlt, -⟩ := Text.length_concat_le hc
          have hnext : s.content = utf8 ((pre ++ [c]) ++ post) := by
            rw [hc, List.append_assoc]
            rfl
          rcases ih hnext h with hle | ⟨d, t, rfl, hd⟩
          · omega
          · -- the NUL takes the loop back over this character
            cases n with
            | zero => cases h
            | succ n =>
              rw [Text.scan_nul hnext hd, hnul] at h
              exact Nat.le_of_eq (Outcome.done.inj ((Text.rewind_char hc).symm.trans h))

end Loop

/-! ## Where the loop stops -/

/-- The loop takes every run, and behind one it goes on exactly at what looks like a part of it in
its lowest byte. It does not go on at a NUL. -/
structure Scanner.Takes {σ : Type} (k : Scanner σ) (P : Bytes → Prop) (hit : UInt8 → Bool) : Prop
    extends RunProperty P where
  goes : ∀ R, P (utf8 R) → ∃ st, k.Goes k.start R st ∧
    ∀ c, ¬P (utf8 (R ++ [c])) → (k.accepts st c.toNat = none ↔ hit (charOf c.toNat) = false)
  nul : ∀ st, k.accepts st 0 = none

/-- The end, or a character that does not look like a part of the run, or one that does with a NUL
behind it; a NUL only where nothing comes before it. -/
def StopsAfter (hit : UInt8 → Bool) (before : List Char) : List Char → Prop
  | [] => True
  | c :: t => if c.toNat = 0 then before = [] else
      hit (charOf c.toNat) = false ∨ ∃ d t', t = d :: t' ∧ d.toNat = 0

section Stops

variable {σ : Type} {s : Text} {k : Scanner σ} {P : Bytes → Prop} {hit : UInt8 → Bool}
  {pre R tail : List Char}

/-- `rewind` at the end of some characters stays there only at the start. -/
theorem Text.rewind_stays_iff (hc : s.content = utf8 (pre ++ tail)) :
    s.rewind (utf8 pre).length = .done (utf8 pre).length ↔ pre = [] := by
  constructor
  · intro h
    rcases List.eq_nil_or_concat pre with rfl | ⟨pre, c, rfl⟩
    · rfl
    · rw [List.concat_eq_append] at h hc
      have hc' : s.content = utf8 (pre ++ c :: tail) := by simpa using hc
      obtain ⟨hlt, -⟩ := Text.length_concat_le hc'
      have hback := Outcome.done.inj ((Text.rewind_char hc').symm.trans h)
      omega
  · rintro rfl
    rfl

/-- At a character that looks like a part of the run the loop ends only where a NUL takes it
back. -/
theorem Scanner.Takes.scan_hit_iff (hk : k.Takes P hit) {c : Char} {st st' : σ}
    (hc : s.content = utf8 (pre ++ c :: tail)) (hz : c.toNat ≠ 0)
    (hacc : k.accepts st c.toNat = some st') :
    (∃ n, s.scan k (n + 1) st (utf8 pre).length = .done (utf8 pre).length) ↔
      ∃ d t, tail = d :: t ∧ d.toNat = 0 := by
  have hnext : s.content = utf8 ((pre ++ [c]) ++ tail) := by
    rw [hc, List.append_assoc]
    rfl
  have hround : ∀ n, s.scan k (n + 1) st (utf8 pre).length =
      s.scan k n st' (utf8 (pre ++ [c])).length := by
    intro n
    rw [Text.scan_char hc hz, hacc]
  obtain ⟨hlt, -⟩ := Text.length_concat_le hc
  constructor
  · rintro ⟨n, h⟩
    rw [hround] at h
    rcases Text.le_of_scan hk.nul hnext h with hle | hnul
    · omega
    · exact hnul
  · rintro ⟨d, t, rfl, hd⟩
    refine ⟨1, ?_⟩
    rw [hround, show (1 : Nat) = 0 + 1 from rfl, Text.scan_nul hnext hd, hk.nul]
    exact Text.rewind_char hc

/-- The loop stops behind the longest run exactly where what comes then stops it. -/
theorem Scanner.Takes.scan_stops_iff (hk : k.Takes P hit)
    (hc : s.content = utf8 (pre ++ (R ++ tail))) (hR : Longest P (utf8 (R ++ tail)) (utf8 R)) :
    (∃ n, s.scan k n k.start (utf8 pre).length = .done (utf8 (pre ++ R)).length) ↔
      StopsAfter hit (pre ++ R) tail := by
  obtain ⟨st, hgo, hnext⟩ := hk.goes R hR.holds
  have hc' : s.content = utf8 ((pre ++ R) ++ tail) := by rw [List.append_assoc, hc]
  rw [Text.scan_goes_iff hc hgo]
  cases tail with
  | nil =>
    rw [List.append_nil] at hc'
    exact iff_of_true ⟨0, Text.scan_end hc' 0 st⟩ trivial
  | cons c t =>
    rw [StopsAfter]
    by_cases hz : c.toNat = 0
    · rw [if_pos hz, ← Text.rewind_stays_iff hc']
      simp only [Text.scan_nul hc' hz, hk.nul]
      exact ⟨fun ⟨_, h⟩ => h, fun h => ⟨0, h⟩⟩
    · rw [if_neg hz, ← hnext c (Longest.stuck_char hR)]
      cases hacc : k.accepts st c.toNat with
      | none =>
        refine iff_of_true ⟨0, ?_⟩ (.inl rfl)
        rw [Text.scan_char hc' hz, hacc]
      | some st' =>
        rw [hk.scan_hit_iff hc' hz hacc]
        simp only [reduceCtorEq, false_or]

end Stops

/-! ## The three scanners -/

theorem RunProperty.of_all {p : UInt8 → Prop}
    (hp : ∀ b, 128 ≤ b.toNat → p b → ∀ b' : UInt8, 128 ≤ b'.toNat → p b') :
    RunProperty fun w => ∀ b ∈ w, p b where
  nil := List.forall_mem_nil _
  closed u v h b hb := h b (List.mem_append_left v hb)
  whole {cs c b t} hbytes h := by
    obtain ⟨hcs, hb⟩ := List.forall_mem_append.mp h
    rw [utf8_append, List.forall_mem_append]
    refine ⟨hcs, ?_⟩
    have hfirst : b ∈ utf8 [c] := hbytes ▸ List.mem_cons_self ..
    have hpb := hb b (List.mem_singleton_self b)
    rcases utf8_char c with ⟨-, hone⟩ | ⟨-, hmany⟩
    · rw [hone] at hfirst ⊢
      rw [List.mem_singleton] at hfirst
      rw [← hfirst]
      exact hb
    · exact fun b' hb' => hp b (hmany b hfirst) hpb b' (hmany b' hb')

theorem isIdentifierChar_ascii : ∀ b : UInt8, isIdentifierChar b = true → b.toNat < 128 ∧ b ≠ 0 :=
  forall_byte (by decide +kernel)

theorem isDigit_ascii :
    ∀ b : UInt8, isDigit b = true → b.toNat < 128 ∧ b ≠ 0 ∧ b ≠ UInt8.ofNat '.'.toNat :=
  forall_byte (by decide +kernel)

/-- A character whose bytes are ASCII. -/
theorem utf8_char_ascii {c : Char} (h : ∀ b ∈ utf8 [c], b.toNat < 128) :
    c.toNat < 128 ∧ utf8 [c] = [charOf c.toNat] := by
  rcases utf8_char c with hone | ⟨-, hmany⟩
  · exact hone
  · obtain ⟨b, t, hbytes⟩ := List.exists_cons_of_ne_nil (utf8_char_ne_nil c)
    have hb : b ∈ utf8 [c] := hbytes ▸ List.mem_cons_self ..
    have := h b hb
    have := hmany b hb
    omega

theorem identifiers_takes : identifiers.Takes IdentifierBytes isIdentifierChar where
  toRunProperty := .of_all fun b hb h => by
    have := (isIdentifierChar_ascii b h).1
    omega
  goes R hR := by
    refine ⟨(), ?_, ?_⟩
    · change identifiers.Goes () R ()
      induction R with
      | nil => exact .nil ()
      | cons c R ih =>
        rw [IdentifierBytes, utf8_cons, List.forall_mem_append] at hR
        obtain ⟨-, hone⟩ := utf8_char_ascii fun b hb => (isIdentifierChar_ascii b (hR.1 b hb)).1
        have hhit := hR.1 (charOf c.toNat) (by rw [hone]; exact List.mem_singleton_self _)
        refine .cons ?_ ?_ (ih hR.2)
        · intro hz
          rw [hz] at hhit
          exact (isIdentifierChar_ascii _ hhit).2 rfl
        · simp only [identifiers, hhit]
          rfl
    · intro c _
      simp only [identifiers]
      cases isIdentifierChar (charOf c.toNat) <;> simp
  nul _ := rfl

theorem numberByte_ascii {b : UInt8} (h : isDigit b = true ∨ b = UInt8.ofNat '.'.toNat) :
    b.toNat < 128 := by
  rcases h with hdigit | rfl
  · exact (isDigit_ascii b hdigit).1
  · decide

theorem charOf_eq {c n : Nat} (hc : c < 128) (hn : n < 128) (h : charOf c = UInt8.ofNat n) :
    c = n := by
  have hnat := congrArg UInt8.toNat h
  rw [charOf, UInt8.toNat_ofNat', UInt8.toNat_ofNat'] at hnat
  omega

/-- The loop of `readNumber` over a part of a number: it remembers the point. -/
theorem numbers_goes {R : List Char} (seen : Bool)
    (hR : ∀ b ∈ utf8 R, isDigit b = true ∨ b = UInt8.ofNat '.'.toNat)
    (hcount : (utf8 R).count (UInt8.ofNat '.'.toNat) + seen.toNat ≤ 1) :
    ∃ st, numbers.Goes seen R st ∧ st.toNat =
      (utf8 R).count (UInt8.ofNat '.'.toNat) + seen.toNat := by
  induction R generalizing seen with
  | nil => exact ⟨seen, .nil seen, by rw [utf8_nil, List.count_nil, Nat.zero_add]⟩
  | cons c R ih =>
    rw [utf8_cons, List.forall_mem_append] at hR
    obtain ⟨hlt, hone⟩ := utf8_char_ascii fun b hb => numberByte_ascii (hR.1 b hb)
    have hhit := hR.1 (charOf c.toNat) (by rw [hone]; exact List.mem_singleton_self _)
    rw [utf8_cons, hone, List.singleton_append, List.count_cons] at hcount ⊢
    rcases hhit with hdigit | hpoint
    · obtain ⟨-, hzero, hne⟩ := isDigit_ascii _ hdigit
      rw [if_neg (by simpa using hne), Nat.add_zero] at hcount ⊢
      obtain ⟨st, hgo, hst⟩ := ih seen hR.2 hcount
      refine ⟨st, .cons ?_ ?_ hgo, hst⟩
      · intro hz
        rw [hz] at hzero
        exact hzero rfl
      · simp only [numbers, hdigit, ↓reduceIte]
    · -- the first point
      have hc : c.toNat = '.'.toNat := charOf_eq hlt (by decide) hpoint
      rw [if_pos (by simpa using hpoint)] at hcount ⊢
      have hseen : seen = false := by
        cases seen with
        | false => rfl
        | true =>
          rw [Bool.toNat_true] at hcount
          omega
      subst hseen
      rw [Bool.toNat_false] at hcount ⊢
      obtain ⟨st, hgo, hst⟩ := ih true hR.2 (by rw [Bool.toNat_true]; omega)
      refine ⟨st, .cons ?_ ?_ hgo, hst⟩
      · rw [hc]
        decide
      · rw [hc]
        rfl

theorem numbers_takes : numbers.Takes NumberBytes isDigit where
  nil := ⟨List.forall_mem_nil _, by decide⟩
  closed u v h := by
    refine ⟨fun b hb => h.1 b (List.mem_append_left v hb), ?_⟩
    have hcount := h.2
    rw [List.count_append] at hcount
    omega
  whole {cs c b t} hbytes h := by
    have hb := h.1 b (List.mem_append_right _ (List.mem_singleton_self b))
    have hfirst : b ∈ utf8 [c] := hbytes ▸ List.mem_cons_self ..
    have hascii := numberByte_ascii hb
    rcases utf8_char c with ⟨-, hone⟩ | ⟨-, hmany⟩
    · rw [hone, List.mem_singleton] at hfirst
      rw [utf8_append, hone, ← hfirst]
      exact h
    · have := hmany b hfirst
      omega
  goes R hR := by
    obtain ⟨st, hgo, hst⟩ := numbers_goes false hR.1 hR.2
    refine ⟨st, hgo, ?_⟩
    intro c hstuck
    simp only [numbers]
    cases hdigit : isDigit (charOf c.toNat) with
    | true => simp
    | false =>
      have hpoint : ¬(c.toNat = '.'.toNat ∧ st = false) := by
        rintro ⟨hc, rfl⟩
        obtain rfl : c = '.' := Char.toNat_inj.mp hc
        rw [Bool.toNat_false, Nat.add_zero] at hst
        apply hstuck
        rw [utf8_append, NumberBytes, List.count_append, ← hst]
        refine ⟨?_, by decide⟩
        rw [List.forall_mem_append]
        exact ⟨hR.1, fun b hb => .inr (List.mem_singleton.mp hb)⟩
      simpa using hpoint
  nul st := by cases st <;> rfl

/-- A character is a part of a line exactly where the loop goes on at it. -/
theorem lineBytes_char (c : Char) : LineBytes (utf8 [c]) ↔ lines.accepts () c.toNat = some () := by
  have hbreak : lines.accepts () c.toNat = some () ↔ c.toNat ≠ '\r'.toNat ∧
      c.toNat ≠ '\n'.toNat := by
    rw [ne_eq, ne_eq, ← not_or, lines]
    by_cases h : c.toNat = '\r'.toNat ∨ c.toNat = '\n'.toNat
    · simp only [h, ↓reduceIte, reduceCtorEq, not_true_eq_false]
    · simp only [h, ↓reduceIte, not_false_eq_true]
  rw [hbreak]
  constructor
  · intro h
    constructor
    · intro hc
      obtain rfl : c = '\r' := Char.toNat_inj.mp hc
      exact (h 0x0D (by decide)).1 rfl
    · intro hc
      obtain rfl : c = '\n' := Char.toNat_inj.mp hc
      exact (h 0x0A (by decide)).2 rfl
  · rintro ⟨hcr, hlf⟩ b hb
    rcases utf8_char c with ⟨hlt, hone⟩ | ⟨-, hmany⟩
    · rw [hone, List.mem_singleton] at hb
      rw [hb]
      exact ⟨fun h => hcr (charOf_eq hlt (by decide) h), fun h => hlf (charOf_eq hlt (by decide) h)⟩
    · have hge := hmany b hb
      constructor
      · rintro rfl
        exact absurd hge (by decide)
      · rintro rfl
        exact absurd hge (by decide)

theorem lineBytes_run : RunProperty LineBytes :=
  .of_all fun _ _ _ b hb => by
    constructor
    · rintro rfl
      exact absurd hb (by decide)
    · rintro rfl
      exact absurd hb (by decide)

section Lines

variable {s : Text} {pre R tail : List Char}

theorem lineBytes_append (u v : Bytes) : LineBytes (u ++ v) ↔ LineBytes u ∧ LineBytes v :=
  List.forall_mem_append

/-- The loop of `readToEndOfLine` over a part of a line without a NUL. -/
theorem lines_goes (hR : LineBytes (utf8 R)) (hnul : NulFree R) : lines.Goes () R () := by
  induction R with
  | nil => exact .nil ()
  | cons c R ih =>
    rw [utf8_cons, lineBytes_append, lineBytes_char] at hR
    exact .cons hnul.head hR.1 (ih hR.2 hnul.tail)

/-- It never ends in a line with a NUL. -/
theorem lines_hang (hc : s.content = utf8 (pre ++ (R ++ tail))) (hR : LineBytes (utf8 R))
    (hnul : ∃ c ∈ R, c.toNat = 0) (n : Nat) : s.scan lines n () (utf8 pre).length = .timeout := by
  induction n generalizing pre R with
  | zero => rfl
  | succ n ih =>
    cases R with
    | nil =>
      obtain ⟨c, hmem, -⟩ := hnul
      cases hmem
    | cons c R =>
      by_cases hz : c.toNat = 0
      · rw [Text.scan_nul hc hz]
        exact ih hc hR hnul
      · rw [utf8_cons, lineBytes_append, lineBytes_char] at hR
        rw [Text.scan_char hc hz, hR.1]
        obtain ⟨d, hmem, hd⟩ := hnul
        rcases List.mem_cons.mp hmem with rfl | hmem
        · exact absurd hd hz
        · apply ih (R := R) _ hR.2 ⟨d, hmem, hd⟩
          rw [hc, List.append_assoc]
          rfl

/-- `readToEndOfLine` stops at the end of its line exactly where no NUL comes before. -/
theorem lines_stops_iff (hc : s.content = utf8 (pre ++ (R ++ tail)))
    (hR : Longest LineBytes (utf8 (R ++ tail)) (utf8 R)) :
    (∃ n, s.scan lines n lines.start (utf8 pre).length = .done (utf8 (pre ++ R)).length) ↔
      NulFree R := by
  constructor
  · rintro ⟨n, h⟩ c hmem hz
    have hhang := lines_hang hc hR.holds ⟨c, hmem, hz⟩ n
    cases hhang.symm.trans h
  · intro hnul
    have hgo := lines_goes hR.holds hnul
    have hc' : s.content = utf8 ((pre ++ R) ++ tail) := by rw [List.append_assoc, hc]
    refine (Text.scan_goes_iff hc hgo).mpr ⟨0, ?_⟩
    cases tail with
    | nil =>
      rw [List.append_nil] at hc'
      exact Text.scan_end hc' 0 ()
    | cons c t =>
      have hstop : lines.accepts () c.toNat ≠ some () := by
        intro hgoes
        have hstuck := Longest.stuck_char hR
        rw [utf8_append, lineBytes_append, lineBytes_char] at hstuck
        exact hstuck ⟨hR.holds, hgoes⟩
      have hne : c.toNat ≠ 0 := by
        intro hz
        rw [hz] at hstop
        exact hstop rfl
      rw [Text.scan_char hc' hne]
      cases hacc : lines.accepts () c.toNat with
      | none => rfl
      | some st => exact absurd hacc hstop

end Lines

namespace StringHeap

/-! ## The pieces -/

/-- A scanner returns the longest run behind its start, and moves the offset behind it. -/
def ReadsRun (H : Heap) (h : Handle) (P : Bytes → Prop) (o : Nat)
    (read : Nat → Except Fault (Option ((Heap × Handle) × Nat))) : Prop :=
  ∃ fuel r o', read fuel = .ok (some (r, o')) ∧ Longest P ((content H h).drop o) (content r.1 r.2) ∧
    (content r.1 r.2).length = r.2.cb ∧ o' = o + r.2.cb ∧ o' ≤ h.cb

/-- The longest run at a character, where the offset that the piece keeps has the same bytes; what
has to hold of it and of what comes behind. -/
def RunAt (H : Heap) (h : Handle) (P : Bytes → Prop) (pre post : List Char)
    (stops : List Char → List Char → Prop) : Prop :=
  ∃ R tail, post = R ++ tail ∧ Longest P (utf8 post) (utf8 R) ∧
    SameWrapped (memory H h.buf) (h.offset + (utf8 pre).length) (utf8 R).length ∧ stops R tail

section Pieces

variable {σ : Type} {H : Heap} {h : Handle} {k : Scanner σ} {P : Bytes → Prop}
  {pre post : List Char}

theorem scanFrom_eq_ok (hw : WF H h) {o fuel o' : Nat} :
    scanFrom H h k o fuel = .ok (some o') ↔ (h.text H hw).scan k fuel k.start o = .done o' := by
  rw [scanFrom, hw.textOf_eq, Option.map_some]
  cases (h.text H hw).scan k fuel k.start o with
  | done o'' => simp
  | timeout => simp
  | fault => simp

theorem readRun_eq_ok (hw : WF H h) {stop : Nat → Nat} {o fuel o' : Nat} {r : Heap × Handle} :
    readRun H h k stop o fuel = .ok (some (r, o')) ↔
      (h.text H hw).scan k fuel k.start o = .done o' ∧ sliceOf H h o (stop o') = .ok r := by
  rw [← scanFrom_eq_ok hw, readRun]
  constructor
  · intro hrun
    obtain ⟨x, hscan, hrun⟩ := bind_eq_ok hrun
    cases x with
    | none => cases hrun
    | some x =>
      obtain ⟨r', hslice, hrun⟩ := bind_eq_ok hrun
      cases hrun
      exact ⟨hscan, hslice⟩
  · rintro ⟨hscan, hslice⟩
    rw [hscan, ok_bind]
    simp only [hslice, ok_bind]
    rfl

theorem length_utf8_run_le (hw : WF H h) {R tail : List Char}
    (hc : content H h = utf8 (pre ++ (R ++ tail))) :
    (utf8 (pre ++ R)).length ≤ h.cb := by
  rw [← hw.length_content, hc, ← List.append_assoc, length_utf8_append (pre ++ R)]
  exact Nat.le_add_right ..

/-- The bytes of some characters of a string, in the block behind the handle. -/
theorem take_drop_memory (hw : WF H h) {R tail : List Char}
    (hc : content H h = utf8 (pre ++ (R ++ tail))) :
    ((memory H h.buf).drop (h.offset + (utf8 pre).length)).take (utf8 R).length = utf8 R := by
  have hlen := hw.length_content
  rw [hc, length_utf8_append, length_utf8_append] at hlen
  have hdrop : (content H h).drop (utf8 pre).length = utf8 R ++ utf8 tail := by
    rw [hc, utf8_append, utf8_append, List.drop_left]
  calc ((memory H h.buf).drop (h.offset + (utf8 pre).length)).take (utf8 R).length
      = ((content H h).drop (utf8 pre).length).take (utf8 R).length := by
        rw [content, List.drop_take, List.take_take, List.drop_drop, Nat.min_eq_left (by omega)]
    _ = utf8 R := by rw [hdrop, List.take_left]

/-- A piece is the run where the loop stops behind it, the constructor gets that size, and the
offset it keeps has the same bytes. -/
theorem readsRun_iff (hw : WF H h) (hc : content H h = utf8 (pre ++ post)) (hP : RunProperty P)
    (stop : Nat → Nat) :
    ReadsRun H h P (utf8 pre).length (readRun H h k stop (utf8 pre).length) ↔
      h.Retainable ∧ RunAt H h P pre post fun R _ =>
        (∃ n, (h.text H hw).scan k n k.start (utf8 pre).length = .done (utf8 (pre ++ R)).length) ∧
          u32Sub (stop (utf8 (pre ++ R)).length) (utf8 pre).length = (utf8 R).length := by
  have hlen := hw.length_content
  have hpost : (content H h).drop (utf8 pre).length =
      utf8 post := by rw [hc, utf8_append, List.drop_left]
  rw [hc, length_utf8_append] at hlen
  constructor
  · rintro ⟨fuel, r, o', hread, hlong, hwhole, ho', -⟩
    obtain ⟨hscan, hslice⟩ := (readRun_eq_ok hw).mp hread
    have hr := Handle.Retainable.of_sliceOf hslice
    obtain ⟨H', hok, hmem⟩ := hw.sliceOf_eq hr (utf8 pre).length (stop o')
    obtain ⟨R, tail, hsplit, hR⟩ := hP.exists_longest post
    rw [hpost] at hlong
    have hrun := hlong.unique hR
    obtain rfl := Except.ok.inj (hslice.symm.trans hok)
    rw [hrun] at hwhole
    rw [← hwhole, ← length_utf8_append] at ho'
    rw [content, memory_congr hmem, ← hwhole] at hrun
    refine ⟨hr, R, tail, hsplit, hR, ?_, ⟨fuel, ho' ▸ hscan⟩, ho' ▸ hwhole.symm⟩
    exact hrun.trans (take_drop_memory hw (hsplit ▸ hc)).symm
  · rintro ⟨hr, R, tail, hsplit, hR, hsame, ⟨n, hscan⟩, hsize⟩
    obtain ⟨H', hok, hmem⟩ := hw.sliceOf_eq hr (utf8 pre).length (stop (utf8 (pre ++ R)).length)
    rw [hsize] at hok
    have hcont : content H'
        { h with cb := (utf8 R).length, offset := (h.offset + (utf8 pre).length) % 2 ^ 24 } =
        utf8 R := by
      rw [content, memory_congr hmem]
      exact hsame.trans (take_drop_memory hw (hsplit ▸ hc))
    refine ⟨n, _, _, (readRun_eq_ok hw).mpr ⟨hscan, hok⟩, ?_, ?_, length_utf8_append pre R, ?_⟩
    · rw [hpost, hcont]
      exact hR
    · rw [hcont]
    · have hle := hR.start.length_le
      rw [length_utf8_append]
      omega

theorem WF.offset_lt (hw : WF H h) : h.offset < 2 ^ 32 := by
  cases hw with
  | null hb hcb ho => omega
  | lit hb ht hle hm => omega
  | @heap i b hb ht hget hle =>
    have := b.lt
    omega

theorem RunAt.congr {stops stops' : List Char → List Char → Prop}

    (heq : ∀ R tail, post = R ++ tail → Longest P (utf8 post) (utf8 R) →
      (stops R tail ↔ stops' R tail)) :
    RunAt H h P pre post stops ↔ RunAt H h P pre post stops' := by
  constructor
  · rintro ⟨R, tail, hsplit, hR, hsame, hstops⟩
    exact ⟨R, tail, hsplit, hR, hsame, (heq R tail hsplit hR).mp hstops⟩
  · rintro ⟨R, tail, hsplit, hR, hsame, hstops⟩
    exact ⟨R, tail, hsplit, hR, hsame, (heq R tail hsplit hR).mpr hstops⟩

/-- The size that the constructor gets is that of the run exactly where the piece ends behind it. -/
theorem u32Sub_run (hw : WF H h) {R : List Char} {stop : Nat} (hstop : stop < 2 ^ 32)
    (hend : (utf8 (pre ++ R)).length ≤ h.cb) :
    u32Sub stop (utf8 pre).length = (utf8 R).length ↔ stop = (utf8 (pre ++ R)).length := by
  have hlt := hw.cb_lt
  rw [length_utf8_append] at hend ⊢
  by_cases hle : (utf8 pre).length ≤ stop
  · rw [u32Sub, if_pos hle, u32_of_lt (by omega)]
    omega
  · rw [u32Sub, if_neg hle, u32_of_lt (by omega)]
    omega

/-- `readIdentifier` and `readNumber`. -/
theorem readsRun_takes {hit : UInt8 → Bool} (hk : k.Takes P hit) (hw : WF H h)
    (hc : content H h = utf8 (pre ++ post)) :
    ReadsRun H h P (utf8 pre).length (readRun H h k id (utf8 pre).length) ↔
      h.Retainable ∧ RunAt H h P pre post fun R tail => StopsAfter hit (pre ++ R) tail := by
  have hlt := hw.cb_lt
  rw [readsRun_iff hw hc hk.toRunProperty]
  apply and_congr_right
  intro _
  apply RunAt.congr
  rintro R tail rfl hR
  have hend := length_utf8_run_le hw hc
  have htext : (h.text H hw).content = utf8 (pre ++ (R ++ tail)) := hc
  rw [hk.scan_stops_iff htext hR, id, u32Sub_run hw (by omega) hend]
  exact and_iff_left rfl

/-- `readToEndOfLine`. -/
theorem readToEndOfLine_iff (hw : WF H h) (hc : content H h = utf8 (pre ++ post)) :
    ReadsRun H h LineBytes (utf8 pre).length (readToEndOfLine H h (utf8 pre).length) ↔
      h.Retainable ∧ RunAt H h LineBytes pre post fun R _ =>
        NulFree R ∧ h.offset = (utf8 (pre ++ R)).length := by
  unfold readToEndOfLine
  rw [readsRun_iff hw hc lineBytes_run]
  apply and_congr_right
  intro _
  apply RunAt.congr
  rintro R tail rfl hR
  have htext : (h.text H hw).content = utf8 (pre ++ (R ++ tail)) := hc
  rw [lines_stops_iff htext hR, u32Sub_run hw hw.offset_lt (length_utf8_run_le hw hc)]

/-- Every scanner returns its run, and leaves the cursor behind it, exactly where the constructor
can take it and the loop stops there; `readToEndOfLine` also has to start at the right place of its
buffer. -/
theorem scanners_iff (hw : WF H h) (hc : content H h = utf8 (pre ++ post)) :
    (ReadsRun H h IdentifierBytes (utf8 pre).length (readIdentifier H h (utf8 pre).length) ↔
      h.Retainable ∧ RunAt H h IdentifierBytes pre post fun R tail => StopsAfter isIdentifierChar
        (pre ++ R) tail) ∧
    (ReadsRun H h NumberBytes (utf8 pre).length (readNumber H h (utf8 pre).length) ↔
      h.Retainable ∧ RunAt H h NumberBytes pre post fun R tail => StopsAfter isDigit (pre ++ R)
        tail) ∧
    (ReadsRun H h LineBytes (utf8 pre).length (readToEndOfLine H h (utf8 pre).length) ↔
      h.Retainable ∧ RunAt H h LineBytes pre post fun R _ =>
        NulFree R ∧ h.offset = (utf8 (pre ++ R)).length) :=
  ⟨readsRun_takes identifiers_takes hw hc, readsRun_takes numbers_takes hw hc,
    readToEndOfLine_iff hw hc⟩

end Pieces

/-- The second half of a literal of twice its size: the line ends where the piece does. -/
theorem scanners_read :
    ∃ h, WF RefHeap.empty h ∧ content RefHeap.empty h = utf8 ['1', '.', 'é'] ∧
      ReadsRun RefHeap.empty h IdentifierBytes 0 (readIdentifier RefHeap.empty h 0) ∧
      ReadsRun RefHeap.empty h NumberBytes 0 (readNumber RefHeap.empty h 0) ∧
      ReadsRun RefHeap.empty h LineBytes 0 (readToEndOfLine RefHeap.empty h 0) := by
  have hw : WF RefHeap.empty ⟨.lit [0x31, 0x2E, 0xC3, 0xA9, 0x31, 0x2E, 0xC3, 0xA9], 4, 4,
      .Static⟩ :=
    .lit rfl rfl (by decide) (by decide)
  obtain ⟨hident, hnumber, hline⟩ :=
    scanners_iff hw (show _ = utf8 ([] ++ ['1', '.', 'é']) from rfl)
  refine ⟨_, hw, rfl, hident.mpr ⟨nofun, ['1'], ['.', 'é'], rfl, ?_, rfl, ?_⟩,
    hnumber.mpr ⟨nofun, ['1', '.'], ['é'], rfl, ?_, rfl, ?_⟩,
    hline.mpr ⟨nofun, ['1', '.', 'é'], [], rfl, ?_, rfl, ?_⟩⟩
  · refine identifiers_takes.toRunProperty.longest (R := ['1']) (by decide) ?_
    rintro c t ⟨⟩
    decide
  · exact .inl rfl
  · refine numbers_takes.toRunProperty.longest (R := ['1', '.']) (by decide) ?_
    rintro c t ⟨⟩
    decide
  · exact .inl rfl
  · exact lineBytes_run.longest (R := ['1', '.', 'é']) (by decide) nofun
  · exact ⟨forall_mem_of_all rfl, rfl⟩

/-- U+0141 has the lowest byte of an A; a NUL takes back the digit before it; a line at the start of
its buffer is lost. -/
theorem scanners_fail :
    ¬ReadsRun RefHeap.empty (.literal [0x61, 0xC5, 0x81]) IdentifierBytes 0
        (readIdentifier RefHeap.empty (.literal [0x61, 0xC5, 0x81]) 0) ∧
      ¬ReadsRun RefHeap.empty (.literal [0x31, 0x00]) NumberBytes 0
        (readNumber RefHeap.empty (.literal [0x31, 0x00]) 0) ∧
      ¬ReadsRun RefHeap.empty (.literal [0x61, 0x62]) LineBytes 0
        (readToEndOfLine RefHeap.empty (.literal [0x61, 0x62]) 0) := by
  have hw : ∀ m : Bytes, m.length < 2 ^ 32 → WF RefHeap.empty (.literal m) :=
    fun m hm => .lit rfl rfl (Nat.le_of_eq (Nat.zero_add _)) hm
  refine ⟨?_, ?_, ?_⟩
  · intro hread
    obtain ⟨-, R, tail, hsplit, hR, -, hstops⟩ :=
      (readsRun_takes identifiers_takes (hw _ (by decide))
        (show _ = utf8 ([] ++ ['a', 'Ł']) from rfl)).mp hread
    have hrun : Longest IdentifierBytes (utf8 ['a', 'Ł']) (utf8 ['a']) := by
      refine identifiers_takes.toRunProperty.longest (R := ['a']) (by decide) ?_
      rintro c t ⟨⟩
      decide
    obtain rfl := utf8_injective (hR.unique hrun)
    cases hsplit
    rcases hstops with hmiss | ⟨d, t, hnext, -⟩
    · cases hmiss
    · cases hnext
  · intro hread
    obtain ⟨-, R, tail, hsplit, hR, -, hstops⟩ :=
      (readsRun_takes numbers_takes (hw _ (by decide))
        (show _ = utf8 ([] ++ ['1', Char.ofNat 0]) from rfl)).mp hread
    have hrun : Longest NumberBytes (utf8 ['1', Char.ofNat 0]) (utf8 ['1']) := by
      refine numbers_takes.toRunProperty.longest (R := ['1']) (by decide) ?_
      rintro c t ⟨⟩
      decide
    obtain rfl := utf8_injective (hR.unique hrun)
    cases hsplit
    cases hstops
  · intro hread
    obtain ⟨-, R, tail, hsplit, hR, -, hstops⟩ :=
      (readToEndOfLine_iff (hw _ (by decide)) (show _ = utf8 ([] ++ ['a', 'b']) from rfl)).mp hread
    have hrun : Longest LineBytes (utf8 ['a', 'b']) _ :=
      lineBytes_run.longest (R := ['a', 'b']) (by decide) nofun
    obtain rfl := utf8_injective (hR.unique hrun)
    cases hstops.2

end StringHeap

end Libacorn
