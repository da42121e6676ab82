import Libacorn.CharParse

/-!
# Integer literals

The literals that `val::parseNumber` reads: signs, each with whitespace after it if
any, then decimal digits, or `0x` and hexadecimal digits. `parseNumber_literal` says
what it makes of one, whatever its size: the magnitude modulo 2^64, negated for an odd
number of minus signs, and then the width that this number needs.
-/

namespace Libacorn

open Support

/-! ## Literals -/

/-- A sign and the whitespace after it. -/
structure Sign where
  minus : Bool
  space : List Char
  blank : ∀ c ∈ space, isWhitespaceChar c = true

/-- The character of a sign. -/
def Sign.char (s : Sign) : Char := if s.minus then '-' else '+'

def signsText (signs : List Sign) : List Char := signs.flatMap fun s => s.char :: s.space

/-- An odd number of minus signs. -/
def isNegative (signs : List Sign) : Bool := signs.countP Sign.minus % 2 = 1

/-- The digits of a base, hexadecimal or decimal. -/
def digitChars (base : Nat) : List Char :=
  if base = 16 then "0123456789abcdefABCDEF".toList else "0123456789".toList

structure Literal where
  signs : List Sign
  hex : Bool
  digits : List Char
  digits_ne : digits ≠ []
  digits_base : ∀ c ∈ digits, c ∈ digitChars (if hex then 16 else 10)

/-- The value of a decimal or hexadecimal digit. -/
def digitOf (c : Char) : Nat := "0123456789abcdef".toList.idxOf c.toLower

/-- The number that digits denote, after those that denote `a`. -/
def ofDigits (base : Nat) (a : Nat) (ds : List Char) : Nat :=
  ds.foldl (fun a c => a * base + digitOf c) a

namespace Literal

variable (l : Literal)

def base : Nat := if l.hex then 16 else 10

def text : List Char := signsText l.signs ++ ((if l.hex then ['0', 'x'] else []) ++ l.digits)

def magnitude : Nat := ofDigits l.base 0 l.digits

/-- The integer the literal denotes. -/
def value : Int := if isNegative l.signs then -l.magnitude else l.magnitude

end Literal

/-- The val that holds an integer: INT32 where it fits, INT64 otherwise. -/
def intVal (i : Int) : CVal :=
  if i < -2 ^ 31 ∨ i > 2 ^ 31 - 1 then .int64 (BitVec.ofInt 64 i) else .int32 (BitVec.ofInt 32 i)

/-- The integer an integer val denotes. -/
def Val.integer? {σ : Type} : Val σ → Option Int
  | .int32 i => some i.toInt
  | .int64 i => some i.toInt
  | .uint32 u => some u.toNat
  | .uint64 u => some u.toNat
  | _ => none

/-! ## Signs -/

/-- Neither a sign nor whitespace. -/
def EndsSigns (cs : List Char) : Prop :=
  ∀ c ∈ cs.head?, c ≠ '+' ∧ c ≠ '-' ∧ isWhitespaceChar c = false

theorem sign_ne_zero (s : Sign) : s.char.toNat ≠ 0 := by
  rw [Sign.char]
  split
  · decide
  · decide

/-- Whitespace ends at the next sign, or where the signs end. -/
theorem dropWhile_signs {space : List Char} (hs : ∀ c ∈ space, isWhitespaceChar c = true)
    (signs : List Sign) {cs : List Char} (hc : EndsSigns cs) :
    (space ++ (signsText signs ++ cs)).dropWhile isWhitespaceChar = signsText signs ++ cs := by
  rw [List.dropWhile_append_of_pos hs]
  cases signs with
  | nil =>
    cases cs with
    | nil => rfl
    | cons c cs =>
      have hw := (hc c rfl).2.2
      simp [signsText, hw]
  | cons s signs =>
    have hw : isWhitespaceChar s.char = false := by
      rw [Sign.char]
      split <;> rfl
    simp [signsText, hw]

theorem parseSigns_signs (signs : List Sign) {cs : List Char} (hc : EndsSigns cs) {n : Nat}
    (hn : signs.length < n) (neg : Bool) :
    parseSigns charReader n neg (signsText signs ++ cs) = .done (neg ^^ isNegative signs, cs) := by
  induction signs generalizing n neg with
  | nil =>
    obtain ⟨n, rfl⟩ : ∃ m, n = m + 1 := ⟨n - 1, by simp at hn; omega⟩
    have hneg : (neg ^^ isNegative []) = neg := Bool.xor_false neg
    rw [hneg]
    cases cs with
    | nil => rfl
    | cons c cs =>
      obtain ⟨hp, hm, -⟩ := hc c rfl
      have hne : ¬(c = '+' ∨ c = '-') := by
        rintro (h | h)
        · exact hp h
        · exact hm h
      simp only [signsText, List.flatMap_nil, List.nil_append, parseSigns, Scan.bind_apply,
        peekChar_cons, Outcome.bind_done, Char.toNat_inj, hne, ↓reduceIte, Scan.pure_apply]
  | cons s signs ih =>
    obtain ⟨n, rfl⟩ : ∃ m, n = m + 1 := ⟨n - 1, by omega⟩
    have hsign : s.char = '+' ∨ s.char = '-' := by
      rw [Sign.char]
      split
      · exact Or.inr rfl
      · exact Or.inl rfl
    have hneg : (if s.char = '-' then !neg else neg) = (neg ^^ s.minus) := by
      rw [Sign.char]
      cases s.minus <;> cases neg <;> rfl
    have hcount : isNegative (s :: signs) = (s.minus ^^ isNegative signs) := by
      simp only [isNegative, List.countP_cons]
      cases s.minus with
      | false => simp
      | true =>
        simp only [↓reduceIte, Bool.true_xor, ← decide_not, decide_eq_decide]
        omega
    have htext : signsText (s :: signs) ++ cs = s.char :: (s.space ++ (signsText signs ++ cs)) := by
      simp [signsText]
    rw [htext, parseSigns]
    simp only [Scan.bind_apply, peekChar_cons, Outcome.bind_done, Char.toNat_inj, hsign, ↓reduceIte,
      readChar_cons _ (sign_ne_zero s), skipWhitespace_eq, dropWhile_signs s.blank signs hc, hneg]
    rw [ih (by simpa using hn), hcount, Bool.xor_assoc]

/-! ## Digits -/

theorem isBaseDigit_hex {base ch : Nat} (h : isBaseDigit base ch = true) :
    isBaseDigit 16 ch = true := by
  simp only [isBaseDigit, decide_eq_true_eq] at h ⊢
  rcases h with h | h
  · exact Or.inl h
  · exact Or.inr ⟨trivial, h.2⟩

/-- The digits are ASCII characters. -/
theorem of_isBaseDigit {p : Char → Prop}
    (hall : ∀ ch < 128, isBaseDigit 16 ch = true → p (Char.ofNat ch)) {base : Nat} {c : Char}
    (h : isBaseDigit base c.toNat = true) : p c := by
  have hhex := isBaseDigit_hex h
  have hlt : c.toNat < 128 := by
    simp only [isBaseDigit, decide_eq_true_eq] at hhex
    simp at hhex
    omega
  have hp := hall c.toNat hlt hhex
  rwa [Char.ofNat_toNat] at hp

theorem mem_digitChars {base : Nat} {c : Char} (h : isBaseDigit base c.toNat = true) :
    c ∈ digitChars base := by
  by_cases hbase : base = 16
  · subst hbase
    exact of_isBaseDigit (p := (· ∈ digitChars 16)) (by decide) h
  · have hall : ∀ ch < 58, '0'.toNat ≤ ch → Char.ofNat ch ∈ digitChars 10 := by decide
    simp only [isBaseDigit, decide_eq_true_eq, hbase, false_and, or_false] at h
    have hmem := hall c.toNat (Nat.lt_succ_of_le h.2) h.1
    rw [Char.ofNat_toNat] at hmem
    rwa [digitChars, if_neg hbase]

theorem isBaseDigit_of_mem {base : Nat} {c : Char} (h : c ∈ digitChars base) :
    isBaseDigit base c.toNat = true := by
  have hhex : ∀ c ∈ digitChars 16, isBaseDigit 16 c.toNat = true :=
    forall_mem_of_all rfl
  have hdecimal : ∀ c ∈ digitChars 10, '0'.toNat ≤ c.toNat ∧ c.toNat ≤ '9'.toNat :=
    forall_mem_of_all rfl
  by_cases hbase : base = 16
  · subst hbase
    exact hhex c h
  · rw [digitChars, if_neg hbase] at h
    exact decide_eq_true (Or.inl (hdecimal c h))

/-- The digits of a literal are those that the digit loop takes. -/
theorem Literal.isBaseDigit_digits (l : Literal) :
    ∀ c ∈ l.digits, isBaseDigit l.base c.toNat = true :=
  fun c hc => isBaseDigit_of_mem (l.digits_base c hc)

theorem digitValue_eq {base : Nat} {c : Char} (h : isBaseDigit base c.toNat = true) :
    digitValue c.toNat = digitOf c :=
  of_isBaseDigit (p := fun c => digitValue c.toNat = digitOf c) (by decide) h

theorem isBaseDigit_ne_zero {base ch : Nat} (h : isBaseDigit base ch = true) : ch ≠ 0 := by
  simp only [isBaseDigit, decide_eq_true_eq] at h
  simp at h
  omega

/-- The character after the digits is neither a digit nor a point, and no `x`. -/
def EndsDigits (base : Nat) (cs : List Char) : Prop :=
  ∀ c ∈ cs.head?, isBaseDigit base c.toNat = false ∧ c ≠ '.' ∧ c ≠ 'x'

/-- The digit loop computes modulo 2^64. -/
theorem parseDigits_digits [Fpu] {base : Nat} {ds : List Char}
    (hd : ∀ c ∈ ds, isBaseDigit base c.toNat = true) {rest : List Char} (hr : EndsDigits base rest)
    {n : Nat} (hn : ds.length < n) (a : Nat) :
    parseDigits charReader base n ⟨BitVec.ofNat 64 a, false, 0⟩ (ds ++ rest) =
      .done (⟨BitVec.ofNat 64 (ofDigits base a ds), false, 0⟩, rest) := by
  induction ds generalizing n a with
  | nil =>
    obtain ⟨n, rfl⟩ : ∃ m, n = m + 1 := ⟨n - 1, by simp at hn; omega⟩
    cases rest with
    | nil => simp [parseDigits, isBaseDigit, ofDigits]
    | cons c cs =>
      obtain ⟨hdigit, hpoint, -⟩ := hr c rfl
      simp only [List.nil_append, parseDigits, Scan.bind_apply, peekChar_cons, Outcome.bind_done,
        hdigit, Bool.false_eq_true, ↓reduceIte, Char.toNat_inj, hpoint, Scan.pure_apply, ofDigits,
        List.foldl_nil]
  | cons c ds ih =>
    obtain ⟨n, rfl⟩ : ∃ m, n = m + 1 := ⟨n - 1, by omega⟩
    have hc := hd c (List.mem_cons_self ..)
    have hstep : NumState.digit ⟨BitVec.ofNat 64 a, false, 0⟩ base (digitValue c.toNat) =
        ⟨BitVec.ofNat 64 (a * base + digitOf c), false, 0⟩ := by
      have hz : isZeroF64 0 = true := by decide
      simp only [NumState.digit, hz, ↓reduceIte, digitValue_eq hc]
      rw [BitVec.ofNat_add, BitVec.ofNat_mul]
    simp only [List.cons_append, parseDigits, Scan.bind_apply, peekChar_cons, Outcome.bind_done, hc,
      ↓reduceIte, readChar_cons _ (isBaseDigit_ne_zero hc), hstep]
    apply ih
    · intro d hmem
      exact hd d (List.mem_cons_of_mem c hmem)
    · simpa using hn

/-- What `parseBase` leaves of a literal: the same number, a leading zero may be gone. -/
theorem parseBase_literal (l : Literal) {rest : List Char} (hr : EndsDigits l.base rest) :
    ∃ ds, (∀ c ∈ ds, isBaseDigit l.base c.toNat = true) ∧ ds.length ≤ l.digits.length ∧
      ofDigits l.base 0 ds = l.magnitude ∧
      parseBase charReader ((if l.hex then ['0', 'x'] else []) ++ (l.digits ++ rest)) =
        .done (l.base, ds ++ rest) := by
  have hd := l.isBaseDigit_digits
  obtain ⟨signs, hex, digits, hne, _⟩ := l
  rw [parseBase_eq]
  cases hex with
  | true => exact ⟨digits, hd, Nat.le_refl _, rfl, rfl⟩
  | false =>
    cases digits with
    | nil => exact absurd rfl hne
    | cons c ds =>
      have hds : ∀ d ∈ ds, isBaseDigit 10 d.toNat = true :=
        fun d h => hd d (List.mem_cons_of_mem _ h)
      have hx : ∀ cs, ds ++ rest ≠ 'x' :: cs := by
        intro cs hcs
        cases ds with
        | nil =>
          rw [List.nil_append] at hcs
          exact (hr 'x' (by rw [hcs]; rfl)).2.2 rfl
        | cons d ds =>
          have hdigit := hds d (List.mem_cons_self ..)
          rw [List.cons_append] at hcs
          rw [(List.cons.inj hcs).1] at hdigit
          cases hdigit
      by_cases hc : c = '0'
      · subst hc
        refine ⟨ds, hds, Nat.le_succ _, rfl, ?_⟩
        show Outcome.done (baseChars ('0' :: (ds ++ rest))) = _
        cases hcs : ds ++ rest with
        | nil => rfl
        | cons d cs =>
          have hdx : d ≠ 'x' := fun h => hx cs (h ▸ hcs)
          simp [baseChars, hdx, Literal.base]
      · refine ⟨c :: ds, hd, Nat.le_refl _, rfl, ?_⟩
        simp [baseChars, hc, Literal.base]

/-! ## The sign and the width -/

theorem setWidth_eq_ofInt (i : BitVec 64) : i.setWidth 32 = BitVec.ofInt 32 i.toInt := by
  apply BitVec.eq_of_toNat_eq
  rw [BitVec.toNat_setWidth, BitVec.toNat_ofInt, BitVec.toInt_eq_toNat_cond]
  split <;> omega

/-- The sign and the choice of the width; the number is taken modulo 2^64. -/
theorem toVal_signed [Fpu] (m : Nat) (neg : Bool) :
    NumState.toVal ⟨BitVec.ofNat 64 m, false, 0⟩ neg =
      intVal ((if neg then -(m : Int) else m).bmod (2 ^ 64)) := by
  have hi : (if neg then -BitVec.ofNat 64 m else BitVec.ofNat 64 m) =
      BitVec.ofInt 64 (if neg then -(m : Int) else m) := by
    cases neg with
    | true => exact BitVec.neg_ofNat_eq_ofInt_neg
    | false => exact (BitVec.ofInt_natCast ..).symm
  rw [← BitVec.toInt_ofInt]
  simp only [NumState.toVal, intVal, Bool.false_eq_true, ↓reduceIte, hi, BitVec.ofInt_toInt,
    setWidth_eq_ofInt]

/-! ## The whole literal -/

theorem endsSigns_digits (l : Literal) (rest : List Char) :
    EndsSigns ((if l.hex then ['0', 'x'] else []) ++ (l.digits ++ rest)) := by
  have hdigit : ∀ {base : Nat} {c : Char}, isBaseDigit base c.toNat = true →
      c ≠ '+' ∧ c ≠ '-' ∧ isWhitespaceChar c = false :=
    of_isBaseDigit (p := fun c => c ≠ '+' ∧ c ≠ '-' ∧ isWhitespaceChar c = false) (by decide)
  have hd := l.isBaseDigit_digits
  obtain ⟨signs, hex, digits, hne, _⟩ := l
  cases hex with
  | true =>
    intro c hc
    cases hc
    exact @hdigit 10 _ rfl
  | false =>
    cases digits with
    | nil => exact absurd rfl hne
    | cons d ds =>
      intro c hc
      cases hc
      exact hdigit (hd d (List.mem_cons_self ..))

/-- `parseNumber` on a literal: the suffixes are tried with its value modulo 2^64. -/
theorem parseNumber_literal [Fpu] (l : Literal) {rest : List Char} (hr : EndsDigits l.base rest)
    {n : Nat} (hn : (l.text ++ rest).length < n) :
    parseNumber charReader n (l.text ++ rest) =
      parseSuffix charReader (intVal (l.value.bmod (2 ^ 64))) rest := by
  have htext : l.text ++ rest =
      signsText l.signs ++ ((if l.hex then ['0', 'x'] else []) ++ (l.digits ++ rest)) := by
    simp [Literal.text]
  have hlen : ∀ signs : List Sign, signs.length ≤ (signsText signs).length := by
    intro signs
    induction signs with
    | nil => exact Nat.le_refl 0
    | cons s signs ih =>
      have hcons : signsText (s :: signs) = s.char :: (s.space ++ signsText signs) := rfl
      rw [hcons, List.length_cons, List.length_cons, List.length_append]
      omega
  obtain ⟨ds, hds, hle, hval, hbase⟩ := parseBase_literal l hr
  have hsigns := hlen l.signs
  simp only [Literal.text, List.length_append] at hn
  have hdigits := parseDigits_digits hds hr (show ds.length < n by omega) 0
  rw [hval] at hdigits
  rw [htext, parseNumber]
  simp only [Scan.bind_apply, parseSigns_signs l.signs (endsSigns_digits l rest) (n := n)
    (by omega), Outcome.bind_done, hbase]
  rw [show (0 : BitVec 64) = BitVec.ofNat 64 0 from rfl] at hdigits ⊢
  rw [hdigits, Outcome.bind_done, Bool.false_xor]
  exact congrArg (fun v => parseSuffix charReader v rest)
    (toVal_signed l.magnitude (isNegative l.signs))

/-! ## Suffixes -/

/-- The character that follows starts no suffix. -/
def NoSuffix (rest : List Char) : Prop := ∀ c ∈ rest.head?, c ∉ ['%', 'p', 'e', 'K', 'M', 'G']

/-- `KB`, `MB` and `GB`. -/
inductive SizeSuffix where
  | KB
  | MB
  | GB

def SizeSuffix.text : SizeSuffix → List Char
  | .KB => ['K', 'B']
  | .MB => ['M', 'B']
  | .GB => ['G', 'B']

def SizeSuffix.factor : SizeSuffix → Nat
  | .KB => 2 ^ 10
  | .MB => 2 ^ 20
  | .GB => 2 ^ 30

theorem matchChars_lit_cons {c d : Char} (hc : c.toNat < 256) (cs rest : List Char) :
    matchChars (lit (c :: cs)) (d :: rest) = if d = c then matchChars (lit cs) rest else none := by
  simp only [lit, List.map_cons, matchChars, UInt8.toNat_ofNat', Nat.mod_eq_of_lt hc,
    Char.toNat_inj]

section Suffix

variable [Fpu] (v : CVal) {rest : List Char}

theorem parseSuffix_none (h : NoSuffix rest) : parseSuffix charReader v rest = .done (v, rest) := by
  have hskip : ∀ {c : Char} {cs : List Char}, c ∈ ['%', 'p', 'e', 'K', 'M', 'G'] → c.toNat < 256 →
      charReader.skipString (lit (c :: cs)) rest = .done (false, rest) := by
    intro c cs hc hlt
    apply skipString_of_none
    cases rest with
    | nil => rfl
    | cons d rest =>
      rw [matchChars_lit_cons hlt, if_neg]
      rintro rfl
      exact h d rfl hc
  simp only [parseSuffix, Scan.bind_apply, skipPercent_eq, hskip (c := '%') (by decide) (by decide),
    hskip (c := 'p') (by decide) (by decide), hskip (c := 'e') (by decide) (by decide),
    hskip (c := 'K') (by decide) (by decide), hskip (c := 'M') (by decide) (by decide),
    hskip (c := 'G') (by decide) (by decide), Outcome.bind_done, Bool.false_eq_true, ↓reduceIte,
    Scan.pure_apply]

theorem parseSuffix_size (k : SizeSuffix) :
    parseSuffix charReader v (k.text ++ rest) = .done (scaleNumber k.factor v, rest) := by
  cases k <;> rfl

end Suffix

/-! ## Literals in a buffer -/

/-- A literal is over where neither a letter, a digit, a point nor a percent sign follows. -/
def EndsLiteral (rest : List Char) : Prop :=
  ∀ c ∈ rest.head?, c.isAlphanum = false ∧ c ≠ '.' ∧ c ≠ '%'

theorem EndsLiteral.endsDigits {rest : List Char} (h : EndsLiteral rest) (base : Nat) :
    EndsDigits base rest := by
  intro c hc
  obtain ⟨halnum, hpoint, -⟩ := h c hc
  refine ⟨?_, hpoint, ?_⟩
  · by_contra hdigit
    have hdigit' := Bool.eq_true_of_not_eq_false hdigit
    have htrue : c.isAlphanum = true :=
      of_isBaseDigit (p := fun c => c.isAlphanum = true) (by decide) hdigit'
    rw [halnum] at htrue
    cases htrue
  · rintro rfl
    cases halnum

theorem EndsLiteral.noSuffix {rest : List Char} (h : EndsLiteral rest) : NoSuffix rest := by
  intro c hc hmem
  obtain ⟨halnum, -, hpercent⟩ := h c hc
  simp only [List.mem_cons, List.not_mem_nil, or_false] at hmem
  rcases hmem with rfl | rfl | rfl | rfl | rfl | rfl
  · exact hpercent rfl
  all_goals cases halnum

theorem bmod_eq_self_64 {i : Int} (hl : -2 ^ 63 ≤ i) (hu : i < 2 ^ 63) : i.bmod (2 ^ 64) = i := by
  apply Int.bmod_eq_of_le
  · omega
  · omega

theorem intVal_integer? {i : Int} (hl : -2 ^ 63 ≤ i) (hu : i < 2 ^ 63) :
    (intVal i).integer? = some i := by
  rw [intVal]
  split
  · exact congrArg some (BitVec.toInt_ofInt_eq_self (by decide) (by omega) (by omega))
  · exact congrArg some (BitVec.toInt_ofInt_eq_self (by decide) (by omega) (by omega))

/-- INT32 is the tag of the integers that fit. -/
theorem intVal_type (i : Int) : (intVal i).type = BitVec.ofNat 32
    (if -2 ^ 31 ≤ i ∧ i ≤ 2 ^ 31 - 1 then Tag.INT32 else Tag.INT64).code := by
  rw [intVal]
  by_cases h : -2 ^ 31 ≤ i ∧ i ≤ 2 ^ 31 - 1
  · rw [if_neg (by omega), if_pos h]
    rfl
  · rw [if_pos (by omega), if_neg h]
    rfl

theorem Literal.value_bounds (l : Literal) {b : Nat} (h : l.magnitude < b) :
    -(b : Int) < l.value ∧ l.value < b := by
  rw [Literal.value]
  split <;> omega

/-- Integer literals are read exactly, and nothing after them. -/
theorem parseNumber_exact [Fpu] (l : Literal) (hl : l.magnitude < 2 ^ 63) {before rest : List Char}
    (hr : EndsLiteral rest) {s : Text} (hw : s.Whole)
    (hc : s.content = utf8 (before ++ (l.text ++ rest))) :
    ∃ fuel v c, s.parseNumber (utf8 before).length fuel = .done (v, c) ∧ v.integer? = some l.value ∧
      v.type = BitVec.ofNat 32
        (if -2 ^ 31 ≤ l.value ∧ l.value ≤ 2 ^ 31 - 1 then Tag.INT32 else Tag.INT64).code ∧
      c.it = (utf8 (before ++ l.text)).length := by
  obtain ⟨hlow, hhigh⟩ := l.value_bounds hl
  have hvalue : l.value.bmod (2 ^ 64) = l.value := bmod_eq_self_64 (by omega) (by omega)
  have hnum := parseNumber_literal l (hr.endsDigits l.base)
      (Nat.lt_succ_self (l.text ++ rest).length)
  rw [parseSuffix_none _ hr.noSuffix, hvalue] at hnum
  obtain ⟨c, hcur, hbefore⟩ := hw.parseNumber_eq_done hc hnum
  refine ⟨_, _, c, hcur, intVal_integer? (by omega) (by omega), intVal_type l.value, ?_⟩
  have hit := hbefore.it_add
  rw [hc] at hit
  simp only [utf8_append, List.length_append] at hit ⊢
  omega

/-- A hexadecimal literal with two signs and a blank, in the middle of a text. -/
theorem parseNumber_exact_hex :
    ∃ fuel v c, @Text.parseNumber .ieee
      (.whole (utf8 ['x', '=', '-', ' ', '+', '0', 'x', '1', 'F', ';']) (by decide)) 2 fuel =
        .done (v, c) ∧ v.integer? = some (-31) ∧ v.type = BitVec.ofNat 32 Tag.INT32.code ∧
      c.it = 9 := by
  let _ := Fpu.ieee
  have hends : EndsLiteral [';'] := by
    intro c hc
    cases hc
    exact ⟨rfl, nofun, nofun⟩
  have hcontent : (Text.whole (utf8 ['x', '=', '-', ' ', '+', '0', 'x', '1', 'F', ';'])
      (by decide)).content =
      utf8 (['x', '='] ++ (['-', ' ', '+', '0', 'x', '1', 'F'] ++ [';'])) := Text.content_whole _ _
  obtain ⟨fuel, v, c, hrun, hv, ht, hit⟩ := parseNumber_exact
    ⟨[⟨true, [' '], forall_mem_of_all rfl⟩, ⟨false, [], nofun⟩], true, ['1', 'F'], nofun,
      forall_mem_of_all rfl⟩ (by decide) hends (Text.whole_isWhole _ _) hcontent
  exact ⟨fuel, v, c, hrun, hv, ht.trans (by decide), hit⟩

/-! ## Sizes -/

theorem SizeSuffix.endsDigits (k : SizeSuffix) (base : Nat) (rest : List Char) :
    EndsDigits base (k.text ++ rest) := by
  intro c hc
  cases k <;> cases hc <;> simp [isBaseDigit]

/-- The number is multiplied in the width that was chosen for it. -/
theorem scaleNumber_integer? [Fpu] (m : Nat) (i : Int) : (scaleNumber m (intVal i)).integer? =
    some (if i < -2 ^ 31 ∨ i > 2 ^ 31 - 1 then (i * m).bmod (2 ^ 64) else (i * m).bmod
      (2 ^ 32)) := by
  have hword : ∀ w : Nat, (BitVec.ofInt w i * BitVec.ofNat w m).toInt = (i * m).bmod (2 ^ w) := by
    intro w
    rw [← BitVec.ofInt_natCast, ← BitVec.ofInt_mul, BitVec.toInt_ofInt]
  rw [intVal]
  split
  · exact congrArg some (hword 64)
  · exact congrArg some (hword 32)

/-- A literal with a size suffix, whatever comes after it. -/
theorem parseNumber_size [Fpu] (l : Literal) (k : SizeSuffix) {before rest : List Char} {s : Text}
    (hw : s.Whole) (hc : s.content = utf8 (before ++ (l.text ++ (k.text ++ rest))))
    (hl : -2 ^ 63 ≤ l.value) (hu : l.value < 2 ^ 63) :
    ∃ fuel c, s.parseNumber (utf8 before).length fuel =
        .done (scaleNumber k.factor (intVal l.value), c) ∧
      c.it = (utf8 (before ++ (l.text ++ k.text))).length := by
  have hnum := parseNumber_literal l (k.endsDigits l.base rest)
    (Nat.lt_succ_self (l.text ++ (k.text ++ rest)).length)
  rw [parseSuffix_size, bmod_eq_self_64 hl hu] at hnum
  obtain ⟨c, hcur, hbefore⟩ := hw.parseNumber_eq_done hc hnum
  refine ⟨_, c, hcur, ?_⟩
  have hit := hbefore.it_add
  rw [hc] at hit
  simp only [utf8_append, List.length_append] at hit ⊢
  omega

/-- `parseNumber` on a literal and a size suffix returns the product, past the suffix. -/
def SizeExact [Fpu] (s : Text) (before : List Char) (l : Literal) (k : SizeSuffix) : Prop :=
  ∃ fuel v c, s.parseNumber (utf8 before).length fuel = .done (v, c) ∧
    v.integer? = some (l.value * k.factor) ∧ c.it = (utf8 (before ++ (l.text ++ k.text))).length

theorem sizeExact_eq [Fpu] {l : Literal} {k : SizeSuffix} (hl : -2 ^ 63 ≤ l.value)
    (hu : l.value < 2 ^ 63) {before rest : List Char} {s : Text} (hw : s.Whole)
    (hc : s.content = utf8 (before ++ (l.text ++ (k.text ++ rest)))) :
    SizeExact s before l k ↔
      (scaleNumber k.factor (intVal l.value)).integer? = some (l.value * k.factor) := by
  obtain ⟨fuel, c, hrun, hit⟩ := parseNumber_size l k hw hc hl hu
  constructor
  · rintro ⟨fuel', v, c', hrun', hv, -⟩
    cases Scan.Returns.unique (fun _ _ h => parseNumber_le s.reader h) ⟨fuel', hrun'⟩ ⟨fuel, hrun⟩
    exact hv
  · intro hv
    exact ⟨fuel, _, c, hrun, hv, hit⟩

/-- A size is exact where the product fits in 32 bits, or the number itself does not. -/
theorem sizeExact_iff [Fpu] (l : Literal) (k : SizeSuffix) (hl : -2 ^ 63 ≤ l.value * k.factor)
    (hu : l.value * k.factor < 2 ^ 63) {before rest : List Char} {s : Text} (hw : s.Whole)
    (hc : s.content = utf8 (before ++ (l.text ++ (k.text ++ rest)))) :
    SizeExact s before l k ↔
      (-2 ^ 31 ≤ l.value * k.factor ∧ l.value * k.factor ≤ 2 ^ 31 - 1) ∨
        l.value < -2 ^ 31 ∨ l.value > 2 ^ 31 - 1 := by
  have hfit : -2 ^ 63 ≤ l.value ∧ l.value < 2 ^ 63 := by
    cases k <;> simp only [SizeSuffix.factor] at hl hu <;> omega
  have hwide : (l.value * k.factor).bmod (2 ^ 64) = l.value * k.factor := bmod_eq_self_64 hl hu
  have hnarrow : (l.value * k.factor).bmod (2 ^ 32) = l.value * k.factor ↔
      -2 ^ 31 ≤ l.value * k.factor ∧ l.value * k.factor ≤ 2 ^ 31 - 1 := by
    have hlow := Int.le_bmod (x := l.value * k.factor) (m := 2 ^ 32) (by omega)
    have hhigh := Int.bmod_lt (x := l.value * k.factor) (m := 2 ^ 32) (by omega)
    constructor
    · intro h
      rw [h] at hlow hhigh
      omega
    · intro h
      apply Int.bmod_eq_of_le
      · omega
      · omega
  rw [sizeExact_eq hfit.1 hfit.2 hw hc, scaleNumber_integer?, Option.some_inj]
  by_cases h : l.value < -2 ^ 31 ∨ l.value > 2 ^ 31 - 1
  · rw [if_pos h, hwide]
    simp only [h, or_true]
  · rw [if_neg h, hnarrow]
    simp only [h, or_false]

/-- Three kilobytes are less than 2^31 bytes. -/
theorem sizeExact_kilobytes :
    @SizeExact .ieee (.whole (utf8 ['3', 'K', 'B']) (by decide)) []
      ⟨[], false, ['3'], nofun, forall_mem_of_all rfl⟩ .KB := by
  let _ := Fpu.ieee
  have hcontent : (Text.whole (utf8 ['3', 'K', 'B']) (by decide)).content =
      utf8 ([] ++ (['3'] ++ (['K', 'B'] ++ []))) := Text.content_whole _ _
  exact (sizeExact_iff ⟨[], false, ['3'], nofun, forall_mem_of_all rfl⟩ .KB (by decide) (by decide)
    (Text.whole_isWhole _ _) hcontent).mpr (Or.inl (by decide))

/-- Two gigabytes become -2^31 bytes. -/
theorem sizeExact_gigabytes_fails :
    ¬@SizeExact .ieee (.whole (utf8 ['2', 'G', 'B']) (by decide)) []
      ⟨[], false, ['2'], nofun, forall_mem_of_all rfl⟩ .GB := by
  let _ := Fpu.ieee
  have hcontent : (Text.whole (utf8 ['2', 'G', 'B']) (by decide)).content =
      utf8 ([] ++ (['2'] ++ (['G', 'B'] ++ []))) := Text.content_whole _ _
  intro h
  have hvalue := (sizeExact_eq (by decide) (by decide) (Text.whole_isWhole _ _) hcontent).mp h
  revert hvalue
  decide

end Libacorn
