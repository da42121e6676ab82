import Libacorn.Glyph

/-!
# What the parser asks past the end

`peekChar`, `skipChar` and `skipString` do not look at `_cb`, so the parser sees the bytes that
follow a slice in its buffer. `Watch` is the scanning interface with one operation more: before a
branch that depends on a peeked character the parser `asks`. On a buffer (`Text.watched`) the
question faults when past the end the answer is not the one that a NUL would give. The parser that
asks is the parser of base/val.cpp otherwise: unless it faults it does the same (`parse_guards`).
-/

namespace Libacorn

open Support

/-- The scanning interface of a parser that says which characters decide. -/
structure Watch (σ : Type) extends Reader σ where
  /-- The branch that is taken depends on whether the character satisfies the predicate. -/
  asks : (Nat → Bool) → Nat → Scan σ Unit

/-! ## The parser with its questions -/

def isBlank (ch : Nat) : Bool :=
  ch = '\r'.toNat ∨ ch = '\n'.toNat ∨ ch = ' '.toNat ∨ ch = '\t'.toNat

def isSign (ch : Nat) : Bool := ch = '+'.toNat ∨ ch = '-'.toNat

def isMantissaChar (base ch : Nat) : Bool := isBaseDigit base ch ∨ ch = '.'.toNat

def opensValue (ch : Nat) : Bool := ch = '{'.toNat ∨ ch = '['.toNat ∨ isNumberStart ch

namespace Watch

variable {σ : Type} (w : Watch σ)

def skipWhitespaceAndComments : Nat → Bool → Scan σ Unit
  | 0, _ => Scan.timeout
  | n + 1, newLine => do
    if ← w.atEnd then pure () else
    let ch ← w.peekChar
    w.asks isBlank ch
    if ch = '\r'.toNat ∨ ch = '\n'.toNat then
      let _ ← w.readChar
      skipWhitespaceAndComments n true
    else if ch = ' '.toNat ∨ ch = '\t'.toNat then
      let _ ← w.readChar
      skipWhitespaceAndComments n newLine
    else if newLine then
      if ← startsComment w.toReader ch then
        skipComment w.toReader n
        skipWhitespaceAndComments n newLine
      else pure ()
    else pure ()

/-- A code point that cannot be encoded is no question: the assertion fails on every buffer. -/
def appendChar (str : Bytes) (ch : Nat) : Scan σ Bytes :=
  match encodeUtf8 ch with
  | some bs => pure (str ++ bs)
  | none => Scan.timeout

def parseStringLoop (quoted : Bool) : Nat → Bytes → Scan σ Bytes
  | 0, _ => Scan.timeout
  | n + 1, str => do
    if ← w.beforeEnd then
      let ch ← w.peekChar
      if quoted = false ∧ endsBareString ch then pure str else
      let ch ← w.readChar
      if ch = 0 then pure str
      else if quoted ∧ ch = '\"'.toNat then pure str
      else if ch = '\\'.toNat then
        let ch ← w.readChar
        if legalEscape quoted ch then
          let str' ← appendChar str (if ch = 'n'.toNat then '\n'.toNat else ch)
          parseStringLoop quoted n str'
        else parseStringLoop quoted n str
      else
        let str' ← appendChar str ch
        parseStringLoop quoted n str'
    else pure str

/-- A quote past the end opens an empty string, and so does everything else. -/
def parseString (n : Nat) : Scan σ Bytes := do
  let ch ← w.peekChar
  if ch = '\"'.toNat then
    let _ ← w.readChar
    w.parseStringLoop true n []
  else w.parseStringLoop false n []

def parseSigns : Nat → Bool → Scan σ Bool
  | 0, _ => Scan.timeout
  | n + 1, neg => do
    let ch ← w.peekChar
    w.asks isSign ch
    if ch = '+'.toNat ∨ ch = '-'.toNat then
      let _ ← w.readChar
      w.skipWhitespace
      parseSigns n (if ch = '-'.toNat then !neg else neg)
    else pure neg

/-- The loops over fields and elements end past the end, whatever is there. -/
def parseFields (json : Bool) (value : Scan σ CVal) (k : Nat) :
    Nat → List (Bytes × CVal) → Scan σ (List (Bytes × CVal) × Bool)
  | 0, _ => Scan.timeout
  | n + 1, fields => do
    let ch ← w.peekChar
    if ch = '}'.toNat then pure (fields, false) else
    if ← w.beforeEnd then
      w.skipWhitespaceAndComments k false
      let fieldName ← w.parseString k
      if fieldName = [] then pure (fields, true) else
      w.skipWhitespaceAndComments k false
      let colon ← w.readChar
      if colon ≠ ':'.toNat then pure (fields, true) else
      let fieldValue ← value
      w.skipWhitespaceAndComments k false
      skipFieldComma w.toReader json
      parseFields json value k n (OrderedMap.assign fieldName fieldValue fields)
    else pure (fields, false)

def parseElements (value : Scan σ CVal) (k : Nat) : Nat → List CVal → Scan σ (List CVal)
  | 0, _ => Scan.timeout
  | n + 1, vec => do
    let ch ← w.peekChar
    if ch = ']'.toNat then pure vec else
    if ← w.beforeEnd then
      let element ← value
      w.skipWhitespaceAndComments k false
      let sep ← w.peekChar
      if sep = ','.toNat then
        let _ ← w.readChar
        parseElements value k n (vec ++ [element])
      else pure (vec ++ [element])
    else pure vec

def parseImplicit (value : Scan σ CVal) (k : Nat) : Nat → CVal → Scan σ CVal
  | 0, _ => Scan.timeout
  | n + 1, v => do
    skipSpacesAndTabs w.toReader k
    let ch ← w.peekChar
    w.asks endsImplicitArray ch
    if endsImplicitArray ch then pure v else
    let elem ← value
    parseImplicit value k n (.array (asElements v ++ [elem]))

section Fpu

variable [Fpu]

def parseDigits (base : Nat) : Nat → NumState → Scan σ NumState
  | 0, _ => Scan.timeout
  | n + 1, s => do
    let ch ← w.peekChar
    w.asks (isMantissaChar base) ch
    if isBaseDigit base ch then
      let _ ← w.readChar
      parseDigits base n (s.digit base (digitValue ch))
    else if ch = '.'.toNat then
      let _ ← w.readChar
      parseDigits base n s.point
    else pure s

def parseNumber (n : Nat) : Scan σ CVal := do
  let neg ← w.parseSigns n false
  let base ← parseBase w.toReader
  let s ← w.parseDigits base n { u := 0, isFloat := false, fraction := 0 }
  parseSuffix w.toReader (s.toVal neg)

def parseValue (json : Bool) (value : Scan σ CVal) (rest : CVal → Scan σ CVal) (n : Nat) :
    Scan σ CVal := do
  if ← w.beforeEnd then
    w.skipWhitespaceAndComments n false
    let ch ← w.peekChar
    w.asks opensValue ch
    if ch = '{'.toNat then
      let _ ← w.readChar
      w.skipWhitespaceAndComments n false
      let fields ← w.parseFields json value n n []
      if fields.2 then pure (.map fields.1) else
      let _ ← w.readChar
      rest (.map fields.1)
    else if ch = '['.toNat then
      let _ ← w.readChar
      w.skipWhitespaceAndComments n false
      let vec ← w.parseElements value n n []
      let _ ← w.skipChar (UInt8.ofNat ']'.toNat)
      rest (.array vec)
    else if isNumberStart ch then
      let v ← w.parseNumber n
      rest v
    else
      let keyword ← parseKeyword w.toReader ch
      match keyword with
      | some v => rest v
      | none =>
        let str ← w.parseString n
        rest (.string str)
  else pure .empty

def parse : Nat → Flags → Scan σ CVal
  | 0, _ => Scan.timeout
  | n + 1, flags =>
    w.parseValue flags.json (parse n flags)
      (fun v =>
        if flags.json = false ∧ flags.inImplicitArray = false then
          w.parseImplicit (parse n { flags with inImplicitArray := true }) n n v
        else pure v) n

end Fpu

end Watch

/-! ## Buffers -/

namespace Text

variable (s : Text)

/-- The sequence that starts here goes on behind the end. -/
def cuts (o : Nat) : Bool :=
  match s.mem[s.offset + o]? with
  | some b => s.cb < o + seqLen b
  | none => false

/-- A suffix that gives another number than no suffix, whatever number it is. -/
def isUnit (l : Bytes) : Bool := l = lit ['p', 't'] ∨ l = lit ['e', 'm'] ∨ l = lit ['p', 'x']

/-- The text, watched. A `strict` watch lets the cursor nowhere past the end. -/
def watched (strict : Bool) : Watch Cursor where
  peekChar c := if c.it < s.cb ∧ s.cuts c.it then .fault else s.peekChar c
  readChar c := if c.it < s.cb ∧ s.cuts c.it then .fault else s.readChar c
  skipChar ch c := (s.skipChar ch c).bind fun r =>
    if r.1 ∧ s.cb ≤ c.it ∧ (strict ∨ ch = UInt8.ofNat '%'.toNat) then .fault else .done r
  skipString l c := (s.skipString l c).bind fun r =>
    if r.1 ∧ s.cb ≤ c.it ∧ (strict ∨ isUnit l) then .fault else .done r
  skipWhitespace := s.skipWhitespace
  atEnd := s.reader.atEnd
  beforeEnd := s.reader.beforeEnd
  asks p ch c := if s.cb ≤ c.it ∧ p ch ≠ p 0 then .fault else .done ((), c)

end Text

section Calm

variable [Fpu]

/-- `val::parse` is not misled: it reads no sequence that goes on behind the end, and every
character that it asks about there leads it where a NUL would. -/
def Text.Calm (s : Text) (flags : Flags) : Prop :=
  ∀ n, (s.watched false).parse n flags .start ≠ .fault

/-- The same for `val::parseNumber`, whose cursor does not leave the end either. -/
def Text.NumberCalm (s : Text) (offset : Nat) : Prop :=
  ∀ n, (s.watched true).parseNumber n ⟨offset, [offset]⟩ ≠ .fault

end Calm

/-! ## Unless it faults -/

/-- `m` faults, or it does what `m'` does; an assertion of `m'` may leave `m` without an answer. -/
def Guards {σ α : Type} (m m' : Scan σ α) : Prop :=
  ∀ c, m c = .fault ∨ m c = m' c ∨ m c = .timeout ∧ m' c = .fault

namespace Guards

variable {σ α β : Type}

theorem refl (m : Scan σ α) : Guards m m := fun _ => Or.inr (Or.inl rfl)

theorem bind {m m' : Scan σ α} {f f' : α → Scan σ β} (h : Guards m m')
    (hf : ∀ a, Guards (f a) (f' a)) : Guards (m >>= f) (m' >>= f') := by
  intro c
  simp only [Scan.bind_apply]
  rcases h c with h | h | ⟨h, h'⟩
  · rw [h]
    exact Or.inl rfl
  · rw [h]
    cases m' c with
    | done r => exact hf r.1 r.2
    | timeout => exact Or.inr (Or.inl rfl)
    | fault => exact Or.inl rfl
  · rw [h, h']
    exact Or.inr (Or.inr ⟨rfl, rfl⟩)

theorem ite {c : Prop} [Decidable c] {m m' n n' : Scan σ α} (h : Guards m m') (h' : Guards n n') :
    Guards (if c then m else n) (if c then m' else n') := by
  split
  · exact h
  · exact h'

end Guards

section

variable {α : Type} (s : Text) (strict : Bool)

theorem watched_asks_eq (p : Nat → Bool) (ch : Nat) (c : Cursor) : (s.watched strict).asks p ch c =
    if s.cb ≤ c.it ∧ p ch ≠ p 0 then .fault else .done ((), c) := rfl

theorem watched_asks (p : Nat → Bool) (ch : Nat) {m m' : Scan Cursor α} (h : Guards m m') :
    Guards ((s.watched strict).asks p ch >>= fun _ => m) m' := by
  intro c
  rw [Scan.bind_apply, watched_asks_eq]
  split
  next => exact Or.inl rfl
  next => exact h c

theorem watched_peekChar : Guards (s.watched strict).peekChar s.reader.peekChar := by
  intro c
  simp only [Text.watched]
  split
  next => exact Or.inl rfl
  next => exact Or.inr (Or.inl rfl)

theorem watched_readChar : Guards (s.watched strict).readChar s.reader.readChar := by
  intro c
  simp only [Text.watched]
  split
  next => exact Or.inl rfl
  next => exact Or.inr (Or.inl rfl)

theorem watched_skipChar (ch : UInt8) :
    Guards ((s.watched strict).skipChar ch) (s.reader.skipChar ch) := by
  intro c
  simp only [Text.watched]
  cases h : s.skipChar ch c with
  | done r =>
    rw [Outcome.bind_done]
    split
    next => exact Or.inl rfl
    next => exact Or.inr (Or.inl h.symm)
  | timeout => exact Or.inr (Or.inl h.symm)
  | fault => exact Or.inl rfl

theorem watched_skipString (l : Bytes) :
    Guards ((s.watched strict).skipString l) (s.reader.skipString l) := by
  intro c
  simp only [Text.watched]
  cases h : s.skipString l c with
  | done r =>
    rw [Outcome.bind_done]
    split
    next => exact Or.inl rfl
    next => exact Or.inr (Or.inl h.symm)
  | timeout => exact Or.inr (Or.inl h.symm)
  | fault => exact Or.inl rfl

theorem skipComment_guards (n : Nat) :
    Guards (skipComment (s.watched strict).toReader n) (skipComment s.reader n) := by
  induction n with
  | zero => exact Guards.refl _
  | succ n ih =>
    refine Guards.bind (Guards.refl _) fun e => Guards.ite (Guards.refl _) ?_
    refine Guards.bind (watched_peekChar s strict) fun ch => Guards.ite (Guards.refl _) ?_
    exact Guards.bind (watched_readChar s strict) fun _ => ih

theorem startsComment_guards (ch : Nat) :
    Guards (startsComment (s.watched strict).toReader ch) (startsComment s.reader ch) :=
  Guards.ite (Guards.refl _) (Guards.ite (watched_skipString s strict _) (Guards.refl _))

theorem skipWhitespaceAndComments_guards (n : Nat) (newLine : Bool) :
    Guards ((s.watched strict).skipWhitespaceAndComments n newLine)
      (skipWhitespaceAndComments s.reader n newLine) := by
  induction n generalizing newLine with
  | zero => exact Guards.refl _
  | succ n ih =>
    refine Guards.bind (Guards.refl _) fun e => Guards.ite (Guards.refl _) ?_
    refine Guards.bind (watched_peekChar s strict) fun ch => watched_asks s strict _ _ ?_
    refine Guards.ite ?_ (Guards.ite ?_ (Guards.ite ?_ (Guards.refl _)))
    · exact Guards.bind (watched_readChar s strict) fun _ => ih true
    · exact Guards.bind (watched_readChar s strict) fun _ => ih newLine
    · refine Guards.bind (startsComment_guards s strict ch) fun c => Guards.ite ?_ (Guards.refl _)
      exact Guards.bind (skipComment_guards s strict n) fun _ => ih newLine

theorem skipSpacesAndTabs_guards (n : Nat) :
    Guards (skipSpacesAndTabs (s.watched strict).toReader n) (skipSpacesAndTabs s.reader n) := by
  induction n with
  | zero => exact Guards.refl _
  | succ n ih =>
    refine Guards.bind (Guards.refl _) fun e => Guards.ite ?_ (Guards.refl _)
    refine Guards.bind (watched_peekChar s strict) fun ch => Guards.ite ?_ (Guards.refl _)
    exact Guards.bind (watched_readChar s strict) fun _ => ih

theorem appendChar_guards (str : Bytes) (ch : Nat) :
    Guards (Watch.appendChar str ch : Scan Cursor Bytes) (appendChar str ch) := by
  intro c
  rw [Watch.appendChar, appendChar]
  cases encodeUtf8 ch with
  | some bs => exact Or.inr (Or.inl rfl)
  | none => exact Or.inr (Or.inr ⟨rfl, rfl⟩)

theorem parseStringLoop_guards (quoted : Bool) (n : Nat) (str : Bytes) :
    Guards ((s.watched strict).parseStringLoop quoted n str)
      (parseStringLoop s.reader quoted n str) := by
  induction n generalizing str with
  | zero => exact Guards.refl _
  | succ n ih =>
    refine Guards.bind (Guards.refl _) fun e => Guards.ite ?_ (Guards.refl _)
    refine Guards.bind (watched_peekChar s strict) fun ch => Guards.ite (Guards.refl _) ?_
    refine Guards.bind (watched_readChar s strict) fun ch => Guards.ite (Guards.refl _) ?_
    refine Guards.ite (Guards.refl _) (Guards.ite ?_ ?_)
    · refine Guards.bind (watched_readChar s strict) fun ch => Guards.ite ?_ (ih str)
      exact Guards.bind (appendChar_guards _ _) fun str' => ih str'
    · exact Guards.bind (appendChar_guards _ _) fun str' => ih str'

theorem parseString_guards (n : Nat) :
    Guards ((s.watched strict).parseString n) (parseString s.reader n) := by
  refine Guards.bind (watched_peekChar s strict) fun ch => Guards.ite ?_ ?_
  · exact Guards.bind (watched_readChar s strict) fun _ => parseStringLoop_guards s strict true n []
  · exact parseStringLoop_guards s strict false n []

theorem parseSigns_guards (n : Nat) (neg : Bool) :
    Guards ((s.watched strict).parseSigns n neg) (parseSigns s.reader n neg) := by
  induction n generalizing neg with
  | zero => exact Guards.refl _
  | succ n ih =>
    refine Guards.bind (watched_peekChar s strict) fun ch => watched_asks s strict _ _ ?_
    refine Guards.ite ?_ (Guards.refl _)
    refine Guards.bind (watched_readChar s strict) fun _ => ?_
    exact Guards.bind (Guards.refl _) fun _ => ih _

theorem parseBase_guards :
    Guards (parseBase (s.watched strict).toReader) (parseBase s.reader) := by
  refine Guards.bind (watched_skipChar s strict _) fun zero => Guards.ite ?_ (Guards.refl _)
  exact Guards.bind (watched_skipChar s strict _) fun x => Guards.refl _

theorem skipFieldComma_guards (json : Bool) :
    Guards (skipFieldComma (s.watched strict).toReader json) (skipFieldComma s.reader json) := by
  refine Guards.ite ?_ (Guards.refl _)
  exact Guards.bind (watched_skipChar s strict _) fun c => Guards.refl _

theorem parseKeyword_guards (ch : Nat) :
    Guards (parseKeyword (s.watched strict).toReader ch) (parseKeyword s.reader ch) := by
  refine Guards.ite ?_ (Guards.ite ?_ (Guards.ite ?_ (Guards.refl _)))
  · exact Guards.bind (watched_skipString s strict _) fun b => Guards.refl _
  · exact Guards.bind (watched_skipString s strict _) fun b => Guards.refl _
  · exact Guards.bind (watched_skipString s strict _) fun b => Guards.refl _

section

variable {value value' : Scan Cursor CVal} (hv : Guards value value')

include hv

theorem parseFields_guards (json : Bool) (k n : Nat) (fields : List (Bytes × CVal)) :
    Guards ((s.watched strict).parseFields json value k n fields)
      (parseFields s.reader json value' k n fields) := by
  have hw := skipWhitespaceAndComments_guards s strict k false
  induction n generalizing fields with
  | zero => exact Guards.refl _
  | succ n ih =>
    refine Guards.bind (watched_peekChar s strict) fun ch => Guards.ite (Guards.refl _) ?_
    refine Guards.bind (Guards.refl _) fun e => Guards.ite ?_ (Guards.refl _)
    refine Guards.bind hw fun _ => Guards.bind (parseString_guards s strict k) fun name => ?_
    refine Guards.ite (Guards.refl _) (Guards.bind hw fun _ => ?_)
    refine Guards.bind (watched_readChar s strict) fun colon => Guards.ite (Guards.refl _) ?_
    refine Guards.bind hv fun v => Guards.bind hw fun _ => ?_
    exact Guards.bind (skipFieldComma_guards s strict json) fun _ => ih _

theorem parseElements_guards (k n : Nat) (vec : List CVal) :
    Guards ((s.watched strict).parseElements value k n vec)
      (parseElements s.reader value' k n vec) := by
  induction n generalizing vec with
  | zero => exact Guards.refl _
  | succ n ih =>
    refine Guards.bind (watched_peekChar s strict) fun ch => Guards.ite (Guards.refl _) ?_
    refine Guards.bind (Guards.refl _) fun e => Guards.ite ?_ (Guards.refl _)
    refine Guards.bind hv fun v => ?_
    refine Guards.bind (skipWhitespaceAndComments_guards s strict k false) fun _ => ?_
    refine Guards.bind (watched_peekChar s strict) fun sep => Guards.ite ?_ (Guards.refl _)
    exact Guards.bind (watched_readChar s strict) fun _ => ih _

theorem parseImplicit_guards (k n : Nat) (v : CVal) :
    Guards ((s.watched strict).parseImplicit value k n v)
      (parseImplicit s.reader value' k n v) := by
  induction n generalizing v with
  | zero => exact Guards.refl _
  | succ n ih =>
    refine Guards.bind (skipSpacesAndTabs_guards s strict k) fun _ => ?_
    refine Guards.bind (watched_peekChar s strict) fun ch => watched_asks s strict _ _ ?_
    exact Guards.ite (Guards.refl _) (Guards.bind hv fun elem => ih _)

end

variable [Fpu]

theorem parseDigits_guards (base n : Nat) (st : NumState) :
    Guards ((s.watched strict).parseDigits base n st) (parseDigits s.reader base n st) := by
  induction n generalizing st with
  | zero => exact Guards.refl _
  | succ n ih =>
    refine Guards.bind (watched_peekChar s strict) fun ch => watched_asks s strict _ _ ?_
    refine Guards.ite ?_ (Guards.ite ?_ (Guards.refl _))
    · exact Guards.bind (watched_readChar s strict) fun _ => ih _
    · exact Guards.bind (watched_readChar s strict) fun _ => ih _

theorem parseSuffix_guards (v : CVal) :
    Guards (parseSuffix (s.watched strict).toReader v) (parseSuffix s.reader v) := by
  have hs := watched_skipString s strict
  refine Guards.bind (watched_skipChar s strict _) fun b => Guards.ite (Guards.refl _) ?_
  refine Guards.bind (hs _) fun b => Guards.ite (Guards.refl _) ?_
  refine Guards.bind (hs _) fun b => Guards.ite (Guards.refl _) ?_
  refine Guards.bind (hs _) fun b => Guards.ite (Guards.refl _) ?_
  refine Guards.bind (hs _) fun b => Guards.ite (Guards.refl _) ?_
  refine Guards.bind (hs _) fun b => Guards.ite (Guards.refl _) ?_
  exact Guards.bind (hs _) fun b => Guards.refl _

theorem parseNumber_guards (n : Nat) :
    Guards ((s.watched strict).parseNumber n) (parseNumber s.reader n) := by
  refine Guards.bind (parseSigns_guards s strict n false) fun neg => ?_
  refine Guards.bind (parseBase_guards s strict) fun base => ?_
  exact Guards.bind (parseDigits_guards s strict base n _) fun st => parseSuffix_guards s strict _

theorem parseValue_guards (json : Bool) (n : Nat) {value value' : Scan Cursor CVal}
    (hv : Guards value value') {rest rest' : CVal → Scan Cursor CVal}
    (hr : ∀ v, Guards (rest v) (rest' v)) : Guards ((s.watched strict).parseValue json value rest n)
      (parseValue s.reader json value' rest' n) := by
  have hw := skipWhitespaceAndComments_guards s strict n false
  refine Guards.bind (Guards.refl _) fun e => Guards.ite ?_ (Guards.refl _)
  refine Guards.bind hw fun _ => Guards.bind (watched_peekChar s strict) fun ch => ?_
  refine watched_asks s strict _ _ (Guards.ite ?_ (Guards.ite ?_ (Guards.ite ?_ ?_)))
  · refine Guards.bind (watched_readChar s strict) fun _ => Guards.bind hw fun _ => ?_
    refine Guards.bind (parseFields_guards s strict hv json n n []) fun fields => ?_
    refine Guards.ite (Guards.refl _) ?_
    exact Guards.bind (watched_readChar s strict) fun _ => hr _
  · refine Guards.bind (watched_readChar s strict) fun _ => Guards.bind hw fun _ => ?_
    refine Guards.bind (parseElements_guards s strict hv n n []) fun vec => ?_
    exact Guards.bind (watched_skipChar s strict _) fun _ => hr _
  · exact Guards.bind (parseNumber_guards s strict n) fun v => hr v
  · refine Guards.bind (parseKeyword_guards s strict ch) fun keyword => ?_
    cases keyword with
    | some v => exact hr v
    | none => exact Guards.bind (parseString_guards s strict n) fun str => hr _

/-- Unless it faults, the parser that asks is the parser. -/
theorem parse_guards (n : Nat) (flags : Flags) :
    Guards ((s.watched strict).parse n flags) (parse s.reader n flags) := by
  induction n generalizing flags with
  | zero => exact Guards.refl _
  | succ n ih =>
    refine parseValue_guards s strict _ n (ih flags) fun v => Guards.ite ?_ (Guards.refl _)
    exact parseImplicit_guards s strict (ih _) n n v

end

end Libacorn
