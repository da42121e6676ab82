import Libacorn.Support.Watch
import Libacorn.Parse
import Libacorn.UnionDiscipline

/-!
# The parser, with its unions

`val::parseNumber` and `val::parse` again, this time over vals with a union
(`UVal`): every read of a member is checked, and one of a member that was not
last written leaves the mark `broken`. The scanning functions are those of
`Parse.lean`.

A decimal point after the first, and a digit behind the point once `fraction`
has become 0, leave the mark `waived`: there, and nowhere else, the source reads
the wrong member. Any other run returns what `Parse.lean` says it does
(`UVal.parse_tracks`).
-/

namespace Libacorn

open Support

/-- Read a val inside a scanner. After a misread the run goes on with some value. -/
def access {σ α : Type} [Inhabited α] : Access α → Watch σ α
  | .ok a => pure a
  | .misread => do
    Watch.mark ⟨false, true⟩
    return default
  | .abort => Watch.fault

instance : Inhabited UVal := ⟨⟨.EMPTY, .none⟩⟩

/-! ## Numbers -/

/-- The 64-bit members that `parseNumber` uses. -/
inductive Wide where
  | i64
  | u64
  | f64
  deriving DecidableEq, Repr

/-- Members that differ at most in being signed. -/
def Wide.sameUpToSign : Wide → Wide → Bool
  | .f64, .f64 => true
  | .f64, _ => false
  | _, .f64 => false
  | _, _ => true

/-- The local `val` of `parseNumber` while digits are read: its 64 bits, the
member they were last written through, and the locals beside it. -/
structure NumUnion where
  bits : BitVec 64
  last : Wide
  isFloat : Bool
  fraction : BitVec 64
  deriving DecidableEq, Repr

/-- The union, once the tag is set. -/
def NumUnion.u (s : NumUnion) : Union UVal :=
  match s.last with
  | .i64 => .i64 s.bits
  | .u64 => .u64 s.bits
  | .f64 => .f64 s.bits

namespace UVal

variable {σ : Type} (same : Wide → Wide → Bool)

/-- `val._i64` or `val._f64` as a value; nothing is promised under `waive`. -/
def read (waive : Bool) (s : NumUnion) (m : Wide) : Watch σ (BitVec 64) := do
  Watch.mark ⟨waive, !same s.last m⟩
  return s.bits

section Fpu
variable [Fpu]

/-- One digit. -/
def digit (base d : Nat) (s : NumUnion) : Watch σ NumUnion :=
  if isZeroF64 s.fraction then do
    -- behind a point this is the branch of an integer, taken by mistake
    let i ← read same s.isFloat s .i64
    return { s with bits := i * BitVec.ofNat 64 base + BitVec.ofNat 64 d, last := .i64 }
  else do
    let fraction := Fpu.div s.fraction base
    let f ← read same false s .f64
    return { s with fraction := fraction, bits := Fpu.add f (Fpu.mul d fraction), last := .f64 }

/-- A decimal point: `val._f64 = val._i64`. -/
def point (s : NumUnion) : Watch σ NumUnion := do
  let i ← read same s.isFloat s .i64
  return { bits := Fpu.i64ToF64 i, last := .f64, isFloat := true, fraction := oneF64 }

def parseDigits (r : Reader σ) (base : Nat) : Nat → NumUnion → Watch σ NumUnion
  | 0, _ => Watch.timeout
  | n + 1, s => do
    let ch ← r.peekChar
    if isBaseDigit base ch then
      let _ ← r.readChar
      let s ← digit same base (digitValue ch) s
      parseDigits r base n s
    else if ch = '.'.toNat then
      let _ ← r.readChar
      let s ← point same s
      parseDigits r base n s
    else pure s

/-- `if (neg)` -/
def applySign (neg : Bool) (s : NumUnion) : Watch σ NumUnion :=
  if neg then
    if s.isFloat then do
      let f ← read same false s .f64
      return { s with bits := Fpu.neg f, last := .f64 }
    else do
      let i ← read same false s .i64
      return { s with bits := -i, last := .i64 }
  else pure s

/-- Choose 64 or 32 bits: the wide types only set the tag. -/
def chooseSize (s : NumUnion) : Watch σ UVal :=
  if s.isFloat then do
    let f ← read same false s .f64
    if Fpu.lt f fltMin ∨ Fpu.lt fltMax f then return ⟨.FLOAT64, s.u⟩
    else return ⟨.FLOAT32, .f32 (Fpu.f64ToF32 f)⟩
  else do
    let i ← read same false s .i64
    if i.toInt < -2 ^ 31 ∨ i.toInt > 2 ^ 31 - 1 then return ⟨.INT64, s.u⟩
    else return ⟨.INT32, .i32 (i.setWidth 32)⟩

/-- `val *= mul` in the member of its type. -/
def scale (mul : Nat) (v : UVal) : Access UVal :=
  match v.type with
  | .INT32 => do return ⟨v.type, .i32 ((← v.u.readI32) * BitVec.ofNat 32 mul)⟩
  | .INT64 => do return ⟨v.type, .i64 ((← v.u.readI64) * BitVec.ofNat 64 mul)⟩
  | .FLOAT32 => do return ⟨v.type, .f32 (Fpu.scaleF32 (← v.u.readF32) mul)⟩
  | .FLOAT64 => do return ⟨v.type, .f64 (Fpu.scaleF64 (← v.u.readF64) mul)⟩
  | _ => return v

end Fpu

variable [Target] (r : Reader σ)

/-- `val._measurement = measurement(val.floatVal(), unit)` -/
def toMeasurement (unit : MeasureUnit) (v : UVal) : Access UVal := do
  return ⟨.MEASUREMENT, .measurement (← v.floatVal) unit⟩

def parseSuffix (v : UVal) : Watch σ UVal := do
  if ← r.skipChar (UInt8.ofNat '%'.toNat) then access (v.toMeasurement .PC)
  else if ← r.skipString (lit ['p', 't']) then access (v.toMeasurement .PT)
  else if ← r.skipString (lit ['e', 'm']) then access (v.toMeasurement .EM)
  else if ← r.skipString (lit ['p', 'x']) then access (v.toMeasurement .PX)
  else if ← r.skipString (lit ['K', 'B']) then access (v.scale 1024)
  else if ← r.skipString (lit ['M', 'B']) then access (v.scale (1024 * 1024))
  else if ← r.skipString (lit ['G', 'B']) then access (v.scale (1024 * 1024 * 1024))
  else pure v

/-- `val::parseNumber`. The local starts as `uint64_t(0)`. -/
def parseNumber (n : Nat) : Watch σ UVal := do
  let neg ← parseSigns r n false
  let base ← parseBase r
  let s ← parseDigits same r base n { bits := 0, last := .u64, isFloat := false, fraction := 0 }
  let s ← applySign same neg s
  let v ← chooseSize same s
  parseSuffix r v

/-! ## Values -/

/-- `null`, `true` and `false`. -/
def parseKeyword (v : UVal) (ch : Nat) : Watch σ (Option UVal) := do
  if ch = 'n'.toNat then
    if ← r.skipString (lit ['n', 'u', 'l', 'l']) then
      let v ← access (v.setType .EMPTY)
      pure (some v)
    else pure none
  else if ch = 't'.toNat then
    if ← r.skipString (lit ['t', 'r', 'u', 'e']) then
      let v ← access (v.setInt32 1)
      pure (some v)
    else pure none
  else if ch = 'f'.toNat then
    if ← r.skipString (lit ['f', 'a', 'l', 's', 'e']) then
      let v ← access (v.setInt32 0)
      pure (some v)
    else pure none
  else pure none

/-- The loop over the fields of a map; `v` is the val being filled. -/
def parseFields (json : Bool) (value : Watch σ UVal) (k : Nat) :
    Nat → UVal → Watch σ (UVal × Bool)
  | 0, _ => Watch.timeout
  | n + 1, v => do
    let ch ← r.peekChar
    if ch = '}'.toNat then pure (v, false) else
    if ← r.beforeEnd then
      skipWhitespaceAndComments r k false
      let fieldName ← parseString r k
      if fieldName = [] then pure (v, true) else
      skipWhitespaceAndComments r k false
      let colon ← r.readChar
      if colon ≠ ':'.toNat then pure (v, true) else
      let fieldValue ← value
      let v ← access (v.assignField fieldName fieldValue)
      skipWhitespaceAndComments r k false
      skipFieldComma r json
      parseFields json value k n v
    else pure (v, false)

/-- The loop over the elements of an explicit array. -/
def parseElements (value : Watch σ UVal) (k : Nat) : Nat → UVal → Watch σ UVal
  | 0, _ => Watch.timeout
  | n + 1, v => do
    let ch ← r.peekChar
    if ch = ']'.toNat then pure v else
    if ← r.beforeEnd then
      let element ← value
      let v ← access (v.pushBack element.moveTo)
      skipWhitespaceAndComments r k false
      let sep ← r.peekChar
      if sep = ','.toNat then
        let _ ← r.readChar
        parseElements value k n v
      else pure v
    else pure v

/-- `if (!v.isArray())`: the val so far becomes the first element. -/
def startImplicit (v : UVal) : Access UVal :=
  if v.isArray then return v
  else do
    let firstElem := v.moveTo
    let v ← v.movedFrom.setType .ARRAY
    v.pushBack firstElem.moveTo

/-- The loop that turns space-separated values into an array. -/
def parseImplicit (value : Watch σ UVal) (k : Nat) : Nat → UVal → Watch σ UVal
  | 0, _ => Watch.timeout
  | n + 1, v => do
    skipSpacesAndTabs r k
    let ch ← r.peekChar
    if endsImplicitArray ch then pure v else
    let v ← access v.startImplicit
    let elem ← value
    let v ← access (v.pushBack elem.moveTo)
    parseImplicit value k n v

/-- `val::parse` up to the implicit-array loop, as `Libacorn.parseValue`. -/
def parseValue (json : Bool) (value : Watch σ UVal) (rest : UVal → Watch σ UVal) (n : Nat) :
    Watch σ UVal := do
  if ← r.beforeEnd then
    skipWhitespaceAndComments r n false
    let ch ← r.peekChar
    if ch = '{'.toNat then
      let _ ← r.readChar
      skipWhitespaceAndComments r n false
      let fields ← parseFields r json value n n ⟨.MAP, .map (some [])⟩
      if fields.2 then pure fields.1 else
      let _ ← r.readChar
      rest fields.1
    else if ch = '['.toNat then
      let _ ← r.readChar
      skipWhitespaceAndComments r n false
      let v ← parseElements r value n n ⟨.ARRAY, .vec (some [])⟩
      let _ ← r.skipChar (UInt8.ofNat ']'.toNat)
      rest v
    else if isNumberStart ch then
      let number ← parseNumber same r n
      let v ← access (empty.assign number)
      rest v
    else
      let keyword ← parseKeyword r empty ch
      match keyword with
      | some v => rest v
      | none =>
        let str ← parseString r n
        let v ← access (empty.assign (ofString str))
        rest v
  else pure empty

/-- `val::parse(str, it, flags)` -/
def parse : Nat → Flags → Watch σ UVal
  | 0, _ => Watch.timeout
  | n + 1, flags =>
    parseValue same r flags.json (parse n flags)
      (fun v =>
        if flags.json = false ∧ flags.inImplicitArray = false then
          parseImplicit r (parse n { flags with inImplicitArray := true }) n n v
        else pure v) n

end UVal

/-! ## Silent steps of the parser -/

theorem access_silent {σ α : Type} [Inhabited α] {P : α → Prop} {x : Access α}
    (h : x.Clean P) : Watch.Silent P (access x : Watch σ α) := by
  cases x with
  | ok a => exact Watch.Silent.pure h
  | misread => exact h.elim
  | abort => exact Watch.Silent.fault

section Numbers

variable {σ : Type}

/-- The union has the bits of `s`, and the next step reads what wrote them. -/
structure Agrees (s : NumState) (t : NumUnion) : Prop where
  bits : t.bits = s.u
  isFloat : t.isFloat = s.isFloat
  fraction : t.fraction = s.fraction
  float : s.isFloat = true → t.last = .f64
  int : s.isFloat = false → t.last ≠ .f64 ∧ isZeroF64 s.fraction = true
  unsigned : t.last = .u64 → s.u = 0

theorem agrees_start :
    Agrees ⟨0, false, 0⟩ { bits := 0, last := .u64, isFloat := false, fraction := 0 } where
  bits := rfl
  isFloat := rfl
  fraction := rfl
  float := nofun
  int _ := ⟨nofun, rfl⟩
  unsigned _ := rfl

/-- The member for the branch `isFloat` chooses. -/
def Wide.ofFloat (isFloat : Bool) : Wide := if isFloat then .f64 else .i64

theorem Agrees.same {s : NumState} {t : NumUnion} (h : Agrees s t) :
    Wide.sameUpToSign t.last (.ofFloat s.isFloat) = true := by
  cases hf : s.isFloat with
  | true =>
    rw [h.float hf]
    rfl
  | false =>
    have hne := (h.int hf).1
    cases hl : t.last with
    | f64 => exact absurd hl hne
    | i64 => rfl
    | u64 => rfl

/-- A read on the right side of `isFloat`. -/
theorem read_silent {s : NumState} {t : NumUnion} (h : Agrees s t) {m : Wide}
    (hm : m = .ofFloat s.isFloat) :
    Watch.Silent (· = s.u) (UVal.read Wide.sameUpToSign false t m : Watch σ (BitVec 64)) := by
  apply Watch.Silent.bind (Watch.Silent.mark ?_)
  · intro _ _
    exact Watch.Silent.pure h.bits
  · rw [hm, h.same]
    rfl

/-- A read of `_i64`, wrong exactly behind a decimal point. -/
theorem read_i64_silent {s : NumState} {t : NumUnion} (h : Agrees s t) :
    Watch.Silent (fun i => i = s.u ∧ s.isFloat = false)
      (UVal.read Wide.sameUpToSign t.isFloat t .i64 : Watch σ (BitVec 64)) := by
  apply Watch.Silent.bind (Watch.Silent.mark ?_)
  · intro _ hw
    exact Watch.Silent.pure ⟨h.bits, h.isFloat ▸ hw⟩
  · have hsame := h.same
    cases hf : s.isFloat with
    | true => simp [h.isFloat, hf, h.float hf, Wide.sameUpToSign]
    | false =>
      rw [hf] at hsame
      simp [h.isFloat, hf, show Wide.sameUpToSign t.last .i64 = true from hsame]

/-- The four types a number can have before its suffix. -/
inductive IsNumber : CVal → UVal → Prop
  | int32 (i : BitVec 32) : IsNumber (.int32 i) ⟨.INT32, .i32 i⟩
  | int64 (i : BitVec 64) : IsNumber (.int64 i) ⟨.INT64, .i64 i⟩
  | float32 (bits : BitVec 32) : IsNumber (.float32 bits) ⟨.FLOAT32, .f32 bits⟩
  | float64 (bits : BitVec 64) : IsNumber (.float64 bits) ⟨.FLOAT64, .f64 bits⟩

theorem IsNumber.shows {c : CVal} {v : UVal} (h : IsNumber c v) : Shows c v := by
  cases h with
  | int32 i => exact ⟨.int32 i, rfl⟩
  | int64 i => exact ⟨.int64 i, rfl⟩
  | float32 bits => exact ⟨.float32 bits, rfl⟩
  | float64 bits => exact ⟨.float64 bits, rfl⟩

variable [Fpu]

theorem digit_silent {s : NumState} {t : NumUnion} (h : Agrees s t) (base d : Nat) :
    Watch.Silent (Agrees (s.digit base d))
      (UVal.digit Wide.sameUpToSign base d t : Watch σ NumUnion) := by
  unfold UVal.digit NumState.digit
  rw [h.fraction]
  split_ifs with hz
  · apply Watch.Silent.bind (read_i64_silent h)
    rintro _ ⟨rfl, hint⟩
    apply Watch.Silent.pure
    exact
      { bits := rfl
        isFloat := h.isFloat
        fraction := rfl
        float := fun hf => absurd hf (by simp [hint])
        int := fun _ => ⟨nofun, hz⟩
        unsigned := nofun }
  · have hfloat : s.isFloat = true := by
      by_contra hn
      exact hz (h.int (Bool.eq_false_iff.mpr hn)).2
    apply Watch.Silent.bind (read_silent h (by rw [hfloat]; rfl))
    rintro _ rfl
    apply Watch.Silent.pure
    exact
      { bits := rfl
        isFloat := h.isFloat
        fraction := rfl
        float := fun _ => rfl
        int := fun hf => absurd hfloat (by simp [show s.isFloat = false from hf])
        unsigned := nofun }

theorem point_silent {s : NumState} {t : NumUnion} (h : Agrees s t) :
    Watch.Silent (Agrees s.point) (UVal.point Wide.sameUpToSign t : Watch σ NumUnion) := by
  apply Watch.Silent.bind (read_i64_silent h)
  rintro _ ⟨rfl, _⟩
  apply Watch.Silent.pure
  exact
    { bits := rfl
      isFloat := rfl
      fraction := rfl
      float := fun _ => rfl
      int := nofun
      unsigned := nofun }

theorem UVal.parseDigits_tracks (r : Reader σ) (base n : Nat) {s : NumState} {t : NumUnion}
    (h : Agrees s t) :
    Watch.Tracks Agrees (Libacorn.parseDigits r base n s)
      (UVal.parseDigits Wide.sameUpToSign r base n t) := by
  induction n generalizing s t with
  | zero => exact Watch.Tracks.timeout _
  | succ n ih =>
    apply Watch.Tracks.bind_lift
    intro ch
    apply Watch.Tracks.ite
    · apply Watch.Tracks.bind_lift
      intro _
      apply Watch.Silent.bind_tracks (digit_silent h base (digitValue ch))
      intro t' ht'
      exact ih ht'
    · apply Watch.Tracks.ite
      · apply Watch.Tracks.bind_lift
        intro _
        apply Watch.Silent.bind_tracks (point_silent h)
        intro t' ht'
        exact ih ht'
      · exact Watch.Tracks.pure h

/-- The number with its sign applied. -/
def NumState.signed (s : NumState) (neg : Bool) : NumState :=
  if neg then { s with u := if s.isFloat then Fpu.neg s.u else -s.u } else s

theorem NumState.toVal_signed (s : NumState) (neg : Bool) :
    (s.signed neg).toVal false = s.toVal neg := by
  cases neg with
  | false => rfl
  | true =>
    cases hf : s.isFloat with
    | true => simp [signed, toVal, hf]
    | false => simp [signed, toVal, hf]

theorem applySign_silent {s : NumState} {t : NumUnion} (h : Agrees s t) (neg : Bool) :
    Watch.Silent (Agrees (s.signed neg))
      (UVal.applySign Wide.sameUpToSign neg t : Watch σ NumUnion) := by
  unfold UVal.applySign NumState.signed
  rw [h.isFloat]
  split_ifs with hneg hf
  · apply Watch.Silent.bind (read_silent h (by rw [hf]; rfl))
    rintro _ rfl
    apply Watch.Silent.pure
    exact
      { bits := rfl
        isFloat := rfl
        fraction := h.fraction
        float := fun _ => rfl
        int := fun hi => absurd hf (by simp [show s.isFloat = false from hi])
        unsigned := nofun }
  · have hint : s.isFloat = false := Bool.eq_false_iff.mpr hf
    apply Watch.Silent.bind (read_silent h (by rw [hint]; rfl))
    rintro _ rfl
    apply Watch.Silent.pure
    exact
      { bits := rfl
        isFloat := rfl
        fraction := h.fraction
        float := fun hi => absurd hi hf
        int := fun _ => ⟨nofun, (h.int hint).2⟩
        unsigned := nofun }
  · exact Watch.Silent.pure h

theorem chooseSize_silent {s : NumState} {t : NumUnion} (h : Agrees s t) :
    Watch.Silent (IsNumber (s.toVal false))
      (UVal.chooseSize Wide.sameUpToSign t : Watch σ UVal) := by
  cases hf : s.isFloat with
  | true =>
    simp only [UVal.chooseSize, NumState.toVal, h.isFloat, hf, ↓reduceIte, Bool.false_eq_true]
    apply Watch.Silent.bind (read_silent h (by rw [hf]; rfl))
    rintro _ rfl
    split_ifs
    · apply Watch.Silent.pure
      rw [NumUnion.u, h.float hf, h.bits]
      exact .float64 s.u
    · exact Watch.Silent.pure (.float32 _)
  | false =>
    simp only [UVal.chooseSize, NumState.toVal, h.isFloat, hf, ↓reduceIte, Bool.false_eq_true]
    apply Watch.Silent.bind (read_silent h (by rw [hf]; rfl))
    rintro _ rfl
    split_ifs with hsize
    · apply Watch.Silent.pure
      cases hl : t.last with
      | i64 =>
        rw [NumUnion.u, hl, h.bits]
        exact .int64 s.u
      | u64 =>
        -- no digit was read, so the number is 0 and fits
        simp [h.unsigned hl] at hsize
      | f64 => exact absurd hl (h.int hf).1
    · exact Watch.Silent.pure (.int32 _)

theorem scale_clean {c : CVal} {v : UVal} (h : IsNumber c v) (mul : Nat) :
    (v.scale mul).Clean (Shows (scaleNumber mul c)) := by
  cases h with
  | int32 i => exact ⟨.int32 _, rfl⟩
  | int64 i => exact ⟨.int64 _, rfl⟩
  | float32 bits => exact ⟨.float32 _, rfl⟩
  | float64 bits => exact ⟨.float64 _, rfl⟩

end Numbers

/-! ## Containers the parser fills -/

/-- A val that shows a map holds its fields. -/
theorem Shows.of_map {fields : List (Bytes × CVal)} {v : UVal} (h : Shows (.map fields) v) :
    ∃ fs, v = ⟨.MAP, .map (some fs)⟩ ∧ (∀ f ∈ fs, InStep f.2) ∧
      UVal.fieldValues fs = fields := by
  obtain ⟨hstep, hv⟩ := h
  cases hstep with
  | map hf => exact ⟨_, rfl, hf, Val.map.inj hv⟩
  | _ => cases hv

theorem Shows.of_array {vec : List CVal} {v : UVal} (h : Shows (.array vec) v) :
    ∃ vs, v = ⟨.ARRAY, .vec (some vs)⟩ ∧ (∀ w ∈ vs, InStep w) ∧ UVal.values vs = vec := by
  obtain ⟨hstep, hv⟩ := h
  cases hstep with
  | array hw => exact ⟨_, rfl, hw, Val.array.inj hv⟩
  | _ => cases hv

theorem Shows.assignField {fields : List (Bytes × CVal)} {c : CVal} {v w : UVal}
    (h : Shows (.map fields) v) (hw : Shows c w) (key : Bytes) :
    (v.assignField key w).Clean (Shows (.map (OrderedMap.assign key c fields))) := by
  obtain ⟨fs, rfl, hf, rfl⟩ := h.of_map
  rw [← hw.2]
  exact assignField_clean hf hw.1 key

theorem Shows.pushBack {vec : List CVal} {c : CVal} {v w : UVal} (h : Shows (.array vec) v)
    (hw : Shows c w) : (v.pushBack w.moveTo).Clean (Shows (.array (vec ++ [c]))) := by
  obtain ⟨vs, rfl, hv, rfl⟩ := h.of_array
  cases w
  rw [← hw.2]
  exact pushBack_clean hv hw.1

theorem Shows.startImplicit {c : CVal} {v : UVal} (h : Shows c v) :
    v.startImplicit.Clean (Shows (.array (asElements c))) := by
  have hempty : Shows (.array []) ⟨.ARRAY, .vec (some [])⟩ := ⟨.array nofun, rfl⟩
  obtain ⟨hstep, rfl⟩ := h
  cases hstep with
  | array hv => exact ⟨.array hv, rfl⟩
  | empty u => exact hempty.pushBack ⟨.empty u, rfl⟩
  | int32 i => exact hempty.pushBack ⟨.int32 i, rfl⟩
  | int64 i => exact hempty.pushBack ⟨.int64 i, rfl⟩
  | uint32 u => exact hempty.pushBack ⟨.uint32 u, rfl⟩
  | uint64 u => exact hempty.pushBack ⟨.uint64 u, rfl⟩
  | float32 bits => exact hempty.pushBack ⟨.float32 bits, rfl⟩
  | float64 bits => exact hempty.pushBack ⟨.float64 bits, rfl⟩
  | measurement unitVal unit => exact hempty.pushBack ⟨.measurement unitVal unit, rfl⟩
  | string s => exact hempty.pushBack ⟨.string s, rfl⟩
  | bytearray b => exact hempty.pushBack ⟨.bytearray b, rfl⟩
  | map hf => exact hempty.pushBack ⟨.map hf, rfl⟩
  | object id => exact hempty.pushBack ⟨.object id, rfl⟩
  | error e => exact hempty.pushBack ⟨.error e, rfl⟩

theorem assign_shows {c : CVal} {v : UVal} (h : Shows c v) :
    (UVal.empty.assign v).Clean (Shows c) := by
  rw [← h.2]
  exact (InStep.empty _).assign h.1

/-! ## A watched run is a run of `Parse.lean` -/

section Values

variable {σ : Type} (r : Reader σ)

theorem UVal.parseKeyword_tracks (ch : Nat) :
    Watch.Tracks (Option.Rel Shows) (Libacorn.parseKeyword r ch)
      (UVal.parseKeyword r UVal.empty ch) := by
  have found : ∀ {c : CVal} {x : Access UVal}, x.Clean (Shows c) →
      Watch.Tracks (Option.Rel Shows) (pure (some c) : Scan σ (Option CVal))
        (access x >>= fun v => pure (some v)) := by
    intro c x hx
    apply Watch.Silent.bind_tracks (access_silent hx)
    intro v hv
    exact Watch.Tracks.pure (.some hv)
  have none : Watch.Tracks (Option.Rel Shows) (pure none : Scan σ (Option CVal)) (pure none) :=
    Watch.Tracks.pure .none
  apply Watch.Tracks.ite
  · apply Watch.Tracks.bind_lift
    intro _
    exact Watch.Tracks.ite (found ⟨.empty _, rfl⟩) none
  apply Watch.Tracks.ite
  · apply Watch.Tracks.bind_lift
    intro _
    exact Watch.Tracks.ite (found ⟨.int32 1, rfl⟩) none
  apply Watch.Tracks.ite
  · apply Watch.Tracks.bind_lift
    intro _
    exact Watch.Tracks.ite (found ⟨.int32 0, rfl⟩) none
  · exact none

variable {value : Scan σ CVal} {value' : Watch σ UVal}

theorem UVal.parseFields_tracks (json : Bool) (hv : Watch.Tracks Shows value value') (k n : Nat)
    {fields : List (Bytes × CVal)} {v : UVal} (h : Shows (.map fields) v) :
    Watch.Tracks (fun x y => Shows (.map x.1) y.1 ∧ x.2 = y.2)
      (Libacorn.parseFields r json value k n fields) (UVal.parseFields r json value' k n v) := by
  induction n generalizing fields v with
  | zero => exact Watch.Tracks.timeout _
  | succ n ih =>
    apply Watch.Tracks.bind_lift
    intro ch
    apply Watch.Tracks.ite (Watch.Tracks.pure ⟨h, rfl⟩)
    apply Watch.Tracks.bind_lift
    intro before
    apply Watch.Tracks.ite ?_ (Watch.Tracks.pure ⟨h, rfl⟩)
    apply Watch.Tracks.bind_lift
    intro _
    apply Watch.Tracks.bind_lift
    intro fieldName
    apply Watch.Tracks.ite (Watch.Tracks.pure ⟨h, rfl⟩)
    apply Watch.Tracks.bind_lift
    intro _
    apply Watch.Tracks.bind_lift
    intro colon
    apply Watch.Tracks.ite (Watch.Tracks.pure ⟨h, rfl⟩)
    apply Watch.Tracks.bind hv
    intro c w hw
    apply Watch.Silent.bind_tracks (access_silent (h.assignField hw fieldName))
    intro v' hv'
    apply Watch.Tracks.bind_lift
    intro _
    apply Watch.Tracks.bind_lift
    intro _
    exact ih hv'

theorem UVal.parseElements_tracks (hv : Watch.Tracks Shows value value') (k n : Nat)
    {vec : List CVal} {v : UVal} (h : Shows (.array vec) v) :
    Watch.Tracks (fun x y => Shows (.array x) y) (Libacorn.parseElements r value k n vec)
      (UVal.parseElements r value' k n v) := by
  induction n generalizing vec v with
  | zero => exact Watch.Tracks.timeout _
  | succ n ih =>
    apply Watch.Tracks.bind_lift
    intro ch
    apply Watch.Tracks.ite
    · exact Watch.Tracks.pure h
    apply Watch.Tracks.bind_lift
    intro before
    apply Watch.Tracks.ite
    · apply Watch.Tracks.bind hv
      intro c w hw
      apply Watch.Silent.bind_tracks (access_silent (h.pushBack hw))
      intro v' hv'
      apply Watch.Tracks.bind_lift
      intro _
      apply Watch.Tracks.bind_lift
      intro sep
      apply Watch.Tracks.ite
      · apply Watch.Tracks.bind_lift
        intro _
        exact ih hv'
      · exact Watch.Tracks.pure hv'
    · exact Watch.Tracks.pure h

theorem UVal.parseImplicit_tracks (hv : Watch.Tracks Shows value value') (k n : Nat) {c : CVal}
    {v : UVal} (h : Shows c v) :
    Watch.Tracks Shows (Libacorn.parseImplicit r value k n c)
      (UVal.parseImplicit r value' k n v) := by
  induction n generalizing c v with
  | zero => exact Watch.Tracks.timeout _
  | succ n ih =>
    apply Watch.Tracks.bind_lift
    intro _
    apply Watch.Tracks.bind_lift
    intro ch
    apply Watch.Tracks.ite (Watch.Tracks.pure h)
    apply Watch.Silent.bind_tracks (access_silent h.startImplicit)
    intro v' hv'
    apply Watch.Tracks.bind hv
    intro e w hw
    apply Watch.Silent.bind_tracks (access_silent (hv'.pushBack hw))
    intro v'' hv''
    exact ih hv''

variable [Target]

theorem toMeasurement_clean {c : CVal} {v : UVal} (h : IsNumber c v) (unit : MeasureUnit) :
    (v.toMeasurement unit).Clean (Shows (.measurement (numberFloatVal c) unit)) := by
  cases h <;> exact ⟨.measurement _ unit, rfl⟩

theorem UVal.parseSuffix_tracks {c : CVal} {v : UVal} (h : IsNumber c v) :
    Watch.Tracks Shows (Libacorn.parseSuffix r c) (UVal.parseSuffix r v) := by
  have unit : ∀ u, Watch.Tracks Shows
      (pure (.measurement (numberFloatVal c) u) : Scan σ CVal) (access (v.toMeasurement u)) :=
    fun u => (access_silent (toMeasurement_clean h u)).tracks
  have scaled : ∀ mul, Watch.Tracks Shows (pure (scaleNumber mul c) : Scan σ CVal)
      (access (v.scale mul)) := fun mul => (access_silent (scale_clean h mul)).tracks
  apply Watch.Tracks.bind_lift
  intro _
  apply Watch.Tracks.ite (unit .PC)
  apply Watch.Tracks.bind_lift
  intro _
  apply Watch.Tracks.ite (unit .PT)
  apply Watch.Tracks.bind_lift
  intro _
  apply Watch.Tracks.ite (unit .EM)
  apply Watch.Tracks.bind_lift
  intro _
  apply Watch.Tracks.ite (unit .PX)
  apply Watch.Tracks.bind_lift
  intro _
  apply Watch.Tracks.ite (scaled _)
  apply Watch.Tracks.bind_lift
  intro _
  apply Watch.Tracks.ite (scaled _)
  apply Watch.Tracks.bind_lift
  intro _
  apply Watch.Tracks.ite (scaled _)
  exact Watch.Tracks.pure h.shows

/-- `parseNumber` reads only what it last wrote, up to the sign, except where it waives. -/
theorem UVal.parseNumber_tracks (n : Nat) :
    Watch.Tracks Shows (Libacorn.parseNumber r n)
      (UVal.parseNumber Wide.sameUpToSign r n) := by
  apply Watch.Tracks.bind_lift
  intro neg
  apply Watch.Tracks.bind_lift
  intro base
  apply Watch.Tracks.bind (UVal.parseDigits_tracks r base n agrees_start)
  intro s t h
  apply Watch.Silent.bind_tracks (applySign_silent h neg)
  intro t' ht'
  apply Watch.Silent.bind_tracks (chooseSize_silent ht')
  intro v hv
  rw [NumState.toVal_signed] at hv
  exact UVal.parseSuffix_tracks r hv

theorem UVal.parseValue_tracks (json : Bool) (hv : Watch.Tracks Shows value value')
    {rest : CVal → Scan σ CVal} {rest' : UVal → Watch σ UVal}
    (hrest : ∀ c v, Shows c v → Watch.Tracks Shows (rest c) (rest' v)) (n : Nat) :
    Watch.Tracks Shows (Libacorn.parseValue r json value rest n)
      (UVal.parseValue Wide.sameUpToSign r json value' rest' n) := by
  apply Watch.Tracks.bind_lift
  intro before
  apply Watch.Tracks.ite ?_ (Watch.Tracks.pure ⟨.empty _, rfl⟩)
  apply Watch.Tracks.bind_lift
  intro _
  apply Watch.Tracks.bind_lift
  intro ch
  apply Watch.Tracks.ite
  · apply Watch.Tracks.bind_lift
    intro _
    apply Watch.Tracks.bind_lift
    intro _
    have hempty : Shows (.map []) ⟨.MAP, .map (some [])⟩ := ⟨.map nofun, rfl⟩
    apply Watch.Tracks.bind (UVal.parseFields_tracks r json hv n n hempty)
    rintro ⟨fields, early⟩ ⟨v, _⟩ ⟨h, rfl⟩
    apply Watch.Tracks.ite (Watch.Tracks.pure h)
    apply Watch.Tracks.bind_lift
    intro _
    exact hrest _ _ h
  apply Watch.Tracks.ite
  · apply Watch.Tracks.bind_lift
    intro _
    apply Watch.Tracks.bind_lift
    intro _
    have hempty : Shows (.array []) ⟨.ARRAY, .vec (some [])⟩ := ⟨.array nofun, rfl⟩
    apply Watch.Tracks.bind (UVal.parseElements_tracks r hv n n hempty)
    intro vec v h
    apply Watch.Tracks.bind_lift
    intro _
    exact hrest _ _ h
  apply Watch.Tracks.ite
  · apply Watch.Tracks.bind (UVal.parseNumber_tracks r n)
    intro c number h
    apply Watch.Silent.bind_tracks (access_silent (assign_shows h))
    intro v hv'
    exact hrest c v hv'
  · apply Watch.Tracks.bind (UVal.parseKeyword_tracks r ch)
    intro keyword keyword' h
    cases h with
    | some h => exact hrest _ _ h
    | none =>
      apply Watch.Tracks.bind_lift
      intro str
      have hstr : Shows (.string str) (.ofString str) := ⟨.string str, rfl⟩
      apply Watch.Silent.bind_tracks (access_silent (assign_shows hstr))
      intro v hv'
      exact hrest _ v hv'

/-- `val::parse` reads only what was last written, up to the sign, except where it
waives. Elsewhere its val is in step and shows the value `Parse.lean` computes. -/
theorem UVal.parse_tracks (n : Nat) (flags : Flags) :
    Watch.Tracks Shows (Libacorn.parse r n flags) (UVal.parse Wide.sameUpToSign r n flags) := by
  induction n generalizing flags with
  | zero => exact Watch.Tracks.timeout _
  | succ n ih =>
    apply UVal.parseValue_tracks r flags.json (ih flags)
    intro c v h
    exact Watch.Tracks.ite (UVal.parseImplicit_tracks r (ih _) n n h) (Watch.Tracks.pure h)

end Values

end Libacorn
