import Libacorn.Parse

/-!
# Two facts about the parser that do not depend on the text

* More fuel never changes an answer (`parse_le`), so "the parser returns `v`"
  means the same for every sufficient amount of fuel (`parse_returns_unique`).
* Readers whose operations agree at related cursors make the parser agree
  (`parse_sim`, `parseNumber_sim`). This is how the results about abstract
  texts carry over to buffers.

Both are cases of one: a relation that sequencing keeps relates the parsers of
readers whose operations it relates (`parse_rel`).
-/

namespace Libacorn

open Support

/-- The characters `parseNumber` passes to `skipChar`. -/
def numberChars : Bytes := lit ['0', 'x', '%']

/-- The characters the parser passes to `skipChar`; the comma only in JSON. -/
def probedChars (json : Bool) : Bytes :=
  numberChars ++ lit [']'] ++ if json then lit [','] else []

theorem numberChars_subset (json : Bool) : numberChars ⊆ probedChars json := by
  intro ch h
  simp [probedChars, h]

/-- The literals the parser passes to `skipString`. -/
def probedStrings : List Bytes :=
  [lit ['/', '/'], lit ['p', 't'], lit ['e', 'm'], lit ['p', 'x'], lit ['K', 'B'],
    lit ['M', 'B'], lit ['G', 'B'], lit ['n', 'u', 'l', 'l'], lit ['t', 'r', 'u', 'e'],
    lit ['f', 'a', 'l', 's', 'e']]

section Congruence

variable {σ τ : Type}

/-- Every operation the parser uses is related, `skipChar` for the characters in
`probed`. -/
structure ReaderRel (L : Scan.Congruence σ τ) (probed : Bytes) (r : Reader σ) (r' : Reader τ) :
    Prop where
  peekChar : L.rel r.peekChar r'.peekChar
  readChar : L.rel r.readChar r'.readChar
  skipChar : ∀ ch ∈ probed, L.rel (r.skipChar ch) (r'.skipChar ch)
  skipString : ∀ l ∈ probedStrings, L.rel (r.skipString l) (r'.skipString l)
  skipWhitespace : L.rel r.skipWhitespace r'.skipWhitespace
  atEnd : L.rel r.atEnd r'.atEnd
  beforeEnd : L.rel r.beforeEnd r'.beforeEnd

variable {L : Scan.Congruence σ τ} {json : Bool} {probed : Bytes} {r : Reader σ} {r' : Reader τ}
  {i j k l : Nat}

theorem skipComment_rel (h : ReaderRel L probed r r') (hij : L.fuel i j) :
    L.rel (skipComment r i) (skipComment r' j) := by
  induction i generalizing j with
  | zero => exact L.zero hij (by rintro rfl; rfl)
  | succ i ih =>
    obtain ⟨j, rfl, hfuel⟩ := L.succ hij
    refine L.bind h.atEnd fun e => L.ite (L.pure ()) ?_
    refine L.bind h.peekChar fun ch => L.ite (L.pure ()) ?_
    exact L.bind h.readChar fun _ => ih hfuel

theorem startsComment_rel (h : ReaderRel L probed r r') (ch : Nat) :
    L.rel (startsComment r ch) (startsComment r' ch) := by
  refine L.ite (L.pure _) (L.ite ?_ (L.pure _))
  exact h.skipString _ (by simp [probedStrings])

theorem skipWhitespaceAndComments_rel (h : ReaderRel L probed r r') (hij : L.fuel i j)
    (newLine : Bool) : L.rel (skipWhitespaceAndComments r i newLine)
      (skipWhitespaceAndComments r' j newLine) := by
  induction i generalizing j newLine with
  | zero => exact L.zero hij (by rintro rfl; rfl)
  | succ i ih =>
    obtain ⟨j, rfl, hfuel⟩ := L.succ hij
    refine L.bind h.atEnd fun e => L.ite (L.pure ()) ?_
    refine L.bind h.peekChar fun ch => L.ite ?_ (L.ite ?_ ?_)
    · exact L.bind h.readChar fun _ => ih hfuel true
    · exact L.bind h.readChar fun _ => ih hfuel newLine
    · refine L.ite ?_ (L.pure ())
      refine L.bind (startsComment_rel h ch) fun c => L.ite ?_ (L.pure ())
      exact L.bind (skipComment_rel h hfuel) fun _ => ih hfuel newLine

theorem skipSpacesAndTabs_rel (h : ReaderRel L probed r r') (hij : L.fuel i j) :
    L.rel (skipSpacesAndTabs r i) (skipSpacesAndTabs r' j) := by
  induction i generalizing j with
  | zero => exact L.zero hij (by rintro rfl; rfl)
  | succ i ih =>
    obtain ⟨j, rfl, hfuel⟩ := L.succ hij
    refine L.bind h.beforeEnd fun e => L.ite ?_ (L.pure ())
    refine L.bind h.peekChar fun ch => L.ite ?_ (L.pure ())
    exact L.bind h.readChar fun _ => ih hfuel

theorem appendChar_rel (L : Scan.Congruence σ τ) (str : Bytes) (ch : Nat) :
    L.rel (appendChar str ch) (appendChar str ch) := by
  unfold appendChar
  cases encodeUtf8 ch with
  | some bs => exact L.pure _
  | none => exact L.fault

theorem parseStringLoop_rel (h : ReaderRel L probed r r') (hij : L.fuel i j) (quoted : Bool)
    (str : Bytes) : L.rel (parseStringLoop r quoted i str) (parseStringLoop r' quoted j str) := by
  induction i generalizing j str with
  | zero => exact L.zero hij (by rintro rfl; rfl)
  | succ i ih =>
    obtain ⟨j, rfl, hfuel⟩ := L.succ hij
    refine L.bind h.beforeEnd fun e => L.ite ?_ (L.pure _)
    refine L.bind h.peekChar fun ch => L.ite (L.pure _) ?_
    refine L.bind h.readChar fun ch => L.ite (L.pure _) ?_
    refine L.ite (L.pure _) (L.ite ?_ ?_)
    · refine L.bind h.readChar fun ch => L.ite ?_ (ih hfuel str)
      exact L.bind (appendChar_rel L _ _) fun str' => ih hfuel str'
    · exact L.bind (appendChar_rel L _ _) fun str' => ih hfuel str'

theorem parseString_rel (h : ReaderRel L probed r r') (hij : L.fuel i j) :
    L.rel (parseString r i) (parseString r' j) := by
  refine L.bind h.peekChar fun ch => L.ite ?_ (parseStringLoop_rel h hij _ _)
  exact L.bind h.readChar fun _ => parseStringLoop_rel h hij _ _

theorem parseSigns_rel (h : ReaderRel L probed r r') (hij : L.fuel i j) (neg : Bool) :
    L.rel (parseSigns r i neg) (parseSigns r' j neg) := by
  induction i generalizing j neg with
  | zero => exact L.zero hij (by rintro rfl; rfl)
  | succ i ih =>
    obtain ⟨j, rfl, hfuel⟩ := L.succ hij
    refine L.bind h.peekChar fun ch => L.ite ?_ (L.pure _)
    refine L.bind h.readChar fun _ => ?_
    exact L.bind h.skipWhitespace fun _ => ih hfuel _

theorem parseBase_rel (h : ReaderRel L probed r r') (hp : numberChars ⊆ probed) :
    L.rel (parseBase r) (parseBase r') := by
  have h0 := h.skipChar (UInt8.ofNat '0'.toNat) (hp (by simp [numberChars, lit]))
  have hx := h.skipChar (UInt8.ofNat 'x'.toNat) (hp (by simp [numberChars, lit]))
  refine L.bind h0 fun zero => L.ite ?_ (L.pure _)
  exact L.bind hx fun x => L.ite (L.pure _) (L.pure _)

theorem skipFieldComma_rel (h : ReaderRel L (probedChars json) r r') :
    L.rel (skipFieldComma r json) (skipFieldComma r' json) := by
  unfold skipFieldComma
  split
  next hj =>
    have hc := h.skipChar (UInt8.ofNat ','.toNat) (by simp [probedChars, lit, hj])
    exact L.bind hc fun c => L.ite h.skipWhitespace (L.pure ())
  next => exact L.pure ()

theorem parseFields_rel (h : ReaderRel L (probedChars json) r r') (hij : L.fuel i j)
    (hkl : L.fuel k l) {value : Scan σ CVal} {value' : Scan τ CVal} (hv : L.rel value value')
    (fields : List (Bytes × CVal)) :
    L.rel (parseFields r json value k i fields) (parseFields r' json value' l j fields) := by
  have hw := skipWhitespaceAndComments_rel h hkl false
  induction i generalizing j fields with
  | zero => exact L.zero hij (by rintro rfl; rfl)
  | succ i ih =>
    obtain ⟨j, rfl, hfuel⟩ := L.succ hij
    refine L.bind h.peekChar fun ch => L.ite (L.pure _) ?_
    refine L.bind h.beforeEnd fun e => L.ite ?_ (L.pure _)
    refine L.bind hw fun _ => ?_
    refine L.bind (parseString_rel h hkl) fun name => L.ite (L.pure _) ?_
    refine L.bind hw fun _ => ?_
    refine L.bind h.readChar fun colon => L.ite (L.pure _) ?_
    refine L.bind hv fun v => L.bind hw fun _ => ?_
    exact L.bind (skipFieldComma_rel h) fun _ => ih hfuel _

theorem parseElements_rel (h : ReaderRel L probed r r') (hij : L.fuel i j) (hkl : L.fuel k l)
    {value : Scan σ CVal} {value' : Scan τ CVal} (hv : L.rel value value') (vec : List CVal) :
    L.rel (parseElements r value k i vec) (parseElements r' value' l j vec) := by
  induction i generalizing j vec with
  | zero => exact L.zero hij (by rintro rfl; rfl)
  | succ i ih =>
    obtain ⟨j, rfl, hfuel⟩ := L.succ hij
    refine L.bind h.peekChar fun ch => L.ite (L.pure _) ?_
    refine L.bind h.beforeEnd fun e => L.ite ?_ (L.pure _)
    refine L.bind hv fun v => ?_
    refine L.bind (skipWhitespaceAndComments_rel h hkl false) fun _ => ?_
    refine L.bind h.peekChar fun sep => L.ite ?_ (L.pure _)
    exact L.bind h.readChar fun _ => ih hfuel _

theorem parseImplicit_rel (h : ReaderRel L probed r r') (hij : L.fuel i j) (hkl : L.fuel k l)
    {value : Scan σ CVal} {value' : Scan τ CVal} (hv : L.rel value value') (v : CVal) :
    L.rel (parseImplicit r value k i v) (parseImplicit r' value' l j v) := by
  induction i generalizing j v with
  | zero => exact L.zero hij (by rintro rfl; rfl)
  | succ i ih =>
    obtain ⟨j, rfl, hfuel⟩ := L.succ hij
    refine L.bind (skipSpacesAndTabs_rel h hkl) fun _ => ?_
    refine L.bind h.peekChar fun ch => L.ite (L.pure _) ?_
    exact L.bind hv fun elem => ih hfuel _

theorem parseKeyword_rel (h : ReaderRel L probed r r') (ch : Nat) :
    L.rel (parseKeyword r ch) (parseKeyword r' ch) := by
  have hs := h.skipString
  simp only [probedStrings, List.mem_cons, List.not_mem_nil, or_false, forall_eq_or_imp,
    forall_eq] at hs
  obtain ⟨-, -, -, -, -, -, -, hnull, htrue, hfalse⟩ := hs
  refine L.ite ?_ (L.ite ?_ (L.ite ?_ (L.pure _)))
  · exact L.bind hnull fun b => L.ite (L.pure _) (L.pure _)
  · exact L.bind htrue fun b => L.ite (L.pure _) (L.pure _)
  · exact L.bind hfalse fun b => L.ite (L.pure _) (L.pure _)

variable [Fpu]

theorem parseDigits_rel (h : ReaderRel L probed r r') (hij : L.fuel i j) (base : Nat)
    (s : NumState) : L.rel (parseDigits r base i s) (parseDigits r' base j s) := by
  induction i generalizing j s with
  | zero => exact L.zero hij (by rintro rfl; rfl)
  | succ i ih =>
    obtain ⟨j, rfl, hfuel⟩ := L.succ hij
    refine L.bind h.peekChar fun ch => L.ite ?_ (L.ite ?_ (L.pure _))
    · exact L.bind h.readChar fun _ => ih hfuel _
    · exact L.bind h.readChar fun _ => ih hfuel _

theorem parseSuffix_rel (h : ReaderRel L probed r r') (hp : numberChars ⊆ probed) (v : CVal) :
    L.rel (parseSuffix r v) (parseSuffix r' v) := by
  have hs := h.skipString
  simp only [probedStrings, List.mem_cons, List.not_mem_nil, or_false, forall_eq_or_imp,
    forall_eq] at hs
  obtain ⟨-, hpt, hem, hpx, hkb, hmb, hgb, -⟩ := hs
  refine L.bind (h.skipChar _ (hp (by simp [numberChars, lit]))) fun b => ?_
  refine L.ite (L.pure _) (L.bind hpt fun b => ?_)
  refine L.ite (L.pure _) (L.bind hem fun b => ?_)
  refine L.ite (L.pure _) (L.bind hpx fun b => ?_)
  refine L.ite (L.pure _) (L.bind hkb fun b => ?_)
  refine L.ite (L.pure _) (L.bind hmb fun b => ?_)
  refine L.ite (L.pure _) (L.bind hgb fun b => ?_)
  exact L.ite (L.pure _) (L.pure _)

theorem parseNumber_rel (h : ReaderRel L probed r r') (hp : numberChars ⊆ probed)
    (hij : L.fuel i j) : L.rel (parseNumber r i) (parseNumber r' j) := by
  refine L.bind (parseSigns_rel h hij false) fun neg => ?_
  refine L.bind (parseBase_rel h hp) fun base => ?_
  exact L.bind (parseDigits_rel h hij base _) fun s => parseSuffix_rel h hp _

theorem parseValue_rel (h : ReaderRel L (probedChars json) r r') (hij : L.fuel i j)
    {value : Scan σ CVal} {value' : Scan τ CVal} (hv : L.rel value value')
    {rest : CVal → Scan σ CVal} {rest' : CVal → Scan τ CVal} (hr : ∀ v, L.rel (rest v) (rest' v)) :
    L.rel (parseValue r json value rest i) (parseValue r' json value' rest' j) := by
  have hw := skipWhitespaceAndComments_rel h hij false
  refine L.bind h.beforeEnd fun e => L.ite ?_ (L.pure _)
  refine L.bind hw fun _ => L.bind h.peekChar fun ch => ?_
  refine L.ite ?_ (L.ite ?_ (L.ite ?_ ?_))
  · refine L.bind h.readChar fun _ => L.bind hw fun _ => ?_
    refine L.bind (parseFields_rel h hij hij hv []) fun fields => ?_
    refine L.ite (L.pure _) ?_
    exact L.bind h.readChar fun _ => hr _
  · refine L.bind h.readChar fun _ => L.bind hw fun _ => ?_
    refine L.bind (parseElements_rel h hij hij hv []) fun vec => ?_
    have hc := h.skipChar (UInt8.ofNat ']'.toNat) (by simp [probedChars, lit])
    exact L.bind hc fun _ => hr _
  · exact L.bind (parseNumber_rel h (numberChars_subset json) hij) fun v => hr v
  · refine L.bind (parseKeyword_rel h ch) fun keyword => ?_
    cases keyword with
    | some v => exact hr v
    | none => exact L.bind (parseString_rel h hij) fun str => hr _

theorem parse_rel (h : ReaderRel L (probedChars json) r r') (hij : L.fuel i j) (flags : Flags)
    (hj : flags.json = json) : L.rel (parse r i flags) (parse r' j flags) := by
  induction i generalizing j flags with
  | zero => exact L.zero hij (by rintro rfl; rfl)
  | succ i ih =>
    obtain ⟨j, rfl, hfuel⟩ := L.succ hij
    have hi := ih hfuel { flags with inImplicitArray := true } hj
    simp only [parse, hj]
    refine parseValue_rel h hfuel (ih hfuel flags hj) fun v => L.ite ?_ (L.pure _)
    simpa only [hj] using parseImplicit_rel h hfuel hfuel hi v

end Congruence

section Fuel

variable {σ : Type} (r : Reader σ)

theorem ReaderRel.refl (probed : Bytes) : ReaderRel (.more σ) probed r r where
  peekChar := Scan.Le.refl _
  readChar := Scan.Le.refl _
  skipChar _ _ := Scan.Le.refl _
  skipString _ _ := Scan.Le.refl _
  skipWhitespace := Scan.Le.refl _
  atEnd := Scan.Le.refl _
  beforeEnd := Scan.Le.refl _

theorem skipWhitespaceAndComments_le {i j : Nat} (h : i ≤ j) (newLine : Bool) :
    (skipWhitespaceAndComments r i newLine).Le (skipWhitespaceAndComments r j newLine) :=
  skipWhitespaceAndComments_rel (.refl r []) h newLine

theorem skipSpacesAndTabs_le {i j : Nat} (h : i ≤ j) :
    (skipSpacesAndTabs r i).Le (skipSpacesAndTabs r j) :=
  skipSpacesAndTabs_rel (.refl r []) h

theorem parseString_le {i j : Nat} (h : i ≤ j) : (parseString r i).Le (parseString r j) :=
  parseString_rel (.refl r []) h

theorem parseSigns_le {i j : Nat} (h : i ≤ j) (neg : Bool) :
    (parseSigns r i neg).Le (parseSigns r j neg) :=
  parseSigns_rel (.refl r []) h neg

theorem parseFields_le {i j k l : Nat} (h : i ≤ j) (hk : k ≤ l) (json : Bool)
    {value value' : Scan σ CVal} (hv : value.Le value') (fields : List (Bytes × CVal)) :
    (parseFields r json value k i fields).Le (parseFields r json value' l j fields) :=
  parseFields_rel (.refl r _) h hk hv fields

theorem parseElements_le {i j k l : Nat} (h : i ≤ j) (hk : k ≤ l)
    {value value' : Scan σ CVal} (hv : value.Le value') (vec : List CVal) :
    (parseElements r value k i vec).Le (parseElements r value' l j vec) :=
  parseElements_rel (.refl r []) h hk hv vec

variable [Fpu]

theorem parseDigits_le {i j : Nat} (h : i ≤ j) (base : Nat) (s : NumState) :
    (parseDigits r base i s).Le (parseDigits r base j s) :=
  parseDigits_rel (.refl r []) h base s

theorem parseNumber_le {i j : Nat} (h : i ≤ j) : (parseNumber r i).Le (parseNumber r j) :=
  parseNumber_rel (.refl r _) (List.Subset.refl _) h

/-- More fuel never changes what `val::parse` returns. -/
theorem parse_le {i j : Nat} (h : i ≤ j) (flags : Flags) : (parse r i flags).Le (parse r j flags) :=
  parse_rel (.refl r _) h flags rfl

/-- `val::parse` has at most one answer, whatever the fuel. -/
theorem parse_returns_unique (flags : Flags) {s : σ} {x y : CVal × σ}
    (hx : Scan.Returns (fun n => parse r n flags) s x)
    (hy : Scan.Returns (fun n => parse r n flags) s y) : x = y :=
  Scan.Returns.unique (fun _ _ h => parse_le r h flags) hx hy

end Fuel

section Simulation

variable {σ τ : Type}

/-- Every operation the parser uses agrees at related cursors. -/
abbrev ReaderSim (probed : Bytes) (R : σ → τ → Prop) (r : Reader σ) (r' : Reader τ) : Prop :=
  ReaderRel (.sim R) probed r r'

variable [Fpu] {json : Bool} {probed : Bytes} {R : σ → τ → Prop} {r : Reader σ} {r' : Reader τ}

theorem parseNumber_sim (h : ReaderSim probed R r r') (hp : numberChars ⊆ probed) (n : Nat) :
    Scan.Sim R (parseNumber r n) (parseNumber r' n) :=
  parseNumber_rel h hp rfl

/-- Readers that agree make `val::parse` agree, for every amount of fuel. -/
theorem parse_sim (h : ReaderSim (probedChars json) R r r') (n : Nat) (flags : Flags)
    (hj : flags.json = json) : Scan.Sim R (parse r n flags) (parse r' n flags) :=
  parse_rel h rfl flags hj

end Simulation

end Libacorn
