import Libacorn.WatchedTwins

/-!
# Past the end

Past the end `readChar` stands still while `peekChar` goes on reading, so a loop that likes the
character it peeks at never ends. What a parser that is not misled does there does not depend on
the buffer (`Rests`); where the watched parser faults, the parser of the source never answers, or
it answers with another val.
-/

namespace Libacorn

open Support

/-! ## Runs past the end -/

section Rests

variable {α β : Type} {M M' : Cursor → Prop} {E : α × Cursor → Prop} {E' : β × Cursor → Prop}

def never (_ : α × Cursor) : Prop := False

/-- The watched run `x` ends with `a`, and the plain run `z` with nothing else; or it faults, and
the plain run ends in `E` only. -/
def Rests (M : Cursor → Prop) (E : α × Cursor → Prop) (a : α) (x z : Outcome (α × Cursor)) : Prop :=
  (∃ c, M c ∧ x = .done (a, c) ∧ ∀ r, z = .done r → r = (a, c)) ∨
    x = .fault ∧ ∀ r, z = .done r → E r

namespace Rests

variable {a : α} {b : β} {x z : Outcome (α × Cursor)}

theorem done {c : Cursor} (h : M c) : Rests M E a (.done (a, c)) (.done (a, c)) :=
  Or.inl ⟨c, h, rfl, fun _ hr => (Outcome.done.inj hr).symm⟩

theorem fault : Rests M E a .fault .fault := Or.inr ⟨rfl, nofun⟩

theorem mono (h : Rests M E a x z) {N : Cursor → Prop} {F : α × Cursor → Prop}
    (hM : ∀ c, M c → N c) (hE : ∀ r, E r → F r) : Rests N F a x z := by
  rcases h with ⟨c, hc, hx, hz⟩ | ⟨hx, hz⟩
  · exact Or.inl ⟨c, hM c hc, hx, hz⟩
  · exact Or.inr ⟨hx, fun r hr => hE r (hz r hr)⟩

/-- The same watched run next to a plain run without fuel. -/
theorem alone (h : Rests M E a x z) : Rests M E a x .timeout := by
  rcases h with ⟨c, hc, hx, -⟩ | ⟨hx, -⟩
  · exact Or.inl ⟨c, hc, hx, nofun⟩
  · exact Or.inr ⟨hx, nofun⟩

theorem bind (h : Rests M E a x z) {f q : α × Cursor → Outcome (β × Cursor)}
    (hf : ∀ c, M c → Rests M' E' b (f (a, c)) (q (a, c)))
    (hE : ∀ r, E r → ∀ r', q r = .done r' → E' r') : Rests M' E' b (x.bind f) (z.bind q) := by
  rcases h with ⟨c, hc, rfl, hz⟩ | ⟨rfl, hz⟩
  · rcases hf c hc with ⟨c₁, hc₁, hx, hq⟩ | ⟨hx, hq⟩
    · refine Or.inl ⟨c₁, hc₁, hx, fun r' hr' => ?_⟩
      obtain ⟨r, hr, hqr⟩ := Outcome.bind_eq_done hr'
      rw [hz r hr] at hqr
      exact hq r' hqr
    · refine Or.inr ⟨hx, fun r' hr' => ?_⟩
      obtain ⟨r, hr, hqr⟩ := Outcome.bind_eq_done hr'
      rw [hz r hr] at hqr
      exact hq r' hqr
  · refine Or.inr ⟨rfl, fun r' hr' => ?_⟩
    obtain ⟨r, hr, hqr⟩ := Outcome.bind_eq_done hr'
    exact hE r (hz r hr) r' hqr

/-- What the plain run answers where the watched one has no way to fault. -/
theorem only (h : Rests M never a x z) {r : α × Cursor} (hr : z = .done r) : r.1 = a ∧ M r.2 := by
  rcases h with ⟨c, hc, -, hz⟩ | ⟨-, hz⟩
  · rw [hz r hr]
    exact ⟨rfl, hc⟩
  · exact (hz r hr).elim

/-- Two watched runs that rest are twins. -/
theorem twinned {cb : Nat} {R : Cursor → Cursor → Prop} {D : Differ α} {F : α × Cursor → Prop}
    {y z' : Outcome (α × Cursor)} (h : Rests M E a x z) (h' : Rests M' F a y z')
    (hR : ∀ c c', M c → M' c' → R c c')
    (hM : ∀ c, M' c → cb ≤ c.it) (hD : ∀ r c', E r → M' c' → D r (a, c')) :
    Twinned cb R D x y z := by
  rcases h' with ⟨c', hc', rfl, -⟩ | ⟨rfl, -⟩
  · rcases h with ⟨c, hc, rfl, -⟩ | ⟨rfl, hz⟩
    · exact Or.inl (Locked.done (hR c c' hc hc'))
    · exact Or.inr ⟨rfl, _, rfl, hM c' hc', fun r hr => hD r c' (hz r hr) hc'⟩
  · exact Or.inl (Or.inr (Or.inl rfl))

end Rests

/-- More fuel for the plain run than none. -/
theorem Rests.fuelled {a : α} {x : Outcome (α × Cursor)} {z : Nat → Outcome (α × Cursor)}
    (h : ∀ k, Rests M E a x (z (k + 1))) (h0 : z 0 = .timeout) (k : Nat) : Rests M E a x (z k) := by
  cases k with
  | zero =>
    rw [h0]
    exact (h 0).alone
  | succ k => exact h k

/-- The cursor does not move. -/
def still (c : Cursor) : Cursor → Prop := (· = c)

end Rests

/-! ## Standing still -/

section Still

variable {α : Type} {s : Text} {t : Bool} {c : Cursor} {ch : Nat}

theorem Text.readChar_past (h : s.cb ≤ c.it) : s.reader.readChar c = .done (0, c) := by
  simp [Text.reader, Text.readChar, h]

theorem Text.beforeEnd_past (h : s.cb ≤ c.it) : s.reader.beforeEnd c = .done (false, c) := by
  simp only [Text.reader, Nat.not_lt.mpr h, decide_false]

theorem Text.skipWhitespace_past (h : s.cb ≤ c.it) :
    s.reader.skipWhitespace c = .done ((), c) := by
  simp [Text.reader, Text.skipWhitespace, Nat.sub_eq_zero_of_le h, Text.skipWhitespaceLoop]

theorem skipWhitespaceAndComments_stuck (h : s.cb < c.it)
    (hp : s.reader.peekChar c = .done (ch, c)) (hb : isBlank ch = true) (n : Nat)
    (newLine : Bool) : skipWhitespaceAndComments s.reader n newLine c = .timeout := by
  induction n generalizing newLine with
  | zero => rfl
  | succ n ih =>
    have hr := Text.readChar_past (Nat.le_of_lt h)
    have ha : s.reader.atEnd c = .done (false, c) := by
      have : decide (c.it = s.cb) = false := decide_eq_false (by omega)
      simp only [Text.reader, this]
    simp only [isBlank, decide_eq_true_eq] at hb
    simp only [skipWhitespaceAndComments, Scan.bind_apply, ha, hp, Outcome.bind_done,
      Bool.false_eq_true, ↓reduceIte]
    by_cases hnl : ch = '\r'.toNat ∨ ch = '\n'.toNat
    · simp only [hnl, ↓reduceIte, Scan.bind_apply, hr, Outcome.bind_done, ih]
    · have hsp : ch = ' '.toNat ∨ ch = '\t'.toNat := by
        rcases hb with hb | hb | hb | hb
        · exact absurd (Or.inl hb) hnl
        · exact absurd (Or.inr hb) hnl
        · exact Or.inl hb
        · exact Or.inr hb
      simp only [hnl, hsp, ↓reduceIte, Scan.bind_apply, hr, Outcome.bind_done, ih]

theorem parseSigns_stuck (h : s.cb ≤ c.it) (hp : s.reader.peekChar c = .done (ch, c))
    (hc : isSign ch = true) (n : Nat) (neg : Bool) : parseSigns s.reader n neg c = .timeout := by
  induction n generalizing neg with
  | zero => rfl
  | succ n ih =>
    simp only [isSign, decide_eq_true_eq] at hc
    simp only [parseSigns, Scan.bind_apply, hp, Outcome.bind_done, hc, ↓reduceIte,
      Text.readChar_past h, Text.skipWhitespace_past h, ih]

theorem skipSpacesAndTabs_past (h : s.cb ≤ c.it) (n : Nat) :
    skipSpacesAndTabs s.reader (n + 1) c = .done ((), c) := by
  simp only [skipSpacesAndTabs, Scan.bind_apply, Text.beforeEnd_past h, Outcome.bind_done,
    Bool.false_eq_true, ↓reduceIte]
  rfl

variable [Fpu]

theorem parse_past (h : s.cb ≤ c.it) (n : Nat) (flags : Flags) :
    parse s.reader (n + 1) flags c = .done (.empty, c) := by
  simp only [parse, parseValue, Scan.bind_apply, Text.beforeEnd_past h, Outcome.bind_done,
    Bool.false_eq_true, ↓reduceIte]
  rfl

theorem parseDigits_stuck (h : s.cb ≤ c.it) (hp : s.reader.peekChar c = .done (ch, c)) {base : Nat}
    (hc : isMantissaChar base ch = true) (n : Nat) (st : NumState) :
    parseDigits s.reader base n st c = .timeout := by
  induction n generalizing st with
  | zero => rfl
  | succ n ih =>
    have hr := Text.readChar_past h
    simp only [isMantissaChar, decide_eq_true_eq] at hc
    simp only [parseDigits, Scan.bind_apply, hp, Outcome.bind_done]
    by_cases hd : isBaseDigit base ch = true
    · simp only [hd, ↓reduceIte, Scan.bind_apply, hr, Outcome.bind_done, ih]
    · have hpt := hc.resolve_left hd
      rw [if_neg hd, if_pos hpt]
      simp only [Scan.bind_apply, hr, Outcome.bind_done, ih]

theorem parseImplicit_stuck (h : s.cb ≤ c.it) (hp : s.reader.peekChar c = .done (ch, c))
    (hc : endsImplicitArray ch = false) (flags : Flags) (m k n : Nat) (v : CVal) :
    parseImplicit s.reader (parse s.reader m flags) k n v c = .timeout := by
  induction n generalizing v with
  | zero => rfl
  | succ n ih =>
    cases k with
    | zero => rfl
    | succ k =>
      simp only [parseImplicit, Scan.bind_apply, skipSpacesAndTabs_past h, Outcome.bind_done, hp,
        hc, Bool.false_eq_true, ↓reduceIte]
      cases m with
      | zero => rfl
      | succ m => rw [parse_past h, Outcome.bind_done, ih]

end Still

/-! ## Loops past the end -/

section Loops

variable {α : Type} {s : Text} {t : Bool} {c : Cursor} {M : Cursor → Prop}
  {E : α × Cursor → Prop} {a : α} {k q : Nat → Scan Cursor α}

theorem byte_ends (s : Text) (o : Nat) : s.byte o = .fault ∨ ∃ b, s.byte o = .done b := by
  unfold Text.byte
  split
  · exact Or.inr ⟨_, rfl⟩
  · exact Or.inl rfl

theorem readUtf8_ends (s : Text) (o : Nat) :
    s.readUtf8 o = .fault ∨ ∃ r, s.readUtf8 o = .done r := by
  have hb {β : Type} (i : Nat) (f : UInt8 → Outcome β)
      (hf : ∀ b, f b = .fault ∨ ∃ r, f b = .done r) :
      (s.byte i).bind f = .fault ∨ ∃ r, (s.byte i).bind f = .done r := by
    rcases byte_ends s i with h | ⟨b, h⟩
    · rw [h]
      exact Or.inl rfl
    · rw [h]
      exact hf b
  have hi {β : Type} (p : Prop) [Decidable p] {x y : Outcome β} (hx : x = .fault ∨ ∃ r, x = .done r)
      (hy : y = .fault ∨ ∃ r, y = .done r) :
      (if p then x else y) = .fault ∨ ∃ r, (if p then x else y) = .done r := by
    split
    · exact hx
    · exact hy
  have hd {β : Type} (r : β) : (Outcome.done r = .fault) ∨ ∃ r', Outcome.done r = .done r' :=
    Or.inr ⟨r, rfl⟩
  refine hb _ _ fun b => hi _ (hb _ _ fun b1 => hi _ (hb _ _ fun b2 => hi _ ?_ (hd _)) (hd _))
    (hi _ (hd _) (hd _))
  exact hb _ _ fun b3 => hd _

theorem peekChar_ends (s : Text) (c : Cursor) :
    s.reader.peekChar c = .fault ∨ ∃ ch, s.reader.peekChar c = .done (ch, c) := by
  simp only [Text.reader, Text.peekChar]
  rcases readUtf8_ends s c.it with h | ⟨r, h⟩
  · rw [h]
    exact Or.inl rfl
  · rw [h]
    exact Or.inr ⟨r.1, rfl⟩

theorem peek_rests (h : s.cb ≤ c.it) (hk : ∀ ch, Rests M E a (k ch c) (q ch c)) :
    Rests M E a (((s.watched t).peekChar >>= k) c) ((s.reader.peekChar >>= q) c) := by
  simp only [Scan.bind_apply, watched_peekChar_past h]
  rcases peekChar_ends s c with hp | ⟨ch, hp⟩
  · rw [hp]
    exact Rests.fault
  · rw [hp]
    exact hk ch

theorem asks_rests (h : s.cb ≤ c.it) (p : Nat → Bool)
    (hk : ∀ ch, p ch = p 0 → Rests M E a (k ch c) (q ch c))
    (hq : ∀ ch, s.reader.peekChar c = .done (ch, c) → p ch ≠ p 0 →
      ∀ r, (s.reader.peekChar >>= q) c = .done r → E r) :
    Rests M E a
      (((s.watched t).peekChar >>= fun ch => (s.watched t).asks p ch >>= fun _ => k ch) c)
      ((s.reader.peekChar >>= q) c) := by
  simp only [Scan.bind_apply, watched_peekChar_past h] at hq ⊢
  rcases peekChar_ends s c with hp | ⟨ch, hp⟩
  · rw [hp]
    exact Rests.fault
  · have hq := hq ch hp
    rw [hp] at hq ⊢
    simp only [Outcome.bind_done, asks_past p ch h] at hq ⊢
    by_cases hch : p ch = p 0
    · rw [if_pos hch]
      exact hk ch hch
    · rw [if_neg hch]
      exact Or.inr ⟨rfl, hq hch⟩

/-- A character that misleads the parser may keep it for ever. -/
theorem unanswered {z : Outcome (α × Cursor)} (hz : z = .timeout) : ∀ r, z = .done r → E r := by
  intro r hr
  rw [hz] at hr
  cases hr

theorem skipWhitespaceAndComments_rests (h : s.cb ≤ c.it) (n k : Nat) :
    Rests (still c) never () ((s.watched t).skipWhitespaceAndComments (n + 1) false c)
      (skipWhitespaceAndComments s.reader k false c) := by
  refine Rests.fuelled (z := fun k => skipWhitespaceAndComments s.reader k false c) (fun k => ?_)
    rfl k
  by_cases hend : c.it = s.cb
  · have ha : s.reader.atEnd c = .done (true, c) := atEnd_end (t := false) hend
    simp only [Watch.skipWhitespaceAndComments, skipWhitespaceAndComments, Scan.bind_apply,
      atEnd_end hend, ha, Outcome.bind_done, ↓reduceIte]
    exact Rests.done rfl
  · have ha : s.reader.atEnd c = .done (false, c) := atEnd_off (t := false) hend
    have hgt : s.cb < c.it := by omega
    rw [Watch.skipWhitespaceAndComments, skipWhitespaceAndComments, Scan.bind_apply,
      Scan.bind_apply, atEnd_off hend, ha]
    refine asks_rests h isBlank (fun ch hch => ?_) fun ch hp hch => ?_
    · have h0 : isBlank ch = false := hch
      simp only [isBlank, decide_eq_false_iff_not, not_or] at h0
      obtain ⟨h1, h2, h3, h4⟩ := h0
      rw [if_neg (not_or.mpr ⟨h1, h2⟩), if_neg (not_or.mpr ⟨h3, h4⟩), if_neg (not_or.mpr ⟨h1, h2⟩),
        if_neg (not_or.mpr ⟨h3, h4⟩)]
      exact Rests.done rfl
    · have hst := skipWhitespaceAndComments_stuck hgt hp (eq_true_of_ne_false hch) (k + 1) false
      rw [skipWhitespaceAndComments, Scan.bind_apply, ha] at hst
      exact unanswered hst

theorem skipSpacesAndTabs_rests (h : s.cb ≤ c.it) (n k : Nat) :
    Rests (still c) never () (skipSpacesAndTabs (s.watched t).toReader (n + 1) c)
      (skipSpacesAndTabs s.reader k c) := by
  refine Rests.fuelled (z := fun k => skipSpacesAndTabs s.reader k c) (fun k => ?_) rfl k
  rw [skipSpacesAndTabs_past h, skipSpacesAndTabs, Scan.bind_apply, beforeEnd_past h]
  exact Rests.done rfl

theorem parseStringLoop_rests (h : s.cb ≤ c.it) (quoted : Bool) (str : Bytes) (n k : Nat) :
    Rests (still c) never str ((s.watched t).parseStringLoop quoted (n + 1) str c)
      (parseStringLoop s.reader quoted k str c) := by
  refine Rests.fuelled (z := fun k => parseStringLoop s.reader quoted k str c) (fun k => ?_) rfl k
  rw [Watch.parseStringLoop, parseStringLoop, Scan.bind_apply, Scan.bind_apply, beforeEnd_past h,
    Text.beforeEnd_past h]
  exact Rests.done rfl

theorem parseString_rests (h : s.cb ≤ c.it) (n k : Nat) :
    Rests (still c) never [] ((s.watched t).parseString (n + 1) c)
      (parseString s.reader k c) := by
  refine peek_rests h fun ch => ?_
  split
  next =>
    rw [Scan.bind_apply, Scan.bind_apply, watched_readChar_past h, Text.readChar_past h]
    exact parseStringLoop_rests h true [] n k
  next => exact parseStringLoop_rests h false [] n k

theorem parseSigns_rests (h : s.cb ≤ c.it) (neg : Bool) (n k : Nat) :
    Rests (still c) never neg ((s.watched t).parseSigns (n + 1) neg c)
      (parseSigns s.reader k neg c) := by
  refine Rests.fuelled (z := fun k => parseSigns s.reader k neg c) (fun k => ?_) rfl k
  refine asks_rests h isSign (fun ch hch => ?_) fun ch hp hch => ?_
  · have h0 : ¬(ch = '+'.toNat ∨ ch = '-'.toNat) := of_decide_eq_false hch
    rw [if_neg h0, if_neg h0]
    exact Rests.done rfl
  · exact unanswered (parseSigns_stuck h hp (eq_true_of_ne_false hch) (k + 1) neg)

theorem parseFields_rests (h : s.cb ≤ c.it) (json : Bool) {f g : Scan Cursor CVal}
    (m l n k : Nat) (fields : List (Bytes × CVal)) :
    Rests (still c) never (fields, false)
      ((s.watched t).parseFields json f m (n + 1) fields c)
      (parseFields s.reader json g l k fields c) := by
  refine Rests.fuelled (z := fun k => parseFields s.reader json g l k fields c) (fun k => ?_)
    rfl k
  refine peek_rests h fun ch => ?_
  split
  next => exact Rests.done rfl
  next =>
    rw [Scan.bind_apply, Scan.bind_apply, beforeEnd_past h, Text.beforeEnd_past h]
    exact Rests.done rfl

theorem parseElements_rests (h : s.cb ≤ c.it) {f g : Scan Cursor CVal} (m l n k : Nat)
    (vec : List CVal) : Rests (still c) never vec
      ((s.watched t).parseElements f m (n + 1) vec c)
      (parseElements s.reader g l k vec c) := by
  refine Rests.fuelled (z := fun k => parseElements s.reader g l k vec c) (fun k => ?_) rfl k
  refine peek_rests h fun ch => ?_
  split
  next => exact Rests.done rfl
  next =>
    rw [Scan.bind_apply, Scan.bind_apply, beforeEnd_past h, Text.beforeEnd_past h]
    exact Rests.done rfl

variable [Fpu]

theorem parseDigits_rests (h : s.cb ≤ c.it) (base : Nat) (st : NumState) (n k : Nat) :
    Rests (still c) never st ((s.watched t).parseDigits base (n + 1) st c)
      (parseDigits s.reader base k st c) := by
  refine Rests.fuelled (z := fun k => parseDigits s.reader base k st c) (fun k => ?_) rfl k
  have hzero : isMantissaChar base 0 = false := by
    simp [isMantissaChar, isBaseDigit]
  refine asks_rests h (isMantissaChar base) (fun ch hch => ?_) fun ch hp hch => ?_
  · obtain ⟨hd, hpt⟩ := not_or.mp (of_decide_eq_false (hch.trans hzero))
    rw [if_neg hd, if_neg hpt, if_neg hd, if_neg hpt]
    exact Rests.done rfl
  · exact unanswered (parseDigits_stuck h hp (eq_true_of_ne_false (hzero ▸ hch)) (k + 1) st)

/-- The body of the implicit-array loop behind the spaces. -/
def implicitStep {σ : Type} (r : Reader σ) (value : Scan σ CVal) (loop : CVal → Scan σ CVal)
    (v : CVal) : Scan σ CVal := do
  let ch ← r.peekChar
  if endsImplicitArray ch then pure v else
  let elem ← value
  loop (.array (asElements v ++ [elem]))

def Watch.implicitStep {σ : Type} (w : Watch σ) (value : Scan σ CVal) (loop : CVal → Scan σ CVal)
    (v : CVal) : Scan σ CVal := do
  let ch ← w.peekChar
  w.asks endsImplicitArray ch
  if endsImplicitArray ch then pure v else
  let elem ← value
  loop (.array (asElements v ++ [elem]))

theorem implicitStep_rests (h : s.cb ≤ c.it) {value : Scan Cursor CVal}
    {loop : CVal → Scan Cursor CVal} (flags : Flags) (m l k : Nat) (v : CVal) :
    Rests (still c) never v ((s.watched t).implicitStep value loop v c)
      (implicitStep s.reader (parse s.reader m flags)
        (parseImplicit s.reader (parse s.reader m flags) (l + 1) k) v c) := by
  refine asks_rests h endsImplicitArray (fun ch hch => ?_) fun ch hp hch => unanswered ?_
  · have he : endsImplicitArray ch = true := hch
    rw [if_pos he, if_pos he]
    exact Rests.done rfl
  · have hst := parseImplicit_stuck h hp (eq_false_of_ne_true hch) flags m (l + 1) (k + 1) v
    rw [parseImplicit, Scan.bind_apply, skipSpacesAndTabs_past h] at hst
    exact hst

theorem parseImplicit_rests (h : s.cb ≤ c.it) {f : Scan Cursor CVal} (flags : Flags)
    (m i n l k : Nat) (v : CVal) : Rests (still c) never v
      ((s.watched t).parseImplicit f (i + 1) (n + 1) v c)
      (parseImplicit s.reader (parse s.reader m flags) l k v c) := by
  refine Rests.fuelled (z := fun k => parseImplicit s.reader (parse s.reader m flags) l k v c)
    (fun k => ?_) rfl k
  refine Rests.fuelled
    (z := fun l => parseImplicit s.reader (parse s.reader m flags) l (k + 1) v c) (fun l => ?_) rfl
    l
  refine (skipSpacesAndTabs_rests h i (l + 1)).bind (fun c₁ hc₁ => ?_) fun _ hr => hr.elim
  rw [show c₁ = c from hc₁]
  exact implicitStep_rests h flags m l k v

end Loops

/-! ## Skipping past the end -/

section Probes

variable {α : Type} {s : Text} {t : Bool} {c : Cursor} {M : Cursor → Prop}
  {E : α × Cursor → Prop} {a : α}

/-- A test for what is next, on a watched and a plain reader. Where it succeeds it moves on, unless
the watch `stops` it. -/
def Probes (stops : Prop) (c : Cursor) (x z : Outcome (Bool × Cursor)) : Prop :=
  x = .fault ∧ z = .fault ∨ x = .done (false, c) ∧ z = .done (false, c) ∨
    ∃ c₁, c.it < c₁.it ∧ z = .done (true, c₁) ∧
      (stops ∧ x = .fault ∨ ¬stops ∧ x = .done (true, c₁))

theorem Probes.rests {stops : Prop} {m p : Scan Cursor Bool} (hp : Probes stops c (m c) (p c))
    {yes yes' no no' : Scan Cursor α} (hno : Rests M E a (no c) (no' c))
    (hstop : ∀ c₁, c.it < c₁.it → stops → ∀ r, yes' c₁ = .done r → E r)
    (hyes : ∀ c₁, c.it < c₁.it → ¬stops → Rests M E a (yes c₁) (yes' c₁)) :
    Rests M E a ((do if ← m then yes else no) c) ((do if ← p then yes' else no') c) := by
  simp only [Scan.bind_apply]
  rcases hp with ⟨hm, hp⟩ | ⟨hm, hp⟩ | ⟨c₁, hlt, hp, ⟨hs, hm⟩ | ⟨hs, hm⟩⟩
  · rw [hm, hp]
    exact Rests.fault
  · rw [hm, hp]
    exact hno
  · rw [hm, hp]
    exact Or.inr ⟨rfl, hstop c₁ hlt hs⟩
  · rw [hm, hp]
    exact hyes c₁ hlt hs

variable (hroom : s.mem.length < 2 ^ 32)

include hroom

theorem skipChar_probes (h : s.cb ≤ c.it) (ch : UInt8) :
    Probes (t = true ∨ ch = UInt8.ofNat '%'.toNat) c ((s.watched t).skipChar ch c)
      (s.reader.skipChar ch c) := by
  cases hm : s.mem[s.offset + c.it]? with
  | none =>
    have hb : s.byte c.it = .fault := by simp only [Text.byte, hm]
    refine Or.inl ⟨?_, ?_⟩
    · simp only [Text.watched, Text.skipChar, hb, Outcome.bind_fault]
    · simp only [Text.reader, Text.skipChar, hb, Outcome.bind_fault]
  | some b =>
    have hb : s.byte c.it = .done b := by simp only [Text.byte, hm]
    obtain ⟨hlt, -⟩ := List.getElem?_eq_some_iff.mp hm
    by_cases he : b = ch
    · refine Or.inr (Or.inr ⟨c.moveTo (u32 (c.it + 1)), ?_, ?_, ?_⟩)
      · rw [Cursor.moveTo_it, u32_of_lt (by omega)]
        exact Nat.lt_succ_self _
      · simp only [Text.reader, Text.skipChar, hb, he, ↓reduceIte, Outcome.bind_done]
      · simp only [Text.watched, Text.skipChar, hb, he, ↓reduceIte, Outcome.bind_done, h, true_and]
        by_cases hs : t = true ∨ ch = UInt8.ofNat '%'.toNat
        · exact Or.inl ⟨hs, if_pos hs⟩
        · exact Or.inr ⟨hs, if_neg hs⟩
    · refine Or.inr (Or.inl ⟨?_, ?_⟩)
      · simp only [Text.watched, Text.skipChar, hb, he, ↓reduceIte, Outcome.bind_done,
          Bool.false_eq_true, false_and]
      · simp only [Text.reader, Text.skipChar, hb, he, ↓reduceIte, Outcome.bind_done]

theorem skipString_probes (h : s.cb ≤ c.it) {l : Bytes} (hl : l ≠ []) :
    Probes (t = true ∨ Text.isUnit l = true) c ((s.watched t).skipString l c)
      (s.reader.skipString l c) := by
  have hpos := List.length_pos_iff.mpr hl
  by_cases hlen : l.length > u32 (s.cb + (2 ^ 32 - c.it))
  · refine Or.inr (Or.inl ⟨?_, ?_⟩)
    · simp only [Text.watched, Text.skipString, hlen, ↓reduceIte, Outcome.bind_done,
        Bool.false_eq_true, false_and]
    · simp only [Text.reader, Text.skipString, hlen, ↓reduceIte]
  · by_cases hfit : s.offset + c.it + l.length ≤ s.mem.length
    · have hb : s.bytes c.it l.length =
          .done ((s.mem.drop (s.offset + c.it)).take l.length) := if_pos hfit
      by_cases he : (s.mem.drop (s.offset + c.it)).take l.length = l
      · refine Or.inr (Or.inr ⟨c.moveTo (u32 (c.it + l.length)), ?_, ?_, ?_⟩)
        · rw [Cursor.moveTo_it, u32_of_lt (by omega)]
          omega
        · simp only [Text.reader, Text.skipString, hlen, hb, he, ↓reduceIte, Outcome.bind_done]
        · simp only [Text.watched, Text.skipString, hlen, hb, he, ↓reduceIte, Outcome.bind_done, h,
            true_and]
          by_cases hs : t = true ∨ Text.isUnit l = true
          · exact Or.inl ⟨hs, if_pos hs⟩
          · exact Or.inr ⟨hs, if_neg hs⟩
      · refine Or.inr (Or.inl ⟨?_, ?_⟩)
        · simp only [Text.watched, Text.skipString, hlen, hb, he, ↓reduceIte, Outcome.bind_done,
            Bool.false_eq_true, false_and]
        · simp only [Text.reader, Text.skipString, hlen, hb, he, ↓reduceIte, Outcome.bind_done]
    · have hb : s.bytes c.it l.length = .fault := if_neg hfit
      refine Or.inl ⟨?_, ?_⟩
      · simp only [Text.watched, Text.skipString, hlen, hb, ↓reduceIte, Outcome.bind_fault]
      · simp only [Text.reader, Text.skipString, hlen, hb, ↓reduceIte, Outcome.bind_fault]

/-- A comma past the end is skipped, though nothing comes of it. -/
theorem skipFieldComma_rests (h : s.cb ≤ c.it) (json : Bool) :
    Rests (s.cb ≤ ·.it) never () (skipFieldComma (s.watched false).toReader json c)
      (skipFieldComma s.reader json c) := by
  unfold skipFieldComma
  cases json with
  | false => exact Rests.done h
  | true =>
    refine Probes.rests (skipChar_probes hroom h _) (Rests.done h) ?_ fun c₁ hlt _ => ?_
    · intro c₁ _ hs
      exact absurd hs (by decide)
    · have hw : s.skipWhitespace c₁ = .done ((), c₁) := Text.skipWhitespace_past (by omega)
      change Rests _ _ _ (s.skipWhitespace c₁) (s.skipWhitespace c₁)
      rw [hw]
      exact Rests.done (by omega)

end Probes

/-! ## Numbers past the end -/

section Numbers

variable {s : Text} {t : Bool} {c : Cursor}

/-- The cursor stays past the end, and a strict watch does not let it move. -/
def kept (cb : Nat) (t : Bool) (c : Cursor) : Cursor → Prop :=
  fun c₁ => cb ≤ c₁.it ∧ (t = true → c₁.it = c.it)

/-- An answer other than `v`, or for a strict watch one behind `o`. -/
def misled (cb : Nat) (t : Bool) (o : Nat) (v : CVal) : CVal × Cursor → Prop :=
  fun r => cb ≤ r.2.it ∧ (r.1 ≠ v ∨ t = true ∧ o < r.2.it)

theorem kept_self (h : s.cb ≤ c.it) : kept s.cb t c c := ⟨h, fun _ => rfl⟩

theorem Probes.onward {α : Type} {K : α × Cursor → Prop} {stops : Prop}
    {x : Outcome (Bool × Cursor)} {p : Scan Cursor Bool} (hp : Probes stops c x (p c))
    {yes no : Scan Cursor α}
    (hno : ∀ r, no c = .done r → K r) (hyes : ∀ c₁, c.it < c₁.it → ∀ r, yes c₁ = .done r → K r) :
    ∀ r, (do if ← p then yes else no) c = .done r → K r := by
  intro r hr
  simp only [Scan.bind_apply] at hr
  rcases hp with ⟨-, hp⟩ | ⟨-, hp⟩ | ⟨c₁, hlt, hp, -⟩
  · rw [hp] at hr
    cases hr
  · rw [hp] at hr
    exact hno r hr
  · rw [hp] at hr
    exact hyes c₁ hlt r hr

theorem parseBase_bind {σ : Type} (r : Reader σ) (f : Nat → Scan σ CVal) : (parseBase r >>= f) =
    (do
      if ← r.skipChar (UInt8.ofNat '0'.toNat) then
        (do if ← r.skipChar (UInt8.ofNat 'x'.toNat) then f 16 else f 10)
      else f 10) := by
  funext c
  simp only [parseBase, Scan.bind_apply, Outcome.bind_assoc]
  congr 1
  funext r₀
  cases r₀.1 with
  | false => rfl
  | true =>
    simp only [↓reduceIte, Scan.bind_apply, Outcome.bind_assoc]
    congr 1
    funext r₁
    cases r₁.1 with
    | false => rfl
    | true => rfl

variable [Fpu]

/-- `val::parseNumber` behind its prefix: the digits and the suffix. -/
def parseMagnitude {σ : Type} (r : Reader σ) (n : Nat) (neg : Bool) (base : Nat) : Scan σ CVal := do
  let st ← parseDigits r base n { u := 0, isFloat := false, fraction := 0 }
  parseSuffix r (st.toVal neg)

def Watch.parseMagnitude {σ : Type} (w : Watch σ) (n : Nat) (neg : Bool) (base : Nat) :
    Scan σ CVal := do
  let st ← w.parseDigits base n { u := 0, isFloat := false, fraction := 0 }
  parseSuffix w.toReader (st.toVal neg)

theorem toVal_ne_string (st : NumState) (neg : Bool) (b : Bytes) : st.toVal neg ≠ .string b := by
  intro he
  simp only [NumState.toVal] at he
  split_ifs at he

theorem scaleNumber_ne_string (mul : Nat) {v : CVal} {b : Bytes} (hv : v ≠ .string b) :
    scaleNumber mul v ≠ .string b := by
  cases v <;> first | exact hv | nofun

/-- A number is no string, whatever its suffix. -/
theorem parseNumber_ne_string {σ : Type} (r : Reader σ) {n : Nat} {c : σ} {q : CVal × σ}
    (h : parseNumber r n c = .done q) (b : Bytes) : q.1 ≠ .string b := by
  obtain ⟨neg, c₁, -, h⟩ := Scan.bind_eq_done h
  obtain ⟨base, c₂, -, h⟩ := Scan.bind_eq_done h
  obtain ⟨st, c₃, -, h⟩ := Scan.bind_eq_done h
  have hv := toVal_ne_string st neg b
  have hstep {m : Scan σ Bool} {x : CVal} {no : Scan σ CVal} (hx : x ≠ .string b)
      (hno : ∀ c, ∀ q, no c = .done q → q.1 ≠ .string b) :
      ∀ c, ∀ q, (do if ← m then pure x else no) c = .done q → q.1 ≠ .string b := by
    intro c q hq
    obtain ⟨t, c', -, hq⟩ := Scan.bind_eq_done hq
    cases t with
    | true =>
      cases hq
      exact hx
    | false => exact hno c' q hq
  have hsuffix : ∀ c, ∀ q, parseSuffix r (st.toVal neg) c = .done q → q.1 ≠ .string b := by
    refine hstep (by nofun) (hstep (by nofun) (hstep (by nofun) (hstep (by nofun) ?_)))
    refine hstep (scaleNumber_ne_string _ hv) (hstep (scaleNumber_ne_string _ hv)
      (hstep (scaleNumber_ne_string _ hv) ?_))
    intro c q hq
    cases hq
    exact hv
  exact hsuffix c₃ q h

theorem toVal_ne_measurement (st : NumState) (neg : Bool) (f : BitVec 32) (u : MeasureUnit) :
    st.toVal neg ≠ .measurement f u := by
  intro he
  simp only [NumState.toVal] at he
  split_ifs at he

theorem toVal_zero (neg : Bool) :
    ({ u := 0, isFloat := false, fraction := 0 } : NumState).toVal neg = .int32 0 := by
  cases neg with
  | false => rfl
  | true => rfl

variable (hroom : s.mem.length < 2 ^ 32)

include hroom

theorem parseSuffix_onward (h : s.cb ≤ c.it) (v : CVal) :
    ∀ r, parseSuffix s.reader v c = .done r → c.it ≤ r.2.it := by
  have hpure (v : CVal) (c₁ : Cursor) (hlt : c.it < c₁.it) :
      ∀ r, (pure v : Scan Cursor CVal) c₁ = .done r → c.it ≤ r.2.it := by
    intro r hr
    cases hr
    exact Nat.le_of_lt hlt
  have hchar := skipChar_probes (t := true) hroom h (UInt8.ofNat '%'.toNat)
  have hstring {l : Bytes} (hl : l ≠ []) := skipString_probes (t := true) hroom h hl
  refine hchar.onward ?_ (hpure _)
  refine (hstring (by decide)).onward ?_ (hpure _)
  refine (hstring (by decide)).onward ?_ (hpure _)
  refine (hstring (by decide)).onward ?_ (hpure _)
  refine (hstring (by decide)).onward ?_ (hpure _)
  refine (hstring (by decide)).onward ?_ (hpure _)
  refine (hstring (by decide)).onward ?_ (hpure _)
  intro r hr
  cases hr
  exact Nat.le_refl _

/-- The suffix ends past the end, whatever the number. -/
theorem parseSuffix_ends (h : s.cb ≤ c.it) (v : CVal) :
    parseSuffix (s.watched t).toReader v c = .fault ∨
      ∃ r, parseSuffix (s.watched t).toReader v c = .done r ∧ s.cb ≤ r.2.it := by
  have hstep {stops : Prop} {m p : Scan Cursor Bool} (hp : Probes stops c (m c) (p c)) (x : CVal)
      {no : Scan Cursor CVal} (hno : no c = .fault ∨ ∃ r, no c = .done r ∧ s.cb ≤ r.2.it) :
      (do if ← m then pure x else no) c = .fault ∨
        ∃ r, (do if ← m then pure x else no) c = .done r ∧ s.cb ≤ r.2.it := by
    simp only [Scan.bind_apply]
    rcases hp with ⟨hm, -⟩ | ⟨hm, -⟩ | ⟨c₁, hlt, -, ⟨-, hm⟩ | ⟨-, hm⟩⟩
    · rw [hm]
      exact Or.inl rfl
    · rw [hm]
      exact hno
    · rw [hm]
      exact Or.inl rfl
    · rw [hm]
      exact Or.inr ⟨_, rfl, Nat.le_trans h (Nat.le_of_lt hlt)⟩
  have hstring {l : Bytes} (hl : l ≠ []) := skipString_probes (t := t) hroom h hl
  refine hstep (skipChar_probes hroom h _) _ ?_
  refine hstep (hstring (by decide)) _ (hstep (hstring (by decide)) _ (hstep (hstring (by decide)) _
    (hstep (hstring (by decide)) _ (hstep (hstring (by decide)) _ (hstep (hstring (by decide)) _
      (Or.inr ⟨_, rfl, h⟩))))))

/-- No suffix past the end leaves a number as it is, but for a factor of zero. -/
theorem parseSuffix_rests (h : s.cb ≤ c.it) {o : Nat} (ho : o ≤ c.it) {v : CVal}
    (hv : v = .int32 0 ∨ c.it = s.cb) (hnum : ∀ f u, v ≠ .measurement f u) :
    Rests (kept s.cb t c) (misled s.cb t o v) v
      (parseSuffix (s.watched t).toReader v c) (parseSuffix s.reader v c) := by
  have hmeasurement (f : BitVec 32) (u : MeasureUnit) (c₁ : Cursor) (hlt : c.it < c₁.it) :
      ∀ r, (pure (.measurement f u) : Scan Cursor CVal) c₁ = .done r → misled s.cb t o v r := by
    intro r hr
    cases hr
    exact ⟨by dsimp only; omega, Or.inl (hnum f u).symm⟩
  have hunit {l : Bytes} (hl : l ≠ []) (hu : Text.isUnit l = true) {f : BitVec 32} {u : MeasureUnit}
      {no no' : Scan Cursor CVal} (hno : Rests (kept s.cb t c) (misled s.cb t o v) v
        (no c) (no' c)) : Rests (kept s.cb t c) (misled s.cb t o v) v
        ((do if ← (s.watched t).skipString l then pure (Val.measurement f u) else no) c)
        ((do if ← s.reader.skipString l then pure (Val.measurement f u) else no') c) := by
    refine (skipString_probes hroom h hl).rests hno (fun c₁ hlt _ => hmeasurement f u c₁ hlt) ?_
    intro c₁ _ hs
    exact absurd (Or.inr hu) hs
  have hscale {l : Bytes} (hl : l ≠ []) (hu : Text.isUnit l = false) (mul : Nat)
      {no no' : Scan Cursor CVal} (hno : Rests (kept s.cb t c) (misled s.cb t o v) v
        (no c) (no' c)) : Rests (kept s.cb t c) (misled s.cb t o v) v
        ((do if ← (s.watched t).skipString l then pure (scaleNumber mul v) else no) c)
        ((do if ← s.reader.skipString l then pure (scaleNumber mul v) else no') c) := by
    rcases hv with hv | hend
    · refine (skipString_probes hroom h hl).rests hno (fun c₁ hlt hs r hr => ?_) fun c₁ hlt hs => ?_
      · have hstrict : t = true := hs.resolve_right (by simp [hu])
        cases hr
        exact ⟨by dsimp only; omega, Or.inr ⟨hstrict, by dsimp only; omega⟩⟩
      · have hzero : scaleNumber mul v = v := by
          rw [hv]
          exact congrArg Val.int32 BitVec.zero_mul
        rw [hzero]
        exact Rests.done ⟨by omega, fun hst => absurd (Or.inl hst) hs⟩
    · have hw : (s.watched t).skipString l c = .done (false, c) :=
        skipString_end hend hl
      have hp : s.reader.skipString l c = .done (false, c) := s.skipString_end hend hl
      rw [Scan.bind_apply, Scan.bind_apply, hw, hp]
      exact hno
  refine (skipChar_probes hroom h _).rests ?_ (fun c₁ hlt _ => hmeasurement _ _ c₁ hlt) ?_
  · refine hunit (l := lit ['p', 't']) (by decide) (by decide) ?_
    refine hunit (l := lit ['e', 'm']) (by decide) (by decide) ?_
    refine hunit (l := lit ['p', 'x']) (by decide) (by decide) ?_
    refine hscale (l := lit ['K', 'B']) (by decide) (by decide) _ ?_
    refine hscale (l := lit ['M', 'B']) (by decide) (by decide) _ ?_
    refine hscale (l := lit ['G', 'B']) (by decide) (by decide) _ ?_
    exact Rests.done (kept_self h)
  · intro c₁ _ hs
    exact absurd (Or.inr rfl) hs

theorem parseMagnitude_rests (h : s.cb ≤ c.it) {o : Nat} (ho : o ≤ c.it) (n k : Nat) (neg : Bool)
    (base : Nat) : Rests (kept s.cb t c) (misled s.cb t o (.int32 0)) (.int32 0)
      ((s.watched t).parseMagnitude (n + 1) neg base c)
      (parseMagnitude s.reader k neg base c) := by
  refine (parseDigits_rests h base _ n k).bind (fun c₁ hc₁ => ?_) fun _ hr => hr.elim
  rw [show c₁ = c from hc₁]
  dsimp only
  rw [toVal_zero]
  exact parseSuffix_rests hroom h ho (Or.inl rfl) nofun

theorem parseMagnitude_onward (h : s.cb ≤ c.it) (k : Nat) (neg : Bool) (base : Nat) :
    ∀ r, parseMagnitude s.reader k neg base c = .done r → c.it ≤ r.2.it := by
  intro r hr
  obtain ⟨st, c₁, hd, hs⟩ := Scan.bind_eq_done hr
  have hc₁ : c₁ = c := ((parseDigits_rests (t := true) h base _ 0 k).only hd).2
  rw [hc₁] at hs
  exact parseSuffix_onward hroom h _ r hs

/-- The second character of the prefix. -/
theorem parseX_rests (h : s.cb ≤ c.it) {o : Nat} (ho : o ≤ c.it) (n k : Nat) (neg : Bool) :
    Rests (kept s.cb t c) (misled s.cb t o (.int32 0)) (.int32 0)
      ((do
        if ← (s.watched t).skipChar (UInt8.ofNat 'x'.toNat) then
          (s.watched t).parseMagnitude (n + 1) neg 16
        else (s.watched t).parseMagnitude (n + 1) neg 10) c)
      ((do
        if ← s.reader.skipChar (UInt8.ofNat 'x'.toNat) then parseMagnitude s.reader k neg 16
        else parseMagnitude s.reader k neg 10) c) := by
  refine (skipChar_probes hroom h _).rests (parseMagnitude_rests hroom h ho n k neg 10) ?_ ?_
  · intro c₁ hlt hs r hr
    have hon := parseMagnitude_onward hroom (by omega) k neg 16 r hr
    exact ⟨by omega, Or.inr ⟨hs.resolve_right (by decide), by omega⟩⟩
  · intro c₁ hlt hs
    refine (parseMagnitude_rests hroom (by omega) (by omega) n k neg 16).mono ?_ fun _ hr => hr
    exact fun c₂ hc₂ => ⟨hc₂.1, fun hst => absurd (Or.inl hst) hs⟩

theorem parseX_onward (h : s.cb ≤ c.it) (k : Nat) (neg : Bool) :
    ∀ r, (do
      if ← s.reader.skipChar (UInt8.ofNat 'x'.toNat) then parseMagnitude s.reader k neg 16
      else parseMagnitude s.reader k neg 10) c = .done r → c.it ≤ r.2.it := by
  refine (skipChar_probes (t := true) hroom h _).onward (parseMagnitude_onward hroom h k neg 10)
    fun c₁ hlt r hr => ?_
  have hon := parseMagnitude_onward hroom (by omega) k neg 16 r hr
  omega

/-- The number behind its signs. -/
theorem parsePrefixed_rests (h : s.cb ≤ c.it) {o : Nat} (ho : o ≤ c.it) (n k : Nat) (neg : Bool) :
    Rests (kept s.cb t c) (misled s.cb t o (.int32 0)) (.int32 0)
      ((parseBase (s.watched t).toReader >>= (s.watched t).parseMagnitude (n + 1) neg) c)
      ((parseBase s.reader >>= parseMagnitude s.reader k neg) c) := by
  rw [parseBase_bind, parseBase_bind]
  refine (skipChar_probes hroom h _).rests (parseMagnitude_rests hroom h ho n k neg 10) ?_ ?_
  · intro c₁ hlt hs r hr
    have hon := parseX_onward hroom (by omega) k neg r hr
    exact ⟨by omega, Or.inr ⟨hs.resolve_right (by decide), by omega⟩⟩
  · intro c₁ hlt hs
    refine (parseX_rests hroom (by omega) (by omega) n k neg).mono ?_ fun _ hr => hr
    exact fun c₂ hc₂ => ⟨hc₂.1, fun hst => absurd (Or.inl hst) hs⟩

theorem parseNumber_rests (h : s.cb ≤ c.it) (n k : Nat) :
    Rests (kept s.cb t c) (misled s.cb t c.it (.int32 0)) (.int32 0)
      ((s.watched t).parseNumber (n + 1) c) (parseNumber s.reader k c) := by
  refine (parseSigns_rests h false n k).bind (fun c₁ hc₁ => ?_) fun _ hr => hr.elim
  rw [show c₁ = c from hc₁]
  exact parsePrefixed_rests hroom h (Nat.le_refl _) n k false

end Numbers

end Libacorn
