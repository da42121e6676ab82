import Libacorn.WatchedEnd
import Libacorn.Termination

/-!
# Parsing by the content alone

Two handles with one content: as long as neither parser is misled past the end they answer alike,
and where one is misled, it gives another answer or none (`parse_contentOnly_iff`).
-/

namespace Libacorn

open Support

/-! ## Twins -/

section Twins

variable {α β γ : Type} {cb : Nat}

/-- The answer has another `f`, and ends past the end. -/
def differs (cb : Nat) (f : α → γ) : Differ α := fun r r₀ => cb ≤ r.2.it ∧ f r.1 ≠ f r₀.1

/-- Another val, or for a strict watch another end. -/
def parts (cb : Nat) (t : Bool) : Differ CVal :=
  fun r r₀ => cb ≤ r.2.it ∧ (r.1 ≠ r₀.1 ∨ t = true ∧ r.2.it ≠ r₀.2.it)

theorem Rests.still_twinned {R : Cursor → Cursor → Prop} {D : Differ α} {a : α}
    {x y z z' : Outcome (α × Cursor)} {c c' : Cursor} (h : Rests (still c) never a x z)
    (h' : Rests (still c') never a y z') (hR : R c c') (hp : cb ≤ c'.it) :
    Twinned cb R D x y z := by
  refine h.twinned h' (fun c₁ c₁' h1 h2 => ?_) (fun c₁' h2 => ?_) fun r c₁' hr => hr.elim
  · rw [show c₁ = c from h1, show c₁' = c' from h2]
    exact hR
  · rw [show c₁' = c' from h2]
    exact hp

/-- Behind runs that parted both parsers rest. -/
theorem Parted.of_rests {D : Differ α} {f' q : α → Scan Cursor β} (g : α → β) {f : β → γ}
    (hs' : ∀ a c, cb ≤ c.it → ∃ z, Rests (cb ≤ ·.it) never (g a) (f' a c) z)
    (hs : ∀ a c, cb ≤ c.it → ∃ x, Rests (cb ≤ ·.it) never (g a) x (q a c))
    (hD : ∀ r r₀, D r r₀ → cb ≤ r.2.it ∧ f (g r.1) ≠ f (g r₀.1)) :
    Parted cb D (differs cb f) f' q := by
  intro r₀ hr₀
  obtain ⟨z, ⟨c₀, hc₀, hx, -⟩ | ⟨hx, -⟩⟩ := hs' r₀.1 r₀.2 hr₀
  · refine Or.inr ⟨_, hx, hc₀, fun r hr r' hr' => ?_⟩
    obtain ⟨hpast, hdiff⟩ := hD r r₀ hr
    obtain ⟨x, hrest⟩ := hs r.1 r.2 hpast
    obtain ⟨hval, hend⟩ := hrest.only hr'
    exact ⟨hend, hval ▸ hdiff⟩
  · exact Or.inl hx

/-- Behind a run without an answer only the second parser goes on. -/
theorem Parted.of_silent {D' : Differ β} {f' q : α → Scan Cursor β}
    (h : ∀ a c, cb ≤ c.it → f' a c = .fault ∨ ∃ r, f' a c = .done r ∧ cb ≤ r.2.it) :
    Parted cb silent D' f' q := by
  intro r₀ hr₀
  rcases h r₀.1 r₀.2 hr₀ with hf | ⟨r, hr, hend⟩
  · exact Or.inl hf
  · exact Or.inr ⟨r, hr, hend, fun _ h => h.elim⟩

theorem Rests.ends {M : Cursor → Prop} {E : α × Cursor → Prop} {a : α}
    {x z : Outcome (α × Cursor)} (h : Rests M E a x z) (hM : ∀ c, M c → cb ≤ c.it) :
    x = .fault ∨ ∃ r, x = .done r ∧ cb ≤ r.2.it := by
  rcases h with ⟨c, hc, hx, -⟩ | ⟨hx, -⟩
  · exact Or.inr ⟨_, hx, hM c hc⟩
  · exact Or.inl hx

end Twins

/-! ## Numbers -/

section Numbers

variable {s s' : Text} {t : Bool}

theorem skipChar_foretells (s : Text) (t : Bool) (ch : UInt8) :
    Foretells ((s.watched t).skipChar ch) (s.reader.skipChar ch) :=
  (watched_skipChar s t ch).foretells (Scan.Le.refl _)

theorem readChar_foretells (s : Text) (t : Bool) :
    Foretells (s.watched t).readChar s.reader.readChar :=
  (watched_readChar s t).foretells (Scan.Le.refl _)

theorem misled_parts {c c' : Cursor} {v : CVal} (h : Past s.cb t c c')
    {r : CVal × Cursor} {c₁ : Cursor} (hr : misled s.cb t c.it v r)
    (hc₁ : kept s'.cb t c' c₁) : parts s.cb t r (v, c₁) := by
  refine ⟨hr.1, hr.2.imp_right fun ⟨hst, hlt⟩ => ⟨hst, ?_⟩⟩
  have heq := h.2.2 hst
  have heq' := hc₁.2 hst
  dsimp only
  omega

variable (hcontent : s.content = s'.content)

include hcontent

theorem past' {c c' : Cursor} (h : Past s.cb t c c') : s'.cb ≤ c'.it := by
  rw [cb_eq hcontent]
  exact h.2.1

/-- Numbers that end past the end. -/
theorem Rests.number_twinned {c c' : Cursor} {v : CVal} {x y z z' : Outcome (CVal × Cursor)}
    (hc : Past s.cb t c c') (h : Rests (kept s.cb t c) (misled s.cb t c.it v) v x z)
    (h' : Rests (kept s'.cb t c') (misled s'.cb t c'.it v) v y z') :
    Twinned s.cb (Rel s.cb t) (parts s.cb t) x y z := by
  have hcb := cb_eq hcontent
  refine h.twinned h' (fun c₁ c₁' h1 h2 => Or.inr ⟨h1.1, hcb ▸ h2.1, fun hst => ?_⟩)
    (fun c₁' h2 => hcb ▸ h2.1) fun r c₁' hr h2 => ?_
  · rw [h1.2 hst, h2.2 hst, hc.2.2 hst]
  · exact misled_parts hc hr h2

theorem parseSigns_twin {i j k : Nat} (h : i < j) (hk : i ≤ k) (neg : Bool) :
    Twin s.cb (Near s.cb) (Near s.cb) silent ((s.watched t).parseSigns i neg)
      ((s'.watched t).parseSigns j neg) (parseSigns s.reader k neg) := by
  have hcb := cb_eq hcontent
  induction i generalizing j k neg with
  | zero => exact Lock.timeout.twin
  | succ i ih =>
    obtain ⟨j, rfl⟩ := Nat.exists_eq_add_of_le' (Nat.lt_of_le_of_lt (Nat.zero_le _) h)
    obtain ⟨k, rfl⟩ := Nat.exists_eq_add_of_le' (Nat.lt_of_lt_of_le (Nat.zero_lt_succ i) hk)
    intro c c' hc
    rcases hc.cases with hin | ⟨hend, hend'⟩
    · refine peek_twin hcontent hin fun ch => asks_twin hcontent _ _ hin ?_
      refine Twin.ite (R := Inner s.cb) ?_ (Lock.pure _ fun _ _ h => h.near).twin c c' hin
      refine Lock.bind_twin (readChar_inside hcontent) (readChar_foretells s t) fun _ => ?_
      refine Lock.bind_twin (skipWhitespace_near hcontent) (fun _ _ h => h) fun _ => ?_
      exact ih (by omega) (by omega) _
    · exact (parseSigns_rests (Nat.le_of_eq hend.symm) neg i (k + 1)).still_twinned
        (parseSigns_rests (Nat.le_of_eq (hcb.trans hend'.symm)) neg j 0) hc
        (Nat.le_of_eq hend'.symm)

variable [Fpu]

theorem parseDigits_twin {i j k : Nat} (h : i < j) (hk : i ≤ k) (base : Nat) (st : NumState) :
    Twin s.cb (Near s.cb) (Near s.cb) silent ((s.watched t).parseDigits base i st)
      ((s'.watched t).parseDigits base j st) (parseDigits s.reader base k st) := by
  have hcb := cb_eq hcontent
  induction i generalizing j k st with
  | zero => exact Lock.timeout.twin
  | succ i ih =>
    obtain ⟨j, rfl⟩ := Nat.exists_eq_add_of_le' (Nat.lt_of_le_of_lt (Nat.zero_le _) h)
    obtain ⟨k, rfl⟩ := Nat.exists_eq_add_of_le' (Nat.lt_of_lt_of_le (Nat.zero_lt_succ i) hk)
    intro c c' hc
    rcases hc.cases with hin | ⟨hend, hend'⟩
    · have hread (st : NumState) := Lock.bind_twin (readChar_inside (t := t) hcontent)
        (readChar_foretells s t) fun _ => ih (j := j) (k := k) (by omega) (by omega) st
      refine peek_twin hcontent hin fun ch => asks_twin hcontent _ _ hin ?_
      refine Twin.ite (R := Inner s.cb) (hread _) (Twin.ite (hread _) ?_) c c' hin
      exact (Lock.pure _ fun _ _ h => h.near).twin
    · exact (parseDigits_rests (Nat.le_of_eq hend.symm) base st i (k + 1)).still_twinned
        (parseDigits_rests (Nat.le_of_eq (hcb.trans hend'.symm)) base st j 0) hc
        (Nat.le_of_eq hend'.symm)

variable (hroom : s.mem.length < 2 ^ 32) (hroom' : s'.mem.length < 2 ^ 32)

include hroom hroom'

theorem parseSuffix_twin {v : CVal} (hv : ∀ f u, v ≠ .measurement f u) :
    Twin s.cb (Near s.cb) (Rel s.cb t) (parts s.cb t)
      (parseSuffix (s.watched t).toReader v) (parseSuffix (s'.watched t).toReader v)
      (parseSuffix s.reader v) := by
  have hcb := cb_eq hcontent
  intro c c' hc
  rcases hc.cases with hin | ⟨hend, hend'⟩
  · have hpure (v : CVal) : Lock (Near s.cb) (Rel s.cb t) (pure v : Scan Cursor CVal) (pure v) :=
      Lock.pure v fun _ _ h => Or.inl h
    have hstep {l : Bytes} (hl : l ≠ []) (x : CVal) {no no' : Scan Cursor CVal}
        (hno : Lock (Near s.cb) (Rel s.cb t) no no') : Lock (Near s.cb) (Rel s.cb t)
        (do if ← (s.watched t).skipString l then pure x else no)
        (do if ← (s'.watched t).skipString l then pure x else no') :=
      Lock.bind (skipString_near hcontent hl) fun b => Lock.ite (hpure x) hno
    refine Or.inl (Lock.bind (skipChar_inside hcontent _) (fun b => Lock.ite (hpure _) ?_) c c' hin)
    exact hstep (by decide) _ (hstep (by decide) _ (hstep (by decide) _ (hstep (by decide) _
      (hstep (by decide) _ (hstep (by decide) _ (hpure v))))))
  · exact Rests.number_twinned hcontent (Past.of_end hend hend')
      (parseSuffix_rests hroom (Nat.le_of_eq hend.symm) (Nat.le_refl _) (Or.inr hend) hv)
      (parseSuffix_rests hroom' (Nat.le_of_eq (hcb.trans hend'.symm)) (Nat.le_refl _)
        (Or.inr (hend'.trans hcb.symm)) hv)

theorem parseMagnitude_twin {i j k : Nat} (h : i < j) (hk : i ≤ k) (neg : Bool) (base : Nat) :
    Twin s.cb (Near s.cb) (Rel s.cb t) (parts s.cb t)
      ((s.watched t).parseMagnitude i neg base) ((s'.watched t).parseMagnitude j neg base)
      (parseMagnitude s.reader k neg base) := by
  have hahead : Foretells ((s.watched t).parseDigits base i _)
      (parseDigits s.reader base k { u := 0, isFloat := false, fraction := 0 }) :=
    (parseDigits_guards s t base i _).foretells (parseDigits_le s.reader hk base _)
  refine Twin.bind (parseDigits_twin hcontent h hk base _) hahead (fun st => ?_) ?_
  · exact parseSuffix_twin hcontent hroom hroom' (toVal_ne_measurement st neg)
  · refine Parted.of_silent fun st c hc => ?_
    have hcb := cb_eq hcontent
    have hends := parseSuffix_ends (t := t) hroom' (hcb.symm ▸ hc) (st.toVal neg)
    rwa [hcb] at hends

theorem parsePrefixed_twin {i j k : Nat} (h : i + 1 < j) (hk : i + 1 ≤ k) (neg : Bool) :
    Twin s.cb (Near s.cb) (Rel s.cb t) (parts s.cb t)
      (parseBase (s.watched t).toReader >>= (s.watched t).parseMagnitude (i + 1) neg)
      (parseBase (s'.watched t).toReader >>= (s'.watched t).parseMagnitude j neg)
      (parseBase s.reader >>= parseMagnitude s.reader k neg) := by
  have hcb := cb_eq hcontent
  obtain ⟨j, rfl⟩ := Nat.exists_eq_add_of_le' (Nat.lt_of_le_of_lt (Nat.zero_le _) h)
  have hmagnitude := parseMagnitude_twin (t := t) hcontent hroom hroom' h hk neg
  intro c c' hc
  rcases hc.cases with hin | ⟨hend, hend'⟩
  · rw [parseBase_bind, parseBase_bind, parseBase_bind]
    refine Lock.bind_twin (skipChar_inside hcontent _) (skipChar_foretells s t _)
      (fun b => Twin.ite ?_ (hmagnitude 10)) c c' hin
    intro c c' hc
    rcases hc.cases with hin | ⟨hend, hend'⟩
    · exact Lock.bind_twin (skipChar_inside hcontent _) (skipChar_foretells s t _)
        (fun b => Twin.ite (hmagnitude 16) (hmagnitude 10)) c c' hin
    · exact Rests.number_twinned hcontent (Past.of_end hend hend')
        (parseX_rests hroom (Nat.le_of_eq hend.symm) (Nat.le_refl _) i k neg)
        (parseX_rests hroom' (Nat.le_of_eq (hcb.trans hend'.symm)) (Nat.le_refl _) j 0 neg)
  · exact Rests.number_twinned hcontent (Past.of_end hend hend')
      (parsePrefixed_rests hroom (Nat.le_of_eq hend.symm) (Nat.le_refl _) i k neg)
      (parsePrefixed_rests hroom' (Nat.le_of_eq (hcb.trans hend'.symm)) (Nat.le_refl _) j 0 neg)

/-- On two texts with one content `parseNumber` does the same unless it is misled. -/
theorem parseNumber_twin {i j k : Nat} (h : i < j) (hk : i ≤ k) :
    Twin s.cb (Rel s.cb t) (Rel s.cb t) (parts s.cb t)
      ((s.watched t).parseNumber i) ((s'.watched t).parseNumber j)
      (parseNumber s.reader k) := by
  have hcb := cb_eq hcontent
  cases i with
  | zero => exact Lock.timeout.twin
  | succ i =>
    obtain ⟨j, rfl⟩ := Nat.exists_eq_add_of_le' (Nat.lt_of_le_of_lt (Nat.zero_le _) h)
    intro c c' hc
    rcases hc.cases with hin | hpast
    · have hahead : Foretells ((s.watched t).parseSigns (i + 1) false)
          (parseSigns s.reader k false) :=
        (parseSigns_guards s t (i + 1) false).foretells (parseSigns_le s.reader hk false)
      refine Twin.bind (parseSigns_twin hcontent h hk false) hahead
        (fun neg => parsePrefixed_twin hcontent hroom hroom' h hk neg) ?_ c c' hin.near
      refine Parted.of_silent fun neg c hc => ?_
      have hrests := parsePrefixed_rests (t := t) hroom' (hcb.symm ▸ hc) (Nat.le_refl _) j 0
        neg
      exact hrests.ends fun c₁ hc₁ => hcb ▸ hc₁.1
    · exact Rests.number_twinned hcontent hpast (parseNumber_rests hroom hpast.1 i k)
        (parseNumber_rests hroom' (past' hcontent hpast) j 0)

end Numbers

/-! ## The loop over elements -/

section Elements

/-- What follows an element: another one behind a comma. -/
def elementSep {σ : Type} (r : Reader σ) (loop : List CVal → Scan σ (List CVal))
    (vec : List CVal) : Scan σ (List CVal) := do
  let sep ← r.peekChar
  if sep = ','.toNat then
    let _ ← r.readChar
    loop vec
  else pure vec

def nextElement {σ : Type} (r : Reader σ) (k : Nat) (loop : List CVal → Scan σ (List CVal))
    (vec : List CVal) (element : CVal) : Scan σ (List CVal) := do
  skipWhitespaceAndComments r k false
  elementSep r loop (vec ++ [element])

def Watch.nextElement {σ : Type} (w : Watch σ) (k : Nat)
    (loop : List CVal → Scan σ (List CVal)) (vec : List CVal) (element : CVal) :
    Scan σ (List CVal) := do
  w.skipWhitespaceAndComments k false
  elementSep w.toReader loop (vec ++ [element])

variable {s s' : Text} {c : Cursor} {f g : List CVal → Scan Cursor (List CVal)}

theorem skipWhitespaceAndComments_foretells (s : Text) {i k : Nat} (hk : i ≤ k) :
    Foretells ((s.watched false).skipWhitespaceAndComments i false)
      (skipWhitespaceAndComments s.reader k false) :=
  (skipWhitespaceAndComments_guards s false i false).foretells
    (skipWhitespaceAndComments_le s.reader hk false)

theorem elementSep_rests (h : s.cb ≤ c.it) {vec : List CVal}
    (hloop : Rests (still c) never vec (f vec c) (g vec c)) : Rests (still c) never vec
      (elementSep (s.watched false).toReader f vec c) (elementSep s.reader g vec c) := by
  refine peek_rests h fun ch => ?_
  split
  next =>
    rw [Scan.bind_apply, Scan.bind_apply, watched_readChar_past h, Text.readChar_past h]
    exact hloop
  next => exact Rests.done rfl

theorem nextElement_rests (h : s.cb ≤ c.it) (n k : Nat) {vec : List CVal} {element : CVal}
    (hloop : Rests (still c) never (vec ++ [element]) (f (vec ++ [element]) c)
      (g (vec ++ [element]) c)) : Rests (still c) never (vec ++ [element])
      ((s.watched false).nextElement (n + 1) f vec element c)
      (nextElement s.reader k g vec element c) := by
  refine (skipWhitespaceAndComments_rests h n k).bind (fun c₁ hc₁ => ?_) fun _ hr => hr.elim
  rw [show c₁ = c from hc₁]
  exact elementSep_rests h hloop

variable (hcontent : s.content = s'.content)

include hcontent

theorem readChar_rel : Lock (Rel s.cb false) (Rel s.cb false) (s.watched false).readChar
    (s'.watched false).readChar := by
  intro c c' hc
  rcases hc.cases with hin | hpast
  · exact (readChar_inside hcontent c c' hin).mono fun _ _ h => Or.inl h
  · rw [watched_readChar_past hpast.1, watched_readChar_past (past' hcontent hpast)]
    exact Locked.done hc

theorem skipWhitespaceAndComments_twin {i j k : Nat} (h : i < j) :
    Twin s.cb (Rel s.cb false) (Rel s.cb false) silent
      ((s.watched false).skipWhitespaceAndComments i false)
      ((s'.watched false).skipWhitespaceAndComments j false)
      (skipWhitespaceAndComments s.reader k false) := by
  cases i with
  | zero => exact Lock.timeout.twin
  | succ i =>
    obtain ⟨j, rfl⟩ := Nat.exists_eq_add_of_le' (Nat.lt_of_le_of_lt (Nat.zero_le _) h)
    intro c c' hc
    rcases hc.cases with hin | hpast
    · have hlock := skipWhitespaceAndComments_lock (t := false) hcontent h false c c' hin.near
      exact Or.inl (hlock.mono fun _ _ h => Or.inl h)
    · exact (skipWhitespaceAndComments_rests hpast.1 i k).still_twinned
        (skipWhitespaceAndComments_rests (past' hcontent hpast) j 0) hc hpast.2.1

theorem beforeEnd_twin {α : Type} {t : Bool} {R : Cursor → Cursor → Prop} {D : Differ α}
    {m m' p : Scan Cursor α} {x : α} {c c' : Cursor} (hin : Inner s.cb c c')
    (h : Twinned s.cb R D (m c) (m' c') (p c)) :
    Twinned s.cb R D ((do if ← (s.watched t).beforeEnd then m else pure x) c)
      ((do if ← (s'.watched t).beforeEnd then m' else pure x) c')
      ((do if ← s.reader.beforeEnd then p else pure x) c) := by
  obtain ⟨heq, hlt⟩ := hin
  have hp : s.reader.beforeEnd c = .done (true, c) := beforeEnd_inside (t := t) hlt
  have hlt' : c'.it < s'.cb := by
    rw [← heq, cb_eq hcontent]
    exact hlt
  rw [Scan.bind_apply, Scan.bind_apply, Scan.bind_apply, beforeEnd_inside hlt,
    beforeEnd_inside hlt', hp]
  exact h

/-- The first run may have no fuel left for a comma past the end. -/
theorem elementSep_twin {f' : List CVal → Scan Cursor (List CVal)} {D : Differ (List CVal)}
    {vec : List CVal} (hloop : Twin s.cb (Rel s.cb false) (Rel s.cb false) D (f vec) (f' vec)
      (g vec)) (hrests : ∀ c, s.cb ≤ c.it → f vec c = .timeout ∨
        Rests (still c) never vec (f vec c) (g vec c))
    (hrests' : ∀ c, s'.cb ≤ c.it → Rests (still c) never vec (f' vec c) .timeout) :
    Twin s.cb (Rel s.cb false) (Rel s.cb false) D (elementSep (s.watched false).toReader f vec)
      (elementSep (s'.watched false).toReader f' vec) (elementSep s.reader g vec) := by
  intro c c' hc
  rcases hc.cases with hin | hpast
  · refine peek_twin hcontent hin fun ch => Twin.ite (R := Inner s.cb) ?_ ?_ c c' hin
    · refine Lock.bind_twin (readChar_inside hcontent) (readChar_foretells s false) fun _ => ?_
      exact hloop.restrict fun _ _ h => Or.inl h
    · exact (Lock.pure _ fun _ _ h => Or.inl h.near).twin
  · have hend' := past' hcontent hpast
    have hrest' : Rests (still c') never vec (elementSep (s'.watched false).toReader f' vec c')
        (elementSep s'.reader (fun _ => Scan.timeout) vec c') :=
      elementSep_rests hend' (hrests' c' hend')
    rcases hrests c hpast.1 with htimeout | hrest
    · have hx : elementSep (s.watched false).toReader f vec c = .timeout ∨
          Rests (still c) never vec (elementSep (s.watched false).toReader f vec c)
            (elementSep s.reader g vec c) := by
        simp only [elementSep, Scan.bind_apply, watched_peekChar_past hpast.1]
        rcases peekChar_ends s c with hp | ⟨ch, hp⟩
        · rw [hp]
          exact Or.inr Rests.fault
        · rw [hp, Outcome.bind_done, Outcome.bind_done]
          split
          next =>
            rw [Scan.bind_apply, watched_readChar_past hpast.1]
            exact Or.inl htimeout
          next => exact Or.inr (Rests.done rfl)
      rcases hx with hx | hx
      · exact Or.inl (Or.inl hx)
      · exact hx.still_twinned hrest' hc hpast.2.1
    · exact (elementSep_rests hpast.1 hrest).still_twinned hrest' hc hpast.2.1

/-- What follows an element is the same on both sides. -/
theorem nextElement_twin {f' : List CVal → Scan Cursor (List CVal)} {m n l : Nat} (hm : m < n)
    (hl : m ≤ l) {vec : List CVal} {element : CVal}
    (hloop : Twin s.cb (Rel s.cb false) (Rel s.cb false) (differs s.cb id) (f (vec ++ [element]))
      (f' (vec ++ [element])) (g (vec ++ [element])))
    (hrests : ∀ c, s.cb ≤ c.it → f (vec ++ [element]) c = .timeout ∨
      Rests (still c) never (vec ++ [element]) (f (vec ++ [element]) c) (g (vec ++ [element]) c))
    (hrests' : ∀ c, s'.cb ≤ c.it →
      Rests (still c) never (vec ++ [element]) (f' (vec ++ [element]) c) .timeout) :
    Twin s.cb (Rel s.cb false) (Rel s.cb false) (differs s.cb id)
      ((s.watched false).nextElement m f vec element)
      ((s'.watched false).nextElement n f' vec element) (nextElement s.reader l g vec element) := by
  have hcb := cb_eq hcontent
  refine Twin.bind (skipWhitespaceAndComments_twin hcontent hm)
    (skipWhitespaceAndComments_foretells s hl)
    (fun _ => elementSep_twin hcontent hloop hrests hrests') ?_
  refine Parted.of_silent fun _ c hc => ?_
  have hrest : Rests (still c) never (vec ++ [element]) _
      (elementSep s'.reader (fun _ => Scan.timeout) (vec ++ [element]) c) :=
    elementSep_rests (hcb.symm ▸ hc) (hrests' c (hcb.symm ▸ hc))
  exact hrest.ends fun c₁ hc₁ => hc₁ ▸ hc

theorem parseElements_twin {value valueI valueP value' : Scan Cursor CVal}
    (hv : Twin s.cb (Rel s.cb false) (Rel s.cb false) (differs s.cb id) value value' valueP)
    (hg : Guards value valueI) (hle : valueI.Le valueP) {i j k m n l : Nat} (h : i < j)
    (hk : i ≤ k) (hm : m < n) (hl : m ≤ l) (vec : List CVal) :
    Twin s.cb (Rel s.cb false) (Rel s.cb false) (differs s.cb id)
      ((s.watched false).parseElements value m i vec)
      ((s'.watched false).parseElements value' n j vec)
      (parseElements s.reader valueP l k vec) := by
  have hcb := cb_eq hcontent
  induction i generalizing j k vec with
  | zero => exact Lock.timeout.twin
  | succ i ih =>
    obtain ⟨j, rfl⟩ := Nat.exists_eq_add_of_le' (Nat.lt_of_le_of_lt (Nat.zero_le _) h)
    obtain ⟨k, rfl⟩ := Nat.exists_eq_add_of_le' (Nat.lt_of_lt_of_le (Nat.zero_lt_succ i) hk)
    obtain ⟨n, rfl⟩ := Nat.exists_eq_add_of_le' (Nat.lt_of_le_of_lt (Nat.zero_le _) hm)
    obtain ⟨j, rfl⟩ := Nat.exists_eq_add_of_le' (show 0 < j by omega)
    have hrests' (vec : List CVal) (c : Cursor) (hc : s'.cb ≤ c.it) : Rests (still c) never vec
        ((s'.watched false).parseElements value' (n + 1) (j + 1) vec c) .timeout :=
      (parseElements_rests (g := valueP) hc (n + 1) 0 j 0 vec).alone
    have hrests (vec : List CVal) (c : Cursor) (hc : s.cb ≤ c.it) :
        (s.watched false).parseElements value m i vec c = .timeout ∨ Rests (still c) never vec
          ((s.watched false).parseElements value m i vec c)
          (parseElements s.reader valueP l k vec c) := by
      cases i with
      | zero => exact Or.inl rfl
      | succ i => exact Or.inr (parseElements_rests hc m l i k vec)
    intro c c' hc
    rcases hc.cases with hin | hpast
    · refine peek_twin hcontent hin fun ch => Twin.ite (R := Inner s.cb) ?_ ?_ c c' hin
      · exact (Lock.pure _ fun _ _ h => Or.inl h.near).twin
      · intro c c' hin
        refine beforeEnd_twin hcontent hin (Twin.bind hv (hg.foretells hle) (fun element =>
          nextElement_twin hcontent hm hl (ih (by omega) (by omega) _) (hrests _) (hrests' _)) ?_
          c c' (Or.inl hin.near))
        refine Parted.of_rests (fun element => vec ++ [element]) (fun element c hc => ?_)
          (fun element c hc => ?_) fun r r₀ hr => ⟨hr.1, fun he => hr.2 ?_⟩
        · exact ⟨_, (nextElement_rests (g := fun _ => Scan.timeout) (hcb.symm ▸ hc) n 0
            (hrests' _ c (hcb.symm ▸ hc))).mono (fun c₁ hc₁ => hc₁ ▸ hc) fun _ h => h⟩
        · have hloop := parseElements_rests (t := false) (f := value) (g := valueP) hc 0 l
            0 k (vec ++ [element])
          exact ⟨_, (nextElement_rests hc 0 l hloop).mono (fun c₁ hc₁ => hc₁ ▸ hc) fun _ h => h⟩
        · simpa using he
    · exact (parseElements_rests hpast.1 m l i (k + 1) vec).still_twinned
        (parseElements_rests (g := valueP) (past' hcontent hpast) (n + 1) 0 (j + 1) 0 vec) hc
        hpast.2.1

end Elements

/-! ## The loop over fields -/

section Fields

abbrev Fields := List (Bytes × CVal)

/-- What follows the value of a field. -/
def nextField {σ : Type} (r : Reader σ) (json : Bool) (k : Nat)
    (loop : Fields → Scan σ (Fields × Bool)) (fields : Fields) (name : Bytes) (fieldValue : CVal) :
    Scan σ (Fields × Bool) := do
  skipWhitespaceAndComments r k false
  skipFieldComma r json
  loop (OrderedMap.assign name fieldValue fields)

def Watch.nextField {σ : Type} (w : Watch σ) (json : Bool) (k : Nat)
    (loop : Fields → Scan σ (Fields × Bool)) (fields : Fields) (name : Bytes) (fieldValue : CVal) :
    Scan σ (Fields × Bool) := do
  w.skipWhitespaceAndComments k false
  skipFieldComma w.toReader json
  loop (OrderedMap.assign name fieldValue fields)

/-- What follows the name of a field. -/
def fieldNamed {σ : Type} (r : Reader σ) (json : Bool) (value : Scan σ CVal) (k : Nat)
    (loop : Fields → Scan σ (Fields × Bool)) (fields : Fields) (name : Bytes) :
    Scan σ (Fields × Bool) := do
  if name = [] then pure (fields, true) else
  skipWhitespaceAndComments r k false
  let colon ← r.readChar
  if colon ≠ ':'.toNat then pure (fields, true) else
  let fieldValue ← value
  nextField r json k loop fields name fieldValue

def Watch.fieldNamed {σ : Type} (w : Watch σ) (json : Bool) (value : Scan σ CVal) (k : Nat)
    (loop : Fields → Scan σ (Fields × Bool)) (fields : Fields) (name : Bytes) :
    Scan σ (Fields × Bool) := do
  if name = [] then pure (fields, true) else
  w.skipWhitespaceAndComments k false
  let colon ← w.readChar
  if colon ≠ ':'.toNat then pure (fields, true) else
  let fieldValue ← value
  w.nextField json k loop fields name fieldValue

variable {s s' : Text} {c : Cursor} {f g : Fields → Scan Cursor (Fields × Bool)}

theorem parseString_foretells (s : Text) {i k : Nat} (hk : i ≤ k) :
    Foretells ((s.watched false).parseString i) (parseString s.reader k) :=
  (parseString_guards s false i).foretells (parseString_le s.reader hk)

theorem skipFieldComma_foretells (s : Text) (json : Bool) :
    Foretells (skipFieldComma (s.watched false).toReader json) (skipFieldComma s.reader json) :=
  (skipFieldComma_guards s false json).foretells (Scan.Le.refl _)

theorem nextField_rests (h : s.cb ≤ c.it) (hroom : s.mem.length < 2 ^ 32) (json : Bool) (n k : Nat)
    {fields : Fields} {name : Bytes} {fieldValue : CVal}
    (hloop : ∀ fields c, s.cb ≤ c.it →
      Rests (still c) never (fields, false) (f fields c) (g fields c)) :
    Rests (s.cb ≤ ·.it) never (OrderedMap.assign name fieldValue fields, false)
      ((s.watched false).nextField json (n + 1) f fields name fieldValue c)
      (nextField s.reader json k g fields name fieldValue c) := by
  refine (skipWhitespaceAndComments_rests h n k).bind (fun c₁ hc₁ => ?_) fun _ hr => hr.elim
  rw [show c₁ = c from hc₁]
  refine (skipFieldComma_rests hroom h json).bind (fun c₁ hc₁ => ?_) fun _ hr => hr.elim
  exact (hloop _ c₁ hc₁).mono (fun c₂ hc₂ => hc₂ ▸ hc₁) fun _ h => h

variable (hcontent : s.content = s'.content) (hroom : s.mem.length < 2 ^ 32)
  (hroom' : s'.mem.length < 2 ^ 32)

include hcontent

theorem skipFieldComma_inside (json : Bool) : Lock (Inner s.cb) (Near s.cb)
    (skipFieldComma (s.watched false).toReader json)
    (skipFieldComma (s'.watched false).toReader json) := by
  refine Lock.ite (Lock.bind (skipChar_inside hcontent _) fun b => Lock.ite ?_ ?_) ?_
  · exact skipWhitespace_near hcontent
  · exact Lock.pure _ fun _ _ h => h
  · exact Lock.pure _ fun _ _ h => h.near

include hroom hroom'

theorem skipFieldComma_twin (json : Bool) : Twin s.cb (Rel s.cb false) (Rel s.cb false) silent
    (skipFieldComma (s.watched false).toReader json)
    (skipFieldComma (s'.watched false).toReader json) (skipFieldComma s.reader json) := by
  have hcb := cb_eq hcontent
  intro c c' hc
  rcases hc.cases with hin | hpast
  · exact Or.inl ((skipFieldComma_inside hcontent json c c' hin).mono fun _ _ h => Or.inl h)
  · refine (skipFieldComma_rests hroom hpast.1 json).twinned
      (skipFieldComma_rests hroom' (past' hcontent hpast) json) (fun c₁ c₁' h1 h2 => ?_)
      (fun c₁ h => hcb ▸ h) fun _ _ h => h.elim
    exact Or.inr ⟨h1, hcb ▸ h2, nofun⟩

section Loop

variable {e f' g' : Fields → Scan Cursor (Fields × Bool)}
  (hloop : ∀ fields, Twin s.cb (Rel s.cb false) (Rel s.cb false) (differs s.cb Prod.fst) (f fields)
    (f' fields) (g fields))
  (hrests : ∀ fields c, s.cb ≤ c.it →
    Rests (still c) never (fields, false) (e fields c) (g fields c))
  (hrests' : ∀ fields c, s'.cb ≤ c.it →
    Rests (still c) never (fields, false) (f' fields c) (g' fields c))

include hloop hrests'

theorem nextField_twin {m n l : Nat} (hm : m < n) (hl : m ≤ l) (json : Bool) (fields : Fields)
    (name : Bytes) (fieldValue : CVal) :
    Twin s.cb (Rel s.cb false) (Rel s.cb false) (differs s.cb Prod.fst)
      ((s.watched false).nextField json m f fields name fieldValue)
      ((s'.watched false).nextField json n f' fields name fieldValue)
      (nextField s.reader json l g fields name fieldValue) := by
  have hcb := cb_eq hcontent
  refine Twin.bind (skipWhitespaceAndComments_twin hcontent hm)
    (skipWhitespaceAndComments_foretells s hl) (fun _ => ?_) ?_
  · refine Twin.bind (skipFieldComma_twin hcontent hroom hroom' json)
      (skipFieldComma_foretells s json) (fun _ => hloop _) (Parted.of_silent fun _ c hc => ?_)
    exact (hrests' _ c (hcb.symm ▸ hc)).ends fun c₁ hc₁ => hc₁ ▸ hc
  · refine Parted.of_silent fun _ c hc => ?_
    have hrest : Rests (s'.cb ≤ ·.it) never (OrderedMap.assign name fieldValue fields, false)
        ((skipFieldComma (s'.watched false).toReader json >>= fun _ =>
          f' (OrderedMap.assign name fieldValue fields)) c)
        ((skipFieldComma s'.reader json >>= fun _ => g' (OrderedMap.assign name fieldValue fields))
          c) :=
      (skipFieldComma_rests hroom' (hcb.symm ▸ hc) json).bind (fun c₁ hc₁ =>
        (hrests' _ c₁ hc₁).mono (fun c₂ hc₂ => hc₂ ▸ hc₁) fun _ h => h) fun _ hr => hr.elim
    exact hrest.ends fun c₁ hc₁ => hcb ▸ hc₁

variable {value valueI valueP value' : Scan Cursor CVal}
  (hv : Twin s.cb (Rel s.cb false) (Rel s.cb false) (differs s.cb id) value value' valueP)
  (hg : Guards value valueI) (hle : valueI.Le valueP)

include hrests hv hg hle

theorem fieldNamed_twin {m n l : Nat} (hm : m < n) (hl : m ≤ l) (json : Bool) (fields : Fields)
    (name : Bytes) : Twin s.cb (Near s.cb) (Rel s.cb false) (differs s.cb Prod.fst)
      ((s.watched false).fieldNamed json value m f fields name)
      ((s'.watched false).fieldNamed json value' n f' fields name)
      (fieldNamed s.reader json valueP l g fields name) := by
  have hcb := cb_eq hcontent
  have hearly : Twin s.cb (Near s.cb) (Rel s.cb false) (differs s.cb Prod.fst)
      (pure (fields, true) : Scan Cursor (Fields × Bool)) (pure (fields, true))
      (pure (fields, true)) := (Lock.pure _ fun _ _ h => Or.inl h).twin
  obtain ⟨n, rfl⟩ := Nat.exists_eq_add_of_le' (Nat.lt_of_le_of_lt (Nat.zero_le _) hm)
  refine Twin.ite hearly ?_
  refine Lock.bind_twin (skipWhitespaceAndComments_lock hcontent hm false)
    (skipWhitespaceAndComments_foretells s hl) fun _ => ?_
  refine Lock.bind_twin (readChar_near hcontent) (readChar_foretells s false) fun colon => ?_
  refine Twin.ite hearly (Twin.bind (hv.restrict fun _ _ h => Or.inl h) (hg.foretells hle)
    (nextField_twin hcontent hroom hroom' hloop hrests' hm hl json fields name) ?_)
  refine Parted.of_rests (fun v => (OrderedMap.assign name v fields, false)) (fun v c hc => ?_)
    (fun v c hc => ?_) fun r r₀ hr => ⟨hr.1, fun he => hr.2 ?_⟩
  · exact ⟨_, (nextField_rests (hcb.symm ▸ hc) hroom' json n 0 hrests').mono
      (fun c₁ hc₁ => hcb ▸ hc₁) fun _ h => h⟩
  · exact ⟨_, nextField_rests hc hroom json 0 l hrests⟩
  · exact OrderedMap.assign_injective name fields he

/-- A name that starts at the end is empty, and the map ends. -/
theorem fieldName_twin {m n l : Nat} (hm : m + 1 < n) (hl : m + 1 ≤ l) (json : Bool)
    (fields : Fields) : Twin s.cb (Near s.cb) (Rel s.cb false) (differs s.cb Prod.fst)
      ((s.watched false).parseString (m + 1) >>=
        (s.watched false).fieldNamed json value (m + 1) f fields)
      ((s'.watched false).parseString n >>= (s'.watched false).fieldNamed json value' n f' fields)
      (parseString s.reader l >>= fieldNamed s.reader json valueP l g fields) := by
  have hcb := cb_eq hcontent
  intro c c' hc
  rcases hc.cases with hin | ⟨hend, hend'⟩
  · exact Lock.bind_twin (parseString_inside hcontent hm) (parseString_foretells s hl)
      (fieldNamed_twin hcontent hroom hroom' hloop hrests hrests' hv hg hle hm hl json fields) c c'
      hin
  · obtain ⟨n, rfl⟩ := Nat.exists_eq_add_of_le' (Nat.lt_of_le_of_lt (Nat.zero_le _) hm)
    have hrest : Rests (still c) never (fields, true)
        (((s.watched false).parseString (m + 1) >>=
          (s.watched false).fieldNamed json value (m + 1) f fields) c)
        ((parseString s.reader l >>= fieldNamed s.reader json valueP l g fields) c) :=
      (parseString_rests (Nat.le_of_eq hend.symm) m l).bind (fun c₁ hc₁ => Rests.done hc₁)
        fun _ hr => hr.elim
    have hrest' : Rests (still c') never (fields, true)
        (((s'.watched false).parseString (n + 1) >>=
          (s'.watched false).fieldNamed json value' (n + 1) f' fields) c')
        ((parseString s'.reader 0 >>= fieldNamed s'.reader json valueP 0 g' fields) c') :=
      (parseString_rests (Nat.le_of_eq (hcb.trans hend'.symm)) n 0).bind
        (fun c₁ hc₁ => Rests.done hc₁) fun _ hr => hr.elim
    exact hrest.still_twinned hrest' (Or.inl hc) (Nat.le_of_eq hend'.symm)

end Loop

/-- The fields so far differ where a value differs. -/
theorem parseFields_twin {value valueI valueP value' : Scan Cursor CVal}
    (hv : Twin s.cb (Rel s.cb false) (Rel s.cb false) (differs s.cb id) value value' valueP)
    (hg : Guards value valueI) (hle : valueI.Le valueP) {i j k m n l : Nat} (h : i < j)
    (hk : i ≤ k) (hm : m + 1 < n) (hl : m + 1 ≤ l) (json : Bool) (fields : Fields) :
    Twin s.cb (Rel s.cb false) (Rel s.cb false) (differs s.cb Prod.fst)
      ((s.watched false).parseFields json value (m + 1) i fields)
      ((s'.watched false).parseFields json value' n j fields)
      (parseFields s.reader json valueP l k fields) := by
  induction i generalizing j k fields with
  | zero => exact Lock.timeout.twin
  | succ i ih =>
    obtain ⟨j, rfl⟩ := Nat.exists_eq_add_of_le' (Nat.lt_of_le_of_lt (Nat.zero_le _) h)
    obtain ⟨k, rfl⟩ := Nat.exists_eq_add_of_le' (Nat.lt_of_lt_of_le (Nat.zero_lt_succ i) hk)
    obtain ⟨j, rfl⟩ := Nat.exists_eq_add_of_le' (show 0 < j by omega)
    have hname := fieldName_twin hcontent hroom hroom'
      (fun fields => ih (by omega) (by omega) fields)
      (fun fields c hc => parseFields_rests (t := false) (f := value) hc json 0 l 0 k fields)
      (fun fields c hc => parseFields_rests (g := valueP) hc json n 0 j 0 fields)
      hv hg hle hm hl json fields
    intro c c' hc
    rcases hc.cases with hin | hpast
    · refine peek_twin hcontent hin fun ch => Twin.ite (R := Inner s.cb) ?_ ?_ c c' hin
      · exact (Lock.pure _ fun _ _ h => Or.inl h.near).twin
      · intro c c' hin
        exact beforeEnd_twin hcontent hin (Lock.bind_twin
          (skipWhitespaceAndComments_lock hcontent hm false)
          (skipWhitespaceAndComments_foretells s hl) (fun _ => hname) c c' hin.near)
    · exact (parseFields_rests hpast.1 json (m + 1) l i (k + 1) fields).still_twinned
        (parseFields_rests (g := valueP) (past' hcontent hpast) json n 0 (j + 1) 0 fields) hc
        hpast.2.1

end Fields

/-! ## The implicit array -/

section Implicit

variable {s s' : Text} (hcontent : s.content = s'.content)

theorem skipSpacesAndTabs_foretells (s : Text) {i k : Nat} (hk : i ≤ k) :
    Foretells (skipSpacesAndTabs (s.watched false).toReader i) (skipSpacesAndTabs s.reader k) :=
  (skipSpacesAndTabs_guards s false i).foretells (skipSpacesAndTabs_le s.reader hk)

theorem array_injective {v elem elem' : CVal}
    (h : Val.array (asElements v ++ [elem]) = Val.array (asElements v ++ [elem'])) :
    elem = elem' := by
  simpa using h

variable [Fpu]

include hcontent

theorem parseImplicit_twin {value value' : Scan Cursor CVal} (flags : Flags) (p : Nat)
    (hv : Twin s.cb (Rel s.cb false) (Rel s.cb false) (differs s.cb id) value value'
      (parse s.reader p flags)) (hf : Foretells value (parse s.reader p flags)) {i j k m n l : Nat}
    (h : i < j) (hk : i ≤ k) (hm : m + 1 < n) (hl : m + 1 ≤ l) (v : CVal) :
    Twin s.cb (Rel s.cb false) (Rel s.cb false) (differs s.cb id)
      ((s.watched false).parseImplicit value (m + 1) i v)
      ((s'.watched false).parseImplicit value' n j v)
      (parseImplicit s.reader (parse s.reader p flags) l k v) := by
  have hcb := cb_eq hcontent
  induction i generalizing j k v with
  | zero => exact Lock.timeout.twin
  | succ i ih =>
    obtain ⟨j, rfl⟩ := Nat.exists_eq_add_of_le' (Nat.lt_of_le_of_lt (Nat.zero_le _) h)
    obtain ⟨k, rfl⟩ := Nat.exists_eq_add_of_le' (Nat.lt_of_lt_of_le (Nat.zero_lt_succ i) hk)
    obtain ⟨n, rfl⟩ := Nat.exists_eq_add_of_le' (Nat.lt_of_le_of_lt (Nat.zero_le _) hm)
    obtain ⟨l, rfl⟩ := Nat.exists_eq_add_of_le' (Nat.lt_of_lt_of_le (Nat.zero_lt_succ m) hl)
    obtain ⟨j, rfl⟩ := Nat.exists_eq_add_of_le' (show 0 < j by omega)
    have hloop (v : CVal) := ih (j := j + 1) (k := k) (by omega) (by omega) v
    have hparted : Parted s.cb (differs s.cb id) (differs s.cb id)
        (fun elem => (s'.watched false).parseImplicit value' (n + 1) (j + 1)
          (.array (asElements v ++ [elem])))
        (fun elem => parseImplicit s.reader (parse s.reader p flags) (l + 1) k
          (.array (asElements v ++ [elem]))) := by
      refine Parted.of_rests (fun elem => .array (asElements v ++ [elem])) (fun elem c hc => ?_)
        (fun elem c hc => ?_) fun r r₀ hr => ⟨hr.1, fun he => hr.2 ?_⟩
      · exact ⟨_, (parseImplicit_rests (hcb.symm ▸ hc) flags 0 n j 0 0 _).mono
          (fun c₁ hc₁ => hc₁ ▸ hc) fun _ h => h⟩
      · have hrest := parseImplicit_rests (t := false) (f := value) hc flags p 0 0 (l + 1) k
          (.array (asElements v ++ [elem]))
        exact ⟨_, hrest.mono (fun c₁ hc₁ => hc₁ ▸ hc) fun _ h => h⟩
      · exact array_injective he
    intro c c' hc
    rcases hc.cases with hin | hpast
    · refine Lock.bind_twin (skipSpacesAndTabs_lock hcontent hm) (skipSpacesAndTabs_foretells s hl)
        (fun _ => ?_) c c' hin.near
      intro c c' hc
      rcases hc.cases with hin | ⟨hend, hend'⟩
      · refine peek_twin hcontent hin fun ch => asks_twin hcontent _ _ hin ?_
        refine Twin.ite (R := Inner s.cb) (Lock.pure _ fun _ _ h => Or.inl h.near).twin ?_ c c' hin
        exact Twin.bind (hv.restrict fun _ _ h => Or.inl h.near) hf (fun elem => hloop _) hparted
      · exact (implicitStep_rests (Nat.le_of_eq hend.symm) flags p l k v).still_twinned
          (implicitStep_rests (Nat.le_of_eq (hcb.trans hend'.symm)) flags 0 0 0 v) (Or.inl hc)
          (Nat.le_of_eq hend'.symm)
    · exact (parseImplicit_rests hpast.1 flags p m i (l + 1) (k + 1) v).still_twinned
        (parseImplicit_rests (past' hcontent hpast) flags 0 n (j + 1) 0 0 v) hc hpast.2.1

end Implicit

/-! ## Values -/

section Values

def closeMap {σ : Type} (r : Reader σ) (rest : CVal → Scan σ CVal) (fields : Fields × Bool) :
    Scan σ CVal := do
  if fields.2 then pure (.map fields.1) else
  let _ ← r.readChar
  rest (.map fields.1)

def closeArray {σ : Type} (r : Reader σ) (rest : CVal → Scan σ CVal) (vec : List CVal) :
    Scan σ CVal := do
  let _ ← r.skipChar (UInt8.ofNat ']'.toNat)
  rest (.array vec)

variable {s s' : Text} {c : Cursor} {f g : CVal → Scan Cursor CVal}

theorem closeMap_rests (h : s.cb ≤ c.it) (hrest : ∀ v, Rests (still c) never v (f v c) (g v c))
    (fields : Fields × Bool) : Rests (still c) never (.map fields.1)
      (closeMap (s.watched false).toReader f fields c) (closeMap s.reader g fields c) := by
  unfold closeMap
  split
  next => exact Rests.done rfl
  next =>
    rw [Scan.bind_apply, Scan.bind_apply, watched_readChar_past h, Text.readChar_past h]
    exact hrest _

/-- A bracket past the end is skipped, though nothing comes of it. -/
theorem closeArray_rests (hroom : s.mem.length < 2 ^ 32) (h : s.cb ≤ c.it)
    (hrest : ∀ v c, s.cb ≤ c.it → Rests (still c) never v (f v c) (g v c)) (vec : List CVal) :
    Rests (s.cb ≤ ·.it) never (.array vec) (closeArray (s.watched false).toReader f vec c)
      (closeArray s.reader g vec c) := by
  have hstay {c₁ : Cursor} (hc₁ : s.cb ≤ c₁.it) :=
    (hrest (.array vec) c₁ hc₁).mono (N := (s.cb ≤ ·.it)) (fun c₂ hc₂ => hc₂ ▸ hc₁) fun _ h => h
  simp only [closeArray, Scan.bind_apply]
  rcases skipChar_probes (t := false) hroom h (UInt8.ofNat ']'.toNat) with
    ⟨hx, hz⟩ | ⟨hx, hz⟩ | ⟨c₁, hlt, hz, ⟨hs, hx⟩ | ⟨-, hx⟩⟩
  · rw [hx, hz]
    exact Rests.fault
  · rw [hx, hz]
    exact hstay h
  · exact absurd hs (by decide)
  · rw [hx, hz]
    exact hstay (Nat.le_of_lt (Nat.lt_of_le_of_lt h hlt))

theorem parseKeyword_end {r : Reader Cursor} (hr : ∀ l, l ≠ [] →
    r.skipString l c = .done (false, c)) (ch : Nat) : parseKeyword r ch c = .done (none, c) := by
  unfold parseKeyword
  split
  next =>
    rw [Scan.bind_apply, hr _ (by decide)]
    rfl
  next =>
    split
    next =>
      rw [Scan.bind_apply, hr _ (by decide)]
      rfl
    next =>
      split
      next =>
        rw [Scan.bind_apply, hr _ (by decide)]
        rfl
      next => rfl

theorem parseKeyword_foretells (s : Text) (ch : Nat) :
    Foretells (parseKeyword (s.watched false).toReader ch) (parseKeyword s.reader ch) :=
  (parseKeyword_guards s false ch).foretells (Scan.Le.refl _)

theorem parseKeyword_near (hcontent : s.content = s'.content) (ch : Nat) :
    Lock (Near s.cb) (Near s.cb) (parseKeyword (s.watched false).toReader ch)
      (parseKeyword (s'.watched false).toReader ch) := by
  have hpure (v : Option CVal) : Lock (Near s.cb) (Near s.cb) (pure v : Scan Cursor (Option CVal))
      (pure v) := Lock.pure v fun _ _ h => h
  have hword {l : Bytes} (hl : l ≠ []) (v : CVal) : Lock (Near s.cb) (Near s.cb)
      (do if ← (s.watched false).skipString l then pure (some v) else pure none)
      (do if ← (s'.watched false).skipString l then pure (some v) else pure none) :=
    Lock.bind (skipString_near hcontent hl) fun b => Lock.ite (hpure _) (hpure _)
  exact Lock.ite (hword (by decide) _) (Lock.ite (hword (by decide) _)
    (Lock.ite (hword (by decide) _) (hpure none)))

theorem bareString_rests (h : s.cb ≤ c.it) (n k : Nat)
    (hrest : Rests (still c) never (.string []) (f (.string []) c) (g (.string []) c)) :
    Rests (still c) never (.string [])
      (((s.watched false).parseString (n + 1) >>= fun str => f (.string str)) c)
      ((parseString s.reader k >>= fun str => g (.string str)) c) := by
  refine (parseString_rests h n k).bind (fun c₁ hc₁ => ?_) fun _ hr => hr.elim
  rw [show c₁ = c from hc₁]
  exact hrest

def openKeyword {σ : Type} (rest : CVal → Scan σ CVal) (bare : Scan σ CVal) :
    Option CVal → Scan σ CVal
  | some v => rest v
  | none => bare

section Closing

variable {value valueI valueP value' : Scan Cursor CVal}
  {rest rest' restP q : CVal → Scan Cursor CVal}
  (hcontent : s.content = s'.content) (hroom : s.mem.length < 2 ^ 32)
  (hroom' : s'.mem.length < 2 ^ 32)
  (hv : Twin s.cb (Rel s.cb false) (Rel s.cb false) (differs s.cb id) value value' valueP)
  (hg : Guards value valueI) (hle : valueI.Le valueP)
  (hr : ∀ v, Twin s.cb (Rel s.cb false) (Rel s.cb false) (differs s.cb id) (rest v) (rest' v)
    (restP v))
  (hrest : ∀ v c, s.cb ≤ c.it → Rests (still c) never v (rest v c) (restP v c))
  (hrest' : ∀ v c, s'.cb ≤ c.it → Rests (still c) never v (rest' v c) (q v c))

section Rest

include hcontent hrest hrest'

/-- Numbers, keywords and strings go on alike behind a value. -/
theorem rest_parted {D : Differ CVal} (hD : ∀ r r₀, D r r₀ → s.cb ≤ r.2.it ∧ r.1 ≠ r₀.1) :
    Parted s.cb D (differs s.cb id) rest' restP := by
  have hcb := cb_eq hcontent
  refine Parted.of_rests id (fun v c hc => ?_) (fun v c hc => ?_) hD
  · exact ⟨_, (hrest' v c (hcb.symm ▸ hc)).mono (fun c₁ hc₁ => hc₁ ▸ hc) fun _ h => h⟩
  · exact ⟨_, (hrest v c hc).mono (fun c₁ hc₁ => hc₁ ▸ hc) fun _ h => h⟩

end Rest

include hcontent hr

theorem closeMap_twin (fields : Fields × Bool) :
    Twin s.cb (Rel s.cb false) (Rel s.cb false) (differs s.cb id)
      (closeMap (s.watched false).toReader rest fields)
      (closeMap (s'.watched false).toReader rest' fields) (closeMap s.reader restP fields) := by
  refine Twin.ite (Lock.pure _ fun _ _ h => h).twin ?_
  exact Lock.bind_twin (readChar_rel hcontent) (readChar_foretells s false) fun _ => hr _

include hrest hrest'

theorem bareString_twin {i j k : Nat} (h : i + 1 < j) (hk : i + 1 ≤ k) :
    Twin s.cb (Near s.cb) (Rel s.cb false) (differs s.cb id)
      ((s.watched false).parseString (i + 1) >>= fun str => rest (.string str))
      ((s'.watched false).parseString j >>= fun str => rest' (.string str))
      (parseString s.reader k >>= fun str => restP (.string str)) := by
  have hcb := cb_eq hcontent
  obtain ⟨j, rfl⟩ := Nat.exists_eq_add_of_le' (Nat.lt_of_le_of_lt (Nat.zero_le _) h)
  intro c c' hc
  rcases hc.cases with hin | ⟨hend, hend'⟩
  · exact Lock.bind_twin (parseString_inside hcontent h) (parseString_foretells s hk)
      (fun str => (hr _).restrict fun _ _ h => Or.inl h) c c' hin
  · have hle := Nat.le_of_eq hend.symm
    have hle' : s'.cb ≤ c'.it := Nat.le_of_eq (hcb.trans hend'.symm)
    exact (bareString_rests hle i k (hrest _ c hle)).still_twinned
      (bareString_rests hle' j 0 (hrest' _ c' hle')) (Or.inl hc) (Nat.le_of_eq hend'.symm)

include hroom hroom'

theorem closeArray_twin (vec : List CVal) :
    Twin s.cb (Rel s.cb false) (Rel s.cb false) (differs s.cb id)
      (closeArray (s.watched false).toReader rest vec)
      (closeArray (s'.watched false).toReader rest' vec) (closeArray s.reader restP vec) := by
  have hcb := cb_eq hcontent
  intro c c' hc
  rcases hc.cases with hin | hpast
  · exact Lock.bind_twin (skipChar_inside hcontent _) (skipChar_foretells s false _)
      (fun _ => (hr _).restrict fun _ _ h => Or.inl h) c c' hin
  · refine (closeArray_rests hroom hpast.1 hrest vec).twinned
      (closeArray_rests hroom' (past' hcontent hpast) hrest' vec) (fun c₁ c₁' h1 h2 => ?_)
      (fun c₁ h => hcb ▸ h) fun _ _ h => h.elim
    exact Or.inr ⟨h1, hcb ▸ h2, nofun⟩

include hv hg hle

theorem openMap_twin {i j k : Nat} (h : i + 1 < j) (hk : i + 1 ≤ k) (json : Bool) :
    Twin s.cb (Near s.cb) (Rel s.cb false) (differs s.cb id)
      ((s.watched false).parseFields json value (i + 1) (i + 1) [] >>=
        closeMap (s.watched false).toReader rest)
      ((s'.watched false).parseFields json value' j j [] >>=
        closeMap (s'.watched false).toReader rest')
      (parseFields s.reader json valueP k k [] >>= closeMap s.reader restP) := by
  have hcb := cb_eq hcontent
  have hahead : Foretells ((s.watched false).parseFields json value (i + 1) (i + 1) [])
      (parseFields s.reader json valueP k k []) :=
    (parseFields_guards s false hg json (i + 1) (i + 1) []).foretells
      (parseFields_le s.reader hk hk json hle [])
  have hfields := parseFields_twin hcontent hroom hroom' hv hg hle h hk h hk json []
  refine Twin.bind (hfields.restrict fun _ _ h => Or.inl h) hahead (closeMap_twin hcontent hr) ?_
  refine Parted.of_rests (fun fields => .map fields.1) (fun fields c hc => ?_)
    (fun fields c hc => ?_) fun r r₀ hd => ⟨hd.1, fun he => hd.2 ?_⟩
  · have hrests := closeMap_rests (hcb.symm ▸ hc) (fun v => hrest' v c (hcb.symm ▸ hc)) fields
    exact ⟨_, hrests.mono (fun c₁ hc₁ => hc₁ ▸ hc) fun _ h => h⟩
  · have hrests := closeMap_rests hc (fun v => hrest v c hc) fields
    exact ⟨_, hrests.mono (fun c₁ hc₁ => hc₁ ▸ hc) fun _ h => h⟩
  · exact Val.map.inj he

theorem openArray_twin {i j k : Nat} (h : i + 1 < j) (hk : i + 1 ≤ k) :
    Twin s.cb (Near s.cb) (Rel s.cb false) (differs s.cb id)
      ((s.watched false).parseElements value (i + 1) (i + 1) [] >>=
        closeArray (s.watched false).toReader rest)
      ((s'.watched false).parseElements value' j j [] >>=
        closeArray (s'.watched false).toReader rest')
      (parseElements s.reader valueP k k [] >>= closeArray s.reader restP) := by
  have hcb := cb_eq hcontent
  have hahead : Foretells ((s.watched false).parseElements value (i + 1) (i + 1) [])
      (parseElements s.reader valueP k k []) :=
    (parseElements_guards s false hg (i + 1) (i + 1) []).foretells
      (parseElements_le s.reader hk hk hle [])
  have helements := parseElements_twin hcontent hv hg hle h hk h hk []
  refine Twin.bind (helements.restrict fun _ _ h => Or.inl h) hahead
    (closeArray_twin hcontent hroom hroom' hr hrest hrest') ?_
  refine Parted.of_rests Val.array (fun vec c hc => ?_) (fun vec c hc => ?_)
    fun r r₀ hd => ⟨hd.1, fun he => hd.2 ?_⟩
  · have hrests := closeArray_rests hroom' (hcb.symm ▸ hc) hrest' vec
    exact ⟨_, hrests.mono (fun c₁ hc₁ => hcb ▸ hc₁) fun _ h => h⟩
  · exact ⟨_, closeArray_rests hroom hc hrest vec⟩
  · exact Val.array.inj he

end Closing

variable [Fpu]

/-- `val::parse` behind the leading blanks. -/
def openValue {σ : Type} (r : Reader σ) (json : Bool) (value : Scan σ CVal)
    (rest : CVal → Scan σ CVal) (n : Nat) : Scan σ CVal := do
  let ch ← r.peekChar
  if ch = '{'.toNat then
    let _ ← r.readChar
    skipWhitespaceAndComments r n false
    let fields ← parseFields r json value n n []
    closeMap r rest fields
  else if ch = '['.toNat then
    let _ ← r.readChar
    skipWhitespaceAndComments r n false
    let vec ← parseElements r value n n []
    closeArray r rest vec
  else if isNumberStart ch then
    let v ← parseNumber r n
    rest v
  else
    let keyword ← parseKeyword r ch
    openKeyword rest (parseString r n >>= fun str => rest (.string str)) keyword

def Watch.openValue {σ : Type} (w : Watch σ) (json : Bool) (value : Scan σ CVal)
    (rest : CVal → Scan σ CVal) (n : Nat) : Scan σ CVal := do
  let ch ← w.peekChar
  w.asks opensValue ch
  if ch = '{'.toNat then
    let _ ← w.readChar
    w.skipWhitespaceAndComments n false
    let fields ← w.parseFields json value n n []
    closeMap w.toReader rest fields
  else if ch = '['.toNat then
    let _ ← w.readChar
    w.skipWhitespaceAndComments n false
    let vec ← w.parseElements value n n []
    closeArray w.toReader rest vec
  else if isNumberStart ch then
    let v ← w.parseNumber n
    rest v
  else
    let keyword ← parseKeyword w.toReader ch
    openKeyword rest (w.parseString n >>= fun str => rest (.string str)) keyword

/-- An answer of the parser of the source where it takes something past the end for a value. -/
def opened (cb : Nat) : CVal × Cursor → Prop := fun r => cb ≤ r.2.it ∧ r.1 ≠ .string []

theorem openValue_opened (h : s.cb ≤ c.it) (hroom : s.mem.length < 2 ^ 32) (json : Bool)
    {value : Scan Cursor CVal} (k : Nat)
    (hrest : ∀ v c, s.cb ≤ c.it → Rests (still c) never v (f v c) (g v c)) {ch : Nat}
    (hp : s.reader.peekChar c = .done (ch, c)) (hch : opensValue ch = true) :
    ∀ r, openValue s.reader json value g k c = .done r → opened s.cb r := by
  have hbeyond {v : CVal} {x z : Outcome (CVal × Cursor)} (hr : Rests (still c) never v x z)
      (hv : v ≠ .string []) : ∀ r, z = .done r → opened s.cb r := by
    intro r hz
    obtain ⟨hval, hend⟩ := hr.only hz
    exact ⟨show s.cb ≤ r.2.it from hend ▸ h, hval ▸ hv⟩
  simp only [openValue, Scan.bind_apply, hp, Outcome.bind_done]
  have hskip := skipWhitespaceAndComments_rests (t := false) h 0 k
  by_cases hbrace : ch = '{'.toNat
  · rw [if_pos hbrace, Scan.bind_apply, Text.readChar_past h]
    have hmap : Rests (still c) never (.map [])
        (((s.watched false).skipWhitespaceAndComments 1 false >>= fun _ =>
          (s.watched false).parseFields json value 1 1 [] >>=
            closeMap (s.watched false).toReader f) c)
        ((skipWhitespaceAndComments s.reader k false >>= fun _ =>
          parseFields s.reader json value k k [] >>= closeMap s.reader g) c) := by
      refine hskip.bind (fun c₁ hc₁ => ?_) fun _ hr => hr.elim
      rw [show c₁ = c from hc₁]
      refine (parseFields_rests h json 1 k 0 k []).bind (fun c₁ hc₁ => ?_) fun _ hr => hr.elim
      rw [show c₁ = c from hc₁]
      exact closeMap_rests h (fun v => hrest v c h) _
    exact hbeyond hmap nofun
  · by_cases hbracket : ch = '['.toNat
    · rw [if_neg hbrace, if_pos hbracket, Scan.bind_apply, Text.readChar_past h]
      have harray : Rests (s.cb ≤ ·.it) never (.array [])
          (((s.watched false).skipWhitespaceAndComments 1 false >>= fun _ =>
            (s.watched false).parseElements value 1 1 [] >>=
              closeArray (s.watched false).toReader f) c)
          ((skipWhitespaceAndComments s.reader k false >>= fun _ =>
            parseElements s.reader value k k [] >>= closeArray s.reader g) c) := by
        refine hskip.bind (fun c₁ hc₁ => ?_) fun _ hr => hr.elim
        rw [show c₁ = c from hc₁]
        refine (parseElements_rests h 1 k 0 k []).bind (fun c₁ hc₁ => ?_) fun _ hr => hr.elim
        rw [show c₁ = c from hc₁]
        exact closeArray_rests hroom h hrest []
      intro r hz
      obtain ⟨hval, hend⟩ := harray.only hz
      exact ⟨hend, hval ▸ nofun⟩
    · have hnumber : isNumberStart ch = true := by
        simp only [opensValue, decide_eq_true_eq] at hch
        exact (hch.resolve_left hbrace).resolve_left hbracket
      rw [if_neg hbrace, if_neg hbracket, if_pos hnumber]
      intro r hz
      obtain ⟨v, c₁, hv, hz⟩ := Scan.bind_eq_done hz
      have hend : s.cb ≤ c₁.it := by
        rcases parseNumber_rests (t := false) hroom h 0 k with ⟨c₂, hc₂, -, hone⟩ | ⟨-, hmis⟩
        · have heq := hone _ hv
          rw [(Prod.mk.inj heq).2]
          exact hc₂.1
        · exact (hmis _ hv).1
      obtain ⟨hval, hlast⟩ := (hrest v c₁ hend).only hz
      exact ⟨show s.cb ≤ r.2.it from hlast ▸ hend, hval ▸ parseNumber_ne_string s.reader hv []⟩

/-- Past the end a value is the empty string. -/
theorem openValue_rests (h : c.it = s.cb) (hroom : s.mem.length < 2 ^ 32) (json : Bool)
    {value p : Scan Cursor CVal} (n k : Nat)
    (hrest : ∀ v c, s.cb ≤ c.it → Rests (still c) never v (f v c) (g v c)) :
    Rests (still c) (opened s.cb) (.string [])
      ((s.watched false).openValue json value f (n + 1) c)
      (openValue s.reader json p g k c) := by
  have hle := Nat.le_of_eq h.symm
  refine asks_rests hle opensValue (fun ch hch => ?_) fun ch hp hch => ?_
  · have h0 : opensValue ch = false := hch
    simp only [opensValue, decide_eq_false_iff_not, not_or, Bool.not_eq_true] at h0
    obtain ⟨h1, h2, h3⟩ := h0
    have hkeyword : parseKeyword (s.watched false).toReader ch c = .done (none, c) :=
      parseKeyword_end (fun l hl => skipString_end h hl) ch
    have hkeyword' : parseKeyword s.reader ch c = .done (none, c) :=
      parseKeyword_end (fun l hl => s.skipString_end h hl) ch
    rw [if_neg h1, if_neg h2, h3, if_neg h1, if_neg h2]
    simp only [Bool.false_eq_true, ↓reduceIte, Scan.bind_apply, hkeyword, hkeyword',
      Outcome.bind_done, openKeyword]
    exact (bareString_rests hle n k (hrest _ c hle)).mono (fun _ hc => hc) fun _ hr => hr.elim
  · exact openValue_opened hle hroom json k hrest hp (eq_true_of_ne_false hch)

section Twin

variable {value valueI valueP value' : Scan Cursor CVal}
  {rest rest' restP q : CVal → Scan Cursor CVal}
  (hcontent : s.content = s'.content) (hroom : s.mem.length < 2 ^ 32)
  (hroom' : s'.mem.length < 2 ^ 32)
  (hv : Twin s.cb (Rel s.cb false) (Rel s.cb false) (differs s.cb id) value value' valueP)
  (hg : Guards value valueI) (hle : valueI.Le valueP)
  (hr : ∀ v, Twin s.cb (Rel s.cb false) (Rel s.cb false) (differs s.cb id) (rest v) (rest' v)
    (restP v))
  (hrest : ∀ v c, s.cb ≤ c.it → Rests (still c) never v (rest v c) (restP v c))
  (hrest' : ∀ v c, s'.cb ≤ c.it → Rests (still c) never v (rest' v c) (q v c))

include hcontent hroom hroom' hv hg hle hr hrest hrest'

theorem openValue_twin {i j k : Nat} (h : i + 1 < j) (hk : i + 1 ≤ k) (json : Bool) :
    Twin s.cb (Near s.cb) (Rel s.cb false) (differs s.cb id)
      ((s.watched false).openValue json value rest (i + 1))
      ((s'.watched false).openValue json value' rest' j)
      (openValue s.reader json valueP restP k) := by
  have hcb := cb_eq hcontent
  have hopen {m m' p : Scan Cursor CVal} (ht : Twin s.cb (Near s.cb) (Rel s.cb false)
      (differs s.cb id) m m' p) : Twin s.cb (Inner s.cb) (Rel s.cb false) (differs s.cb id)
      ((s.watched false).readChar >>= fun _ =>
        (s.watched false).skipWhitespaceAndComments (i + 1) false >>= fun _ => m)
      ((s'.watched false).readChar >>= fun _ =>
        (s'.watched false).skipWhitespaceAndComments j false >>= fun _ => m')
      (s.reader.readChar >>= fun _ => skipWhitespaceAndComments s.reader k false >>= fun _ => p) :=
    Lock.bind_twin (readChar_inside hcontent) (readChar_foretells s false) fun _ =>
      Lock.bind_twin (skipWhitespaceAndComments_lock hcontent h false)
        (skipWhitespaceAndComments_foretells s hk) fun _ => ht
  intro c c' hc
  rcases hc.cases with hin | ⟨hend, hend'⟩
  · refine peek_twin hcontent hin fun ch => asks_twin hcontent _ _ hin ?_
    refine Twin.ite (R := Inner s.cb) (hopen ?_) (Twin.ite (hopen ?_) (Twin.ite ?_ ?_)) c c' hin
    · exact openMap_twin hcontent hroom hroom' hv hg hle hr hrest hrest' h hk json
    · exact openArray_twin hcontent hroom hroom' hv hg hle hr hrest hrest' h hk
    · have hahead : Foretells ((s.watched false).parseNumber (i + 1)) (parseNumber s.reader k) :=
        (parseNumber_guards s false (i + 1)).foretells (parseNumber_le s.reader hk)
      have hnumber := parseNumber_twin (t := false) hcontent hroom hroom' h hk
      refine Twin.bind (hnumber.restrict fun _ _ h => Or.inl h.near) hahead hr ?_
      exact rest_parted hcontent hrest hrest' fun r r₀ hd =>
        ⟨hd.1, hd.2.resolve_right (by simp)⟩
    · refine Lock.bind_twin ((parseKeyword_near hcontent ch).restrict fun _ _ h => h.near)
        (parseKeyword_foretells s ch) fun keyword => ?_
      cases keyword with
      | some v => exact (hr v).restrict fun _ _ h => Or.inl h
      | none => exact bareString_twin hcontent hr hrest hrest' h hk
  · obtain ⟨j, rfl⟩ := Nat.exists_eq_add_of_le' (Nat.lt_of_le_of_lt (Nat.zero_le _) h)
    refine (openValue_rests hend hroom json i k hrest).twinned
      (openValue_rests (p := value) (hend'.trans hcb.symm) hroom' json j 0 hrest')
      (fun c₁ c₁' h1 h2 => Or.inl ?_) (fun c₁ h2 => ?_) fun r c₁ hr _ => hr
    · rw [show c₁ = c from h1, show c₁' = c' from h2]
      exact hc
    · rw [show c₁ = c' from h2]
      exact Nat.le_of_eq hend'.symm

end Twin

/-- On two texts with one content `parse` does the same unless it is misled. -/
theorem parse_twin (hcontent : s.content = s'.content) (hroom : s.mem.length < 2 ^ 32)
    (hroom' : s'.mem.length < 2 ^ 32) {i j k : Nat} (h : i < j) (hk : i ≤ k) (flags : Flags) :
    Twin s.cb (Rel s.cb false) (Rel s.cb false) (differs s.cb id) ((s.watched false).parse i flags)
      ((s'.watched false).parse j flags) (parse s.reader k flags) := by
  induction i generalizing j k flags with
  | zero => exact Lock.timeout.twin
  | succ i ih =>
    obtain ⟨j, rfl⟩ := Nat.exists_eq_add_of_le' (Nat.lt_of_le_of_lt (Nat.zero_le _) h)
    obtain ⟨k, rfl⟩ := Nat.exists_eq_add_of_le' (Nat.lt_of_lt_of_le (Nat.zero_lt_succ i) hk)
    intro c c' hc
    rcases hc.cases with hin | hpast
    · refine beforeEnd_twin hcontent hin ?_
      cases i with
      | zero => exact Or.inl (Or.inl rfl)
      | succ i =>
        have hij : i + 1 < j := by omega
        have hik : i + 1 ≤ k := by omega
        refine Lock.bind_twin (skipWhitespaceAndComments_lock hcontent hij false)
          (skipWhitespaceAndComments_foretells s hik) (fun _ => ?_) c c' hin.near
        refine openValue_twin (q := fun v =>
            if flags.json = false ∧ flags.inImplicitArray = false then
              parseImplicit s'.reader (parse s'.reader 0 flags) 0 0 v
            else pure v) hcontent hroom hroom' (ih hij hik flags)
          (parse_guards s false (i + 1) flags) (parse_le s.reader hik flags) (fun v => ?_)
          (fun v c hc => ?_) (fun v c hc => ?_) hij hik flags.json
        · refine Twin.ite ?_ (Lock.pure _ fun _ _ h => h).twin
          exact parseImplicit_twin hcontent _ k (ih hij hik _)
            ((parse_guards s false (i + 1) _).foretells (parse_le s.reader hik _)) hij hik hij hik v
        · split
          next => exact parseImplicit_rests hc _ k i i k k v
          next => exact Rests.done rfl
        · split
          next =>
            obtain ⟨j, rfl⟩ := Nat.exists_eq_add_of_le' (Nat.lt_of_le_of_lt (Nat.zero_le _) hij)
            exact parseImplicit_rests hc flags 0 j j 0 0 v
          next => exact Rests.done rfl
    · have hp : s.reader.beforeEnd c = .done (false, c) := Text.beforeEnd_past hpast.1
      rw [Watch.parse, Watch.parse, parse]
      simp only [Watch.parseValue, parseValue, Scan.bind_apply, beforeEnd_past hpast.1,
        beforeEnd_past (past' hcontent hpast), hp, Outcome.bind_done, Bool.false_eq_true,
        ↓reduceIte]
      exact Or.inl (Locked.done hc)

end Values

end Libacorn
