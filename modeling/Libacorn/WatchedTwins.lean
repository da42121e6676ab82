import Libacorn.Watched

/-!
# Two texts with one content

Watched parsers over texts with equal content stay together: inside the content both read the same
bytes, and past the end neither is misled, unless one of them faults (`parse_lock`).
-/

namespace Libacorn

open Support

/-! ## Cursors -/

section Cursors

variable (cb : Nat) (t : Bool) (c c' : Cursor)

def Inner : Prop := c.it = c'.it ∧ c.it < cb

/-- The same position in the content, or its end. -/
def Near : Prop := c.it = c'.it ∧ c.it ≤ cb

def Past : Prop :=
  cb ≤ c.it ∧ cb ≤ c'.it ∧ (t = true → c.it = c'.it)

/-- The cursors of two watched runs. -/
def Rel : Prop := Near cb c c' ∨ Past cb t c c'

variable {cb : Nat} {t : Bool} {c c' : Cursor}

theorem Inner.near (h : Inner cb c c') : Near cb c c' := ⟨h.1, Nat.le_of_lt h.2⟩

theorem Near.cases (h : Near cb c c') : Inner cb c c' ∨ c.it = cb ∧ c'.it = cb := by
  obtain ⟨heq, hle⟩ := h
  rcases Nat.lt_or_eq_of_le hle with hlt | hend
  · exact Or.inl ⟨heq, hlt⟩
  · exact Or.inr ⟨hend, heq ▸ hend⟩

theorem Past.of_end (hend : c.it = cb) (hend' : c'.it = cb) : Past cb t c c' :=
  ⟨Nat.le_of_eq hend.symm, Nat.le_of_eq hend'.symm, fun _ => hend.trans hend'.symm⟩

theorem Rel.cases (h : Rel cb t c c') : Inner cb c c' ∨ Past cb t c c' := by
  rcases h with h | h
  · rcases h.cases with hin | ⟨hend, hend'⟩
    · exact Or.inl hin
    · exact Or.inr (Past.of_end hend hend')
  · exact Or.inr h

end Cursors

/-! ## Two runs -/

section Lock

variable {α β : Type}

/-- The second run ends like the first, with related cursors; it may fault. -/
def Locked (R : Cursor → Cursor → Prop) (x y : Outcome (α × Cursor)) : Prop :=
  x = .timeout ∨ y = .fault ∨ ∃ a c c', x = .done (a, c) ∧ y = .done (a, c') ∧ R c c'

/-- From cursors in `R` the runs end with cursors in `R'`. -/
def Lock (R R' : Cursor → Cursor → Prop) (m m' : Scan Cursor α) : Prop :=
  ∀ c c', R c c' → Locked R' (m c) (m' c')

variable {R R' R₁ : Cursor → Cursor → Prop} {m m' p : Scan Cursor α}
  {f f' q : α → Scan Cursor β}

theorem Locked.done {a : α} {c c' : Cursor} (h : R c c') :
    Locked R (.done (a, c)) (.done (a, c')) :=
  Or.inr (Or.inr ⟨a, c, c', rfl, rfl, h⟩)

theorem Locked.bind {x y : Outcome (α × Cursor)} {g g' : α × Cursor → Outcome (β × Cursor)}
    (h : Locked R x y) (hg : ∀ a c c', R c c' → Locked R' (g (a, c)) (g' (a, c'))) :
    Locked R' (x.bind g) (y.bind g') := by
  rcases h with rfl | rfl | ⟨a, c, c', rfl, rfl, h⟩
  · exact Or.inl rfl
  · exact Or.inr (Or.inl rfl)
  · exact hg a c c' h

theorem Locked.mono {x y : Outcome (α × Cursor)} (h : Locked R x y)
    (hR : ∀ c c', R c c' → R' c c') : Locked R' x y := by
  rcases h with h | h | ⟨a, c, c', hx, hy, h⟩
  · exact Or.inl h
  · exact Or.inr (Or.inl h)
  · exact Or.inr (Or.inr ⟨a, c, c', hx, hy, hR c c' h⟩)

theorem Lock.timeout : Lock R R' (Scan.timeout : Scan Cursor α) m' := fun _ _ _ => Or.inl rfl

theorem Lock.pure (a : α) (hR : ∀ c c', R c c' → R' c c') :
    Lock R R' (Pure.pure a : Scan Cursor α) (Pure.pure a) :=
  fun c c' h => Locked.done (hR c c' h)

theorem Lock.bind (h : Lock R R₁ m m') (hf : ∀ a, Lock R₁ R' (f a) (f' a)) :
    Lock R R' (m >>= f) (m' >>= f') :=
  fun c c' hc => (h c c' hc).bind fun a c c' hc => hf a c c' hc

theorem Lock.ite {p : Prop} [Decidable p] {n n' : Scan Cursor α} (h : Lock R R' m m')
    (h' : Lock R R' n n') : Lock R R' (if p then m else n) (if p then m' else n') := by
  split
  · exact h
  · exact h'

theorem Lock.restrict (h : Lock R R' m m') (hR : ∀ c c', R₁ c c' → R c c') : Lock R₁ R' m m' :=
  fun c c' hc => h c c' (hR c c' hc)

/-! ## Two runs that part -/

/-- How the answer of the plain parser may differ from that of a run that was not misled. -/
abbrev Differ (α : Type) : Type := α × Cursor → α × Cursor → Prop

/-- The runs `x` and `y` stay together, or the first is misled and the second ends past the end;
what the plain parser then answers in place of the first differs by `D`. -/
def Twinned (cb : Nat) (R : Cursor → Cursor → Prop) (D : Differ α)
    (x y z : Outcome (α × Cursor)) : Prop :=
  Locked R x y ∨ x = .fault ∧ ∃ r₀, y = .done r₀ ∧ cb ≤ r₀.2.it ∧ ∀ r, z = .done r → D r r₀

def Twin (cb : Nat) (R R' : Cursor → Cursor → Prop) (D : Differ α) (m m' p : Scan Cursor α) :
    Prop :=
  ∀ c c', R c c' → Twinned cb R' D (m c) (m' c') (p c)

/-- The answers of `m` are answers of `p`. -/
def Foretells (m p : Scan Cursor α) : Prop := ∀ c r, m c = .done r → p c = .done r

/-- No answer at all. -/
def silent : Differ α := fun _ _ => False

/-- What follows runs that parted: the second run still ends past the end, and the difference
stays. -/
def Parted (cb : Nat) (D : Differ α) (D' : Differ β) (f' q : α → Scan Cursor β) : Prop :=
  ∀ r₀ : α × Cursor, cb ≤ r₀.2.it → f' r₀.1 r₀.2 = .fault ∨
    ∃ q₀, f' r₀.1 r₀.2 = .done q₀ ∧ cb ≤ q₀.2.it ∧
      ∀ r, D r r₀ → ∀ r', q r.1 r.2 = .done r' → D' r' q₀

variable {cb : Nat} {D : Differ α} {D' : Differ β}

theorem Guards.foretells {n : Scan Cursor α} (h : Guards m n) (hle : n.Le p) : Foretells m p := by
  intro c r hm
  rcases h c with h | h | ⟨h, _⟩
  · rw [h] at hm
    cases hm
  · exact (hle c).eq_of_done (h ▸ hm)
  · rw [h] at hm
    cases hm

theorem Lock.twin (h : Lock R R' m m') : Twin cb R R' D m m' p := fun c c' hc => Or.inl (h c c' hc)

theorem Twin.ite {b : Prop} [Decidable b] {n n' o : Scan Cursor α} (h : Twin cb R R' D m m' p)
    (h' : Twin cb R R' D n n' o) :
    Twin cb R R' D (if b then m else n) (if b then m' else n') (if b then p else o) := by
  split
  · exact h
  · exact h'

theorem Twin.restrict (h : Twin cb R R' D m m' p) (hR : ∀ c c', R₁ c c' → R c c') :
    Twin cb R₁ R' D m m' p := fun c c' hc => h c c' (hR c c' hc)

theorem Twinned.bind {x y z : Outcome (α × Cursor)} (h : Twinned cb R D x y z)
    (hz : ∀ r, x = .done r → z = .done r)
    (hf : ∀ a c c', R c c' → Twinned cb R' D' (f a c) (f' a c') (q a c))
    (hp : Parted cb D D' f' q) : Twinned cb R' D' (x.bind fun r => f r.1 r.2)
      (y.bind fun r => f' r.1 r.2) (z.bind fun r => q r.1 r.2) := by
  rcases h with (rfl | rfl | ⟨a, c, c', rfl, rfl, hR⟩) | ⟨rfl, r₀, rfl, hpast, hD⟩
  · exact Or.inl (Or.inl rfl)
  · exact Or.inl (Or.inr (Or.inl rfl))
  · rw [hz _ rfl]
    exact hf a c c' hR
  · rcases hp r₀ hpast with hfault | ⟨q₀, hq₀, hend, hne⟩
    · exact Or.inl (Or.inr (Or.inl hfault))
    · refine Or.inr ⟨rfl, q₀, hq₀, hend, fun r' hr' => ?_⟩
      obtain ⟨r, hz, hq⟩ := Outcome.bind_eq_done hr'
      exact hne r (hD r hz) r' hq

theorem Twin.bind (h : Twin cb R R₁ D m m' p) (ha : Foretells m p)
    (hf : ∀ a, Twin cb R₁ R' D' (f a) (f' a) (q a)) (hp : Parted cb D D' f' q) :
    Twin cb R R' D' (m >>= f) (m' >>= f') (p >>= q) :=
  fun c c' hc => (h c c' hc).bind (ha c) (fun a c c' hc => hf a c c' hc) hp

theorem Lock.bind_twin (h : Lock R R₁ m m') (ha : Foretells m p)
    (hf : ∀ a, Twin cb R₁ R' D' (f a) (f' a) (q a)) :
    Twin cb R R' D' (m >>= f) (m' >>= f') (p >>= q) := by
  intro c c' hc
  simp only [Scan.bind_apply]
  rcases h c c' hc with hm | hm | ⟨a, c₁, c₁', hm, hm', hR⟩
  · rw [hm]
    exact Or.inl (Or.inl rfl)
  · rw [hm]
    exact Or.inl (Or.inr (Or.inl rfl))
  · rw [hm, hm', ha c _ hm]
    exact hf a c₁ c₁' hR

end Lock

/-! ## Inner the content -/

section Inner

variable {α : Type} {s s' : Text} {t : Bool}

theorem seqLen_cases (b : UInt8) : b &&& 128 = 0 ∧ seqLen b = 1 ∨
    b &&& 128 ≠ 0 ∧ b &&& 32 = 0 ∧ seqLen b = 2 ∨
    b &&& 128 ≠ 0 ∧ b &&& 32 ≠ 0 ∧ b &&& 16 = 0 ∧ seqLen b = 3 ∨
    b &&& 128 ≠ 0 ∧ b &&& 32 ≠ 0 ∧ b &&& 16 ≠ 0 ∧ seqLen b = 4 := by
  by_cases h1 : b &&& 128 = 0
  · simp [seqLen, h1]
  · by_cases h2 : b &&& 32 = 0
    · simp [seqLen, h1, h2]
    · by_cases h3 : b &&& 16 = 0
      · simp [seqLen, h1, h2, h3]
      · simp [seqLen, h1, h2, h3]

theorem content_getElem? (s : Text) {o : Nat} (h : o < s.cb) :
    s.content[o]? = s.mem[s.offset + o]? := by
  rw [Text.content, List.getElem?_take_of_lt h, List.getElem?_drop]

theorem byte_inside (s : Text) {o : Nat} (h : o < s.cb) : ∃ b, s.mem[s.offset + o]? = some b := by
  have hfits := s.fits
  exact ⟨_, List.getElem?_eq_getElem (by omega)⟩

variable (hcontent : s.content = s'.content)

include hcontent

theorem cb_eq : s'.cb = s.cb := by
  rw [← s.length_content, ← s'.length_content, hcontent]

theorem mem_eq {o : Nat} (h : o < s.cb) : s'.mem[s'.offset + o]? = s.mem[s.offset + o]? := by
  rw [← content_getElem? s h, hcontent, content_getElem?]
  rw [cb_eq hcontent]
  exact h

theorem byte_eq {o : Nat} (h : o < s.cb) : s'.byte o = s.byte o := by
  rw [Text.byte, Text.byte, mem_eq hcontent h]

theorem cuts_eq {o : Nat} (h : o < s.cb) : s'.cuts o = s.cuts o := by
  rw [Text.cuts, Text.cuts, mem_eq hcontent h, cb_eq hcontent]

/-- A sequence that ends inside the content is read there. -/
theorem readUtf8_inside {o : Nat} (h : o < s.cb) (hcut : s.cuts o = false) : ∃ ch o',
    s.readUtf8 o = .done (ch, o') ∧ s'.readUtf8 o = .done (ch, o') ∧ o' ≤ s.cb := by
  obtain ⟨b, hb⟩ := byte_inside s h
  have hlt := s.cb_lt
  have hlen : o + seqLen b ≤ s.cb := by
    simpa [Text.cuts, hb] using hcut
  have hbyte (i : Nat) (hi : i < seqLen b) : ∃ x, s.byte (u32 (o + i)) = .done x ∧
      s'.byte (u32 (o + i)) = .done x := by
    rw [u32_of_lt (by omega)]
    obtain ⟨x, hx⟩ := byte_inside s (show o + i < s.cb by omega)
    refine ⟨x, by simp only [Text.byte, hx], ?_⟩
    rw [byte_eq hcontent (by omega)]
    simp only [Text.byte, hx]
  have h0 : s.byte o = .done b := by simp only [Text.byte, hb]
  have h0' : s'.byte o = .done b := by rw [byte_eq hcontent h, h0]
  have hmove (k : Nat) (hk : k ≤ seqLen b) : u32 (o + k) ≤ s.cb := by
    rw [u32_of_lt (by omega)]
    omega
  simp only [Text.readUtf8, h0, h0', Outcome.bind_done]
  rcases seqLen_cases b with ⟨h1, hl⟩ | ⟨h1, h2, hl⟩ | ⟨h1, h2, h3, hl⟩ | ⟨h1, h2, h3, hl⟩
  · by_cases hz : b = 0
    · simp only [hz, ne_eq, not_true_eq_false, ↓reduceIte]
      exact ⟨_, _, rfl, rfl, Nat.le_of_lt h⟩
    · simp only [h1, hz, ne_eq, not_true_eq_false, not_false_eq_true, ↓reduceIte]
      exact ⟨_, _, rfl, rfl, hmove 1 (by omega)⟩
  · obtain ⟨x, hx, hx'⟩ := hbyte 1 (by omega)
    simp only [h1, h2, hx, hx', ne_eq, not_true_eq_false, not_false_eq_true, ↓reduceIte,
      Outcome.bind_done]
    exact ⟨_, _, rfl, rfl, hmove 2 (by omega)⟩
  · obtain ⟨x, hx, hx'⟩ := hbyte 1 (by omega)
    obtain ⟨y, hy, hy'⟩ := hbyte 2 (by omega)
    simp only [h1, h2, h3, hx, hx', hy, hy', ne_eq, not_true_eq_false, not_false_eq_true,
      ↓reduceIte, Outcome.bind_done]
    exact ⟨_, _, rfl, rfl, hmove 3 (by omega)⟩
  · obtain ⟨x, hx, hx'⟩ := hbyte 1 (by omega)
    obtain ⟨y, hy, hy'⟩ := hbyte 2 (by omega)
    obtain ⟨z, hz, hz'⟩ := hbyte 3 (by omega)
    simp only [h1, h2, h3, hx, hx', hy, hy', hz, hz', ne_eq, not_false_eq_true, ↓reduceIte,
      Outcome.bind_done]
    exact ⟨_, _, rfl, rfl, hmove 4 (by omega)⟩

end Inner

/-! ## The operations -/

section Operations

variable {α : Type} {s s' : Text} {t : Bool} {c c' : Cursor} {R : Cursor → Cursor → Prop}
  {D : Differ α} {k k' q : Nat → Scan Cursor α}

theorem asks_inside (p : Nat → Bool) (ch : Nat) (h : c.it < s.cb) :
    (s.watched t).asks p ch c = .done ((), c) :=
  if_neg fun hp => Nat.not_lt.mpr hp.1 h

theorem asks_past (p : Nat → Bool) (ch : Nat) (h : s.cb ≤ c.it) :
    (s.watched t).asks p ch c = if p ch = p 0 then .done ((), c) else .fault := by
  rw [watched_asks_eq]
  by_cases hp : p ch = p 0
  · rw [if_neg fun hne => hne.2 hp, if_pos hp]
  · rw [if_pos ⟨h, hp⟩, if_neg hp]

theorem watched_peekChar_past (h : s.cb ≤ c.it) :
    (s.watched t).peekChar c = s.reader.peekChar c :=
  if_neg fun hc => Nat.not_lt.mpr h hc.1

theorem watched_readChar_past (h : s.cb ≤ c.it) :
    (s.watched t).readChar c = .done (0, c) := by
  simp only [Text.watched, Nat.not_lt.mpr h, false_and, ↓reduceIte, Text.readChar, ge_iff_le, h]

variable (hcontent : s.content = s'.content)

include hcontent

/-- A cut sequence faults in both texts; any other character is the same in both. -/
theorem peekChar_inside (hin : Inner s.cb c c') : (s'.watched t).peekChar c' = .fault ∨
    ∃ ch, (s.watched t).peekChar c = .done (ch, c) ∧
      (s'.watched t).peekChar c' = .done (ch, c') ∧ s.reader.peekChar c = .done (ch, c) := by
  obtain ⟨heq, hlt⟩ := hin
  have hcb := cb_eq hcontent
  have hcut := cuts_eq hcontent hlt
  cases h : s.cuts c.it with
  | true =>
    refine Or.inl (if_pos ?_)
    rw [← heq, hcb, hcut]
    exact ⟨hlt, h⟩
  | false =>
    obtain ⟨ch, o, hs, hs', -⟩ := readUtf8_inside hcontent hlt h
    refine Or.inr ⟨ch, ?_⟩
    simp only [Text.watched, Text.reader, Text.peekChar, ← heq, hcut, h, hs, hs',
      Bool.false_eq_true, and_false, ↓reduceIte, Outcome.bind_done, and_self]

theorem readChar_inside : Lock (Inner s.cb) (Near s.cb) (s.watched t).readChar
    (s'.watched t).readChar := by
  rintro c c' ⟨heq, hlt⟩
  have hcb := cb_eq hcontent
  have hcut := cuts_eq hcontent hlt
  cases h : s.cuts c.it with
  | true =>
    refine Or.inr (Or.inl (if_pos ?_))
    rw [← heq, hcb, hcut]
    exact ⟨hlt, h⟩
  | false =>
    obtain ⟨ch, o, hs, hs', hle⟩ := readUtf8_inside hcontent hlt h
    have hge : ¬s.cb ≤ c.it := Nat.not_le.mpr hlt
    simp only [Text.watched, Text.readChar, ← heq, hcut, h, hs, hs', hcb, hge, ge_iff_le,
      Bool.false_eq_true, and_false, ↓reduceIte, Outcome.bind_done]
    exact Locked.done ⟨rfl, hle⟩

theorem readChar_near : Lock (Near s.cb) (Near s.cb) (s.watched t).readChar
    (s'.watched t).readChar := by
  intro c c' h
  rcases h.cases with hin | ⟨hend, hend'⟩
  · exact readChar_inside hcontent c c' hin
  · have hcb := cb_eq hcontent
    rw [watched_readChar_past (Nat.le_of_eq hend.symm),
      watched_readChar_past (Nat.le_of_eq (hcb.trans hend'.symm))]
    exact Locked.done h

theorem peek_lock (hin : Inner s.cb c c') (h : ∀ ch, Locked R (k ch c) (k' ch c')) :
    Locked R (((s.watched t).peekChar >>= k) c) (((s'.watched t).peekChar >>= k') c') := by
  simp only [Scan.bind_apply]
  rcases peekChar_inside hcontent hin with hf | ⟨ch, hs, hs', -⟩
  · rw [hf]
    exact Or.inr (Or.inl rfl)
  · rw [hs, hs']
    exact h ch

theorem peek_twin (hin : Inner s.cb c c')
    (h : ∀ ch, Twinned s.cb R D (k ch c) (k' ch c') (q ch c)) :
    Twinned s.cb R D (((s.watched t).peekChar >>= k) c)
      (((s'.watched t).peekChar >>= k') c') ((s.reader.peekChar >>= q) c) := by
  simp only [Scan.bind_apply]
  rcases peekChar_inside hcontent hin with hf | ⟨ch, hs, hs', hp⟩
  · rw [hf]
    exact Or.inl (Or.inr (Or.inl rfl))
  · rw [hs, hs', hp]
    exact h ch

theorem asks_lock {m m' : Scan Cursor α} (p : Nat → Bool) (ch : Nat) (hin : Inner s.cb c c')
    (h : Locked R (m c) (m' c')) :
    Locked R (((s.watched t).asks p ch >>= fun _ => m) c)
      (((s'.watched t).asks p ch >>= fun _ => m') c') := by
  have hlt' : c'.it < s'.cb := by
    rw [← hin.1, cb_eq hcontent]
    exact hin.2
  rw [Scan.bind_apply, Scan.bind_apply, asks_inside p ch hin.2, asks_inside p ch hlt']
  exact h

theorem asks_twin {m m' o : Scan Cursor α} (p : Nat → Bool) (ch : Nat) (hin : Inner s.cb c c')
    (h : Twinned s.cb R D (m c) (m' c') (o c)) :
    Twinned s.cb R D (((s.watched t).asks p ch >>= fun _ => m) c)
      (((s'.watched t).asks p ch >>= fun _ => m') c') (o c) := by
  have hlt' : c'.it < s'.cb := by
    rw [← hin.1, cb_eq hcontent]
    exact hin.2
  rw [Scan.bind_apply, Scan.bind_apply, asks_inside p ch hin.2, asks_inside p ch hlt']
  exact h

theorem skipChar_inside (ch : UInt8) : Lock (Inner s.cb) (Near s.cb)
    ((s.watched t).skipChar ch) ((s'.watched t).skipChar ch) := by
  rintro c c' ⟨heq, hlt⟩
  have hcb := cb_eq hcontent
  have hlt32 := s.cb_lt
  obtain ⟨b, hb⟩ := byte_inside s hlt
  have hs : s.byte c.it = .done b := by simp only [Text.byte, hb]
  have hs' : s'.byte c.it = .done b := by rw [byte_eq hcontent hlt, hs]
  have hge : ¬s.cb ≤ c.it := Nat.not_le.mpr hlt
  by_cases he : b = ch
  · simp only [Text.watched, Text.skipChar, ← heq, hs, hs', hcb, he, hge, ↓reduceIte, false_and,
      and_false, Outcome.bind_done]
    refine Locked.done ⟨rfl, ?_⟩
    rw [Cursor.moveTo_it, u32_of_lt (by omega)]
    exact hlt
  · simp only [Text.watched, Text.skipChar, ← heq, hs, hs', he, ↓reduceIte, Bool.false_eq_true,
      false_and, Outcome.bind_done]
    exact Locked.done ⟨heq, Nat.le_of_lt hlt⟩

/-- A literal that starts inside the content ends there, for its length is checked. -/
theorem skipString_inside (l : Bytes) : Lock (Inner s.cb) (Near s.cb)
    ((s.watched t).skipString l) ((s'.watched t).skipString l) := by
  rintro c c' ⟨heq, hlt⟩
  have hcb := cb_eq hcontent
  have hlt32 := s.cb_lt
  have hfits := s.fits
  have hfits' := s'.fits
  have hge : ¬s.cb ≤ c.it := Nat.not_le.mpr hlt
  have hroom : u32 (s.cb + (2 ^ 32 - c.it)) = s.cb - c.it := by
    rw [u32]
    omega
  by_cases hlen : l.length > s.cb - c.it
  · simp only [Text.watched, Text.skipString, ← heq, hcb, hroom, hlen, ↓reduceIte,
      Bool.false_eq_true, false_and, Outcome.bind_done]
    exact Locked.done ⟨heq, Nat.le_of_lt hlt⟩
  · have hbytes : s.bytes c.it l.length = .done ((s.content.drop c.it).take l.length) := by
      rw [Text.bytes, if_pos (by omega), Text.content, List.drop_take, List.drop_drop,
        List.take_take, Nat.min_eq_left (by omega)]
    have hbytes' : s'.bytes c.it l.length = .done ((s.content.drop c.it).take l.length) := by
      rw [Text.bytes, if_pos (by omega), hcontent, Text.content, List.drop_take, List.drop_drop,
        List.take_take, Nat.min_eq_left (by omega)]
    simp only [Text.watched, Text.skipString, ← heq, hcb, hroom, hlen, hge, ↓reduceIte, hbytes,
      hbytes', Outcome.bind_done]
    by_cases he : (s.content.drop c.it).take l.length = l
    · simp only [he, ↓reduceIte, Outcome.bind_done, false_and, and_false]
      refine Locked.done ⟨rfl, ?_⟩
      rw [Cursor.moveTo_it, u32_of_lt (by omega)]
      omega
    · simp only [he, ↓reduceIte, Outcome.bind_done, Bool.false_eq_true, false_and]
      exact Locked.done ⟨heq, Nat.le_of_lt hlt⟩

theorem skipWhitespaceLoop_near (n : Nat) :
    Lock (Near s.cb) (Near s.cb) (s.skipWhitespaceLoop n) (s'.skipWhitespaceLoop n) := by
  have hcb := cb_eq hcontent
  have hlt32 := s.cb_lt
  induction n with
  | zero => exact Lock.pure () fun _ _ h => h
  | succ n ih =>
    intro c c' h
    rcases h.cases with ⟨heq, hlt⟩ | ⟨hend, hend'⟩
    · obtain ⟨b, hb⟩ := byte_inside s hlt
      have hs : s.byte c.it = .done b := by simp only [Text.byte, hb]
      have hs' : s'.byte c.it = .done b := by rw [byte_eq hcontent hlt, hs]
      simp only [Text.skipWhitespaceLoop, ← heq, hcb, hlt, hs, hs', ↓reduceIte, Outcome.bind_done]
      split
      · refine ih _ _ ⟨rfl, ?_⟩
        rw [Cursor.moveTo_it, u32_of_lt (by omega)]
        exact hlt
      · exact Locked.done h
    · simp only [Text.skipWhitespaceLoop, hend, hend', hcb, Nat.lt_irrefl, ↓reduceIte]
      exact Locked.done h

theorem skipWhitespace_near : Lock (Near s.cb) (Near s.cb) s.skipWhitespace s'.skipWhitespace := by
  intro c c' h
  have hn := skipWhitespaceLoop_near hcontent (s.cb - c.it) c c' h
  rw [Text.skipWhitespace, Text.skipWhitespace, cb_eq hcontent, ← h.1]
  exact hn

end Operations

/-! ## Loops that stay inside -/

section Loops

variable {α : Type} {s s' : Text} {t : Bool} {c c' : Cursor}

theorem Text.skipString_end (s : Text) (h : c.it = s.cb) {l : Bytes} (hl : l ≠ []) :
    s.skipString l c = .done (false, c) := by
  have hpos := List.length_pos_iff.mpr hl
  have hcb := s.cb_lt
  have hroom : u32 (s.cb + (2 ^ 32 - s.cb)) = 0 := by
    rw [u32]
    omega
  simp only [Text.skipString, h, hroom, gt_iff_lt, hpos, ↓reduceIte]

theorem skipString_end (h : c.it = s.cb) {l : Bytes} (hl : l ≠ []) :
    (s.watched t).skipString l c = .done (false, c) := by
  simp only [Text.watched, s.skipString_end h hl, Outcome.bind_done, Bool.false_eq_true, false_and,
    ↓reduceIte]

theorem appendChar_lock {R : Cursor → Cursor → Prop} (str : Bytes) (ch : Nat) : Lock R R
    (Watch.appendChar str ch) (Watch.appendChar str ch) := by
  unfold Watch.appendChar
  cases encodeUtf8 ch with
  | some bs => exact Lock.pure _ fun _ _ h => h
  | none => exact Lock.timeout

theorem atEnd_end (h : c.it = s.cb) : (s.watched t).atEnd c = .done (true, c) := by
  simp only [Text.watched, Text.reader, h, decide_true]

theorem atEnd_off (h : c.it ≠ s.cb) : (s.watched t).atEnd c = .done (false, c) := by
  simp only [Text.watched, Text.reader, h, decide_false]

theorem beforeEnd_inside (h : c.it < s.cb) : (s.watched t).beforeEnd c = .done (true, c) := by
  simp only [Text.watched, Text.reader, h, decide_true]

theorem beforeEnd_past (h : s.cb ≤ c.it) : (s.watched t).beforeEnd c = .done (false, c) := by
  simp only [Text.watched, Text.reader, Nat.not_lt.mpr h, decide_false]

/-- A step that is taken before the end, and not at the end. -/
def Guarded (cb : Nat) (x : α) (m n : Scan Cursor α) : Prop :=
  ∀ c, (c.it < cb → n c = m c) ∧ (c.it = cb → n c = .done (x, c))

theorem guarded_atEnd (x : α) (m : Scan Cursor α) :
    Guarded s.cb x m (do if ← (s.watched t).atEnd then pure x else m) := by
  intro c
  constructor
  · intro hlt
    rw [Scan.bind_apply, atEnd_off (Nat.ne_of_lt hlt)]
    rfl
  · intro hend
    rw [Scan.bind_apply, atEnd_end hend]
    rfl

theorem guarded_beforeEnd (x : α) (m : Scan Cursor α) :
    Guarded s.cb x m (do if ← (s.watched t).beforeEnd then m else pure x) := by
  intro c
  constructor
  · intro hlt
    rw [Scan.bind_apply, beforeEnd_inside hlt]
    rfl
  · intro hend
    rw [Scan.bind_apply, beforeEnd_past (Nat.le_of_eq hend.symm)]
    rfl

variable (hcontent : s.content = s'.content)

include hcontent

theorem guarded_lock {x : α} {m m' n n' : Scan Cursor α} (hn : Guarded s.cb x m n)
    (hn' : Guarded s'.cb x m' n') (h : Lock (Inner s.cb) (Near s.cb) m m') :
    Lock (Near s.cb) (Near s.cb) n n' := by
  have hcb := cb_eq hcontent
  intro c c' hc
  rcases hc.cases with hin | ⟨hend, hend'⟩
  · obtain ⟨heq, hlt⟩ := id hin
    rw [(hn c).1 hlt, (hn' c').1 (by omega)]
    exact h c c' hin
  · rw [(hn c).2 hend, (hn' c').2 (hend'.trans hcb.symm)]
    exact Locked.done hc

theorem skipString_near {l : Bytes} (hl : l ≠ []) : Lock (Near s.cb) (Near s.cb)
    ((s.watched t).skipString l) ((s'.watched t).skipString l) := by
  intro c c' h
  rcases h.cases with hin | ⟨hend, hend'⟩
  · exact skipString_inside hcontent l c c' hin
  · rw [skipString_end hend hl, skipString_end (hend'.trans (cb_eq hcontent).symm) hl]
    exact Locked.done h

theorem skipComment_lock {i j : Nat} (h : i < j) : Lock (Near s.cb) (Near s.cb)
    (skipComment (s.watched t).toReader i) (skipComment (s'.watched t).toReader j) := by
  induction i generalizing j with
  | zero => exact Lock.timeout
  | succ i ih =>
    obtain ⟨j, rfl⟩ := Nat.exists_eq_add_of_le' (Nat.lt_of_le_of_lt (Nat.zero_le _) h)
    refine guarded_lock hcontent (guarded_atEnd () _) (guarded_atEnd () _) fun c c' hin =>
      peek_lock hcontent hin fun ch => ?_
    split
    next => exact Locked.done hin.near
    next =>
      exact (readChar_inside hcontent c c' hin).bind fun _ c c' hc => ih (by omega) c c' hc

theorem startsComment_lock (ch : Nat) : Lock (Near s.cb) (Near s.cb)
    (startsComment (s.watched t).toReader ch)
    (startsComment (s'.watched t).toReader ch) := by
  refine Lock.ite (Lock.pure _ fun _ _ h => h) (Lock.ite ?_ (Lock.pure _ fun _ _ h => h))
  exact skipString_near hcontent (by decide)

theorem skipWhitespaceAndComments_lock {i j : Nat} (h : i < j) (newLine : Bool) :
    Lock (Near s.cb) (Near s.cb) ((s.watched t).skipWhitespaceAndComments i newLine)
      ((s'.watched t).skipWhitespaceAndComments j newLine) := by
  induction i generalizing j newLine with
  | zero => exact Lock.timeout
  | succ i ih =>
    obtain ⟨j, rfl⟩ := Nat.exists_eq_add_of_le' (Nat.lt_of_le_of_lt (Nat.zero_le _) h)
    have hij : i < j := by omega
    refine guarded_lock hcontent (guarded_atEnd () _) (guarded_atEnd () _) fun c c' hin =>
      peek_lock hcontent hin fun ch => ?_
    refine asks_lock hcontent _ _ hin ?_
    have hread (newLine : Bool) := Lock.bind (readChar_inside (t := t) hcontent)
      fun _ => ih hij newLine
    split
    next => exact hread true c c' hin
    next =>
      split
      next => exact hread newLine c c' hin
      next =>
        refine Lock.ite (Lock.bind (startsComment_lock hcontent ch) fun b => Lock.ite ?_ ?_)
          (Lock.pure _ fun _ _ h => h) c c' hin.near
        · exact Lock.bind (skipComment_lock hcontent hij) fun _ => ih hij newLine
        · exact Lock.pure _ fun _ _ h => h

theorem skipSpacesAndTabs_lock {i j : Nat} (h : i < j) : Lock (Near s.cb) (Near s.cb)
    (skipSpacesAndTabs (s.watched t).toReader i)
    (skipSpacesAndTabs (s'.watched t).toReader j) := by
  induction i generalizing j with
  | zero => exact Lock.timeout
  | succ i ih =>
    obtain ⟨j, rfl⟩ := Nat.exists_eq_add_of_le' (Nat.lt_of_le_of_lt (Nat.zero_le _) h)
    refine guarded_lock hcontent (guarded_beforeEnd () _) (guarded_beforeEnd () _) fun c c' hin =>
      peek_lock hcontent hin fun ch => ?_
    split
    next => exact (readChar_inside hcontent c c' hin).bind fun _ c c' hc => ih (by omega) c c' hc
    next => exact Locked.done hin.near

theorem parseStringLoop_lock {i j : Nat} (h : i < j) (quoted : Bool) (str : Bytes) :
    Lock (Near s.cb) (Near s.cb) ((s.watched t).parseStringLoop quoted i str)
      ((s'.watched t).parseStringLoop quoted j str) := by
  induction i generalizing j str with
  | zero => exact Lock.timeout
  | succ i ih =>
    obtain ⟨j, rfl⟩ := Nat.exists_eq_add_of_le' (Nat.lt_of_le_of_lt (Nat.zero_le _) h)
    have hij : i < j := by omega
    have hdone (str : Bytes) : Lock (Near s.cb) (Near s.cb) (pure str : Scan Cursor Bytes)
      (pure str) := Lock.pure _ fun _ _ h => h
    refine guarded_lock hcontent (guarded_beforeEnd str _) (guarded_beforeEnd str _)
      fun c c' hin => peek_lock hcontent hin fun ch => ?_
    split
    next => exact Locked.done hin.near
    next =>
      refine (readChar_inside hcontent c c' hin).bind fun ch c c' hc => ?_
      refine Lock.ite (hdone str) (Lock.ite (hdone str) (Lock.ite ?_ ?_)) c c' hc
      · refine Lock.bind (readChar_near hcontent) fun ch => Lock.ite ?_ (ih hij str)
        exact Lock.bind (appendChar_lock _ _) fun str' => ih hij str'
      · exact Lock.bind (appendChar_lock _ _) fun str' => ih hij str'

theorem parseString_inside {i j : Nat} (h : i < j) : Lock (Inner s.cb) (Near s.cb)
    ((s.watched t).parseString i) ((s'.watched t).parseString j) := by
  intro c c' hin
  refine peek_lock hcontent hin fun ch => ?_
  split
  next =>
    exact (readChar_inside hcontent c c' hin).bind fun _ c c' hc =>
      parseStringLoop_lock hcontent h true [] c c' hc
  next => exact parseStringLoop_lock hcontent h false [] c c' hin.near

end Loops

end Libacorn
