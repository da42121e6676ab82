import Libacorn.ParseTwins
import Libacorn.Unicode

/-!
# Parsing by the content alone

Two handles with one content: as long as neither parser is misled past the end they answer alike,
and where one is misled, it gives another answer or none (`parse_contentOnly_iff`). A whole buffer
of complete sequences misleads nobody (`Holds.calm`, `Holds.numberCalm`).
-/

namespace Libacorn

open Support

/-! ## Before a terminator -/

section Quiet

variable {α β : Type} {gs : List Glyph}

/-- From a boundary between glyphs the scanner gets to another one, without a fault. -/
def Quiet (gs : List Glyph) (m : Scan Cursor α) : Prop :=
  ∀ c post, At gs c post → m c ≠ .fault ∧ ∀ r, m c = .done r → ∃ post', At gs r.2 post'

namespace Quiet

theorem pure (a : α) : Quiet gs (Pure.pure a : Scan Cursor α) := by
  refine fun c post hc => ⟨nofun, fun r hr => ?_⟩
  cases hr
  exact ⟨post, hc⟩

theorem timeout : Quiet gs (Scan.timeout : Scan Cursor α) := fun _ _ _ => ⟨nofun, nofun⟩

theorem bind {m : Scan Cursor α} {f : α → Scan Cursor β} (h : Quiet gs m)
    (hf : ∀ a, Quiet gs (f a)) : Quiet gs (m >>= f) := by
  intro c post hc
  obtain ⟨hfault, hdone⟩ := h c post hc
  rw [Scan.bind_apply]
  cases hm : m c with
  | done r =>
    obtain ⟨post', hat⟩ := hdone r hm
    exact hf r.1 r.2 post' hat
  | timeout => exact ⟨nofun, nofun⟩
  | fault => exact absurd hm hfault

theorem ite {p : Prop} [Decidable p] {m n : Scan Cursor α} (h : Quiet gs m) (h' : Quiet gs n) :
    Quiet gs (if p then m else n) := by
  split
  · exact h
  · exact h'

theorem of_sim {m : Scan Cursor α} {m' : Scan (List Glyph) α} (h : Scan.Sim (At gs) m m')
    (hm' : ∀ post, m' post ≠ .fault) : Quiet gs m := by
  intro c post hc
  refine ⟨fun hm => ?_, fun r hr => ?_⟩
  · have hs := h c post hc
    rw [hm] at hs
    cases hp : m' post with
    | done r =>
      rw [hp] at hs
      exact hs
    | timeout =>
      rw [hp] at hs
      exact hs
    | fault => exact hm' post hp
  · obtain ⟨post', -, hat⟩ := h.done_of_done_left hc hr
    exact ⟨post', hat⟩

theorem of_answer {m : Scan Cursor Bool} (h : ∀ c, ∃ b, m c = .done (b, c)) : Quiet gs m := by
  intro c post hc
  obtain ⟨b, hb⟩ := h c
  rw [hb]
  refine ⟨nofun, fun r hr => ?_⟩
  cases hr
  exact ⟨post, hc⟩

theorem atEnd (s : Text) (t : Bool) : Quiet gs (s.watched t).atEnd := of_answer fun _ => ⟨_, rfl⟩

theorem beforeEnd (s : Text) (t : Bool) : Quiet gs (s.watched t).beforeEnd :=
  of_answer fun _ => ⟨_, rfl⟩

theorem appendChar (str : Bytes) (ch : Nat) : Quiet gs (Watch.appendChar str ch) := by
  unfold Watch.appendChar
  split
  next => exact pure _
  next => exact timeout

end Quiet

variable {s : Text} {t : Bool} (hs : Holds s gs .nul)

include hs

theorem Holds.cuts_eq_false {c : Cursor} {g : Glyph} {post : List Glyph} (h : At gs c (g :: post)) :
    s.cuts c.it = false := by
  have hadd := h.it_add
  have hb : s.byte (c.it + 0) = .done g.head := hs.byte h (by simp [Glyph.bytes])
  simp only [flat_cons, List.length_append, Glyph.bytes, List.length_cons] at hadd
  rw [Text.cuts]
  unfold Text.byte at hb
  rw [Nat.add_zero] at hb
  cases hm : s.mem[s.offset + c.it]? with
  | none => rfl
  | some b =>
    rw [hm] at hb
    have hlen := g.complete
    have hhead : b = g.head := Outcome.done.inj hb
    have hcb := hs.cb
    exact decide_eq_false (by rw [hhead, ← hlen]; omega)

theorem Holds.not_cut {c : Cursor} {post : List Glyph} (h : At gs c post) :
    ¬(c.it < s.cb ∧ s.cuts c.it = true) := by
  intro hc
  cases post with
  | nil =>
    have hend := hs.it_eq_cb h
    omega
  | cons g post =>
    rw [hs.cuts_eq_false h] at hc
    cases hc.2

theorem Holds.peekChar_quiet : Quiet gs (s.watched t).peekChar := by
  intro c post hc
  have hp : (s.watched t).peekChar c = s.peekChar c := if_neg (hs.not_cut hc)
  rw [hp]
  refine Quiet.of_sim (text_peekChar_sim hs) (fun post => ?_) c post hc
  cases post <;> nofun

theorem Holds.readChar_quiet : Quiet gs (s.watched t).readChar := by
  intro c post hc
  have hp : (s.watched t).readChar c = s.readChar c := if_neg (hs.not_cut hc)
  rw [hp]
  refine Quiet.of_sim (text_readChar_sim hs) (fun post => ?_) c post hc
  cases post with
  | nil => exact Outcome.done_ne_fault _
  | cons g post =>
    simp only [glyphReader]
    split
    next => exact Outcome.done_ne_fault _
    next => exact Outcome.done_ne_fault _

/-- At the end the character is the terminator, which is what the watch compares with. -/
theorem Holds.asks_quiet (p : Nat → Bool) {k : Nat → Scan Cursor α} (hk : ∀ ch, Quiet gs (k ch)) :
    Quiet gs ((s.watched t).peekChar >>= fun ch => (s.watched t).asks p ch >>= fun _ => k ch) := by
  intro c post hc
  cases post with
  | nil =>
    have hend := Nat.le_of_eq (hs.it_eq_cb hc).symm
    obtain ⟨o, ho⟩ := hs.readUtf8_nil hc
    have hp : s.reader.peekChar c = .done (0, c) := by
      simp only [Text.reader, Text.peekChar, ho, Outcome.bind_done]
      rfl
    rw [Scan.bind_apply, watched_peekChar_past hend, hp, Outcome.bind_done, Scan.bind_apply,
      asks_past p 0 hend, if_pos rfl]
    exact hk 0 c [] hc
  | cons g post =>
    have hlt := Nat.lt_of_not_le (hs.not_ge_cb hc)
    have hp : (s.watched t).peekChar c = .done (g.code, c) := by
      rw [show (s.watched t).peekChar c = s.peekChar c from if_neg (hs.not_cut hc), Text.peekChar,
        hs.readUtf8_cons hc]
      rfl
    rw [Scan.bind_apply, hp, Outcome.bind_done, Scan.bind_apply, asks_inside p g.code hlt]
    exact hk g.code c _ hc

/-- A watch does not stop what fails at the end. -/
theorem Holds.stops_quiet {m : Scan Cursor Bool} {m' : Scan (List Glyph) Bool}
    (h : Scan.Sim (At gs) m m') (hm' : ∀ post, m' post ≠ .fault)
    (hend : m' [] = .done (false, [])) {stops : Prop} [Decidable stops] :
    Quiet gs fun c =>
      (m c).bind fun r => if r.1 ∧ s.cb ≤ c.it ∧ stops then .fault else .done r := by
  intro c post hc
  have hquiet := Quiet.of_sim h hm' c post hc
  have hgo : ((m c).bind fun r => if r.1 ∧ s.cb ≤ c.it ∧ stops then .fault else .done r) = m c := by
    cases hm : m c with
    | done r =>
      refine if_neg ?_
      rintro ⟨hr, hle, -⟩
      cases post with
      | nil =>
        obtain ⟨post', hpost', -⟩ := h.done_of_done_left (a := r.1) hc hm
        rw [hend] at hpost'
        rw [← (Prod.mk.inj (Outcome.done.inj hpost')).1] at hr
        cases hr
      | cons g post => exact hs.not_ge_cb hc hle
    | timeout => rfl
    | fault => rfl
  dsimp only
  rw [hgo]
  exact hquiet

theorem Holds.skipChar_quiet {ch : UInt8} (ha : ch &&& 128 = 0) (hne : ch ≠ 0) :
    Quiet gs ((s.watched t).skipChar ch) := by
  refine hs.stops_quiet (text_skipChar_sim hs ha hne.symm) (fun post => ?_) rfl
  cases post with
  | nil => exact Outcome.done_ne_fault _
  | cons g post =>
    simp only [glyphReader]
    split
    next => exact Outcome.done_ne_fault _
    next => exact Outcome.done_ne_fault _

theorem Holds.skipString_quiet {l : Bytes} (ha : ∀ b ∈ l, b &&& 128 = 0) (hl : l ≠ []) :
    Quiet gs ((s.watched t).skipString l) := by
  refine hs.stops_quiet (text_skipString_sim hs ha) (fun post => ?_) ?_
  · simp only [glyphReader]
    cases matchLit l post with
    | some gs' => exact Outcome.done_ne_fault _
    | none => exact Outcome.done_ne_fault _
  · cases l with
    | nil => exact absurd rfl hl
    | cons b l => rfl

theorem Holds.skipWhitespace_quiet : Quiet gs (s.watched t).skipWhitespace :=
  Quiet.of_sim (text_skipWhitespace_sim hs) nofun

theorem Holds.skipComment_quiet (n : Nat) : Quiet gs (skipComment (s.watched t).toReader n) := by
  induction n with
  | zero => exact Quiet.timeout
  | succ n ih =>
    refine Quiet.bind (Quiet.atEnd s t) fun e => Quiet.ite (Quiet.pure ()) ?_
    refine Quiet.bind hs.peekChar_quiet fun ch => Quiet.ite (Quiet.pure ()) ?_
    exact Quiet.bind hs.readChar_quiet fun _ => ih

theorem Holds.skipWhitespaceAndComments_quiet (n : Nat) (newLine : Bool) :
    Quiet gs ((s.watched t).skipWhitespaceAndComments n newLine) := by
  induction n generalizing newLine with
  | zero => exact Quiet.timeout
  | succ n ih =>
    refine Quiet.bind (Quiet.atEnd s t) fun e => Quiet.ite (Quiet.pure ()) ?_
    refine hs.asks_quiet isBlank fun ch =>
      Quiet.ite ?_ (Quiet.ite ?_ (Quiet.ite ?_ (Quiet.pure ())))
    · exact Quiet.bind hs.readChar_quiet fun _ => ih true
    · exact Quiet.bind hs.readChar_quiet fun _ => ih newLine
    · refine Quiet.bind (Quiet.ite (Quiet.pure _) (Quiet.ite ?_ (Quiet.pure _))) fun c =>
        Quiet.ite ?_ (Quiet.pure ())
      · exact hs.skipString_quiet (forall_mem_of_all rfl) (by decide)
      · exact Quiet.bind (hs.skipComment_quiet n) fun _ => ih newLine

theorem Holds.skipSpacesAndTabs_quiet (n : Nat) :
    Quiet gs (skipSpacesAndTabs (s.watched t).toReader n) := by
  induction n with
  | zero => exact Quiet.timeout
  | succ n ih =>
    refine Quiet.bind (Quiet.beforeEnd s t) fun e => Quiet.ite ?_ (Quiet.pure ())
    refine Quiet.bind hs.peekChar_quiet fun ch => Quiet.ite ?_ (Quiet.pure ())
    exact Quiet.bind hs.readChar_quiet fun _ => ih

theorem Holds.parseStringLoop_quiet (quoted : Bool) (n : Nat) (str : Bytes) :
    Quiet gs ((s.watched t).parseStringLoop quoted n str) := by
  induction n generalizing str with
  | zero => exact Quiet.timeout
  | succ n ih =>
    refine Quiet.bind (Quiet.beforeEnd s t) fun e => Quiet.ite ?_ (Quiet.pure str)
    refine Quiet.bind hs.peekChar_quiet fun ch => Quiet.ite (Quiet.pure str) ?_
    refine Quiet.bind hs.readChar_quiet fun ch => Quiet.ite (Quiet.pure str) ?_
    refine Quiet.ite (Quiet.pure str) (Quiet.ite ?_ ?_)
    · refine Quiet.bind hs.readChar_quiet fun ch => Quiet.ite ?_ (ih str)
      exact Quiet.bind (Quiet.appendChar _ _) fun str' => ih str'
    · exact Quiet.bind (Quiet.appendChar _ _) fun str' => ih str'

theorem Holds.parseString_quiet (n : Nat) : Quiet gs ((s.watched t).parseString n) := by
  refine Quiet.bind hs.peekChar_quiet fun ch => Quiet.ite ?_ (hs.parseStringLoop_quiet false n [])
  exact Quiet.bind hs.readChar_quiet fun _ => hs.parseStringLoop_quiet true n []

theorem Holds.parseSigns_quiet (n : Nat) (neg : Bool) :
    Quiet gs ((s.watched t).parseSigns n neg) := by
  induction n generalizing neg with
  | zero => exact Quiet.timeout
  | succ n ih =>
    refine hs.asks_quiet isSign fun ch => Quiet.ite ?_ (Quiet.pure neg)
    refine Quiet.bind hs.readChar_quiet fun _ => Quiet.bind hs.skipWhitespace_quiet fun _ => ih _

theorem Holds.parseBase_quiet : Quiet gs (parseBase (s.watched t).toReader) := by
  refine Quiet.bind (hs.skipChar_quiet (by decide) (by decide)) fun b => Quiet.ite ?_ (Quiet.pure _)
  refine Quiet.bind (hs.skipChar_quiet (by decide) (by decide)) fun b => ?_
  exact Quiet.ite (Quiet.pure _) (Quiet.pure _)

theorem Holds.parseKeyword_quiet (ch : Nat) :
    Quiet gs (parseKeyword (s.watched t).toReader ch) := by
  have hword {l : Bytes} (ha : ∀ b ∈ l, b &&& 128 = 0) (hl : l ≠ []) (v : Option CVal) :
      Quiet gs (do if ← (s.watched t).skipString l then pure v else pure none) :=
    Quiet.bind (hs.skipString_quiet ha hl) fun b => Quiet.ite (Quiet.pure _) (Quiet.pure _)
  refine Quiet.ite (hword (forall_mem_of_all rfl) (by decide) _) (Quiet.ite ?_
    (Quiet.ite (hword (forall_mem_of_all rfl) (by decide) _) (Quiet.pure none)))
  exact hword (forall_mem_of_all rfl) (by decide) _

theorem Holds.skipFieldComma_quiet (json : Bool) :
    Quiet gs (skipFieldComma (s.watched t).toReader json) := by
  refine Quiet.ite (Quiet.bind (hs.skipChar_quiet (by decide) (by decide)) fun b => ?_)
    (Quiet.pure ())
  exact Quiet.ite hs.skipWhitespace_quiet (Quiet.pure ())

section

variable {value : Scan Cursor CVal} (hv : Quiet gs value)

include hv

theorem Holds.parseFields_quiet (json : Bool) (k n : Nat) (fields : List (Bytes × CVal)) :
    Quiet gs ((s.watched t).parseFields json value k n fields) := by
  have hw := hs.skipWhitespaceAndComments_quiet (t := t) k false
  induction n generalizing fields with
  | zero => exact Quiet.timeout
  | succ n ih =>
    refine Quiet.bind hs.peekChar_quiet fun ch => Quiet.ite (Quiet.pure _) ?_
    refine Quiet.bind (Quiet.beforeEnd s t) fun e => Quiet.ite ?_ (Quiet.pure _)
    refine Quiet.bind hw fun _ => Quiet.bind (hs.parseString_quiet k) fun name => ?_
    refine Quiet.ite (Quiet.pure _) (Quiet.bind hw fun _ => ?_)
    refine Quiet.bind hs.readChar_quiet fun colon => Quiet.ite (Quiet.pure _) ?_
    refine Quiet.bind hv fun v => Quiet.bind hw fun _ => ?_
    exact Quiet.bind (hs.skipFieldComma_quiet json) fun _ => ih _

theorem Holds.parseElements_quiet (k n : Nat) (vec : List CVal) :
    Quiet gs ((s.watched t).parseElements value k n vec) := by
  induction n generalizing vec with
  | zero => exact Quiet.timeout
  | succ n ih =>
    refine Quiet.bind hs.peekChar_quiet fun ch => Quiet.ite (Quiet.pure _) ?_
    refine Quiet.bind (Quiet.beforeEnd s t) fun e => Quiet.ite ?_ (Quiet.pure _)
    refine Quiet.bind hv fun v => ?_
    refine Quiet.bind (hs.skipWhitespaceAndComments_quiet k false) fun _ => ?_
    refine Quiet.bind hs.peekChar_quiet fun sep => Quiet.ite ?_ (Quiet.pure _)
    exact Quiet.bind hs.readChar_quiet fun _ => ih _

theorem Holds.parseImplicit_quiet (k n : Nat) (v : CVal) :
    Quiet gs ((s.watched t).parseImplicit value k n v) := by
  induction n generalizing v with
  | zero => exact Quiet.timeout
  | succ n ih =>
    refine Quiet.bind (hs.skipSpacesAndTabs_quiet k) fun _ => ?_
    exact hs.asks_quiet endsImplicitArray fun ch => Quiet.ite (Quiet.pure v)
      (Quiet.bind hv fun elem => ih _)

end

variable [Fpu]

theorem Holds.parseDigits_quiet (base n : Nat) (st : NumState) :
    Quiet gs ((s.watched t).parseDigits base n st) := by
  induction n generalizing st with
  | zero => exact Quiet.timeout
  | succ n ih =>
    refine hs.asks_quiet (isMantissaChar base) fun ch => Quiet.ite ?_ (Quiet.ite ?_ (Quiet.pure st))
    · exact Quiet.bind hs.readChar_quiet fun _ => ih _
    · exact Quiet.bind hs.readChar_quiet fun _ => ih _

theorem Holds.parseSuffix_quiet (v : CVal) : Quiet gs (parseSuffix (s.watched t).toReader v) := by
  have hstep {l : Bytes} (ha : ∀ b ∈ l, b &&& 128 = 0) (hl : l ≠ []) (x : CVal)
      {no : Scan Cursor CVal} (hno : Quiet gs no) :
      Quiet gs (do if ← (s.watched t).skipString l then pure x else no) :=
    Quiet.bind (hs.skipString_quiet ha hl) fun b => Quiet.ite (Quiet.pure _) hno
  refine Quiet.bind (hs.skipChar_quiet (by decide) (by decide)) fun b => Quiet.ite (Quiet.pure _) ?_
  refine hstep (forall_mem_of_all rfl) (by decide) _ ?_
  refine hstep (forall_mem_of_all rfl) (by decide) _ ?_
  refine hstep (forall_mem_of_all rfl) (by decide) _ ?_
  refine hstep (forall_mem_of_all rfl) (by decide) _ ?_
  refine hstep (forall_mem_of_all rfl) (by decide) _ ?_
  exact hstep (forall_mem_of_all rfl) (by decide) _ (Quiet.pure v)

theorem Holds.parseNumber_quiet (n : Nat) : Quiet gs ((s.watched t).parseNumber n) := by
  refine Quiet.bind (hs.parseSigns_quiet n false) fun neg => ?_
  refine Quiet.bind hs.parseBase_quiet fun base => ?_
  exact Quiet.bind (hs.parseDigits_quiet base n _) fun st => hs.parseSuffix_quiet _

theorem Holds.parseValue_quiet (json : Bool) (n : Nat) {value : Scan Cursor CVal}
    (hv : Quiet gs value) {rest : CVal → Scan Cursor CVal} (hr : ∀ v, Quiet gs (rest v)) :
    Quiet gs ((s.watched t).parseValue json value rest n) := by
  have hw := hs.skipWhitespaceAndComments_quiet (t := t) n false
  refine Quiet.bind (Quiet.beforeEnd s t) fun e => Quiet.ite ?_ (Quiet.pure _)
  refine Quiet.bind hw fun _ => hs.asks_quiet opensValue fun ch => ?_
  refine Quiet.ite ?_ (Quiet.ite ?_ (Quiet.ite ?_ ?_))
  · refine Quiet.bind hs.readChar_quiet fun _ => Quiet.bind hw fun _ => ?_
    refine Quiet.bind (hs.parseFields_quiet hv json n n []) fun fields => ?_
    exact Quiet.ite (Quiet.pure _) (Quiet.bind hs.readChar_quiet fun _ => hr _)
  · refine Quiet.bind hs.readChar_quiet fun _ => Quiet.bind hw fun _ => ?_
    refine Quiet.bind (hs.parseElements_quiet hv n n []) fun vec => ?_
    exact Quiet.bind (hs.skipChar_quiet (by decide) (by decide)) fun _ => hr _
  · exact Quiet.bind (hs.parseNumber_quiet n) fun v => hr v
  · refine Quiet.bind (hs.parseKeyword_quiet ch) fun keyword => ?_
    cases keyword with
    | some v => exact hr v
    | none => exact Quiet.bind (hs.parseString_quiet n) fun str => hr _

theorem Holds.parse_quiet (n : Nat) (flags : Flags) : Quiet gs ((s.watched t).parse n flags) := by
  induction n generalizing flags with
  | zero => exact Quiet.timeout
  | succ n ih =>
    refine hs.parseValue_quiet _ n (ih flags) fun v => Quiet.ite ?_ (Quiet.pure v)
    exact hs.parseImplicit_quiet (ih _) n n v

/-- Complete sequences before a NUL mislead no parser. -/
theorem Holds.calm (flags : Flags) : s.Calm flags :=
  fun n => (hs.parse_quiet n flags .start gs (At.start gs)).1

theorem Holds.numberCalm {offset : Nat} (ho : Boundary gs offset) : s.NumberCalm offset := by
  obtain ⟨pre, post, hgs, hlen⟩ := id ho
  have hat : At gs ⟨offset, [offset]⟩ post := by
    refine ⟨⟨pre, hgs, hlen⟩, fun o hmem => ?_⟩
    rw [List.mem_singleton.mp hmem]
    exact ho
  exact fun n => (hs.parseNumber_quiet n _ post hat).1

end Quiet

/-! ## Parsed alike -/

section Runs

variable {cb : Nat} {c : Cursor} {R : Cursor → Cursor → Prop} {D : Differ CVal}
  {m m' p p' : Nat → Scan Cursor CVal} (hg' : ∀ n, Guards (m' n) (p' n))
  (ht : ∀ i k, i ≤ k → Twinned cb R D (m i c) (m' (i + 1) c) (p k c))

include hg' ht

/-- Where no watched run faults, an answer on one text is one on the other. -/
theorem answer_transfer (hg : ∀ n, Guards (m n) (p n)) (hm : ∀ n, m n c ≠ .fault)
    (hm' : ∀ n, m' n c ≠ .fault) {n : Nat} {v : CVal}
    {c₁ : Cursor} (h : p n c = .done (v, c₁)) : ∃ c₂, p' (n + 1) c = .done (v, c₂) ∧ R c₁ c₂ := by
  have hrun : m n c = .done (v, c₁) := by
    rcases hg n c with hf | heq | ⟨-, hf⟩
    · exact absurd hf (hm n)
    · exact heq.trans h
    · rw [h] at hf
      cases hf
  rcases ht n n (Nat.le_refl n) with (hf | hf | ⟨a, c₂, c₂', hx, hy, hR⟩) | ⟨hf, -⟩
  · rw [hrun] at hf
    cases hf
  · exact absurd hf (hm' (n + 1))
  · obtain ⟨rfl, rfl⟩ := Prod.mk.inj (Outcome.done.inj (hx.symm.trans hrun))
    exact ⟨c₂', (hg' (n + 1)).foretells (Scan.Le.refl _) c _ hy, hR⟩
  · exact absurd hf (hm n)

/-- Where only the first watched run faults, every answer there is a different one. -/
theorem answer_differs (hle : ∀ i k, i ≤ k → (p i).Le (p k)) (hm' : ∀ n, m' n c ≠ .fault) {n : Nat}
    (h : m n c = .fault) :
    ∃ r₀, p' (n + 1) c = .done r₀ ∧ ∀ k r, p k c = .done r → D r r₀ := by
  have hclash (k : Nat) (hk : n ≤ k) :
      ∃ r₀, m' (n + 1) c = .done r₀ ∧ ∀ r, p k c = .done r → D r r₀ := by
    rcases ht n k hk with (hf | hf | ⟨a, c₂, c₂', hx, -⟩) | ⟨-, r₀, hy, -, hD⟩
    · rw [h] at hf
      cases hf
    · exact absurd hf (hm' (n + 1))
    · rw [h] at hx
      cases hx
    · exact ⟨r₀, hy, hD⟩
  obtain ⟨r₀, hy, -⟩ := hclash n (Nat.le_refl n)
  refine ⟨r₀, (hg' (n + 1)).foretells (Scan.Le.refl _) c _ hy, fun k r hr => ?_⟩
  obtain ⟨r₁, hy₁, hD⟩ := hclash (max n k) (Nat.le_max_left n k)
  rw [Outcome.done.inj (hy.symm.trans hy₁)]
  exact hD r ((hle k (max n k) (Nat.le_max_right n k) c).eq_of_done hr)

end Runs

/-- Runs that each carry their answers over to the other end alike, with related answers. -/
theorem same_answers {m p : Nat → Scan Cursor CVal} {c : Cursor}
    {Q : CVal × Cursor → CVal × Cursor → Prop} (hle : ∀ i j, i ≤ j → (p i).Le (p j))
    (h : ∀ {n r}, m n c = .done r → ∃ r', p (n + 1) c = .done r' ∧ Q r r')
    (h' : ∀ {n r}, p n c = .done r → ∃ r', m (n + 1) c = .done r') :
    ((∃ n r, m n c = .done r) ↔ ∃ n r, p n c = .done r) ∧
      ∀ n n' {r r'}, m n c = .done r → p n' c = .done r' → Q r r' := by
  constructor
  · constructor
    · rintro ⟨n, r, hr⟩
      obtain ⟨r', hr', -⟩ := h hr
      exact ⟨n + 1, r', hr'⟩
    · rintro ⟨n, r, hr⟩
      obtain ⟨r', hr'⟩ := h' hr
      exact ⟨n + 1, r', hr'⟩
  · intro n n' r r' hr hr'
    obtain ⟨r₁, hr₁, hQ⟩ := h hr
    rw [Scan.Returns.unique hle ⟨n', hr'⟩ ⟨n + 1, hr₁⟩]
    exact hQ

section Same

variable [Fpu]

/-- The two texts are parsed alike. -/
structure SameParse (flags : Flags) (s s' : Text) : Prop where
  terminates : s.Terminates flags ↔ s'.Terminates flags
  val : ∀ fuel fuel' {r r'}, s.parse flags fuel = .done r → s'.parse flags fuel' = .done r' →
    r.1 = r'.1

/-- From this offset the two texts give the same number and the same new offset. -/
structure SameNumber (offset : Nat) (s s' : Text) : Prop where
  terminates : (∃ fuel r, s.parseNumber offset fuel = .done r) ↔
    ∃ fuel r, s'.parseNumber offset fuel = .done r
  val : ∀ fuel fuel' {r r'}, s.parseNumber offset fuel = .done r →
    s'.parseNumber offset fuel' = .done r' → r.1 = r'.1 ∧ r.2.it = r'.2.it

variable {s s₀ : Text} (hcontent : s.content = s₀.content) (hroom : s.mem.length < 2 ^ 32)
  (hroom₀ : s₀.mem.length < 2 ^ 32)

include hcontent hroom hroom₀

theorem parse_twinned (flags : Flags) (i k : Nat) (hk : i ≤ k) :
    Twinned s.cb (Rel s.cb false) (differs s.cb id) ((s.watched false).parse i flags .start)
      ((s₀.watched false).parse (i + 1) flags .start) (parse s.reader k flags .start) :=
  parse_twin hcontent hroom hroom₀ (Nat.lt_succ_self i) hk flags _ _ (Or.inl ⟨rfl, Nat.zero_le _⟩)

theorem parseNumber_twinned (offset i k : Nat) (hk : i ≤ k) :
    Twinned s.cb (Rel s.cb true) (parts s.cb true)
      ((s.watched true).parseNumber i ⟨offset, [offset]⟩)
      ((s₀.watched true).parseNumber (i + 1) ⟨offset, [offset]⟩)
      (parseNumber s.reader k ⟨offset, [offset]⟩) := by
  refine parseNumber_twin hcontent hroom hroom₀ (Nat.lt_succ_self i) hk _ _ ?_
  rcases Nat.le_total offset s.cb with h | h
  · exact Or.inl ⟨rfl, h⟩
  · exact Or.inr ⟨h, h, fun _ => rfl⟩

theorem Text.Calm.parse_of_parse {flags : Flags} (hs : s.Calm flags) (hs₀ : s₀.Calm flags)
    {fuel : Nat} {v : CVal} {c : Cursor} (h : s.parse flags fuel = .done (v, c)) :
    ∃ c', s₀.parse flags (fuel + 1) = .done (v, c') := by
  obtain ⟨c', hc', -⟩ := answer_transfer (fun n => parse_guards s₀ false n flags)
    (parse_twinned hcontent hroom hroom₀ flags) (fun n => parse_guards s false n flags) hs hs₀ h
  exact ⟨c', hc'⟩

theorem Text.NumberCalm.parseNumber_of_parseNumber {offset : Nat} (hs : s.NumberCalm offset)
    (hs₀ : s₀.NumberCalm offset) {fuel : Nat} {v : CVal} {c : Cursor}
    (h : s.parseNumber offset fuel = .done (v, c)) :
    ∃ c', s₀.parseNumber offset (fuel + 1) = .done (v, c') ∧ c.it = c'.it := by
  obtain ⟨c', hc', hR⟩ := answer_transfer (fun n => parseNumber_guards s₀ true n)
    (parseNumber_twinned hcontent hroom hroom₀ offset) (fun n => parseNumber_guards s true n) hs
    hs₀ h
  refine ⟨c', hc', ?_⟩
  rcases hR with hR | hR
  · exact hR.1
  · exact hR.2.2 rfl

theorem Text.Calm.sameParse {flags : Flags} (hs : s.Calm flags) (hs₀ : s₀.Calm flags) :
    SameParse flags s s₀ := by
  have hsame := same_answers (m := fun n => Libacorn.parse s.reader n flags)
    (p := fun n => Libacorn.parse s₀.reader n flags) (c := .start) (Q := fun r r' => r.1 = r'.1)
    (fun _ _ hij => parse_le s₀.reader hij flags) ?_ ?_
  · exact ⟨hsame.1, hsame.2⟩
  · rintro n ⟨v, c⟩ h
    obtain ⟨c', h'⟩ := hs.parse_of_parse hcontent hroom hroom₀ hs₀ h
    exact ⟨(v, c'), h', rfl⟩
  · rintro n ⟨v, c⟩ h
    obtain ⟨c', h'⟩ := hs₀.parse_of_parse hcontent.symm hroom₀ hroom hs h
    exact ⟨(v, c'), h'⟩

theorem Text.NumberCalm.sameNumber {offset : Nat} (hs : s.NumberCalm offset)
    (hs₀ : s₀.NumberCalm offset) : SameNumber offset s s₀ := by
  have hsame := same_answers (m := fun n => Libacorn.parseNumber s.reader n)
    (p := fun n => Libacorn.parseNumber s₀.reader n) (c := ⟨offset, [offset]⟩)
    (Q := fun r r' => r.1 = r'.1 ∧ r.2.it = r'.2.it)
    (fun _ _ hij => parseNumber_le s₀.reader hij) ?_ ?_
  · exact ⟨hsame.1, hsame.2⟩
  · rintro n ⟨v, c⟩ h
    obtain ⟨c', h', hit⟩ := hs.parseNumber_of_parseNumber hcontent hroom hroom₀ hs₀ h
    exact ⟨(v, c'), h', rfl, hit⟩
  · rintro n ⟨v, c⟩ h
    obtain ⟨c', h', -⟩ := hs₀.parseNumber_of_parseNumber hcontent.symm hroom₀ hroom hs h
    exact ⟨(v, c'), h'⟩

/-- A misled parser gives another val than one that is not, or none. -/
theorem SameParse.calm {flags : Flags} (h : SameParse flags s s₀) (hs₀ : s₀.Calm flags) :
    s.Calm flags := by
  intro n hn
  obtain ⟨r₀, hr₀, hne⟩ := answer_differs (fun n => parse_guards s₀ false n flags)
    (parse_twinned hcontent hroom hroom₀ flags) (fun i k hik => parse_le s.reader hik flags) hs₀ hn
  obtain ⟨k, r, hr⟩ := h.terminates.mpr ⟨n + 1, r₀, hr₀⟩
  exact (hne k r hr).2 (h.val k (n + 1) hr hr₀)

theorem SameNumber.calm {offset : Nat} (h : SameNumber offset s s₀) (hs₀ : s₀.NumberCalm offset) :
    s.NumberCalm offset := by
  intro n hn
  obtain ⟨r₀, hr₀, hne⟩ := answer_differs (fun n => parseNumber_guards s₀ true n)
    (parseNumber_twinned hcontent hroom hroom₀ offset)
    (fun i k hik => parseNumber_le s.reader hik) hs₀ hn
  obtain ⟨k, r, hr⟩ := h.terminates.mpr ⟨n + 1, r₀, hr₀⟩
  obtain ⟨hval, hit⟩ := h.val k (n + 1) hr hr₀
  rcases (hne k r hr).2 with hv | ⟨-, hend⟩
  · exact hv hval
  · exact hend hit

/-- Next to a handle that misleads nobody, another one with its content is parsed alike exactly
if it misleads nobody either. -/
theorem parse_contentOnly_iff :
    (∀ flags, s₀.Calm flags → (SameParse flags s s₀ ↔ s.Calm flags)) ∧
      ∀ offset, s₀.NumberCalm offset → (SameNumber offset s s₀ ↔ s.NumberCalm offset) :=
  ⟨fun _ hs₀ => ⟨fun h => h.calm hcontent hroom hroom₀ hs₀,
      fun hs => hs.sameParse hcontent hroom hroom₀ hs₀⟩,
    fun _ hs₀ => ⟨fun h => h.calm hcontent hroom hroom₀ hs₀,
      fun hs => hs.sameNumber hcontent hroom hroom₀ hs₀⟩⟩

end Same

/-! ## Slices -/

/-- The slice `gs` at the start of a buffer that goes on with `g` and `t`. -/
def slice (gs : List Glyph) (g : Glyph) (t : Bytes) (h : (flat gs).length < 2 ^ 31) : Text where
  mem := flat gs ++ (g.bytes ++ t)
  offset := 0
  cb := (flat gs).length
  static := false
  cb_lt := by omega
  fits := by simp

theorem holds_slice (gs : List Glyph) (g : Glyph) (t : Bytes) (h : (flat gs).length < 2 ^ 31) :
    Holds (slice gs g t h) gs g where
  mem := ⟨t, rfl⟩
  cb := rfl
  room := by
    have := g.length_tail_le
    simp only [slice]
    omega

/-- An ASCII glyph. -/
def ascii (c : Char) (h : UInt8.ofNat c.toNat &&& 128 = 0 := by decide) : Glyph :=
  .ofAscii (UInt8.ofNat c.toNat) h

/-- In JSON the slice `a` of the buffer `a3` is parsed like a whole buffer `a`. -/
theorem parse_contentOnly_bare :
    @SameParse .ieee .jsonOnly (slice [ascii 'a'] (ascii '3') [0] (by decide))
      (slice [ascii 'a'] .nul [] (by decide)) := by
  let s := slice [ascii 'a'] (ascii '3') [0] (by decide)
  have hcalm : @Text.Calm .ieee s .jsonOnly := by
    intro n hn
    have h0 : @Watch.parse _ (s.watched false) .ieee 0 .jsonOnly .start = .timeout := rfl
    have h1 : @Watch.parse _ (s.watched false) .ieee 1 .jsonOnly .start = .timeout := rfl
    have h2 : @Watch.parse _ (s.watched false) .ieee 2 .jsonOnly .start = .timeout := rfl
    have h3 (n : Nat) : @Watch.parse _ (s.watched false) .ieee (n + 3) .jsonOnly .start =
      .done (.string [0x61], ⟨1, [1, 0]⟩) := rfl
    rcases n with _ | _ | _ | n
    · cases h0.symm.trans hn
    · cases h1.symm.trans hn
    · cases h2.symm.trans hn
    · cases (h3 n).symm.trans hn
  have hcontent : s.content = (slice [ascii 'a'] .nul [] (by decide)).content := rfl
  have hholds := holds_slice [ascii 'a'] .nul [] (by decide)
  have hs₀ := @Holds.calm _ _ hholds .ieee .jsonOnly
  have hiff := @parse_contentOnly_iff .ieee _ _ hcontent (by decide) (by decide)
  exact (hiff.1 .jsonOnly hs₀).mpr hcalm

/-- The slice `12` of the buffer `123` is never parsed, though a whole buffer `12` is. -/
theorem parse_slice_diverges :
    (slice [ascii '1', ascii '2'] (ascii '3') [0] (by decide)).content =
        (slice [ascii '1', ascii '2'] .nul [] (by decide)).content ∧
      ¬@SameParse .ieee .jsonOnly (slice [ascii '1', ascii '2'] (ascii '3') [0] (by decide))
        (slice [ascii '1', ascii '2'] .nul [] (by decide)) := by
  let s := slice [ascii '1', ascii '2'] (ascii '3') [0] (by decide)
  have hcontent : s.content = (slice [ascii '1', ascii '2'] .nul [] (by decide)).content := rfl
  have hholds := holds_slice [ascii '1', ascii '2'] .nul [] (by decide)
  have hs₀ := @Holds.calm _ _ hholds .ieee .jsonOnly
  have hmisled : @Watch.parse _ (s.watched false) .ieee 4 .jsonOnly .start = .fault := rfl
  refine ⟨hcontent, fun h => ?_⟩
  exact @SameParse.calm .ieee _ _ hcontent (by decide) (by decide) _ h hs₀ 4 hmisled

end Libacorn
