import Libacorn.StringRuns

/-!
# Editing strings as lists of bytes

`insert` does to the content what it should do to a list. `erase` does not
always: the terminator goes to `_buf[_cb]`, so a handle that keeps an offset may
lose a byte of its own (`edits_refine_iff`).
-/

namespace Libacorn

open Support

namespace StringHeap

/-! ## Lists of bytes -/

/-- The list without the range between the two positions. -/
def removed (w : Bytes) (a b : Nat) : Bytes := w.take (min a b) ++ w.drop (max a b)

/-- The list with `p` at position `o`. -/
def inserted (w : Bytes) (o : Nat) (p : Bytes) : Bytes := w.take o ++ p ++ w.drop o

theorem removed_clamp (w : Bytes) (a b : Nat) :
    w.take (min w.length (min a b)) ++ w.drop (min w.length (max a b)) = removed w a b := by
  have hdrop : w.drop (min w.length (max a b)) = w.drop (max a b) := by
    by_cases h : max a b ≤ w.length
    · rw [Nat.min_eq_right h]
    · rw [Nat.min_eq_left (by omega), List.drop_length, List.drop_eq_nil_of_le (by omega)]
  rw [hdrop, ← List.take_take, List.take_of_length_le (List.length_take_le' _ _), removed]

theorem removed_nothing {w : Bytes} {a b : Nat}
    (h : min w.length (max a b) = min w.length (min a b)) :
    removed w a b = w := by
  rw [← removed_clamp, h, List.take_append_drop]

/-- A terminator at `_buf[_cb]` hits no byte of a content that starts at `off`, or one that is
zero already. -/
def Harmless (off : Nat) (w : Bytes) : Prop :=
  0 < off → off ≤ w.length → w[w.length - off]? = some 0

theorem strayTerminator_eq_iff {off : Nat} {w : Bytes} :
    strayTerminator off w = w ↔ Harmless off w := by
  rw [strayTerminator, Harmless]
  split_ifs with h
  · constructor
    · intro heq _ _
      rw [← heq, List.length_set, List.getElem?_set, if_pos rfl, if_pos (by omega)]
    · intro hz
      apply List.ext_getElem?
      intro j
      rw [List.getElem?_set]
      split_ifs with hj
      · rw [← hj, hz h.1 h.2]
      · omega
      · rfl
  · constructor
    · intro _ h0 hle
      exact absurd ⟨h0, hle⟩ h
    · exact fun _ => rfl

/-! ## Offsets -/

/-- The offset that `prepareToModify` leaves: a copy starts at its buffer, a handle that is
alone keeps its own. -/
def editOffset (H : Heap) (h : Handle) : Nat :=
  match h.type, h.buf with
  | .Standard, .heap i =>
    match H.cells i with
    | some c => if c.refs > 1 then 0 else h.offset
    | none => 0
  | _, _ => 0

section Offset

variable {H : Heap} {h : Handle} {rest : Multiset Nat}

theorem editOffset_of_zero (h0 : h.offset = 0) : editOffset H h = 0 := by
  rw [editOffset]
  split
  · split
    · rw [h0, ite_self]
    · rfl
  · rfl

theorem Sole.editOffset_eq {H' : Heap} {i : Nat} {b : Buf} (hs : Sole H rest H' h i b) :
    editOffset H' h = h.offset := by
  obtain ⟨c, hcell, hrefs⟩ := hs.owned.exists_cell (Multiset.mem_cons_self i rest)
  rw [Multiset.count_cons_self, Multiset.count_eq_zero_of_notMem hs.notMem] at hrefs
  simp only [editOffset, hs.type, hs.buf, hcell, hrefs]
  exact if_neg (by decide)

theorem prepareToModify_offset [Uninit] {H' : Heap} {h' : Handle}
    (hp : prepareToModify H h = .ok (H', h')) : h'.offset = editOffset H h := by
  obtain ⟨buf, cb, offset, type⟩ := h
  cases type with
  | Static =>
    simp only [prepareToModify] at hp
    obtain ⟨r, -, hp⟩ := bind_eq_ok hp
    obtain ⟨-, rfl⟩ := Prod.mk.inj (Except.ok.inj hp)
    rfl
  | Standard =>
    cases buf with
    | null => cases hp
    | lit m => cases hp
    | heap i =>
      simp only [prepareToModify] at hp
      simp only [editOffset]
      cases hcell : H.cells i with
      | none =>
        rw [hcell] at hp
        cases hp
      | some c =>
        simp only [hcell] at hp ⊢
        split_ifs at hp ⊢
        · obtain ⟨H₁, -, hp⟩ := bind_eq_ok hp
          obtain ⟨r, -, hp⟩ := bind_eq_ok hp
          obtain ⟨-, rfl⟩ := Prod.mk.inj (Except.ok.inj hp)
          rfl
        · obtain ⟨-, rfl⟩ := Prod.mk.inj (Except.ok.inj hp)
          rfl

end Offset

/-! ## Comparing -/

section Compare

variable {H : Heap} {h q : Handle}

/-- Part of the content can be read. -/
theorem WF.read_part (hw : WF H h) {o n : Nat} (hle : o + n ≤ h.cb) :
    read H h.buf (h.offset + o) n = .ok (((content H h).drop o).take n) := by
  have hpart : ∀ mem : Bytes, (mem.drop (h.offset + o)).take n =
      (((mem.drop h.offset).take h.cb).drop o).take n := by
    intro mem
    rw [List.drop_take, List.take_take, List.drop_drop, Nat.min_eq_left (by omega)]
  cases hw with
  | null hb hcb ho =>
    obtain rfl : n = 0 := by omega
    simp [read, hb]
  | lit hb ht hle' hm =>
    simp only [read, content, memory, hb]
    rw [if_pos (by omega), hpart]
  | @heap i b hb ht hget hle' hz =>
    simp only [read, content, memory, hb, hget]
    rw [if_pos (by rw [b.size]; omega), hpart]
    rfl

theorem sameBytes_eq (hw : WF H h) (hq : WF H q) {o : Nat} (hle : o + q.cb ≤ h.cb) :
    sameBytes H h o q = .ok (decide (((content H h).drop o).take q.cb = content H q)) := by
  rw [sameBytes, hw.read_part hle, hq.read_eq]
  rfl

end Compare

/-! ## One handle -/

section Edit

variable [Uninit] {H : Heap} {h q : Handle} {rest : Multiset Nat}

theorem erase_content (hw : WF H h) (hO : H.Owned (own h + rest)) (hc : rest.card + 1 < 2 ^ 32)
    (a b : Nat) :
    ∃ r, erase H h a b = .ok r ∧
      (content r.1 r.2 = removed (content H h) a b ↔ min h.cb (max a b) = min h.cb (min a b) ∨
        Harmless (editOffset H h) (removed (content H h) a b)) := by
  have hlen := hw.length_content
  by_cases hn : min h.cb (max a b) - min h.cb (min a b) = 0
  · have hsame : min h.cb (max a b) = min h.cb (min a b) := by omega
    refine ⟨(H, h), ?_, iff_of_true ?_ (Or.inl hsame)⟩
    · simp only [erase, hn, ↓reduceIte]
      rfl
    · exact (removed_nothing (by rw [hlen]; exact hsame)).symm
  · obtain ⟨H', h', i, b', her, -, -, -, -, H₁, h₁, hprep, -, hcont⟩ :=
      erase_spec hw hO hc rfl rfl hn
    rw [← hlen, removed_clamp] at hcont
    refine ⟨(H', h'), her, ?_⟩
    rw [prepareToModify_offset hprep] at hcont
    rw [hcont, strayTerminator_eq_iff]
    constructor
    · exact Or.inr
    · rintro (hsame | hz)
      · omega
      · exact hz

theorem insert_content (hw : WF H h) (hO : H.Owned (own h + rest)) (hc : rest.card + 1 < 2 ^ 32)
    {o : Nat} (ho : o ≤ h.cb) {p : Bytes} (hlen : p.length < 2 ^ 31) (hplain : h.Plain)
    (hfit : h.buf ≠ .null → p ≠ [] → preparedSize H h + p.length < 2 ^ 32) :
    ∃ H' h', insert H h o p = .ok (H', h') ∧ Keeps H rest (H', h') ∧ h'.cb = h.cb + p.length ∧
      content H' h' = inserted (content H h) o p ∧ editOffset H' h' = editOffset H h := by
  have hcontent := hw.length_content
  have hlength : (inserted (content H h) o p).length = h.cb + p.length := by
    rw [inserted, List.length_append, List.length_append, List.length_take, List.length_drop]
    omega
  by_cases hp : p = []
  · refine ⟨H, h, ?_, ⟨hw, hO, Frame.refl H rest⟩, ?_, ?_, rfl⟩
    · rw [insert, if_pos hp]
      rfl
    · rw [hp, List.length_nil, Nat.add_zero]
    · rw [inserted, hp, List.append_nil, List.take_append_drop]
  · by_cases hbuf : h.buf = .null
    · obtain ⟨H', h', i, b, has, hsole, hb, hterm, hcont, h0⟩ :=
        assign_spec hw hO hc (hplain hbuf) (show p.length < 2 ^ 32 by omega)
      have hkeep := (hsole.built hterm hcont).keeps
      obtain ⟨hcb, hoff⟩ : h.cb = 0 ∧ h.offset = 0 := by
        cases hw with
        | null _ hcb hoff => exact ⟨hcb, hoff⟩
        | lit hb => rw [hbuf] at hb; cases hb
        | heap hb => rw [hbuf] at hb; cases hb
      have hnil : content H h = [] := List.eq_nil_of_length_eq_zero (by omega)
      refine ⟨H', h', ?_, hkeep, ?_, ?_, ?_⟩
      · simp only [insert, hp, ↓reduceIte, hbuf]
        exact has
      · rw [← hkeep.wf.length_content, hcb, Nat.zero_add]
        exact congrArg List.length hcont
      · rw [hcont, hnil, inserted, List.take_nil, List.drop_nil, List.append_nil, List.nil_append]
      · rw [editOffset_of_zero h0, editOffset_of_zero hoff]
    · obtain ⟨H', h', i, b, hins, hsole, hb, hterm, hcont, H₁, h₁, hprep, hoff⟩ :=
        insert_spec hw hO hbuf hc ho hp (hfit hbuf hp)
      have hkeep := (hsole.built hterm hcont).keeps
      refine ⟨H', h', hins, hkeep, ?_, hcont, ?_⟩
      · rw [← hkeep.wf.length_content, ← hlength]
        exact congrArg List.length hcont
      · rw [hsole.editOffset_eq, hoff, prepareToModify_offset hprep]

/-- `hadPrefix(q)` after `prepend(q)`. -/
theorem hadPrefix_prepend (hw : WF H h) (hO : H.Owned (own h + rest)) (hc : rest.card + 1 < 2 ^ 32)
    (hq : WF H q) (hown : own q ≤ rest) (hlen : q.cb < 2 ^ 31) (hplain : h.Plain)
    (hfit : h.buf ≠ .null → content H q ≠ [] → preparedSize H h + q.cb < 2 ^ 32) :
    ∃ r₁ r₂, insert H h 0 (content H q) = .ok r₁ ∧ hadPrefix r₁.1 r₁.2 q = .ok (r₂, true) ∧
      (content r₂.1 r₂.2 = content H h ↔ content H q = [] ∨
        Harmless (editOffset H h) (content H h)) := by
  have hqlen := hq.length_content
  obtain ⟨H₁, h₁, hins, hkeep, hcb, hcont, hoff⟩ := insert_content hw hO hc (Nat.zero_le h.cb)
    (hqlen ▸ hlen) hplain (hqlen ▸ hfit)
  obtain ⟨hq₁, hqcont⟩ := hq.of_frame hown hkeep.frame
  have hw₁ : WF H₁ h₁ := hkeep.wf
  have happend : content H₁ h₁ = content H q ++ content H h := by
    rw [hcont, inserted]
    rfl
  rw [hqlen] at hcb
  have hsame : sameBytes H₁ h₁ 0 q = .ok true := by
    rw [sameBytes_eq hw₁ hq₁ (by omega), List.drop_zero, happend, ← hqlen, List.take_left, hqcont]
    simp
  obtain ⟨r₂, her, hiff⟩ := erase_content hw₁ hkeep.owned hc 0 q.cb
  refine ⟨(H₁, h₁), r₂, hins, ?_, ?_⟩
  · simp only [hadPrefix, hasPrefix, if_neg (show ¬q.cb > h₁.cb by omega), hsame, ok_bind, her]
    rfl
  · have hrest : removed (content H₁ h₁) 0 q.cb = content H h := by
      rw [removed, Nat.zero_min, Nat.zero_max, happend, List.take_zero, List.nil_append, ← hqlen,
        List.drop_left]
    have hnil : content H q = [] ↔ min h₁.cb (max 0 q.cb) = min h₁.cb (min 0 q.cb) := by
      rw [← List.length_eq_zero_iff, hqlen]
      omega
    rw [hrest, hoff] at hiff
    rw [hiff, hnil]

/-- `hadSuffix(q)` after `append(q)`. -/
theorem hadSuffix_append (hw : WF H h) (hO : H.Owned (own h + rest)) (hc : rest.card + 1 < 2 ^ 32)
    (hq : WF H q) (hown : own q ≤ rest) (hlen : q.cb < 2 ^ 31) (hplain : h.Plain)
    (hfit : h.buf ≠ .null → content H q ≠ [] → preparedSize H h + q.cb < 2 ^ 32) :
    ∃ r₁ r₂, insert H h h.cb (content H q) = .ok r₁ ∧ hadSuffix r₁.1 r₁.2 q = .ok r₂ ∧
      (r₂.2 = true ∧ content r₂.1.1 r₂.1.2 = content H h ↔
        h.cb < 2 ^ 31 ∧ (content H q = [] ∨ Harmless (editOffset H h) (content H h))) := by
  have hqlen := hq.length_content
  have hwlen := hw.length_content
  obtain ⟨H₁, h₁, hins, hkeep, hcb, hcont, hoff⟩ := insert_content hw hO hc (Nat.le_refl h.cb)
    (hqlen ▸ hlen) hplain (hqlen ▸ hfit)
  obtain ⟨hq₁, hqcont⟩ := hq.of_frame hown hkeep.frame
  have hw₁ : WF H₁ h₁ := hkeep.wf
  have happend : content H₁ h₁ = content H h ++ content H q := by
    rw [hcont, inserted, ← hwlen, List.take_length, List.drop_length, List.append_nil]
  rw [hqlen] at hcb
  have hs : toU32 ((h₁.cb : Int) - q.cb) = h.cb := by
    have hlt := hw.cb_lt
    rw [toU32_of_nonneg (by omega) (by omega)]
    omega
  by_cases hbig : 2 ^ 31 ≤ h.cb
  · refine ⟨(H₁, h₁), ((H₁, h₁), false), hins, ?_, iff_of_false (by simp) (by omega)⟩
    simp only [hadSuffix, hasSuffix, hs, if_pos hbig]
    rfl
  · have hsame : sameBytes H₁ h₁ h.cb q = .ok true := by
      rw [sameBytes_eq hw₁ hq₁ (by omega), happend, ← hwlen, List.drop_left, ← hqlen,
        List.take_length, hqcont]
      simp
    obtain ⟨r₂, her, hiff⟩ := erase_content hw₁ hkeep.owned hc h.cb h₁.cb
    refine ⟨(H₁, h₁), (r₂, true), hins, ?_, ?_⟩
    · simp only [hadSuffix, hasSuffix, hs, if_neg hbig, hsame, ok_bind, her]
      rfl
    · have hrest : removed (content H₁ h₁) h.cb h₁.cb = content H h := by
        rw [removed, Nat.min_eq_left (by omega), Nat.max_eq_right (by omega), happend,
          ← hw₁.length_content, happend, List.drop_length, List.append_nil, ← hwlen, List.take_left]
      have hnil : content H q = [] ↔ min h₁.cb (max h.cb h₁.cb) = min h₁.cb (min h.cb h₁.cb) := by
        rw [← List.length_eq_zero_iff, hqlen]
        omega
      rw [hrest, hoff] at hiff
      rw [hiff, hnil]
      simp only [true_and, show h.cb < 2 ^ 31 by omega]

end Edit

/-! ## The system of all handles -/

/-- The handle is live and has this content. -/
def State.Holds (S : State) (k : Nat) (w : Bytes) : Prop :=
  ∃ h, S.handle? k = some h ∧ content S.heap h = w

section Put

variable {S : State} {k : Nat} {h : Handle}

theorem put_holds (hk : S.handle? k = some h) {r : Heap × Handle} {w : Bytes} :
    (S.put k r).Holds k w ↔ content r.1 r.2 = w := by
  constructor
  · rintro ⟨h', hk', hw⟩
    rw [handle?_put_self hk] at hk'
    obtain rfl := Option.some.inj hk'
    exact hw
  · exact fun hw => ⟨r.2, handle?_put_self hk r, hw⟩

end Put

section System

variable [Uninit]

/-- A test of the handle `k` against the handle `q` that may cut `k`. -/
def State.cutIf (test : Heap → Handle → Handle → Except Fault ((Heap × Handle) × Bool)) (S : State)
    (k q : Nat) : Except Fault (State × Bool) := do
  let h ← S.get k
  let p ← S.get q
  let r ← test S.heap h p
  return (S.put k r.1, r.2)

def State.hadPrefix (S : State) (k q : Nat) : Except Fault (State × Bool) :=
  S.cutIf StringHeap.hadPrefix k q

def State.hadSuffix (S : State) (k q : Nat) : Except Fault (State × Bool) :=
  S.cutIf StringHeap.hadSuffix k q

/-- `erase` gives the list without the range. -/
def EraseRefines (S : State) (k : Nat) (w : Bytes) (a b : Nat) : Prop :=
  ∃ S', step S (.erase k a b) = .ok S' ∧ S'.Holds k (removed w a b)

def InsertRefines (S : State) (k : Nat) (w : Bytes) (o : Nat) (p : Bytes) : Prop :=
  ∃ S', step S (.insert k o p) = .ok S' ∧ S'.Holds k (inserted w o p)

/-- `prepend(q)` and `hadPrefix(q)` restore the content. -/
def PrefixRestores (S : State) (k q : Nat) (w p : Bytes) : Prop :=
  ∃ S₁ S₂, step S (.insert k 0 p) = .ok S₁ ∧ S₁.hadPrefix k q = .ok (S₂, true) ∧ S₂.Holds k w

/-- `append(q)` and `hadSuffix(q)` restore the content. -/
def SuffixRestores (S : State) (k q : Nat) (w p : Bytes) : Prop :=
  ∃ S₁ S₂, step S (.append k p) = .ok S₁ ∧ S₁.hadSuffix k q = .ok (S₂, true) ∧ S₂.Holds k w

variable {S : State} {k : Nat} {h : Handle}

theorem eraseRefines_iff (hI : Inv S) (hlive : S.live < 2 ^ 32) (hk : S.handle? k = some h)
    (a b : Nat) :
    EraseRefines S k (content S.heap h) a b ↔ min h.cb (max a b) = min h.cb (min a b) ∨
      Harmless (editOffset S.heap h) (removed (content S.heap h) a b) := by
  have hc := card_rest_lt hk
  obtain ⟨r, her, hiff⟩ := erase_content (hI.wf k h hk) (hI.owned_split hk) (by omega) a b
  have hstep : step S (.erase k a b) = .ok (S.put k r) := by
    rw [step, get_eq_ok hk, ok_bind, her]
    rfl
  rw [← hiff, ← put_holds hk]
  constructor
  · rintro ⟨S', h', hw⟩
    obtain rfl := Except.ok.inj (hstep.symm.trans h')
    exact hw
  · exact fun hw => ⟨_, hstep, hw⟩

theorem not_ok_of_not_fits (hI : Inv S) {op : Op} (hr : Ready S op) (hf : ¬Fits S op) {S' : State} :
    step S op ≠ .ok S' := by
  intro hs
  rcases step_overflow hI hr hf with he | he
  · rw [he] at hs
    cases hs
  · rw [he] at hs
    cases hs

theorem insertRefines_iff (hI : Inv S) (hlive : S.live < 2 ^ 32) (hplain : h.Plain)
    (hk : S.handle? k = some h) {o : Nat} (ho : o ≤ h.cb) {p : Bytes} (hp : p.length < 2 ^ 31) :
    InsertRefines S k (content S.heap h) o p ↔ Fits S (.insert k o p) := by
  have hc := card_rest_lt hk
  constructor
  · rintro ⟨S', hs, -⟩
    have hr : Ready S (.insert k o p) := ⟨hlive, ⟨h, hk, ho⟩, hp⟩
    by_contra hf
    exact not_ok_of_not_fits hI hr hf hs
  · intro hf
    obtain ⟨H', h', hins, -, -, hcont, -⟩ :=
      insert_content (hI.wf k h hk) (hI.owned_split hk) (by omega)
      ho hp hplain (hf h hk)
    refine ⟨S.put k (H', h'), ?_, (put_holds hk).mpr hcont⟩
    rw [step, get_eq_ok hk, ok_bind, hins]
    rfl

/-- An edit that gives `k` a new handle and a test after it: they restore the content if the edit
fits and they restore that of the handles. -/
theorem cutIf_restores_iff {test : Heap → Handle → Handle → Except Fault ((Heap × Handle) × Bool)}
    {op : Op} {q : Nat} {other : Handle} {P : Prop} (hI : Inv S) (hk : S.handle? k = some h)
    (hne : k ≠ q) (hq : S.handle? q = some other) (hready : Ready S op)
    (hrun : Fits S op → ∃ r₁ r₂, step S op = .ok (S.put k r₁) ∧ test r₁.1 r₁.2 other = .ok r₂ ∧
      (r₂.2 = true ∧ content r₂.1.1 r₂.1.2 = content S.heap h ↔ P)) :
    (∃ S₁ S₂, step S op = .ok S₁ ∧ S₁.cutIf test k q = .ok (S₂, true) ∧
      S₂.Holds k (content S.heap h)) ↔ Fits S op ∧ P := by
  by_cases hf : Fits S op
  · obtain ⟨r₁, ⟨r₂, b⟩, hs₁, htest, hiff⟩ := hrun hf
    have hk₁ : (S.put k r₁).handle? k = some r₁.2 := handle?_put_self hk r₁
    have hq₁ : (S.put k r₁).handle? q = some other := (handle?_put_of_ne r₁ hne).trans hq
    have hs₂ : (S.put k r₁).cutIf test k q = .ok ((S.put k r₁).put k r₂, b) := by
      have hheap : (S.put k r₁).heap = r₁.1 := rfl
      rw [State.cutIf, get_eq_ok hk₁, ok_bind, get_eq_ok hq₁, ok_bind, hheap, htest]
      rfl
    rw [and_iff_right hf, ← hiff, ← put_holds hk₁]
    constructor
    · rintro ⟨S₁, S₂, h₁, h₂, hw⟩
      obtain rfl := Except.ok.inj (hs₁.symm.trans h₁)
      obtain ⟨rfl, rfl⟩ := Prod.mk.inj (Except.ok.inj (hs₂.symm.trans h₂))
      exact ⟨rfl, hw⟩
    · rintro ⟨rfl, hw⟩
      exact ⟨_, _, hs₁, hs₂, hw⟩
  · refine iff_of_false ?_ fun hand => hf hand.1
    rintro ⟨S₁, S₂, h₁, -⟩
    exact not_ok_of_not_fits hI hready hf h₁

theorem prefixRestores_iff (hI : Inv S) (hlive : S.live < 2 ^ 32) (hplain : h.Plain)
    (hk : S.handle? k = some h) {q : Nat} {pre : Handle} (hne : k ≠ q)
    (hq : S.handle? q = some pre) (hp : pre.cb < 2 ^ 31) :
    PrefixRestores S k q (content S.heap h) (content S.heap pre) ↔
      Fits S (.insert k 0 (content S.heap pre)) ∧ (content S.heap pre = [] ∨
        Harmless (editOffset S.heap h) (content S.heap h)) := by
  have hc := card_rest_lt hk
  have hwq := hI.wf q pre hq
  have hlen := hwq.length_content
  refine cutIf_restores_iff hI hk hne hq ⟨hlive, ⟨h, hk, Nat.zero_le _⟩, hlen ▸ hp⟩ fun hf => ?_
  obtain ⟨r₁, r₂, hins, hhad, hiff⟩ := hadPrefix_prepend (hI.wf k h hk) (hI.owned_split hk)
    (by omega) hwq (own_le_rest hne hq) hp hplain (hlen ▸ hf h hk)
  refine ⟨r₁, (r₂, true), ?_, hhad, (and_iff_right rfl).trans hiff⟩
  rw [step, get_eq_ok hk, ok_bind, hins]
  rfl

theorem suffixRestores_iff (hI : Inv S) (hlive : S.live < 2 ^ 32) (hplain : h.Plain)
    (hk : S.handle? k = some h) {q : Nat} {suf : Handle} (hne : k ≠ q)
    (hq : S.handle? q = some suf) (hp : suf.cb < 2 ^ 31) :
    SuffixRestores S k q (content S.heap h) (content S.heap suf) ↔
      Fits S (.append k (content S.heap suf)) ∧ h.cb < 2 ^ 31 ∧ (content S.heap suf = [] ∨
        Harmless (editOffset S.heap h) (content S.heap h)) := by
  have hc := card_rest_lt hk
  have hwq := hI.wf q suf hq
  have hlen := hwq.length_content
  refine cutIf_restores_iff hI hk hne hq ⟨hlive, ⟨h, hk⟩, hlen ▸ hp⟩ fun hf => ?_
  obtain ⟨r₁, r₂, hins, hhad, hiff⟩ := hadSuffix_append (hI.wf k h hk) (hI.owned_split hk)
    (by omega) hwq (own_le_rest hne hq) hp hplain (hlen ▸ hf h hk)
  refine ⟨r₁, r₂, ?_, hhad, hiff⟩
  rw [step, get_eq_ok hk, ok_bind, hins]
  rfl

/-- Editing refines editing lists, from every state of a run: `insert` as long as the new size
fits, `erase` exactly where its terminator hits no byte that is kept, and with them the ways back
from `prepend` and `append`. -/
theorem edits_refine_iff (hS : Reach S) (hk : S.handle? k = some h) :
    (∀ a b, EraseRefines S k (content S.heap h) a b ↔
      min h.cb (max a b) = min h.cb (min a b) ∨
        Harmless (editOffset S.heap h) (removed (content S.heap h) a b)) ∧
    (∀ o p, o ≤ h.cb → p.length < 2 ^ 31 →
      (InsertRefines S k (content S.heap h) o p ↔ Fits S (.insert k o p))) ∧
    ∀ q other, k ≠ q → S.handle? q = some other → other.cb < 2 ^ 31 →
      (PrefixRestores S k q (content S.heap h) (content S.heap other) ↔
        Fits S (.insert k 0 (content S.heap other)) ∧ (content S.heap other = [] ∨
          Harmless (editOffset S.heap h) (content S.heap h))) ∧
      (SuffixRestores S k q (content S.heap h) (content S.heap other) ↔
        Fits S (.append k (content S.heap other)) ∧ h.cb < 2 ^ 31 ∧ (content S.heap other = [] ∨
          Harmless (editOffset S.heap h) (content S.heap h))) := by
  obtain ⟨hI, hP, hlive⟩ := hS.inv
  have hplain := hP k h hk
  refine ⟨?_, ?_, ?_⟩
  · exact eraseRefines_iff hI hlive hk
  · intro o p ho hp
    exact insertRefines_iff hI hlive hplain hk ho hp
  · intro q other hne hq hlen
    constructor
    · exact prefixRestores_iff hI hlive hplain hk hne hq hlen
    · exact suffixRestores_iff hI hlive hplain hk hne hq hlen

end System

/-- A slice that shares its buffer: erasing makes a copy. -/
theorem edits_refine_shared :
    letI := zeroMemory
    ∃ S, run .init [.bytes (some [0x61, 0x62, 0x63, 0x64]), .substr 0 1 4] = .ok S ∧
      EraseRefines S 1 [0x62, 0x63, 0x64] 0 1 := by
  let _ := zeroMemory
  have hS := Reach.slice [0x61, 0x62, 0x63, 0x64] 1 4 (by decide) rfl
  refine ⟨_, rfl, ?_⟩
  obtain ⟨herase, -⟩ := edits_refine_iff hS (k := 1) rfl
  apply (herase 0 1).mpr
  right
  intro h0
  cases h0

/-- A slice that is alone on its buffer. -/
theorem slice_alone :
    letI := zeroMemory
    ∃ S, run .init [.bytes (some [0x61, 0x62, 0x63, 0x64, 0x65, 0x66]), .substr 0 2 6, .destroy 0] =
      .ok S ∧
      Reach S ∧ S.handle? 1 = some ⟨.heap 0, 4, 2, .Standard⟩ ∧
        content S.heap ⟨.heap 0, 4, 2, .Standard⟩ = [0x63, 0x64, 0x65, 0x66] ∧
        (S.heap.cells 0).map Cell.refs = some 1 := by
  let _ := zeroMemory
  have hS₁ := Reach.slice [0x61, 0x62, 0x63, 0x64, 0x65, 0x66] 2 6 (by decide) rfl
  have hS₂ := Reach.step (.destroy 0) hS₁ trivial ⟨by decide, _, rfl⟩ trivial rfl
  exact ⟨_, rfl, hS₂, rfl, rfl, rfl⟩

/-- The terminator of `erase` falls on the second of the three bytes that are left. -/
theorem erase_slice_fails :
    letI := zeroMemory
    ∃ S, run .init [.bytes (some [0x61, 0x62, 0x63, 0x64, 0x65, 0x66]), .substr 0 2 6, .destroy 0] =
      .ok S ∧
      Reach S ∧ S.Holds 1 [0x63, 0x64, 0x65, 0x66] ∧
        ¬EraseRefines S 1 [0x63, 0x64, 0x65, 0x66] 0 1 := by
  let _ := zeroMemory
  obtain ⟨S, hrun, hS, hk, hcontent, hrefs⟩ := slice_alone
  have hoff : editOffset S.heap ⟨.heap 0, 4, 2, .Standard⟩ = 2 := by
    obtain ⟨c, hcell, hone⟩ := Option.map_eq_some_iff.mp hrefs
    simp [editOffset, hcell, hone]
  obtain ⟨hI, -, hlive⟩ := hS.inv
  refine ⟨S, hrun, hS, ⟨_, hk, hcontent⟩, ?_⟩
  intro herase
  rw [← hcontent, eraseRefines_iff hI hlive hk, hoff, hcontent] at herase
  rcases herase with hsame | hz
  · cases hsame
  · have hzero := hz (by decide) (by decide)
    cases hzero

end StringHeap

end Libacorn
