import Libacorn.StringInvariant

/-!
# Reference counts and isolation along every run

What a caller may ask for, when the code can do it, and what then holds of every
state a run reaches.
-/

namespace Libacorn

open Support

namespace StringHeap

/-! ## Operations -/

/-- The handle an operation changes. -/
def Op.target : Op → Option Nat
  | .empty | .literal _ | .bytes _ | .copy _ | .substr .. => none
  | .move k | .assignFrom k _ | .insert k .. | .append k _ | .erase k .. | .trim k _ | .cStr k
  | .destroy k | .clear k | .assign k _ | .assignChars k _ | .mutateToStatic k _ | .alloc k _ =>
    some k

/-- The handles an operation makes, temporaries included. -/
def Op.made : Op → Nat
  | .empty | .literal _ | .bytes _ | .copy _ | .substr .. | .move _ | .trim .. => 1
  | _ => 0

/-- The operations other than the resets and self-assignment. -/
def Op.Basic : Op → Prop
  | .assignFrom k s => k ≠ s
  | .clear _ | .assign .. | .assignChars .. | .mutateToStatic .. | .alloc .. => False
  | _ => True

/-- The arguments are what the parameters can hold, the handles are live and
fewer than `2^32`, and the preconditions of `substr` and `insert` are met. -/
def Ready (S : State) (op : Op) : Prop :=
  S.live + op.made < 2 ^ 32 ∧
  match op with
  | .empty => True
  | .literal m => m.length < 2 ^ 32
  | .bytes p => ∀ q ∈ p, q.length < 2 ^ 31
  | .copy k | .move k | .erase k .. | .trim k _ | .cStr k | .destroy k | .clear k =>
    ∃ h, S.handle? k = some h
  | .substr k .. => ∃ h, S.handle? k = some h ∧ h.buf ≠ .null
  | .assignFrom k s | .mutateToStatic k s => (∃ h, S.handle? k = some h) ∧ ∃ h, S.handle? s = some h
  | .insert k byteOffset p =>
    (∃ h, S.handle? k = some h ∧ byteOffset ≤ h.cb) ∧ p.length < 2 ^ 31
  | .append k p => (∃ h, S.handle? k = some h) ∧ p.length < 2 ^ 31
  | .assign k p | .assignChars k p => (∃ h, S.handle? k = some h) ∧ ∀ q ∈ p, q.length < 2 ^ 31
  | .alloc k cb => (∃ h, S.handle? k = some h) ∧ cb < 2 ^ 32

/-- The sizes stay within 32 bits: the new size of the buffer in `insert`, and the
count of leading characters in `trim`. -/
def Fits (S : State) : Op → Prop
  | .insert k _ p | .append k p =>
    ∀ h, S.handle? k = some h → h.buf ≠ .null → p ≠ [] → preparedSize S.heap h + p.length < 2 ^ 32
  | .trim k chars => ∀ h, S.handle? k = some h →
    ¬(2 ^ 31 - 1 ≤ ((content S.heap h).takeWhile (inSet chars)).length ∧ 2 ^ 31 ≤ h.cb)
  | _ => True

/-- The handle is not on a literal. -/
def State.NotLiteral (S : State) (k : Nat) : Prop :=
  ∀ h, S.handle? k = some h → ∀ m, h.buf ≠ .lit m

def State.IsStandard (S : State) (k : Nat) : Prop :=
  ∀ h, S.handle? k = some h → h.type = .Standard

/-- The buffer of the handle, if it has one on the heap, has more references. -/
def State.Shared (S : State) (k : Nat) : Prop :=
  ∀ h i, S.handle? k = some h → h.buf = .heap i → ∃ c, S.heap.cells i = some c ∧ 1 < c.refs

/-- The states in which a reset keeps the type in step with the buffer and the
count with the handles. -/
def Disciplined (S : State) : Op → Prop
  | .assignFrom k s => k = s → S.Shared k
  | .insert k _ p | .append k p =>
    ∀ h, S.handle? k = some h → h.buf = .null → p ≠ [] → h.type = .Standard
  | .clear k => S.NotLiteral k
  | .assign k p | .assignChars k p => p ≠ none → S.IsStandard k
  | .mutateToStatic k s =>
    S.NotLiteral k ∧ (k ≠ s → ∀ h, S.handle? s = some h → ∀ i, h.buf ≠ .heap i)
  | .alloc k _ => S.IsStandard k
  | _ => True

/-! ## Steps -/

/-- A handle without a buffer has the type of a default one. -/
def Handle.Plain (h : Handle) : Prop := h.buf = .null → h.type = .Standard

def Plain (S : State) : Prop := ∀ k h, S.handle? k = some h → h.Plain

/-- What a step leaves. -/
structure Stays (S S' : State) (op : Op) : Prop where
  inv : Inv S'
  isolated : Isolated S S' op.target
  plain : op.Basic → Plain S → Plain S'
  live : S'.live ≤ S.live + op.made

section Rules

variable {S : State} {k : Nat} {h : Handle} {op : Op}

theorem handle?_put {r : Heap × Handle} {k' : Nat} {h' : Handle}
    (hk' : (S.put k r).handle? k' = some h') : S.handle? k' = some h' ∨ h' = r.2 := by
  by_cases hne : k = k'
  · subst hne
    rw [handle?_eq_some, State.put, List.getElem?_set] at hk'
    simp only [↓reduceIte] at hk'
    split at hk'
    · exact .inr (Option.some.inj (Option.some.inj hk')).symm
    · cases hk'
  · rw [handle?_put_of_ne r hne] at hk'
    exact .inl hk'

theorem Plain.put (hP : Plain S) {r : Heap × Handle} (hr : r.2.Plain) : Plain (S.put k r) := by
  intro k' h' hk'
  rcases handle?_put hk' with hold | rfl
  · exact hP k' h' hold
  · exact hr

theorem Plain.push (hP : Plain S) {r : Heap × Handle} (hr : r.2.Plain) : Plain (S.push r) := by
  intro k' h' hk'
  rcases handle?_push hk' with hold | rfl
  · exact hP k' h' hold
  · exact hr

/-- An operation that gives the target new members. -/
theorem Inv.onHandle (hI : Inv S) (hk : S.handle? k = some h) (ht : op.target = some k)
    (f : Heap → Handle → Except Fault (Heap × Handle))
    (hf : WF S.heap h → S.heap.Owned (own h + S.rest k) → (S.rest k).card + 1 ≤ S.live →
      ∃ r, f S.heap h = .ok r ∧ Keeps S.heap (S.rest k) r ∧ (op.Basic → Plain S → r.2.Plain)) :
    ∃ S', (S.get k >>= fun h => f S.heap h >>= fun r => pure (S.put k r)) = .ok S' ∧
      Stays S S' op := by
  obtain ⟨r, hr, hkeep, hp⟩ := hf (hI.wf k h hk) (hI.owned_split hk) (card_rest_lt hk)
  obtain ⟨hinv, hiso⟩ := hI.put hk hkeep
  refine ⟨S.put k r, by rw [get_eq_ok hk, ok_bind, hr]; rfl, hinv, ?_, ?_, ?_⟩
  · rw [ht]
    exact hiso
  · intro hb hP
    exact hP.put (hp hb hP)
  · rw [live_put hk]
    exact Nat.le_add_right _ _

/-- A constructor. -/
theorem Inv.onNew (hI : Inv S) (ht : op.target = none) (hm : op.made = 1)
    {e : Except Fault (Heap × Handle)}
    (he : ∃ r, e = .ok r ∧ Keeps S.heap (owners S.handles) r ∧ (Plain S → r.2.Plain)) :
    ∃ S', (e >>= fun r => pure (S.push r)) = .ok S' ∧ Stays S S' op := by
  obtain ⟨r, rfl, hr, hp⟩ := he
  obtain ⟨hinv, hiso⟩ := hI.push hr
  refine ⟨S.push r, rfl, hinv, ?_, ?_, ?_⟩
  · rw [ht]
    exact hiso
  · intro _ hP
    exact hP.push (hp hP)
  · rw [live_push, hm]

/-- The handles that own nothing are made without touching the heap. -/
theorem Inv.keeps_of_own_zero (hI : Inv S) {h : Handle} (hw : WF S.heap h) (h0 : own h = 0) :
    Keeps S.heap (owners S.handles) (S.heap, h) :=
  Keeps.of_own_zero hw h0 hI.owned (Frame.refl _ _)

theorem plain_of_or {h' : Handle} (hor : h' = h ∨ h'.type = .Standard) (hp : h.Plain) :
    h'.Plain := by
  rcases hor with rfl | ht
  · exact hp
  · exact fun _ => ht

theorem own_empty : own Handle.empty = 0 := rfl

theorem wf_empty (H : Heap) : WF H .empty := .null rfl rfl rfl

/-- The buffer changes hands and its count stays. -/
theorem Inv.move (hI : Inv S) (hk : S.handle? k = some h) :
    Stays S ((S.put k (S.heap, .empty)).push (S.heap, h)) (.move k) := by
  have howners : owners ((S.put k (S.heap, .empty)).push (S.heap, h)).handles =
      owners S.handles := by
    have hput : owners (S.put k (S.heap, .empty)).handles = S.rest k := by
      rw [State.put, owners_set (lt_length hk), own_empty, Multiset.zero_add]
      rfl
    rw [owners_eq hk, ← hput]
    simp [State.push, owners, List.sum_append, add_comm]
  refine ⟨⟨?_, ?_⟩, ?_, ?_, ?_⟩
  · rw [howners]
    exact hI.owned
  · intro k' h' hk'
    rcases handle?_push hk' with hold | rfl
    · rcases handle?_put hold with hold | rfl
      · exact hI.wf k' h' hold
      · exact wf_empty S.heap
    · exact hI.wf k _ hk
  · intro k' h' hne hk'
    have hne' : k ≠ k' := fun he => hne (congrArg some he)
    refine ⟨handle?_push_of_some _ ?_, rfl⟩
    rw [handle?_put_of_ne _ hne']
    exact hk'
  · intro _ hP
    exact (hP.put fun _ => rfl).push (hP k h hk)
  · rw [live_push, live_put hk]
    rfl

theorem Inv.destroy (hI : Inv S) (hk : S.handle? k = some h) (hc : (S.rest k).card + 1 < 2 ^ 32) :
    ∃ S', (StringHeap.destroy S.heap h >>= fun H => pure (S.drop k H)) = .ok S' ∧
      Stays S S' (.destroy k) := by
  obtain ⟨H', hr, hO, hf⟩ := releaseOwn_keeps (hI.wf k h hk) (hI.owned_split hk) hc
  obtain ⟨hinv, hiso⟩ := hI.drop hk hO hf
  refine ⟨S.drop k H', by rw [StringHeap.destroy, hr]; rfl, hinv, hiso, ?_, ?_⟩
  · intro _ hP k' h' hk'
    have hne : k ≠ k' := by
      rintro rfl
      rw [handle?_eq_some, State.drop, List.getElem?_set_self (lt_length hk)] at hk'
      cases hk'
    rw [handle?_drop_of_ne H' hne] at hk'
    exact hP k' h' hk'
  · have := liveCount_set (handle?_eq_some.mp hk)
    simp only [State.live, State.drop, Op.made]
    omega

/-- Another handle counts the same buffer. -/
theorem Inv.own_le_rest_of_shared (hI : Inv S) (hk : S.handle? k = some h) (hs : S.Shared k) :
    own h ≤ S.rest k := by
  have hO := hI.owned_split hk
  cases hI.wf k h hk with
  | null hb => rw [own_of_not_heap (by simp [hb])]; exact Multiset.zero_le _
  | lit hb => rw [own_of_not_heap (by simp [hb])]; exact Multiset.zero_le _
  | @heap i b hb ht =>
    obtain ⟨c, hc, hrefs⟩ := hs h i hk hb
    rw [own_heap hb ht] at hO ⊢
    have := hO.live i c hc
    rw [Multiset.count_add, Multiset.count_singleton_self] at this
    exact Multiset.singleton_le.mpr (Multiset.count_pos.mp (by omega))

/-- The operations other than the resets keep to their discipline by themselves. -/
theorem Op.Basic.disciplined (hb : op.Basic) (hP : Plain S) : Disciplined S op := by
  cases op with
  | assignFrom k s => exact fun hks => absurd hks hb
  | insert k byteOffset p => exact fun h hk hbuf _ => hP k h hk hbuf
  | append k p => exact fun h hk hbuf _ => hP k h hk hbuf
  | clear k => exact False.elim hb
  | assign k p => exact False.elim hb
  | assignChars k s => exact False.elim hb
  | mutateToStatic k s => exact False.elim hb
  | alloc k cb => exact False.elim hb
  | _ => trivial

/-- The counts are the numbers of handles, and every handle lies inside a live
block. -/
structure Exact (S : State) : Prop where
  refs : ∀ i c, S.heap.cells i = some c → c.refs = S.pointers i
  heap : ∀ k h i, S.handle? k = some h → h.buf = .heap i →
    ∃ b, S.heap.get? i = some b ∧ h.offset + h.cb ≤ b.cb
  lit : ∀ k h m, S.handle? k = some h → h.buf = .lit m → h.offset + h.cb ≤ m.length
  null : ∀ k h, S.handle? k = some h → h.buf = .null → h.offset + h.cb = 0

theorem Inv.exact (hI : Inv S) : Exact S where
  refs i c hc := by
    rw [hI.owned.live i c hc]
    exact count_owners S i
  heap k h i hk hb := by
    cases hI.wf k h hk with
    | null hb' => rw [hb] at hb'; cases hb'
    | lit hb' => rw [hb] at hb'; cases hb'
    | heap hb' ht hget hle =>
      obtain rfl := Ptr.heap.inj (hb.symm.trans hb')
      exact ⟨_, hget, hle⟩
  lit k h m hk hb := by
    cases hI.wf k h hk with
    | null hb' => rw [hb] at hb'; cases hb'
    | lit hb' ht hle =>
      obtain rfl := Ptr.lit.inj (hb.symm.trans hb')
      exact hle
    | heap hb' => rw [hb] at hb'; cases hb'
  null k h hk hb := by
    cases hI.wf k h hk with
    | null _ hcb ho => omega
    | lit hb' => rw [hb] at hb'; cases hb'
    | heap hb' => rw [hb] at hb'; cases hb'

theorem Ready.live_lt (hr : Ready S op) : S.live < 2 ^ 32 :=
  Nat.lt_of_le_of_lt (Nat.le_add_right _ _) hr.1

theorem Ready.card_owners_lt (hr : Ready S op) (hm : op.made = 1) :
    (owners S.handles).card + 1 < 2 ^ 32 := by
  have hcard : (owners S.handles).card ≤ S.live := card_owners_le S.handles
  have hn := hr.1
  omega

theorem Ready.bytes {p : Bytes} (hp : p.length < 2 ^ 31) : Ready .init (.bytes (some p)) := by
  refine ⟨show 0 + 1 < 2 ^ 32 by decide, ?_⟩
  rintro q ⟨⟩
  exact hp

end Rules

section Step

variable [Uninit] {S : State} {op : Op} {H : Heap} {h : Handle} {rest : Multiset Nat}

theorem insert_fits (hw : WF H h) (hO : H.Owned (own h + rest)) (hc : rest.card + 1 < 2 ^ 32)
    {byteOffset : Nat} {p : Bytes} (hoff : byteOffset ≤ h.cb) (hlen : p.length < 2 ^ 31)
    (hd : h.buf = .null → p ≠ [] → h.type = .Standard)
    (hfit : h.buf ≠ .null → p ≠ [] → preparedSize H h + p.length < 2 ^ 32) :
    ∃ r, insert H h byteOffset p = .ok r ∧ Keeps H rest r ∧ (r.2 = h ∨ r.2.type = .Standard) := by
  by_cases hp : p = []
  · exact ⟨(H, h), by simp [insert, hp, pure, Except.pure], ⟨hw, hO, Frame.refl _ _⟩, .inl rfl⟩
  · by_cases hbuf : h.buf = .null
    · obtain ⟨r, hr, hb⟩ := assign_keeps hw hO hc (hd hbuf hp) (show p.length < 2 ^ 32 by omega)
      refine ⟨r, ?_, hb.keeps, .inr hb.type⟩
      simp only [insert, hp, ↓reduceIte, hbuf]
      exact hr
    · obtain ⟨r, hr, hb⟩ := insert_keeps hw hO hbuf hc hoff hp (hfit hbuf hp)
      exact ⟨r, hr, hb.keeps, .inr hb.type⟩

theorem assign_fits (hw : WF H h) (hO : H.Owned (own h + rest)) (hc : rest.card + 1 < 2 ^ 32)
    {p : Option Bytes} (hlen : ∀ q ∈ p, q.length < 2 ^ 31) (hd : p ≠ none → h.type = .Standard) :
    ∃ r, assign H h p = .ok r ∧ Keeps H rest r := by
  cases p with
  | none => exact assign_null_keeps hw hO hc
  | some p =>
    have hp : p.length < 2 ^ 31 := hlen p rfl
    obtain ⟨r, hr, hb⟩ := assign_keeps hw hO hc (hd nofun) (show p.length < 2 ^ 32 by omega)
    exact ⟨r, hr, hb.keeps⟩

omit [Uninit] in
theorem clear_fits (hw : WF H h) (hO : H.Owned (own h + rest)) (hc : rest.card + 1 < 2 ^ 32)
    (hd : ∀ m, h.buf ≠ .lit m) : ∃ r, clear H h = .ok r ∧ Keeps H rest r := by
  obtain ⟨H', hr, hO', hfr⟩ := clear_keeps hw hO hc hd
  exact ⟨_, hr, Keeps.of_own_zero (wf_cleared H' h) (own_cleared h) hO' hfr⟩

/-! ## One step of each operation -/

theorem empty_stays (hI : Inv S) : ∃ S', step S .empty = .ok S' ∧ Stays S S' .empty :=
  hI.onNew rfl rfl ⟨_, rfl, hI.keeps_of_own_zero (wf_empty _) own_empty, fun _ _ => rfl⟩

theorem literal_stays {m : Bytes} (hI : Inv S) (hr : Ready S (.literal m)) :
    ∃ S', step S (.literal m) = .ok S' ∧ Stays S S' (.literal m) := by
  have hw : WF S.heap (.literal m) := .lit rfl rfl (Nat.le_of_eq (Nat.zero_add _)) hr.2
  exact hI.onNew rfl rfl ⟨_, rfl, hI.keeps_of_own_zero hw rfl, fun _ => nofun⟩

theorem bytes_stays {p : Option Bytes} (hI : Inv S) (hr : Ready S (.bytes p)) :
    ∃ S', step S (.bytes p) = .ok S' ∧ Stays S S' (.bytes p) := by
  have hc := hr.card_owners_lt rfl
  have hO : S.heap.Owned (own .empty + owners S.handles) := by
    rw [own_empty, Multiset.zero_add]
    exact hI.owned
  apply hI.onNew rfl rfl
  cases p with
  | none =>
    obtain ⟨r, hr', hk⟩ := assign_null_keeps (wf_empty S.heap) hO hc
    refine ⟨r, hr', hk, ?_⟩
    obtain rfl := Except.ok.inj hr'
    exact fun _ _ => rfl
  | some p =>
    have hp : p.length < 2 ^ 31 := hr.2 p rfl
    obtain ⟨r, hr', hb⟩ := assign_keeps (wf_empty S.heap) hO hc rfl
      (show p.length < 2 ^ 32 by omega)
    exact ⟨r, hr', hb.keeps, fun _ _ => hb.type⟩

theorem copy_stays {s : Nat} (hI : Inv S) (hr : Ready S (.copy s)) :
    ∃ S', step S (.copy s) = .ok S' ∧ Stays S S' (.copy s) := by
  have hc := hr.card_owners_lt rfl
  obtain ⟨h, hk⟩ := hr.2
  obtain ⟨r, hr', heq, hkeep⟩ := copyOf_keeps (hI.wf s h hk) (own_le_owners hk) hI.owned hc
  simp only [step, get_eq_ok hk, ok_bind]
  refine hI.onNew rfl rfl ⟨r, hr', hkeep, ?_⟩
  intro hP
  rw [heq]
  exact hP s h hk

theorem move_stays {other : Nat} (hI : Inv S) (hr : Ready S (.move other)) :
    ∃ S', step S (.move other) = .ok S' ∧ Stays S S' (.move other) := by
  obtain ⟨h, hk⟩ := hr.2
  simp only [step, get_eq_ok hk, ok_bind]
  exact ⟨_, rfl, hI.move hk⟩

theorem substr_stays {s fromOff toOff : Nat} (hI : Inv S) (hr : Ready S (.substr s fromOff toOff)) :
    ∃ S', step S (.substr s fromOff toOff) = .ok S' ∧ Stays S S' (.substr s fromOff toOff) := by
  have hc := hr.card_owners_lt rfl
  obtain ⟨h, hk, hbuf⟩ := hr.2
  obtain ⟨r, hr', hkeep, heq, -⟩ := sliceOf_keeps (hI.wf s h hk) hbuf (own_le_owners hk) hI.owned hc
    (show min h.cb (min fromOff toOff) ≤ min h.cb (max fromOff toOff) by omega) (Nat.min_le_left ..)
  simp only [step, get_eq_ok hk, ok_bind]
  refine hI.onNew rfl rfl ⟨r, hr', hkeep, ?_⟩
  intro _ hnull
  rw [heq] at hnull
  exact absurd hnull hbuf

theorem assignFrom_stays {k s : Nat} (hI : Inv S) (hr : Ready S (.assignFrom k s))
    (hd : Disciplined S (.assignFrom k s)) :
    ∃ S', step S (.assignFrom k s) = .ok S' ∧ Stays S S' (.assignFrom k s) := by
  have hlive := hr.live_lt
  obtain ⟨⟨h, hk⟩, h', hs⟩ := hr.2
  rw [step, get_eq_ok hs]
  apply hI.onHandle hk rfl fun H h => assignFrom H h h'
  intro hw hO hc
  have hown : own h' ≤ S.rest k := by
    by_cases hks : k = s
    · subst hks
      obtain rfl := Option.some.inj (hk.symm.trans hs)
      exact hI.own_le_rest_of_shared hk (hd rfl)
    · exact own_le_rest hks hs
  obtain ⟨r, hr', heq, hkeep⟩ := assignFrom_keeps hw hO (hI.wf s h' hs) hown (by omega)
  refine ⟨r, hr', hkeep, ?_⟩
  intro _ hP
  rw [heq]
  exact hP s h' hs

theorem insert_stays {k byteOffset : Nat} {p : Bytes} (hI : Inv S)
    (hr : Ready S (.insert k byteOffset p)) (hd : Disciplined S (.insert k byteOffset p))
    (hf : Fits S (.insert k byteOffset p)) :
    ∃ S', step S (.insert k byteOffset p) = .ok S' ∧ Stays S S' (.insert k byteOffset p) := by
  have hlive := hr.live_lt
  obtain ⟨⟨h, hk, hoff⟩, hlen⟩ := hr.2
  apply hI.onHandle hk rfl fun H h => insert H h byteOffset p
  intro hw hO hc
  obtain ⟨r, hr', hkeep, hor⟩ := insert_fits hw hO (by omega) hoff hlen (hd h hk) (hf h hk)
  exact ⟨r, hr', hkeep, fun _ hP => plain_of_or hor (hP k h hk)⟩

theorem append_stays {k : Nat} {p : Bytes} (hI : Inv S) (hr : Ready S (.append k p))
    (hd : Disciplined S (.append k p)) (hf : Fits S (.append k p)) :
    ∃ S', step S (.append k p) = .ok S' ∧ Stays S S' (.append k p) := by
  have hlive := hr.live_lt
  obtain ⟨⟨h, hk⟩, hlen⟩ := hr.2
  apply hI.onHandle hk rfl fun H h => insert H h h.cb p
  intro hw hO hc
  obtain ⟨r, hr', hkeep, hor⟩ :=
    insert_fits hw hO (by omega) (Nat.le_refl h.cb) hlen (hd h hk) (hf h hk)
  exact ⟨r, hr', hkeep, fun _ hP => plain_of_or hor (hP k h hk)⟩

theorem erase_stays {k fromOff toOff : Nat} (hI : Inv S) (hr : Ready S (.erase k fromOff toOff)) :
    ∃ S', step S (.erase k fromOff toOff) = .ok S' ∧ Stays S S' (.erase k fromOff toOff) := by
  have hlive := hr.live_lt
  obtain ⟨h, hk⟩ := hr.2
  apply hI.onHandle hk rfl fun H h => erase H h fromOff toOff
  intro hw hO hc
  obtain ⟨r, hr', hor, hkeep⟩ := erase_keeps hw hO (by omega) fromOff toOff
  exact ⟨r, hr', hkeep, fun _ hP => plain_of_or hor (hP k h hk)⟩

theorem trim_stays {k : Nat} {chars : Bytes} (hI : Inv S) (hr : Ready S (.trim k chars))
    (hf : Fits S (.trim k chars)) :
    ∃ S', step S (.trim k chars) = .ok S' ∧ Stays S S' (.trim k chars) := by
  have hlive : S.live + 1 < 2 ^ 32 := hr.1
  obtain ⟨h, hk⟩ := hr.2
  apply hI.onHandle hk rfl fun H h => trim H h chars
  intro hw hO hc
  have hlead : countLead chars (content S.heap h) =
      .ok ((content S.heap h).takeWhile (inSet chars)).length := by
    have := hf h hk
    rw [← hw.length_content] at this
    exact if_neg this
  obtain ⟨r, hr', hb, ht, hkeep⟩ := trim_keeps hw hO (by omega) chars hlead
  refine ⟨r, hr', hkeep, ?_⟩
  intro _ hP
  rw [Handle.Plain, hb, ht]
  exact hP k h hk

theorem cStr_stays {k : Nat} (hI : Inv S) (hr : Ready S (.cStr k)) :
    ∃ S', step S (.cStr k) = .ok S' ∧ Stays S S' (.cStr k) := by
  have hlive := hr.live_lt
  obtain ⟨h, hk⟩ := hr.2
  apply hI.onHandle hk rfl cStr
  intro hw hO hc
  obtain ⟨r, hr', hkeep, -, hor⟩ := cStr_keeps hw hO (by omega)
  exact ⟨r, hr', hkeep, fun _ hP => plain_of_or hor (hP k h hk)⟩

theorem destroy_stays {k : Nat} (hI : Inv S) (hr : Ready S (.destroy k)) :
    ∃ S', step S (.destroy k) = .ok S' ∧ Stays S S' (.destroy k) := by
  have hlive := hr.live_lt
  obtain ⟨h, hk⟩ := hr.2
  have hle := card_rest_lt hk
  rw [step, get_eq_ok hk]
  exact hI.destroy hk (by omega)

theorem clear_stays {k : Nat} (hI : Inv S) (hr : Ready S (.clear k))
    (hd : Disciplined S (.clear k)) : ∃ S', step S (.clear k) = .ok S' ∧ Stays S S' (.clear k) := by
  have hlive := hr.live_lt
  obtain ⟨h, hk⟩ := hr.2
  apply hI.onHandle hk rfl clear
  intro hw hO hc
  obtain ⟨r, hr', hkeep⟩ := clear_fits hw hO (by omega) (hd h hk)
  exact ⟨r, hr', hkeep, False.elim⟩

theorem assign_stays {k : Nat} {p : Option Bytes} (hI : Inv S) (hr : Ready S (.assign k p))
    (hd : Disciplined S (.assign k p)) :
    ∃ S', step S (.assign k p) = .ok S' ∧ Stays S S' (.assign k p) := by
  have hlive := hr.live_lt
  obtain ⟨⟨h, hk⟩, hlen⟩ := hr.2
  apply hI.onHandle hk rfl fun H h => assign H h p
  intro hw hO hc
  obtain ⟨r, hr', hkeep⟩ := assign_fits hw hO (by omega) hlen fun hp => hd hp h hk
  exact ⟨r, hr', hkeep, False.elim⟩

theorem assignChars_stays {k : Nat} {s : Option Bytes} (hI : Inv S)
    (hr : Ready S (.assignChars k s)) (hd : Disciplined S (.assignChars k s)) :
    ∃ S', step S (.assignChars k s) = .ok S' ∧ Stays S S' (.assignChars k s) := by
  have hlive := hr.live_lt
  obtain ⟨⟨h, hk⟩, hlen⟩ := hr.2
  apply hI.onHandle hk rfl fun H h => assign H h s
  intro hw hO hc
  obtain ⟨r, hr', hkeep⟩ := assign_fits hw hO (by omega) hlen fun hp => hd hp h hk
  exact ⟨r, hr', hkeep, False.elim⟩

theorem mutateToStatic_stays {k s : Nat} (hI : Inv S) (hr : Ready S (.mutateToStatic k s))
    (hd : Disciplined S (.mutateToStatic k s)) :
    ∃ S', step S (.mutateToStatic k s) = .ok S' ∧ Stays S S' (.mutateToStatic k s) := by
  have hlive := hr.live_lt
  obtain ⟨⟨h, hk⟩, h', hs⟩ := hr.2
  rw [step, get_eq_ok hs]
  by_cases hks : k = s
  · simp only [hks, ↓reduceIte]
    subst hks
    apply hI.onHandle hk rfl clear
    intro hw hO hc
    obtain ⟨r, hr', hkeep⟩ := clear_fits hw hO (by omega) (hd.1 h hk)
    exact ⟨r, hr', hkeep, False.elim⟩
  · simp only [hks, ↓reduceIte]
    apply hI.onHandle hk rfl fun H h => mutateToStatic H h h'
    intro hw hO hc
    obtain ⟨r, hr', -, hkeep⟩ := mutateToStatic_keeps hw hO (by omega) (hd.1 h hk) (hI.wf s h' hs)
      (hd.2 hks h' hs)
    exact ⟨r, hr', hkeep, False.elim⟩

theorem alloc_stays {k cb : Nat} (hI : Inv S) (hr : Ready S (.alloc k cb))
    (hd : Disciplined S (.alloc k cb)) :
    ∃ S', step S (.alloc k cb) = .ok S' ∧ Stays S S' (.alloc k cb) := by
  have hlive := hr.live_lt
  obtain ⟨⟨h, hk⟩, hcb⟩ := hr.2
  apply hI.onHandle hk rfl fun H h => alloc H h cb
  intro hw hO hc
  obtain ⟨r, hr', hkeep⟩ := alloc_keeps hw hO (by omega) (hd h hk) hcb
  exact ⟨r, hr', hkeep, False.elim⟩

/-- A step whose sizes fit succeeds and keeps the invariant. -/
theorem step_stays (hI : Inv S) (hr : Ready S op) (hd : Disciplined S op) (hf : Fits S op) :
    ∃ S', step S op = .ok S' ∧ Stays S S' op := by
  cases op with
  | empty => exact empty_stays hI
  | literal m => exact literal_stays hI hr
  | bytes p => exact bytes_stays hI hr
  | copy s => exact copy_stays hI hr
  | move other => exact move_stays hI hr
  | substr s fromOff toOff => exact substr_stays hI hr
  | assignFrom k s => exact assignFrom_stays hI hr hd
  | insert k byteOffset p => exact insert_stays hI hr hd hf
  | append k p => exact append_stays hI hr hd hf
  | erase k fromOff toOff => exact erase_stays hI hr
  | trim k chars => exact trim_stays hI hr hf
  | cStr k => exact cStr_stays hI hr
  | destroy k => exact destroy_stays hI hr
  | clear k => exact clear_stays hI hr hd
  | assign k p => exact assign_stays hI hr hd
  | assignChars k s => exact assignChars_stays hI hr hd
  | mutateToStatic k s => exact mutateToStatic_stays hI hr hd
  | alloc k cb => exact alloc_stays hI hr hd

/-- A step whose sizes do not fit goes outside a block or overflows a counter. -/
theorem step_overflow (hI : Inv S) (hr : Ready S op) (hf : ¬Fits S op) :
    step S op = .error .bounds ∨ step S op = .error .overflow := by
  obtain ⟨hn, hr⟩ := hr
  have hlive : S.live < 2 ^ 32 := Nat.lt_of_le_of_lt (Nat.le_add_right _ _) hn
  cases op with
  | insert k byteOffset p =>
    obtain ⟨⟨h, hk, hoff⟩, hlen⟩ := hr
    have hc := card_rest_lt hk
    simp only [Fits] at hf
    push Not at hf
    obtain ⟨h', hk', hbuf, hp, hbig⟩ := hf
    obtain rfl := Option.some.inj (hk.symm.trans hk')
    have := insert_overflow (hI.wf k h hk) (hI.owned_split hk) hbuf (by omega) hoff hp hlen hbig
    exact .inl (by rw [step, get_eq_ok hk, ok_bind, this]; rfl)
  | append k p =>
    obtain ⟨⟨h, hk⟩, hlen⟩ := hr
    have hc := card_rest_lt hk
    simp only [Fits] at hf
    push Not at hf
    obtain ⟨h', hk', hbuf, hp, hbig⟩ := hf
    obtain rfl := Option.some.inj (hk.symm.trans hk')
    have := insert_overflow (hI.wf k h hk) (hI.owned_split hk) hbuf (by omega) (Nat.le_refl h.cb) hp
      hlen hbig
    exact .inl (by rw [step, get_eq_ok hk, ok_bind, this]; rfl)
  | trim k chars =>
    obtain ⟨h, hk⟩ := hr
    simp only [Fits] at hf
    push Not at hf
    obtain ⟨h', hk', hlead, hcb⟩ := hf
    obtain rfl := Option.some.inj (hk.symm.trans hk')
    have hw := hI.wf k h hk
    rw [← hw.length_content] at hcb
    have := trim_overflow hw (show countLead chars _ = _ from if_pos ⟨hlead, hcb⟩)
    exact .inr (by rw [step, get_eq_ok hk, ok_bind, this]; rfl)
  | _ => exact absurd trivial hf

/-! ## Runs -/

/-- The states of the runs of basic operations whose sizes fit. -/
inductive Reach : State → Prop
  | init : Reach .init
  | step {S S' : State} (op : Op) (hS : Reach S) (hb : op.Basic) (hr : Ready S op) (hf : Fits S op)
      (h : StringHeap.step S op = .ok S') : Reach S'

theorem Reach.inv (hS : Reach S) : Inv S ∧ Plain S ∧ S.live < 2 ^ 32 := by
  induction hS with
  | init => exact ⟨Inv.init, fun k h hk => by simp [State.init, State.handle?] at hk, by decide⟩
  | step op _ hb hr hf h ih =>
    obtain ⟨hI, hP, -⟩ := ih
    obtain ⟨S', h', hst⟩ := step_stays hI hr (hb.disciplined hP) hf
    obtain rfl := Except.ok.inj (h.symm.trans h')
    exact ⟨hst.inv, hst.plain hb hP, Nat.lt_of_le_of_lt hst.live hr.1⟩

/-- Copy-on-write isolation: in every state of a run whose steps fit, the counts
are exact and the handles in bounds; the next step succeeds if and only if it
fits, and then it leaves the content of every handle but its target. -/
theorem copyOnWrite_isolation (hS : Reach S) :
    Exact S ∧ ∀ op, op.Basic → Ready S op →
      ((∃ S', step S op = .ok S') ↔ Fits S op) ∧
      ∀ S', step S op = .ok S' → Isolated S S' op.target := by
  obtain ⟨hI, hP, -⟩ := hS.inv
  refine ⟨hI.exact, ?_⟩
  intro op hb hr
  have hd := hb.disciplined hP
  have hok : Fits S op → ∃ S', step S op = .ok S' ∧ Stays S S' op := step_stays hI hr hd
  have hiff : (∃ S', step S op = .ok S') ↔ Fits S op := by
    constructor
    · rintro ⟨S', h⟩
      by_contra hf
      rcases step_overflow hI hr hf with he | he <;> rw [he] at h <;> cases h
    · intro hf
      obtain ⟨S', h, -⟩ := hok hf
      exact ⟨S', h⟩
  refine ⟨hiff, ?_⟩
  intro S' h
  obtain ⟨S'', h', hst⟩ := hok (hiff.mp ⟨S', h⟩)
  obtain rfl := Except.ok.inj (h.symm.trans h')
  exact hst.isolated

/-- The operations one after another. -/
def run (S : State) (ops : List Op) : Except Fault State := ops.foldlM step S

/-- The first handle of a run may be a string of bytes. -/
theorem step_bytes {p : Bytes} (hp : p.length < 2 ^ 31) :
    ∃ r, step .init (.bytes (some p)) = .ok (State.init.push r) ∧
      Built RefHeap.empty 0 r p p.length ∧
      Reach (State.init.push r) := by
  have hO : (RefHeap.empty : Heap).Owned (own .empty + 0) := RefHeap.Owned.empty
  obtain ⟨r, hr, hb⟩ := assign_keeps (wf_empty RefHeap.empty) hO (by decide) rfl
    (show p.length < 2 ^ 32 by omega)
  have hs : step .init (.bytes (some p)) = .ok (State.init.push r) := by
    rw [step]
    exact congrArg (· >>= fun r => pure (State.init.push r)) hr
  exact ⟨r, hs, hb, .step (.bytes (some p)) .init trivial (Ready.bytes hp) trivial hs⟩

theorem Reach.bytes (p : Bytes) (hp : p.length < 2 ^ 31)
    (h : StringHeap.step .init (.bytes (some p)) = .ok S) : Reach S := by
  obtain ⟨r, hr, -, hS⟩ := step_bytes hp
  obtain rfl := Except.ok.inj (hr.symm.trans h)
  exact hS

/-- The second handle is a slice of the first. -/
theorem Reach.slice (p : Bytes) (fromOff toOff : Nat) (hp : p.length < 2 ^ 31)
    (h : run .init [.bytes (some p), .substr 0 fromOff toOff] = .ok S) : Reach S := by
  obtain ⟨r, hr, hb, hS⟩ := step_bytes hp
  rw [run, List.foldlM_cons, hr, ok_bind, List.foldlM_cons] at h
  obtain ⟨S', hstep, hS'⟩ := bind_eq_ok h
  obtain rfl := Except.ok.inj hS'
  exact .step (.substr 0 fromOff toOff) hS trivial ⟨show 1 + 1 < 2 ^ 32 by decide, r.2, rfl, hb.buf⟩
    trivial hstep

/-- Two long strings fill a buffer that two more bytes overflow. -/
theorem append_overflow {p : Bytes} (hp : p.length = 2 ^ 31 - 1) :
    ∃ S, Reach S ∧ run .init [.bytes (some p), .append 0 p] = .ok S ∧ Ready S (.append 0 [0, 0]) ∧
      step S (.append 0 [0, 0]) = .error .bounds := by
  obtain ⟨r₁, hs₁, hb₁, hS₁⟩ := step_bytes (show p.length < 2 ^ 31 by omega)
  have hget₁ : (State.init.push r₁).handle? 0 = some r₁.2 := rfl
  have hp0 : p ≠ [] := by
    rintro rfl
    simp at hp
  have hsize₁ := hb₁.size
  obtain ⟨r₂, h₂, hb₂⟩ := insert_keeps hb₁.keeps.wf hb₁.keeps.owned hb₁.buf (by decide)
    (Nat.le_refl r₁.2.cb) hp0 (by omega)
  have hsize₂ := hb₂.size
  have hs₂ : step (State.init.push r₁) (.append 0 p) = .ok ((State.init.push r₁).put 0 r₂) := by
    rw [step]
    exact congrArg (· >>= fun r => pure ((State.init.push r₁).put 0 r)) h₂
  have hS₂ : Reach ((State.init.push r₁).put 0 r₂) := by
    refine .step (.append 0 p) hS₁ trivial ⟨show 1 < 2 ^ 32 by decide, ⟨_, hget₁⟩, by omega⟩ ?_ hs₂
    intro h hk _ _
    obtain rfl := Option.some.inj (hget₁.symm.trans hk)
    show preparedSize r₁.1 r₁.2 + p.length < 2 ^ 32
    omega
  refine ⟨_, hS₂, ?_, ⟨show 1 < 2 ^ 32 by decide, ⟨r₂.2, rfl⟩, by decide⟩, ?_⟩
  · rw [run, List.foldlM_cons, hs₁, ok_bind, List.foldlM_cons, hs₂]
    rfl
  · have hbig : 2 ^ 32 ≤ preparedSize r₂.1 r₂.2 + [(0 : UInt8), 0].length := by
      simp only [List.length_cons, List.length_nil]
      omega
    have := insert_overflow hb₂.keeps.wf hb₂.keeps.owned hb₂.buf (by decide) (Nat.le_refl r₂.2.cb)
      (show [(0 : UInt8), 0] ≠ [] by decide) (by decide) hbig
    rw [step]
    exact congrArg (· >>= fun r => pure (((State.init.push r₁).put 0 r₂).put 0 r)) this

end Step

/-- A shared buffer: the hypothesis of `copyOnWrite_isolation` is met after the
text `a` is copied. -/
theorem copyOnWrite_isolation_shared :
    letI := zeroMemory
    ∃ S, run .init [.bytes (some [0x61]), .copy 0] = .ok S ∧ Reach S ∧
      S.pointers 0 = 2 ∧ Exact S := by
  let _ := zeroMemory
  have hS₁ := Reach.bytes [0x61] (by decide) rfl
  have hS₂ := Reach.step (.copy 0) hS₁ trivial ⟨by decide, _, rfl⟩ trivial rfl
  exact ⟨_, rfl, hS₂, rfl, (copyOnWrite_isolation hS₂).1⟩

/-- The third append of a run writes outside the buffer. -/
theorem copyOnWrite_append_bounds :
    letI := zeroMemory
    ∃ S, Reach S ∧
      run .init [.bytes (some (List.replicate (2 ^ 31 - 1) 0x61)),
        .append 0 (List.replicate (2 ^ 31 - 1) 0x61)] = .ok S ∧
      Ready S (.append 0 [0, 0]) ∧ step S (.append 0 [0, 0]) = .error .bounds :=
  let _ := zeroMemory
  append_overflow List.length_replicate

end StringHeap

end Libacorn
