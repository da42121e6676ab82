import Libacorn.StringResets
import Libacorn.StringSubstr

/-!
# The assertion in buf_release

Runs that copy, slice, destroy and reassign strings, with `assert(hdr->refs < 1000)`
compiled in. The assertion holds along a run exactly when no handle is destroyed
or reassigned while a thousand handles are on its buffer (`sharing_asserts_iff`).
-/

namespace Libacorn

open Support

namespace StringHeap

/-! ## The source, with the assertion -/

/-- Why a step ends early when assertions are compiled in. -/
inductive Abort where
  | assertion
  | fault (e : Fault)
  deriving DecidableEq, Repr

/-- Code without assertions. -/
def unasserted {α : Type} : Except Fault α → Except Abort α
  | .ok a => .ok a
  | .error e => .error (.fault e)

/-- `buf_release`, with the assertion on the header. -/
def bufReleaseAssert (H : Heap) : Ptr → Except Abort Heap
  | .null => .error (.fault .null)
  | .lit _ => .error (.fault .releaseStatic)
  | .heap i =>
    match H.cells i with
    | none => .error (.fault .freed)
    | some hdr => if hdr.refs < 1000 then unasserted (bufRelease H (.heap i)) else .error .assertion

/-- `if (_buf && _type==kTypeStandard) buf_release(_buf)` -/
def releaseOwnAssert (H : Heap) (h : Handle) : Except Abort Heap :=
  if h.counted then bufReleaseAssert H h.buf else pure H

/-- `~string` -/
def destroyAssert (H : Heap) (h : Handle) : Except Abort Heap := releaseOwnAssert H h

/-- `string::operator=(const string&)` -/
def assignFromAssert (H : Heap) (h str : Handle) : Except Abort (Heap × Handle) := do
  let H ← releaseOwnAssert H h
  let H ← unasserted (retainOwn H str)
  return (H, str)

section Alloc
variable [Uninit]

/-- `string::assign`, for `operator=(const char*)`. -/
def assignAssert (H : Heap) (h : Handle) (p : Option Bytes) : Except Abort (Heap × Handle) := do
  let H ← releaseOwnAssert H h
  match p with
  | some p =>
    let (H, buf) := bufNew H p.length
    let H ← unasserted (write H buf 0 p)
    let H ← unasserted (write H buf p.length [0])
    return (H, { h with buf := buf, cb := p.length, offset := 0 })
  | none => return (H, { h with buf := .null, cb := 0, offset := 0 })

end Alloc

/-- Taking copies and slices, and destroying and reassigning them. -/
inductive SharingOp where
  | copy (s : Nat)
  | substr (s fromOff toOff : Nat)
  | destroy (h : Nat)
  /-- `operator=(const string&)` -/
  | assignFrom (h str : Nat)
  /-- `operator=(const char*)`, with the bytes before the terminator -/
  | assignChars (h : Nat) (s : Option Bytes)
  deriving DecidableEq, Repr

/-- The same operation without assertions. -/
def SharingOp.toOp : SharingOp → Op
  | .copy s => .copy s
  | .substr s fromOff toOff => .substr s fromOff toOff
  | .destroy k => .destroy k
  | .assignFrom k str => .assignFrom k str
  | .assignChars k s => .assignChars k s

/-- The handle that is destroyed or reassigned. -/
def SharingOp.dropped : SharingOp → Option Nat
  | .copy _ | .substr .. => none
  | .destroy k | .assignFrom k _ | .assignChars k _ => some k

section Step
variable [Uninit]

/-- One operation. -/
def stepAssert (S : State) : SharingOp → Except Abort State
  | .copy s => unasserted (step S (.copy s))
  | .substr s fromOff toOff => unasserted (step S (.substr s fromOff toOff))
  | .destroy k => do
    let h ← unasserted (S.get k)
    let H ← destroyAssert S.heap h
    return S.drop k H
  | .assignFrom k str => do
    let h ← unasserted (S.get k)
    let s ← unasserted (S.get str)
    let r ← assignFromAssert S.heap h s
    return S.put k r
  | .assignChars k s => do
    let h ← unasserted (S.get k)
    let r ← assignAssert S.heap h s
    return S.put k r

/-- The operations one after another. -/
def runAssert (S : State) (ops : List SharingOp) : Except Abort State := ops.foldlM stepAssert S

end Step

/-! ## One release -/

@[simp] theorem unasserted_ok {α : Type} (a : α) : unasserted (.ok a) = .ok a := rfl

@[simp] theorem ok_bind_abort {α β : Type} (a : α) (f : α → Except Abort β) : (.ok a >>= f) = f a :=
  rfl

@[simp] theorem assertion_bind {α β : Type} (f : α → Except Abort β) :
    (.error .assertion >>= f) = .error .assertion := rfl

theorem unasserted_bind {α β : Type} (x : Except Fault α) (f : α → Except Fault β) :
    unasserted (x >>= f) = unasserted x >>= fun a => unasserted (f a) := by
  cases x with
  | error e => rfl
  | ok a => rfl

/-- Fewer than a thousand handles are on the buffer of the handle. -/
def State.Below (S : State) (h : Handle) : Prop := ∀ i, h.buf = .heap i → S.pointers i < 1000

section Release

variable {S : State} {k : Nat} {h : Handle}

theorem Inv.releaseOwnAssert_below (hI : Inv S) (hk : S.handle? k = some h) (hb : S.Below h) :
    releaseOwnAssert S.heap h = unasserted (releaseOwn S.heap h) := by
  rw [releaseOwnAssert, releaseOwn]
  split_ifs with hc
  · obtain ⟨i, b, hbuf, -, hget, -⟩ := (hI.wf k h hk).of_counted hc
    obtain ⟨c, hcell, -⟩ := Option.map_eq_some_iff.mp hget
    have hlt : c.refs < 1000 := by
      rw [hI.exact.refs i c hcell]
      exact hb i hbuf
    simp only [hbuf, bufReleaseAssert, hcell, if_pos hlt]
  · rfl

theorem Inv.releaseOwnAssert_not_below (hI : Inv S) (hk : S.handle? k = some h) (hb : ¬S.Below h) :
    releaseOwnAssert S.heap h = .error .assertion := by
  simp only [State.Below, not_forall] at hb
  obtain ⟨i, hbuf, hge⟩ := hb
  have ht := (hI.wf k h hk).type_eq hbuf
  obtain ⟨b, hget, -⟩ := hI.exact.heap k h i hk hbuf
  obtain ⟨c, hcell, -⟩ := Option.map_eq_some_iff.mp hget
  have hrefs : ¬c.refs < 1000 := by
    rw [hI.exact.refs i c hcell]
    exact hge
  simp [releaseOwnAssert, Handle.counted, hbuf, ht, bufReleaseAssert, hcell, hrefs]

end Release

/-! ## Runs -/

/-- The handle an operation destroys or reassigns has fewer than a thousand on its buffer. -/
def SharingOp.Below (S : State) (op : SharingOp) : Prop :=
  ∀ k h, op.dropped = some k → S.handle? k = some h → S.Below h

section Runs

variable [Uninit]

/-- Each operation is one that a caller may ask for in the state that it finds. -/
def Legal : State → List SharingOp → Prop
  | _, [] => True
  | S, op :: ops =>
    Ready S op.toOp ∧ Disciplined S op.toOp ∧ ∀ S', step S op.toOp = .ok S' → Legal S' ops

/-- At each operation, the handle that is dropped has fewer than a thousand on its buffer. -/
def AlwaysBelow : State → List SharingOp → Prop
  | _, [] => True
  | S, op :: ops => op.Below S ∧ ∀ S', step S op.toOp = .ok S' → AlwaysBelow S' ops

variable {S : State} {op : SharingOp} {ops : List SharingOp}

theorem stepAssert_below (hI : Inv S) (hr : Ready S op.toOp) (hb : op.Below S) :
    stepAssert S op = unasserted (step S op.toOp) := by
  cases op with
  | copy s => rfl
  | substr s fromOff toOff => rfl
  | destroy k =>
    obtain ⟨-, h, hk⟩ := hr
    have hrel := hI.releaseOwnAssert_below hk (hb k h rfl hk)
    simp only [stepAssert, SharingOp.toOp, step, get_eq_ok hk, unasserted_ok, ok_bind_abort,
      ok_bind, destroyAssert, hrel, destroy, unasserted_bind]
    rfl
  | assignFrom k str =>
    obtain ⟨-, ⟨h, hk⟩, s, hs⟩ := hr
    have hrel := hI.releaseOwnAssert_below hk (hb k h rfl hk)
    simp only [stepAssert, SharingOp.toOp, step, get_eq_ok hk, get_eq_ok hs, unasserted_ok,
      ok_bind_abort, ok_bind, assignFromAssert, hrel, assignFrom, unasserted_bind]
    rfl
  | assignChars k s =>
    obtain ⟨-, ⟨h, hk⟩, -⟩ := hr
    have hrel := hI.releaseOwnAssert_below hk (hb k h rfl hk)
    simp only [stepAssert, SharingOp.toOp, step, get_eq_ok hk, unasserted_ok, ok_bind_abort,
      ok_bind, assignAssert, hrel, assign, unasserted_bind]
    cases s with
    | none => rfl
    | some p =>
      simp only [unasserted_bind]
      rfl

theorem stepAssert_not_below (hI : Inv S) (hr : Ready S op.toOp) (hb : ¬op.Below S) :
    stepAssert S op = .error .assertion := by
  simp only [SharingOp.Below, not_forall] at hb
  obtain ⟨k, h, hdrop, hk, hb⟩ := hb
  have hrel := hI.releaseOwnAssert_not_below hk hb
  cases op with
  | copy s => cases hdrop
  | substr s fromOff toOff => cases hdrop
  | destroy k' =>
    obtain rfl := Option.some.inj hdrop
    simp only [stepAssert, get_eq_ok hk, unasserted_ok, ok_bind_abort, destroyAssert, hrel,
      assertion_bind]
  | assignFrom k' str =>
    obtain rfl := Option.some.inj hdrop
    obtain ⟨-, -, s, hs⟩ := hr
    simp only [stepAssert, get_eq_ok hk, get_eq_ok hs, unasserted_ok, ok_bind_abort,
      assignFromAssert, hrel, assertion_bind]
  | assignChars k' s =>
    obtain rfl := Option.some.inj hdrop
    simp only [stepAssert, get_eq_ok hk, unasserted_ok, ok_bind_abort, assignAssert, hrel,
      assertion_bind]

/-- A legal step without assertions succeeds: nothing in it has a size that might not fit. -/
theorem step_sharing (hI : Inv S) (hr : Ready S op.toOp) (hd : Disciplined S op.toOp) :
    ∃ S', step S op.toOp = .ok S' ∧ Inv S' := by
  have hf : Fits S op.toOp := by
    cases op <;> exact trivial
  obtain ⟨S', hs, hst⟩ := step_stays hI hr hd hf
  exact ⟨S', hs, hst.inv⟩

theorem runAssert_cons (S : State) (op : SharingOp) (ops : List SharingOp) :
    runAssert S (op :: ops) = stepAssert S op >>= fun S' => runAssert S' ops := List.foldlM_cons ..

theorem runAssert_iff (hI : Inv S) (hl : Legal S ops) :
    runAssert S ops ≠ .error .assertion ↔ AlwaysBelow S ops := by
  induction ops generalizing S with
  | nil => exact iff_of_true nofun trivial
  | cons op ops ih =>
    obtain ⟨hr, hd, hrest⟩ := hl
    obtain ⟨S', hs, hI'⟩ := step_sharing hI hr hd
    rw [runAssert_cons]
    by_cases hb : op.Below S
    · rw [stepAssert_below hI hr hb, hs, unasserted_ok, ok_bind_abort, ih hI' (hrest S' hs)]
      constructor
      · intro hall
        refine ⟨hb, ?_⟩
        intro S'' hs''
        obtain rfl := Except.ok.inj (hs.symm.trans hs'')
        exact hall
      · rintro ⟨-, hall⟩
        exact hall S' hs
    · rw [stepAssert_not_below hI hr hb, assertion_bind]
      exact iff_of_false (fun hne => hne rfl) fun hall => hb hall.1

/-- From every state of a disciplined run: copying, slicing, destroying and reassigning handles
does not fail the assertion if and only if, at each operation, the handle that is destroyed or
reassigned has fewer than a thousand handles on its buffer. -/
theorem sharing_asserts_iff (hS : DisciplinedReach S) (hl : Legal S ops) :
    runAssert S ops ≠ .error .assertion ↔ AlwaysBelow S ops := runAssert_iff hS.inv hl

end Runs

/-! ## Taking copies of one string -/

/-- The operation makes a copy or a slice of the handle. -/
inductive SharingOp.Takes (k : Nat) : SharingOp → Prop
  | copy : Takes k (.copy k)
  | substr (fromOff toOff : Nat) : Takes k (.substr k fromOff toOff)

theorem pointers_push (S : State) (r : Heap × Handle) (i : Nat) :
    (S.push r).pointers i = S.pointers i + if r.2.type = .Standard ∧
      r.2.buf = .heap i then 1 else 0 := by
  simp [State.pointers, State.push, List.countP_append, List.countP_singleton]

section Takes

variable [Uninit] {S S' : State} {op : SharingOp} {k i : Nat} {h : Handle}

/-- The new handle is on the same buffer. -/
theorem SharingOp.Takes.step_eq (ht : op.Takes k) (hI : Inv S) (hk : S.handle? k = some h)
    (hbuf : h.buf = .heap i) (hs : step S op.toOp = .ok S') :
    ∃ r, S' = S.push r ∧ r.2.buf = h.buf ∧ r.2.type = h.type := by
  cases ht with
  | copy =>
    simp only [SharingOp.toOp, step, get_eq_ok hk, ok_bind] at hs
    obtain ⟨r, hr, hs⟩ := bind_eq_ok hs
    obtain ⟨H', -, hr⟩ := bind_eq_ok hr
    obtain rfl := Except.ok.inj hr
    exact ⟨_, (Except.ok.inj hs).symm, rfl, rfl⟩
  | substr fromOff toOff =>
    obtain ⟨H', hr, -⟩ := (hI.wf k h hk).substr_eq (by simp [Handle.Retainable, hbuf]) fromOff toOff
    simp only [SharingOp.toOp, step, get_eq_ok hk, ok_bind, hr] at hs
    exact ⟨_, (Except.ok.inj hs).symm, rfl, rfl⟩

omit [Uninit] in
theorem SharingOp.Takes.ready (ht : op.Takes k) (hk : S.handle? k = some h) (hbuf : h.buf = .heap i)
    (hlive : S.live + 1 < 2 ^ 32) : Ready S op.toOp ∧ Disciplined S op.toOp ∧ op.Below S := by
  cases ht with
  | copy => exact ⟨⟨hlive, h, hk⟩, trivial, nofun⟩
  | substr fromOff toOff => exact ⟨⟨hlive, h, hk, by simp [hbuf]⟩, trivial, nofun⟩

/-- After `n` copies and slices there are `n` more handles on the buffer. -/
theorem takes_pointers {takes : List SharingOp} (hI : Inv S) (hk : S.handle? k = some h)
    (hbuf : h.buf = .heap i) (ht : ∀ op ∈ takes, op.Takes k)
    (hlive : S.live + takes.length < 2 ^ 32) :
    ∃ S', Inv S' ∧ S'.handle? k = some h ∧ S'.pointers i = S.pointers i + takes.length ∧
      S'.live = S.live + takes.length ∧
      ∀ ops, (Legal S' ops → Legal S (takes ++ ops)) ∧
        runAssert S (takes ++ ops) = runAssert S' ops := by
  induction takes generalizing S with
  | nil => exact ⟨S, hI, hk, rfl, rfl, fun ops => ⟨id, rfl⟩⟩
  | cons op takes ih =>
    have hop := ht op (List.mem_cons_self ..)
    rw [List.length_cons] at hlive
    obtain ⟨hr, hd, hb⟩ := hop.ready hk hbuf (by omega)
    obtain ⟨S₁, hs, hI₁⟩ := step_sharing hI hr hd
    obtain ⟨r, rfl, hrbuf, hrtype⟩ := hop.step_eq hI hk hbuf hs
    have hp := pointers_push S r i
    rw [hrbuf, hrtype, if_pos ⟨(hI.wf k h hk).type_eq hbuf, hbuf⟩] at hp
    have hl := live_push S r
    obtain ⟨S', hI', hk', hp', hl', hrun⟩ := ih hI₁ (handle?_push_of_some r hk)
      (fun op' h' => ht op' (List.mem_cons_of_mem op h')) (by omega)
    refine ⟨S', hI', hk', by rw [hp', hp, List.length_cons]; omega,
      by rw [hl', hl, List.length_cons]; omega, ?_⟩
    intro ops
    obtain ⟨hlegal, heq⟩ := hrun ops
    constructor
    · intro hops
      refine ⟨hr, hd, ?_⟩
      intro S'' hs''
      obtain rfl := Except.ok.inj (hs.symm.trans hs'')
      exact hlegal hops
    · rw [List.cons_append, runAssert_cons, stepAssert_below hI hr hb, hs, unasserted_ok,
        ok_bind_abort, heq]

/-- Destroying a string after `n` copies and slices of it were taken. -/
theorem takes_destroy_iff {takes : List SharingOp} (hI : Inv S) (hk : S.handle? k = some h)
    (hbuf : h.buf = .heap i) (ht : ∀ op ∈ takes, op.Takes k)
    (hlive : S.live + takes.length < 2 ^ 32) :
    Legal S (takes ++ [.destroy k]) ∧
      (runAssert S (takes ++ [.destroy k]) ≠ .error .assertion ↔
        S.pointers i + takes.length < 1000) := by
  obtain ⟨S', hI', hk', hp, hl, hrun⟩ := takes_pointers hI hk hbuf ht hlive
  obtain ⟨hlegal, heq⟩ := hrun [.destroy k]
  have hdestroy : Legal S' [.destroy k] :=
    ⟨⟨by rw [hl]; exact hlive, h, hk'⟩, trivial, fun _ _ => trivial⟩
  refine ⟨hlegal hdestroy, ?_⟩
  rw [heq, runAssert_iff hI' hdestroy, ← hp]
  constructor
  · rintro ⟨hb, -⟩
    exact hb k h rfl hk' i hbuf
  · intro hlt
    refine ⟨?_, fun _ _ => trivial⟩
    intro k' h' hdrop hk'' i' hbuf'
    obtain rfl := Option.some.inj hdrop
    obtain rfl := Option.some.inj (hk'.symm.trans hk'')
    obtain rfl := Ptr.heap.inj (hbuf.symm.trans hbuf')
    exact hlt

end Takes

/-- A string that is destroyed while a copy and a slice of it are left. -/
theorem sharing_asserts_three :
    letI := zeroMemory
    ∃ S, step .init (.bytes (some [0x61, 0x62])) = .ok S ∧
      runAssert S [.copy 0, .substr 0 0 1, .destroy 0] ≠ .error .assertion ∧
      AlwaysBelow S [.copy 0, .substr 0 0 1, .destroy 0] := by
  let _ := zeroMemory
  have hr : Ready .init (.bytes (some [0x61, 0x62])) := Ready.bytes (by decide)
  have hS := DisciplinedReach.step (.bytes (some [0x61, 0x62])) .init hr trivial rfl
  have htakes : ∀ op ∈ [SharingOp.copy 0, .substr 0 0 1], op.Takes 0 := by
    intro op hop
    simp only [List.mem_cons, List.not_mem_nil, or_false] at hop
    rcases hop with rfl | rfl
    · exact .copy
    · exact .substr 0 1
  obtain ⟨hlegal, hiff⟩ := takes_destroy_iff hS.inv (k := 0) (i := 0) rfl rfl htakes (by decide)
  have hne := hiff.mpr (by decide)
  exact ⟨_, rfl, hne, (sharing_asserts_iff hS hlegal).mp hne⟩

/-- The thousandth handle makes the assertion fail. -/
theorem thousand_handles_fail :
    letI := zeroMemory
    ∃ S n, step .init (.bytes (some [0x61])) = .ok S ∧ DisciplinedReach S ∧ n = 999 ∧
      Legal S (List.replicate n (.copy 0) ++ [.destroy 0]) ∧
      runAssert S (List.replicate n (.copy 0) ++ [.destroy 0]) = .error .assertion := by
  let _ := zeroMemory
  have hr : Ready .init (.bytes (some [0x61])) := Ready.bytes (by decide)
  have hS := DisciplinedReach.step (.bytes (some [0x61])) .init hr trivial rfl
  obtain ⟨n, hn⟩ : ∃ n : Nat, n = 999 := ⟨_, rfl⟩
  have htakes : ∀ op ∈ List.replicate n (SharingOp.copy 0), op.Takes 0 := by
    intro op hop
    rw [List.eq_of_mem_replicate hop]
    exact .copy
  obtain ⟨hlegal, hiff⟩ := takes_destroy_iff hS.inv (k := 0) (i := 0) rfl rfl htakes (by
    rw [List.length_replicate, hn]
    decide)
  refine ⟨_, n, rfl, hS, hn, hlegal, ?_⟩
  by_contra hne
  have hlt := hiff.mp hne
  rw [List.length_replicate, hn] at hlt
  exact absurd hlt (by decide)

end StringHeap

end Libacorn
