import Mathlib.Tactic.Abel
import Libacorn.HttpCall

/-!
# Runs of lib/http.cpp

Whatever the order in which requests are made, tasks complete and blocks run: the blocks answer the
requests in the order of completion, each once and with its own status (`requests_answered`); the
counts are exact, but for the references that calls leave behind (`requests_references`); and all
that is open can be answered (`requests_drain`).
-/

namespace Libacorn.Http

open Support

/-! ## Whole runs -/

def Request.values (r : Request) : List JSValue := [r.thisVal, r.resolve, r.reject]

def Task.values (t : Task) : List JSValue := t.request.values

def Running.values (r : Running) : List JSValue := r.task.values ++ [.counted r.resval]

/-- The references that nothing will free. -/
def Event.lost : Event → List JSValue
  | .unwrapped taken => taken
  | .refused v resolve reject _ => [v, resolve, reject]
  | .returned v => [v]
  | _ => []

def lost (log : List Event) : List JSValue := log.flatMap Event.lost

/-- An event that loses nothing. -/
theorem refsOf_lost_concat (log : List Event) {e : Event} (h : refsOf e.lost = 0) :
    refsOf (lost (log ++ [e])) = refsOf (lost log) := by
  simp only [lost, List.flatMap_append, List.flatMap_singleton, refsOf_append, h, add_zero]

/-- No request of a history has a body. -/
def Bare (log : List Event) : Prop := ∀ id r, .started id r ∈ log → r.body = none

theorem Bare.append {log : List Event} {e : Event} (h : Bare log)
    (he : ∀ id r, e = .started id r → r.body = none) : Bare (log ++ [e]) := by
  intro id r hr
  rcases List.mem_append.mp hr with hr | hr
  · exact h id r hr
  · exact he id r (List.mem_singleton.mp hr).symm

theorem length_values {S : State} {names : List Name} {vs : List JSValue}
    (h : S.values names = some vs) : vs.length = names.length := by
  induction names generalizing vs with
  | nil =>
    cases h
    rfl
  | cons name names ih =>
    rw [State.values] at h
    split at h
    next v' vs' hv hvs =>
      cases h
      exact congrArg Nat.succ (ih hvs)
    next => cases h

namespace State

/-- The references of the script, of the tasks and of the blocks. -/
def references (S : State) : List JSValue :=
  S.held ++ S.inFlight.flatMap Task.values ++ S.queue.flatMap (fun q => q.1.values) ++
    S.running.toList.flatMap Running.values

/-- All references: those, and what was lost. -/
def all (S : State) : List JSValue := S.references ++ lost S.log

theorem coe_all (S : State) : (S.all : Multiset JSValue) =
    ↑S.held + ↑(S.inFlight.flatMap Task.values) + ↑(S.queue.flatMap fun q => q.1.values) +
      ↑(S.running.toList.flatMap Running.values) + ↑(lost S.log) := by
  simp only [all, references, ← Multiset.coe_add]

/-- The number of references that an action takes. -/
def takes (S : State) : Action → Nat
  | .make d => d.values.length
  | .copy _ => 1
  | .change _ d => d.values.length
  | .httpreq _ argv => (((S.values argv).map (taken S.heap)).getD []).length + 3
  | .finish _ => 1
  | _ => 0

/-- The counts are those of all references, and no request has a body. -/
structure Inv (S : State) : Prop where
  bare : Bare S.log
  holds : Holds S.heap S.all

/-- The references have not changed. -/
theorem Inv.of_perm {S' : State} {vs : List JSValue} (hholds : Holds S'.heap vs)
    (hperm : (vs : Multiset JSValue) = S'.all) (hbare : Bare S'.log) : S'.Inv where
  bare := hbare
  holds := hholds.perm (Multiset.coe_eq_coe.mp hperm)

/-- What the script can name can be used. -/
theorem Inv.usable_value {S : State} (h : S.Inv) {name : Name} {v : JSValue}
    (hv : S.value name = some v) : usable S.heap v := by
  have hrunning : ∀ r, S.running = some r → ∀ w ∈ r.values, usable S.heap w := by
    intro r hr w hw
    apply h.holds.usable
    apply List.mem_append_left
    apply List.mem_append_right
    rw [hr]
    exact List.mem_flatMap.mpr ⟨r, by simp, hw⟩
  cases name with
  | plain w =>
    cases hv
    rfl
  | held k =>
    apply h.holds.usable
    apply List.mem_append_left
    simp only [references, List.append_assoc]
    exact List.mem_append_left _ (List.mem_of_getElem? hv)
  | callee =>
    obtain ⟨r, hr, rfl⟩ := Option.map_eq_some_iff.mp hv
    exact hrunning r hr _ (by simp [Running.values, Task.values, Request.values])
  | receiver =>
    obtain ⟨r, hr, rfl⟩ := Option.map_eq_some_iff.mp hv
    exact hrunning r hr _ (by simp [Running.values, Task.values, Request.values])
  | argument =>
    obtain ⟨r, hr, rfl⟩ := Option.map_eq_some_iff.mp hv
    exact hrunning r hr _ (by simp [Running.values])

theorem Inv.usable_values {S : State} (h : S.Inv) {names : List Name} {vs : List JSValue}
    (hvs : S.values names = some vs) : ∀ v ∈ vs, usable S.heap v := by
  induction names generalizing vs with
  | nil =>
    cases hvs
    intro v hv
    cases hv
  | cons name names ih =>
    rw [values] at hvs
    split at hvs
    next v' vs' hv hvs' =>
      cases hvs
      intro u hu
      rcases List.mem_cons.mp hu with rfl | hu
      · exact h.usable_value ‹_›
      · exact ih hvs' u hu
    next => cases hvs

/-- The values of an object are those that the script has named. -/
theorem data_values {S : State} {d : JsData Name} {d' : JsData JSValue} (h : S.data d = some d') :
    S.values d.values = some d'.values := by
  cases d with
  | array elements | other captured =>
    obtain ⟨vs, hvs, rfl⟩ := Option.map_eq_some_iff.mp h
    exact hvs
  | object fields =>
    obtain ⟨vs, hvs, rfl⟩ := Option.map_eq_some_iff.mp h
    have hlen := length_values hvs
    rw [List.length_map] at hlen
    rw [JsData.values, JsData.values, List.map_snd_zip]
    · exact hvs
    · rw [List.length_map]
      omega
  | native id =>
    cases h
    rfl

theorem perm_eraseIdx {α : Type} {l : List α} {k : Nat} {a : α} (h : l[k]? = some a) :
    l.Perm ([a] ++ l.eraseIdx k) := by
  obtain ⟨hlt, rfl⟩ := List.getElem?_eq_some_iff.mp h
  exact (List.getElem_cons_eraseIdx_perm hlt).symm

/-- The state behind a call. -/
theorem Inv.called {S : State} (h : S.Inv) {H : Heap} {taken : List JSValue} {c : Called}
    (hreturned : Returned S.all H taken c) : ((S.noted H taken).called c).Inv := by
  have hbare : Bare (S.noted H taken).log := h.bare.append (by simp)
  cases c with
  | started r =>
    refine .of_perm hreturned.holds ?_ (hbare.append ?_)
    · simp only [coe_all, State.called, noted, List.flatMap_append, lost, Event.lost,
        List.flatMap_cons, List.flatMap_nil, Task.values, Request.values, Called.values,
        ← Multiset.coe_add,
        Multiset.coe_nil]
      abel
    · intro id r' heq
      cases heq
      exact hreturned.body r rfl
  | refused v resolve reject message =>
    refine .of_perm hreturned.holds ?_ (hbare.append (by simp))
    simp only [coe_all, State.called, noted, List.flatMap_append, lost, Event.lost,
      List.flatMap_cons, List.flatMap_nil, Called.values, ← Multiset.coe_add, Multiset.coe_nil]
    abel

theorem status_of_ne {res : Response} (h : res ≠ .other) : ∃ status, res.status = .done status := by
  cases res with
  | none => exact ⟨0, rfl⟩
  | http statusCode => exact ⟨_, rfl⟩
  | other => exact absurd rfl h

/-- The state in the call of `resolve`. -/
def calling (S : State) (t : Task) (queue : List (Task × Response)) (status : BitVec 32) : State :=
  { S with
    heap := S.heap.alloc (responseData status)
    queue := queue
    running := some ⟨t, S.heap.next⟩
    log := S.log ++ [.resolved t.id t.request.resolve t.request.thisVal status] }

/-- `resolve` and its `this` are still there when the block calls. -/
theorem call_eq {S : State} {t : Task} {res : Response} {queue : List (Task × Response)}
    {status : BitVec 32} (ht : ∀ v ∈ t.values, usable S.heap v)
    (hstatus : res.status = .done status) :
    S.call t res queue = .done (S.calling t queue status) := by
  have hresolve := ht t.request.resolve (by simp [Task.values, Request.values])
  have hthis := ht t.request.thisVal (by simp [Task.values, Request.values])
  rw [call, hstatus, Outcome.bind_done]
  exact if_pos ⟨usable_alloc hresolve _, usable_alloc hthis _⟩

/-- The block frees what it has. -/
theorem freeAll_eq {H : Heap} {r : Running} {vs : List JSValue} (h : Holds H (r.values ++ vs)) :
    ∃ H', freeAll H r = .done H' ∧ Holds H' vs := by
  simp only [Running.values, Task.values, Request.values, List.cons_append, List.nil_append] at h
  obtain ⟨H₁, hfree₁, h₁⟩ := h.free
  obtain ⟨H₂, hfree₂, h₂⟩ := h₁.free
  obtain ⟨H₃, hfree₃, h₃⟩ := h₂.free
  obtain ⟨H₄, hfree₄, h₄⟩ := h₃.free
  exact ⟨H₄, by simp only [freeAll, hfree₁, hfree₂, hfree₃, hfree₄, Outcome.bind_done], h₄⟩

/-- The state behind a block that has run. -/
def finished (S : State) (H : Heap) (v : JSValue) : State :=
  { S with heap := H, running := none, log := S.log ++ [.returned v] }

theorem Inv.start : start.Inv where
  bare := by
    intro id r h
    cases h
  holds := RefHeap.Closed.empty

section

variable [Foundation]

/-- An action that does not come to an end. -/
def Aborts (S : State) : Action → Prop
  | .httpreq this argv =>
    ∃ v vs, S.value this = some v ∧ S.values argv = some vs ∧ Http.Aborts S.heap vs
  | .deliver => S.running = none ∧ ∃ t queue, S.queue = (t, .other) :: queue
  | _ => False

/-- What an action does to the invariant, and when it comes to an end. -/
structure Ends (S : State) (a : Action) : Prop where
  keeps : ∀ S', S.step a = .done S' → S'.Inv ∧ ¬S.Aborts a
  exists_done : Room S.heap (S.takes a) → ¬S.Aborts a → ∃ S', S.step a = .done S'

/-- An action that cannot fail. -/
theorem Ends.of_done {S S' : State} {a : Action} (h : S.step a = .done S') (hinv : S'.Inv)
    (haborts : ¬S.Aborts a) : S.Ends a where
  keeps := by
    intro S₁ hS₁
    cases hS₁.symm.trans h
    exact ⟨hinv, haborts⟩
  exists_done _ _ := ⟨S', h⟩

section Steps

variable {S : State}

theorem ends_make (h : S.Inv) (d : JsData Name) : S.Ends (.make d) := by
  cases hd : S.data d with
  | none => exact .of_done (by rw [step, hd]) h id
  | some d' =>
    constructor
    · intro S' hS'
      rw [step, hd] at hS'
      obtain ⟨H, hdups, hS'⟩ := Outcome.bind_eq_done hS'
      cases hS'
      refine ⟨.of_perm ((h.holds.dups hdups).alloc) ?_ h.bare, id⟩
      simp only [coe_all, ← Multiset.cons_coe, ← Multiset.coe_add, ← Multiset.singleton_add,
        Multiset.coe_nil]
      abel
    · intro hroom _
      have hvalues := data_values hd
      have hlen := length_values hvalues
      rw [takes, ← hlen, ← Nat.add_zero d'.values.length] at hroom
      obtain ⟨H, hdups, -⟩ := dups_room (h.usable_values hvalues) hroom
      refine ⟨{ S with heap := H.alloc d', held := S.held ++ [.counted H.next] }, ?_⟩
      simp only [step, hd, hdups, Outcome.bind_done]

theorem ends_copy (h : S.Inv) (name : Name) : S.Ends (.copy name) := by
  cases hv : S.value name with
  | none => exact .of_done (by rw [step, hv]) h id
  | some v =>
    constructor
    · intro S' hS'
      rw [step, hv] at hS'
      obtain ⟨H, hdup, hS'⟩ := Outcome.bind_eq_done hS'
      cases hS'
      refine ⟨.of_perm (h.holds.dup hdup) ?_ h.bare, id⟩
      simp only [coe_all, ← Multiset.cons_coe, ← Multiset.coe_add, ← Multiset.singleton_add,
        Multiset.coe_nil]
      abel
    · intro hroom _
      obtain ⟨H, hdup, -⟩ := dup_room (k := 0) (h.usable_value hv) hroom
      refine ⟨{ S with heap := H, held := S.held ++ [v] }, ?_⟩
      simp only [step, hv, hdup, Outcome.bind_done]

theorem ends_drop (h : S.Inv) (k : Nat) : S.Ends (.drop k) := by
  cases hv : S.held[k]? with
  | none => exact .of_done (by rw [step, hv]) h id
  | some v =>
    have hheld : S.held.Perm ([v] ++ S.held.eraseIdx k) := perm_eraseIdx hv
    have hperm : S.all.Perm (v :: { S with held := S.held.eraseIdx k }.all) := by
      apply Multiset.coe_eq_coe.mp
      simp only [coe_all, Multiset.coe_eq_coe.mpr hheld, ← Multiset.coe_add, ← Multiset.cons_coe,
        ← Multiset.singleton_add, Multiset.coe_nil]
      abel
    obtain ⟨H, hfree, hholds⟩ := (h.holds.perm hperm).free
    have hinv : { S with heap := H, held := S.held.eraseIdx k }.Inv := ⟨h.bare, hholds⟩
    exact .of_done (by simp only [step, hv, hfree, Outcome.bind_done]) hinv id

theorem ends_change (h : S.Inv) (name : Name) (d : JsData Name) : S.Ends (.change name d) := by
  cases hv : S.value name with
  | none => exact .of_done (by simp only [step, hv]) h id
  | some v =>
    cases v with
    | plain v => exact .of_done (by simp only [step, hv]) h id
    | counted i =>
      cases hd : S.data d with
      | none => exact .of_done (by simp only [step, hv, hd]) h id
      | some d' =>
        obtain ⟨old, hold⟩ := Option.isSome_iff_exists.mp (h.usable_value hv)
        have hfrees (H : Heap) (hdups : dupValues S.heap d'.values = .done H) :
            ∃ H', freeValues (H.modify i d') old.values = .done H' ∧ Holds H' S.all :=
          Holds.frees ((h.holds.dups hdups).modify (by rw [(dupValues_same hdups).2, hold]))
        constructor
        · intro S' hS'
          simp only [step, hv, hd] at hS'
          obtain ⟨H, hdups, hS'⟩ := Outcome.bind_eq_done hS'
          obtain ⟨H', hfree, hholds⟩ := hfrees H hdups
          simp only [(dupValues_same hdups).2, hold, hfree, Outcome.bind_done] at hS'
          cases hS'
          exact ⟨⟨h.bare, hholds⟩, id⟩
        · intro hroom _
          have hvalues := data_values hd
          have hlen := length_values hvalues
          rw [takes, ← hlen, ← Nat.add_zero d'.values.length] at hroom
          obtain ⟨H, hdups, -⟩ := dups_room (h.usable_values hvalues) hroom
          obtain ⟨H', hfree, -⟩ := hfrees H hdups
          refine ⟨{ S with heap := H' }, ?_⟩
          simp only [step, hv, hd, hdups, Outcome.bind_done, (dupValues_same hdups).2, hold, hfree]

theorem ends_httpreq (h : S.Inv) (this : Name) (argv : List Name) :
    S.Ends (.httpreq this argv) := by
  cases hv : S.value this with
  | none =>
    refine .of_done (by simp only [step, hv]) h ?_
    rintro ⟨v, vs, hv', -⟩
    cases hv.symm.trans hv'
  | some v =>
    cases hvs : S.values argv with
    | none =>
      refine .of_done (by simp only [step, hv, hvs]) h ?_
      rintro ⟨v', vs, -, hvs', -⟩
      cases hvs.symm.trans hvs'
    | some vs =>
      have haborts : S.Aborts (.httpreq this argv) ↔ Http.Aborts S.heap vs := by
        constructor
        · rintro ⟨v', vs', -, hvs', hab⟩
          cases hvs.symm.trans hvs'
          exact hab
        · intro hab
          exact ⟨v, vs, hv, hvs, hab⟩
      constructor
      · intro S' hS'
        simp only [step, hv, hvs] at hS'
        obtain ⟨⟨H, taken, c⟩, hcall, hS'⟩ := Outcome.bind_eq_done hS'
        cases hS'
        obtain ⟨hab, hreturned⟩ := httpreq_done h.holds hcall
        exact ⟨h.called hreturned, fun hab' => hab (haborts.mp hab')⟩
      · intro hroom hab
        rw [takes, hvs] at hroom
        obtain ⟨r, hr⟩ := httpreq_exists h.holds (h.usable_value hv) (h.usable_values hvs) hroom
          fun hab' => hab (haborts.mpr hab')
        refine ⟨(S.noted r.1 r.2.1).called r.2.2, ?_⟩
        simp only [step, hv, hvs, hr, Outcome.bind_done]

theorem ends_complete (h : S.Inv) (k : Nat) (res : Response) : S.Ends (.complete k res) := by
  cases ht : S.inFlight[k]? with
  | none => exact .of_done (by simp only [step, ht]) h id
  | some t =>
    have hflight : (S.inFlight.flatMap Task.values).Perm
        (([t] ++ S.inFlight.eraseIdx k).flatMap Task.values) := (perm_eraseIdx ht).flatMap_right _
    have hstep : S.step (.complete k res) = .done
        { S with inFlight := S.inFlight.eraseIdx k, queue := S.queue ++ [(t, res)],
                 log := S.log ++ [.completed t.id res] } := by
      simp only [step, ht]
    refine .of_done hstep (.of_perm h.holds ?_ (h.bare.append (by simp))) id
    simp only [coe_all, Multiset.coe_eq_coe.mpr hflight, List.flatMap_append, lost, Event.lost,
      List.flatMap_cons, List.flatMap_nil, ← Multiset.coe_add, Multiset.coe_nil]
    abel

theorem ends_deliver (h : S.Inv) : S.Ends .deliver := by
  cases hrun : S.running with
  | some r =>
    refine .of_done (by simp only [step, hrun]) h ?_
    rintro ⟨hnone, -⟩
    cases hrun.symm.trans hnone
  | none =>
    cases hqueue : S.queue with
    | nil =>
      refine .of_done (by simp only [step, hrun, hqueue]) h ?_
      rintro ⟨-, t, queue, heq⟩
      cases hqueue.symm.trans heq
    | cons q queue =>
      obtain ⟨t, res⟩ := q
      have hmem : ∀ v ∈ t.values, usable S.heap v := by
        intro v hv
        apply h.holds.usable
        apply List.mem_append_left
        apply List.mem_append_left
        apply List.mem_append_right
        exact List.mem_flatMap.mpr ⟨(t, res), by rw [hqueue]; exact List.mem_cons_self .., hv⟩
      by_cases hother : res = .other
      · subst hother
        have haborts : S.Aborts .deliver := ⟨hrun, t, queue, hqueue⟩
        constructor
        · intro S' hS'
          simp only [step, hrun, hqueue] at hS'
          cases hS'
        · intro _ hn
          exact absurd haborts hn
      · obtain ⟨status, hstatus⟩ := status_of_ne hother
        have hstep : S.step .deliver = .done (S.calling t queue status) := by
          simp only [step, hrun, hqueue]
          exact call_eq hmem hstatus
        have halloc : Holds (S.calling t queue status).heap (.counted S.heap.next :: S.all) :=
          Holds.alloc (d := responseData status) h.holds
        refine .of_done hstep (.of_perm halloc ?_ (h.bare.append (by simp))) ?_
        · simp only [coe_all, calling, hrun, hqueue, Option.toList_some, Option.toList_none,
            List.flatMap_append, List.flatMap_cons, List.flatMap_nil, lost, Event.lost,
            Running.values,
            ← Multiset.coe_add, Multiset.coe_nil, ← Multiset.cons_coe, ← Multiset.singleton_add]
          abel
        · rintro ⟨-, t', queue', heq⟩
          cases hqueue.symm.trans heq
          exact hother rfl

/-- The block comes to its end once its result is copied. -/
theorem finish_done (h : S.Inv) {result : Name} {r : Running} {v : JSValue} {H : Heap}
    (hrun : S.running = some r) (hv : S.value result = some v)
    (hdup : dupValue S.heap v = .done H) :
    ∃ H', S.step (.finish result) = .done (S.finished H' v) ∧ (S.finished H' v).Inv := by
  have hperm (H : Heap) : (v :: S.all).Perm (r.values ++ (S.finished H v).all) := by
    apply Multiset.coe_eq_coe.mp
    simp only [coe_all, finished, hrun, Option.toList_some, Option.toList_none,
      List.flatMap_append, List.flatMap_cons, List.flatMap_nil, lost, Event.lost,
      ← Multiset.coe_add, Multiset.coe_nil, ← Multiset.cons_coe, ← Multiset.singleton_add]
    abel
  obtain ⟨H', hfree, hholds⟩ := freeAll_eq ((h.holds.dup hdup).perm (hperm H))
  refine ⟨H', ?_, h.bare.append (by simp), hholds⟩
  simp only [step, hrun, hv, hdup, hfree, Outcome.bind_done, finished]

theorem ends_finish (h : S.Inv) (result : Name) : S.Ends (.finish result) := by
  cases hrun : S.running with
  | none => exact .of_done (by simp only [step, hrun]) h id
  | some r =>
    cases hv : S.value result with
    | none => exact .of_done (by simp only [step, hrun, hv]) h id
    | some v =>
      constructor
      · intro S' hS'
        have hS := hS'
        simp only [step, hrun, hv] at hS
        obtain ⟨H, hdup, -⟩ := Outcome.bind_eq_done hS
        obtain ⟨H', hstep, hinv⟩ := finish_done h hrun hv hdup
        cases hS'.symm.trans hstep
        exact ⟨hinv, id⟩
      · intro hroom _
        obtain ⟨H, hdup, -⟩ := dup_room (k := 0) (h.usable_value hv) hroom
        obtain ⟨H', hstep, -⟩ := finish_done h hrun hv hdup
        exact ⟨_, hstep⟩

theorem Inv.ends (h : S.Inv) (a : Action) : S.Ends a := by
  cases a with
  | make d => exact ends_make h d
  | copy name => exact ends_copy h name
  | drop k => exact ends_drop h k
  | change name d => exact ends_change h name d
  | httpreq this argv => exact ends_httpreq h this argv
  | complete k res => exact ends_complete h k res
  | deliver => exact ends_deliver h
  | finish result => exact ends_finish h result

end Steps

theorem Inv.run {S S' : State} {as : List Action} (h : S.Inv) (hrun : S.run as = .done S') :
    S'.Inv := by
  induction as generalizing S with
  | nil =>
    cases hrun
    exact h
  | cons a as ih =>
    obtain ⟨S₁, hstep, hrun⟩ := Outcome.bind_eq_done hrun
    exact ih ((h.ends a).keeps S₁ hstep).1 hrun

end

end State

/-- An object is live as long as another object, the script, a task or a block has it, or a call has
left it behind; so nothing is used after it is freed, and an action comes to an end unless an
exception, an assertion or the response is in its way. No request has a body. -/
theorem requests_references [Foundation] (as : List Action) (S : State)
    (hrun : State.start.run as = .done S) :
    Holds S.heap (S.references ++ lost S.log) ∧ Bare S.log ∧
      ∀ a, Room S.heap (S.takes a) → ((∃ S', S.step a = .done S') ↔ ¬S.Aborts a) := by
  have h := State.Inv.start.run hrun
  refine ⟨h.holds, h.bare, ?_⟩
  intro a hroom
  constructor
  · rintro ⟨S', hS'⟩
    exact ((h.ends a).keeps S' hS').2
  · exact (h.ends a).exists_done hroom

/-- ASCII text can be decoded. -/
@[reducible] def asciiFoundation : Foundation where
  decodes s := s.all (· < 128)

/-- Two requests, and a call that is refused; the second completes first, and its block runs while
the first is with the session. The options have an object in them. -/
def twoRequests : List Action :=
  [.make (.other []), .make (.other []), .make (.object [(jsText "accept", .string "text/plain")]),
    .make (.object [(jsText "method", .string "GET"), (jsText "headers", .held 2)]), .drop 2,
    .httpreq .undefined [.string "/a", .held 2, .held 0, .held 1],
    .httpreq .undefined [.string "/b", .held 2, .held 1, .held 0],
    .httpreq .undefined [.undefined, .held 2, .held 0, .held 0],
    .drop 2, .drop 0, .complete 1 (.http 404), .deliver]

theorem requests_references_two : ∃ S, @State.run asciiFoundation .start twoRequests = .done S ∧
    Holds S.heap (S.references ++ lost S.log) ∧ Bare S.log ∧
      ∀ a, Room S.heap (S.takes a) →
        ((∃ S', @State.step asciiFoundation S a = .done S') ↔ ¬@State.Aborts asciiFoundation S a) :=
  ⟨_, rfl, @requests_references asciiFoundation twoRequests _ rfl⟩

/-! ## Answers -/

theorem filterMap_concat {α β : Type} (f : α → Option β) (l : List α) (a : α) :
    (l ++ [a]).filterMap f = l.filterMap f ++ (f a).toList := by
  rw [List.filterMap_append]
  cases h : f a with
  | none => simp [h]
  | some b => simp [h]

def Event.started? : Event → Option Nat
  | .started id _ => some id
  | _ => none

def Event.completed? : Event → Option (Nat × Response)
  | .completed id res => some (id, res)
  | _ => none

def Event.resolved? : Event → Option (Nat × BitVec 32)
  | .resolved id _ _ status => some (id, status)
  | _ => none

namespace State

/-- What an action can do to the tasks, the blocks and the history. -/
inductive Moves (S S' : State) : Prop
  | idle (hnext : S'.next = S.next) (hflight : S'.inFlight = S.inFlight)
      (hqueue : S'.queue = S.queue) (hlog : S'.log = S.log)
  | start (r : Request) (hnext : S'.next = S.next + 1)
      (hflight : S'.inFlight = S.inFlight ++ [⟨S.next, r⟩]) (hqueue : S'.queue = S.queue)
      (hlog : S'.log = S.log ++ [.started S.next r])
  | note (e : Event) (hstarted : e.started? = none) (hcompleted : e.completed? = none)
      (hresolved : e.resolved? = none) (hnext : S'.next = S.next)
      (hflight : S'.inFlight = S.inFlight) (hqueue : S'.queue = S.queue)
      (hlog : S'.log = S.log ++ [e])
  | complete (k : Nat) (t : Task) (res : Response) (ht : S.inFlight[k]? = some t)
      (hnext : S'.next = S.next) (hflight : S'.inFlight = S.inFlight.eraseIdx k)
      (hqueue : S'.queue = S.queue ++ [(t, res)]) (hlog : S'.log = S.log ++ [.completed t.id res])
  | resolve (t : Task) (res : Response) (status : BitVec 32)
      (hqueue : S.queue = (t, res) :: S'.queue) (hstatus : res.status = .done status)
      (hnext : S'.next = S.next) (hflight : S'.inFlight = S.inFlight)
      (hlog : S'.log = S.log ++ [.resolved t.id t.request.resolve t.request.thisVal status])

theorem call_done {S S' : State} {t : Task} {res : Response} {queue : List (Task × Response)}
    (h : S.call t res queue = .done S') :
    ∃ status, res.status = .done status ∧ S' = S.calling t queue status := by
  obtain ⟨status, hstatus, h⟩ := Outcome.bind_eq_done h
  refine ⟨status, hstatus, ?_⟩
  simp only at h
  split at h
  next =>
    cases h
    rfl
  next => cases h

theorem Moves.refl (S : State) : S.Moves S := .idle rfl rfl rfl rfl

section Steps

variable [Foundation] {S S' : State}

theorem make_moves {d : JsData Name} (h : S.step (.make d) = .done S') : S.Moves S' := by
  rw [step] at h
  split at h
  next =>
    obtain ⟨H, -, h⟩ := Outcome.bind_eq_done h
    cases h
    exact .idle rfl rfl rfl rfl
  next =>
    cases h
    exact .refl _

theorem copy_moves {name : Name} (h : S.step (.copy name) = .done S') : S.Moves S' := by
  rw [step] at h
  split at h
  next =>
    obtain ⟨H, -, h⟩ := Outcome.bind_eq_done h
    cases h
    exact .idle rfl rfl rfl rfl
  next =>
    cases h
    exact .refl _

theorem drop_moves {k : Nat} (h : S.step (.drop k) = .done S') : S.Moves S' := by
  rw [step] at h
  split at h
  next =>
    obtain ⟨H, -, h⟩ := Outcome.bind_eq_done h
    cases h
    exact .idle rfl rfl rfl rfl
  next =>
    cases h
    exact .refl _

theorem change_moves {name : Name} {d : JsData Name} (h : S.step (.change name d) = .done S') :
    S.Moves S' := by
  rw [step] at h
  split at h
  next =>
    obtain ⟨H, -, h⟩ := Outcome.bind_eq_done h
    split at h
    next =>
      obtain ⟨H', -, h⟩ := Outcome.bind_eq_done h
      cases h
      exact .idle rfl rfl rfl rfl
    next => cases h
  next =>
    cases h
    exact .refl _

/-- A call of `js_httpreq` notes what it has taken first. -/
theorem httpreq_moves {this : Name} {argv : List Name}
    (h : S.step (.httpreq this argv) = .done S') : ∃ S₁, S.Moves S₁ ∧ S₁.Moves S' := by
  rw [step] at h
  split at h
  next =>
    obtain ⟨⟨H, taken, c⟩, -, h⟩ := Outcome.bind_eq_done h
    cases h
    refine ⟨S.noted H taken, .note _ rfl rfl rfl rfl rfl rfl rfl, ?_⟩
    cases c with
    | started r => exact .start r rfl rfl rfl rfl
    | refused v resolve reject message => exact .note _ rfl rfl rfl rfl rfl rfl rfl
  next =>
    cases h
    exact ⟨_, .refl _, .refl _⟩

theorem complete_moves {k : Nat} {res : Response} (h : S.step (.complete k res) = .done S') :
    S.Moves S' := by
  rw [step] at h
  split at h
  next t ht =>
    cases h
    exact .complete k t res ht rfl rfl rfl rfl
  next =>
    cases h
    exact .refl _

theorem deliver_moves (h : S.step .deliver = .done S') : S.Moves S' := by
  rw [step] at h
  split at h
  next t res queue hrun hqueue =>
    obtain ⟨status, hstatus, rfl⟩ := call_done h
    exact .resolve t res status hqueue hstatus rfl rfl rfl
  next =>
    cases h
    exact .refl _

theorem finish_moves {result : Name} (h : S.step (.finish result) = .done S') : S.Moves S' := by
  rw [step] at h
  split at h
  next =>
    obtain ⟨H, -, h⟩ := Outcome.bind_eq_done h
    obtain ⟨H', -, h⟩ := Outcome.bind_eq_done h
    cases h
    exact .note _ rfl rfl rfl rfl rfl rfl rfl
  next =>
    cases h
    exact .refl _

theorem moves {a : Action} (h : S.step a = .done S') : ∃ S₁, S.Moves S₁ ∧ S₁.Moves S' := by
  cases a with
  | make d => exact ⟨S, .refl S, make_moves h⟩
  | copy name => exact ⟨S, .refl S, copy_moves h⟩
  | drop k => exact ⟨S, .refl S, drop_moves h⟩
  | change name d => exact ⟨S, .refl S, change_moves h⟩
  | httpreq this argv => exact httpreq_moves h
  | complete k res => exact ⟨S, .refl S, complete_moves h⟩
  | deliver => exact ⟨S, .refl S, deliver_moves h⟩
  | finish result => exact ⟨S, .refl S, finish_moves h⟩

end Steps

/-- The history of a run: every request that was started is with the session or has completed once;
the blocks answer in the order of completion, each with its status and the values of its own
request. -/
structure Answered (S : State) : Prop where
  started : S.log.filterMap Event.started? = List.range S.next
  once : (S.inFlight.map Task.id ++ (S.log.filterMap Event.completed?).map Prod.fst).Perm
    (List.range S.next)
  inOrder : (S.log.filterMap Event.completed?).map (fun c => (c.1, c.2.status)) =
    (S.log.filterMap Event.resolved?).map (fun r => (r.1, .done r.2)) ++ S.queue.map
      (fun q => (q.1.id, q.2.status))
  own : ∀ id func v status, .resolved id func v status ∈ S.log →
    ∃ r, .started id r ∈ S.log ∧ func = r.resolve ∧ v = r.thisVal
  known : ∀ t ∈ S.inFlight ++ S.queue.map Prod.fst, .started t.id t.request ∈ S.log

section

variable {S S' : State}

theorem Answered.idle (h : S.Answered) (hnext : S'.next = S.next)
    (hflight : S'.inFlight = S.inFlight) (hqueue : S'.queue = S.queue) (hlog : S'.log = S.log) :
    S'.Answered := by
  constructor
  · rw [hlog, hnext, h.started]
  · rw [hlog, hnext, hflight]
    exact h.once
  · rw [hlog, hqueue]
    exact h.inOrder
  · rw [hlog]
    exact h.own
  · rw [hlog, hflight, hqueue]
    exact h.known

/-- A request is with the session. -/
theorem Answered.begin (h : S.Answered) (r : Request) (hnext : S'.next = S.next + 1)
    (hflight : S'.inFlight = S.inFlight ++ [⟨S.next, r⟩]) (hqueue : S'.queue = S.queue)
    (hlog : S'.log = S.log ++ [.started S.next r]) :
    S'.Answered := by
  constructor
  · rw [hlog, hnext, filterMap_concat, h.started, List.range_succ]
    rfl
  · simp only [hlog, hnext, hflight, filterMap_concat, List.range_succ, Event.completed?,
      Option.toList_none, List.append_nil, List.map_append, List.append_assoc]
    apply (List.perm_append_comm.append_left _).trans
    rw [← List.append_assoc]
    exact h.once.append_right [S.next]
  · simp only [hlog, hqueue, filterMap_concat, Event.completed?, Event.resolved?,
      Option.toList_none, List.append_nil]
    exact h.inOrder
  · intro id func v status hmem
    rw [hlog] at hmem ⊢
    obtain ⟨r', hr', hown⟩ := h.own id func v status (by simpa using hmem)
    exact ⟨r', List.mem_append_left _ hr', hown⟩
  · intro t ht
    rw [hflight, hqueue, List.append_assoc, List.mem_append, List.mem_append] at ht
    rw [hlog]
    rcases ht with ht | ht | ht
    · exact List.mem_append_left _ (h.known t (List.mem_append_left _ ht))
    · cases List.mem_singleton.mp ht
      exact List.mem_append_right _ (List.mem_singleton_self _)
    · exact List.mem_append_left _ (h.known t (List.mem_append_right _ ht))

/-- The history has an event that is about no task. -/
theorem Answered.note (h : S.Answered) (e : Event) (hstarted : e.started? = none)
    (hcompleted : e.completed? = none) (hresolved : e.resolved? = none) (hnext : S'.next = S.next)
    (hflight : S'.inFlight = S.inFlight) (hqueue : S'.queue = S.queue)
    (hlog : S'.log = S.log ++ [e]) :
    S'.Answered := by
  constructor
  · rw [hlog, hnext, filterMap_concat, hstarted, Option.toList_none, List.append_nil]
    exact h.started
  · rw [hlog, hnext, hflight, filterMap_concat, hcompleted, Option.toList_none, List.append_nil]
    exact h.once
  · rw [hlog, hqueue, filterMap_concat, filterMap_concat, hcompleted, hresolved, Option.toList_none,
      List.append_nil, Option.toList_none, List.append_nil]
    exact h.inOrder
  · intro id func v status hmem
    rw [hlog] at hmem ⊢
    rcases List.mem_append.mp hmem with hmem | hmem
    · obtain ⟨r', hr', hown⟩ := h.own id func v status hmem
      exact ⟨r', List.mem_append_left _ hr', hown⟩
    · cases List.mem_singleton.mp hmem
      cases hresolved
  · intro t ht
    rw [hflight, hqueue] at ht
    rw [hlog]
    exact List.mem_append_left _ (h.known t ht)

/-- A task has completed, and its block is on the queue. -/
theorem Answered.complete (h : S.Answered) (k : Nat) (t : Task) (res : Response)
    (ht : S.inFlight[k]? = some t) (hnext : S'.next = S.next)
    (hflight : S'.inFlight = S.inFlight.eraseIdx k) (hqueue : S'.queue = S.queue ++ [(t, res)])
    (hlog : S'.log = S.log ++ [.completed t.id res]) :
    S'.Answered := by
  have hperm := perm_eraseIdx ht
  constructor
  · simp only [hlog, hnext, filterMap_concat, Event.started?, Option.toList_none, List.append_nil]
    exact h.started
  · simp only [hlog, hnext, hflight, filterMap_concat, Event.completed?, Option.toList_some,
      List.map_append, List.map_cons, List.map_nil]
    -- the task moves from the session to the end of the completions
    have hids := (hperm.map Task.id).append_right ((S.log.filterMap Event.completed?).map Prod.fst)
    rw [← List.append_assoc]
    exact List.perm_append_comm.trans (hids.symm.trans h.once)
  · simp only [hlog, hqueue, filterMap_concat, Event.completed?, Event.resolved?,
      Option.toList_none, Option.toList_some, List.append_nil, List.map_append, List.map_cons,
      List.map_nil]
    rw [h.inOrder, List.append_assoc]
  · intro id func v status hmem
    rw [hlog] at hmem ⊢
    obtain ⟨r', hr', hown⟩ := h.own id func v status (by simpa using hmem)
    exact ⟨r', List.mem_append_left _ hr', hown⟩
  · intro t' ht'
    rw [hflight, hqueue, List.map_append, ← List.append_assoc, List.mem_append,
      List.mem_append] at ht'
    rw [hlog]
    apply List.mem_append_left
    rcases ht' with (ht' | ht') | ht'
    · exact h.known t' (List.mem_append_left _ (List.mem_of_mem_eraseIdx ht'))
    · exact h.known t' (List.mem_append_right _ ht')
    · cases List.mem_singleton.mp ht'
      exact h.known t (List.mem_append_left _ (List.mem_of_getElem? ht))

/-- The first block of the queue calls `resolve`. -/
theorem Answered.resolve (h : S.Answered) (t : Task) (res : Response) (status : BitVec 32)
    (hqueue : S.queue = (t, res) :: S'.queue) (hstatus : res.status = .done status)
    (hnext : S'.next = S.next) (hflight : S'.inFlight = S.inFlight)
    (hlog : S'.log = S.log ++ [.resolved t.id t.request.resolve t.request.thisVal status]) :
    S'.Answered := by
  have ht : .started t.id t.request ∈ S.log := by
    apply h.known t
    rw [hqueue]
    exact List.mem_append_right _ (List.mem_cons_self ..)
  constructor
  · simp only [hlog, hnext, filterMap_concat, Event.started?, Option.toList_none, List.append_nil]
    exact h.started
  · simp only [hlog, hnext, hflight, filterMap_concat, Event.completed?, Option.toList_none,
      List.append_nil]
    exact h.once
  · simp only [hlog, filterMap_concat, Event.completed?, Event.resolved?, Option.toList_none,
      Option.toList_some, List.append_nil, List.map_append, List.map_cons, List.map_nil]
    rw [h.inOrder, hqueue, List.map_cons, hstatus, List.append_assoc]
    rfl
  · intro id func v status' hmem
    rw [hlog] at hmem ⊢
    rcases List.mem_append.mp hmem with hmem | hmem
    · obtain ⟨r', hr', hown⟩ := h.own id func v status' hmem
      exact ⟨r', List.mem_append_left _ hr', hown⟩
    · cases List.mem_singleton.mp hmem
      exact ⟨t.request, List.mem_append_left _ ht, rfl, rfl⟩
  · intro t' ht'
    rw [hflight] at ht'
    rw [hlog]
    apply List.mem_append_left
    rcases List.mem_append.mp ht' with ht' | ht'
    · exact h.known t' (List.mem_append_left _ ht')
    · apply h.known t'
      rw [hqueue]
      exact List.mem_append_right _ (List.mem_cons_of_mem _ ht')

theorem Answered.moves (h : S.Answered) (hm : S.Moves S') : S'.Answered := by
  cases hm with
  | idle hnext hflight hqueue hlog => exact h.idle hnext hflight hqueue hlog
  | start r hnext hflight hqueue hlog => exact h.begin r hnext hflight hqueue hlog
  | note e hstarted hcompleted hresolved hnext hflight hqueue hlog =>
    exact h.note e hstarted hcompleted hresolved hnext hflight hqueue hlog
  | complete k t res ht hnext hflight hqueue hlog =>
    exact h.complete k t res ht hnext hflight hqueue hlog
  | resolve t res status hqueue hstatus hnext hflight hlog =>
    exact h.resolve t res status hqueue hstatus hnext hflight hlog

end

theorem Answered.start : start.Answered where
  started := rfl
  once := .nil
  inOrder := rfl
  own := by
    intro id func v status h
    cases h
  known := by
    intro t h
    cases h

theorem Answered.run [Foundation] {S S' : State} {as : List Action} (h : S.Answered)
    (hrun : S.run as = .done S') :
    S'.Answered := by
  induction as generalizing S with
  | nil =>
    cases hrun
    exact h
  | cons a as ih =>
    obtain ⟨S₁, hstep, hrun⟩ := Outcome.bind_eq_done hrun
    obtain ⟨S₂, hfirst, hlast⟩ := State.moves hstep
    exact ih ((h.moves hfirst).moves hlast) hrun

/-- With no task and no block left, every request has been answered once. -/
theorem Answered.all {S : State} (h : S.Answered) (hflight : S.inFlight = [])
    (hqueue : S.queue = []) :
    ((S.log.filterMap Event.resolved?).map Prod.fst).Perm (List.range S.next) := by
  have honce := h.once
  have horder := congrArg (List.map Prod.fst) h.inOrder
  rw [hqueue, List.map_nil, List.append_nil, List.map_map, List.map_map] at horder
  rw [hflight, List.map_nil, List.nil_append] at honce
  have heq : (S.log.filterMap Event.completed?).map Prod.fst =
      (S.log.filterMap Event.resolved?).map Prod.fst :=
    horder
  rw [← heq]
  exact honce

end State

theorem requests_answered [Foundation] (as : List Action) (S : State)
    (hrun : State.start.run as = .done S) :
    S.Answered ∧ (S.inFlight = [] → S.queue = [] →
      ((S.log.filterMap Event.resolved?).map Prod.fst).Perm (List.range S.next)) := by
  have h := State.Answered.start.run hrun
  exact ⟨h, h.all⟩

theorem requests_answered_two : ∃ S, @State.run asciiFoundation .start twoRequests = .done S ∧
    S.log.filterMap Event.resolved? = [(1, 404)] ∧ S.Answered ∧ (S.inFlight = [] → S.queue = [] →
      ((S.log.filterMap Event.resolved?).map Prod.fst).Perm (List.range S.next)) :=
  ⟨_, rfl, rfl, @requests_answered asciiFoundation twoRequests _ rfl⟩

/-! ## What is open can be answered -/

namespace State

/-- The session completes its tasks with these responses, and the main queue runs until it is
empty. -/
def drain (S : State) (responses : List Response) : List Action :=
  .finish .undefined :: (responses.map (.complete 0) ++
    (List.replicate (S.queue.length + responses.length) [.deliver, .finish .undefined]).flatten)

theorem run_append [Foundation] {S S₁ : State} {as bs : List Action} (h : S.run as = .done S₁) :
    S.run (as ++ bs) = S₁.run bs := by
  induction as generalizing S with
  | nil =>
    cases h
    rfl
  | cons a as ih =>
    obtain ⟨S₂, hstep, h⟩ := Outcome.bind_eq_done h
    rw [List.cons_append, run, hstep, Outcome.bind_done]
    exact ih h

/-- What the script has, and what is lost. -/
structure Kept (S S' : State) : Prop where
  held : S'.held = S.held
  next : S'.next = S.next
  lost : refsOf (lost S'.log) = refsOf (lost S.log)

theorem Kept.trans {S S₁ S₂ : State} (h : S.Kept S₁) (h' : S₁.Kept S₂) : S.Kept S₂ where
  held := h'.held.trans h.held
  next := h'.next.trans h.next
  lost := h'.lost.trans h.lost

section Drain

variable [Foundation] {S : State}

/-- The block that runs comes to its end. -/
theorem finish_step (h : S.Inv) :
    ∃ S', S.step (.finish .undefined) = .done S' ∧ S'.Inv ∧ S.Kept S' ∧
    S'.running = none ∧ S'.inFlight = S.inFlight ∧ S'.queue = S.queue := by
  cases hrun : S.running with
  | none => exact ⟨S, by simp only [step, hrun], h, ⟨rfl, rfl, rfl⟩, hrun, rfl, rfl⟩
  | some r =>
    have hvalue : S.value .undefined = some .undefined := rfl
    obtain ⟨H, hstep, hinv⟩ := finish_done h hrun hvalue rfl
    exact ⟨_, hstep, hinv, ⟨rfl, rfl, refsOf_lost_concat S.log rfl⟩, rfl, rfl, rfl⟩

/-- An action that takes no reference comes to an end. -/
theorem Inv.step_of_takes (h : S.Inv) {a : Action} (htakes : S.takes a = 0)
    (haborts : ¬S.Aborts a) :
    ∃ S', S.step a = .done S' ∧ S'.Inv := by
  have hroom : Room S.heap (S.takes a) := by
    rw [htakes]
    exact h.holds.room
  obtain ⟨S', hstep⟩ := (h.ends a).exists_done hroom haborts
  exact ⟨S', hstep, ((h.ends a).keeps S' hstep).1⟩

theorem complete_run (responses : List Response) (h : S.Inv)
    (hlen : S.inFlight.length = responses.length) (hrunning : S.running = none) :
    ∃ S', S.run (responses.map (.complete 0)) = .done S' ∧ S'.Inv ∧ S.Kept S' ∧
      S'.running = none ∧ S'.inFlight = [] ∧
      S'.queue.map Prod.snd = S.queue.map Prod.snd ++ responses := by
  induction responses generalizing S with
  | nil =>
    exact ⟨S, rfl, h, ⟨rfl, rfl, rfl⟩, hrunning, List.length_eq_zero_iff.mp hlen,
      (List.append_nil _).symm⟩
  | cons res responses ih =>
    rw [List.length_cons] at hlen
    obtain ⟨t, flight, hflight⟩ := List.exists_cons_of_length_eq_add_one hlen
    obtain ⟨S₁, hstep, hinv⟩ := h.step_of_takes (a := .complete 0 res) rfl id
    have hS₁ : S₁ = { S with inFlight := flight, queue := S.queue ++ [(t, res)],
                             log := S.log ++ [.completed t.id res] } := by
      simp only [step, hflight, List.getElem?_cons_zero, List.eraseIdx_cons_zero] at hstep
      cases hstep
      rfl
    have hlen₁ : S₁.inFlight.length = responses.length := by
      rw [hflight, List.length_cons] at hlen
      rw [hS₁]
      exact Nat.succ.inj hlen
    obtain ⟨S', hrun, hinv', hkept, hnone, hempty, hqueue⟩ :=
      ih hinv hlen₁ (by rw [hS₁]; exact hrunning)
    refine ⟨S', ?_, hinv', ?_, hnone, hempty, ?_⟩
    · rw [List.map_cons, run, hstep, Outcome.bind_done]
      exact hrun
    · apply Kept.trans _ hkept
      rw [hS₁]
      exact ⟨rfl, rfl, refsOf_lost_concat S.log rfl⟩
    · rw [hqueue, hS₁]
      simp

theorem deliver_run (m : Nat) (h : S.Inv) (hlen : S.queue.length = m)
    (hother : ∀ q ∈ S.queue, q.2 ≠ .other) (hrunning : S.running = none)
    (hflight : S.inFlight = []) :
    ∃ S', S.run (List.replicate m [.deliver, .finish .undefined]).flatten = .done S' ∧ S'.Inv ∧
      S.Kept S' ∧ S'.running = none ∧ S'.inFlight = [] ∧ S'.queue = [] := by
  induction m generalizing S with
  | zero => exact ⟨S, rfl, h, ⟨rfl, rfl, rfl⟩, hrunning, hflight, List.length_eq_zero_iff.mp hlen⟩
  | succ m ih =>
    obtain ⟨⟨t, res⟩, queue, hqueue⟩ := List.exists_cons_of_length_eq_add_one hlen
    have haborts : ¬S.Aborts .deliver := by
      rintro ⟨-, t', queue', heq⟩
      apply hother (t', .other) _ rfl
      rw [heq]
      exact List.mem_cons_self ..
    obtain ⟨S₁, hstep, hinv⟩ := h.step_of_takes rfl haborts
    obtain ⟨status, -, hS₁⟩ : ∃ status, res.status = .done status ∧
        S₁ = S.calling t queue status := by
      simp only [step, hrunning, hqueue] at hstep
      exact call_done hstep
    obtain ⟨S₂, hstep₂, hinv₂, hkept₂, hnone₂, hflight₂, hqueue₂⟩ := finish_step hinv
    have hkept₁ : S.Kept S₁ := by
      rw [hS₁]
      exact ⟨rfl, rfl, refsOf_lost_concat S.log rfl⟩
    have hq : S₂.queue = queue := by rw [hqueue₂, hS₁]; rfl
    have hf : S₂.inFlight = [] := by rw [hflight₂, hS₁]; exact hflight
    have hlen₂ : S₂.queue.length = m := by
      rw [hqueue, List.length_cons] at hlen
      rw [hq]
      exact Nat.succ.inj hlen
    have hother₂ : ∀ q ∈ S₂.queue, q.2 ≠ .other := by
      intro q hmem
      apply hother q
      rw [hqueue]
      exact List.mem_cons_of_mem _ (hq ▸ hmem)
    obtain ⟨S', hrun, hinv', hkept', hend⟩ := ih hinv₂ hlen₂ hother₂ hnone₂ hf
    refine ⟨S', ?_, hinv', (hkept₁.trans hkept₂).trans hkept', hend⟩
    rw [List.replicate_succ, List.flatten_cons]
    simp only [List.cons_append, List.nil_append, run, hstep, hstep₂, Outcome.bind_done]
    exact hrun

end Drain

end State

/-- From every state all that is open can be answered, unless a response is not HTTP; then each
request has been answered once, and what is left are the references of the script and those that
were lost. -/
theorem requests_drain [Foundation] (as : List Action) (S : State)
    (hrun : State.start.run as = .done S) (responses : List Response)
    (hcount : responses.length = S.inFlight.length)
    (hhttp : ∀ res ∈ S.queue.map Prod.snd ++ responses, res ≠ .other) :
    ∃ S', State.start.run (as ++ S.drain responses) = .done S' ∧ S'.references = S.held ∧
      Holds S'.heap (S.held ++ lost S.log) ∧
      ((S'.log.filterMap Event.resolved?).map Prod.fst).Perm (List.range S.next) := by
  have hinv := State.Inv.start.run hrun
  obtain ⟨S₁, hstep, hinv₁, hkept₁, hrunning₁, hflight₁, hqueue₁⟩ := State.finish_step hinv
  obtain ⟨S₂, hrun₂, hinv₂, hkept₂, hrunning₂, hflight₂, hqueue₂⟩ :=
    State.complete_run responses hinv₁ (by rw [hflight₁, hcount]) hrunning₁
  have hlen₂ : S₂.queue.length = S.queue.length + responses.length := by
    have := congrArg List.length hqueue₂
    rwa [List.length_append, List.length_map, List.length_map, hqueue₁] at this
  have hother : ∀ q ∈ S₂.queue, q.2 ≠ .other := by
    intro q hq
    apply hhttp
    rw [← hqueue₁, ← hqueue₂]
    exact List.mem_map_of_mem hq
  obtain ⟨S₃, hrun₃, hinv₃, hkept₃, hrunning₃, hflight₃, hqueue₃⟩ :=
    State.deliver_run (S.queue.length + responses.length) hinv₂ hlen₂ hother hrunning₂ hflight₂
  have hdrain : S.run (S.drain responses) = .done S₃ := by
    rw [State.drain, State.run, hstep, Outcome.bind_done, State.run_append hrun₂]
    exact hrun₃
  have hkept := (hkept₁.trans hkept₂).trans hkept₃
  have hreferences : S₃.references = S.held := by
    rw [State.references, hflight₃, hqueue₃, hrunning₃, hkept.held]
    simp
  have hall : State.start.run (as ++ S.drain responses) = .done S₃ := by
    rw [State.run_append hrun]
    exact hdrain
  refine ⟨S₃, hall, hreferences, ?_, ?_⟩
  · have hholds := hinv₃.holds
    rwa [Holds, State.all, hreferences, refsOf_append, hkept.lost, ← refsOf_append] at hholds
  · rw [← hkept.next]
    exact (State.Answered.start.run hall).all hflight₃ hqueue₃

theorem requests_drain_two : ∃ S, @State.run asciiFoundation .start twoRequests = .done S ∧
    S.inFlight.length = 1 ∧
    ∃ S', @State.run asciiFoundation .start (twoRequests ++ S.drain [.none]) = .done S' ∧
      S'.references = S.held ∧ Holds S'.heap (S.held ++ lost S.log) ∧
      ((S'.log.filterMap Event.resolved?).map Prod.fst).Perm (List.range S.next) := by
  refine ⟨_, rfl, rfl, @requests_drain asciiFoundation twoRequests _ rfl [.none] rfl ?_⟩
  intro res hres
  cases List.mem_singleton.mp hres
  intro h
  cases h

end Libacorn.Http
