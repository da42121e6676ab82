import Libacorn.ValOperations

/-!
# The static vals and containers

`get` of a key that is not there returns a reference to `s_emptyVar`; `arrayRef` and
`compoundRef` of a val of another type return `s_emptyVec` and `s_emptyCompound`. They
are not const, so a program can change them for every val. `absent_reads_empty` says
which steps leave them empty: then they are empty in every state of a run.
-/

namespace Libacorn.ValHeap

open Support

/-! ## The accessors -/

namespace State

/-- The start of a program. The variable 0 is `s_emptyVar`; the variables 1 and 2 hold
`s_emptyVec` and `s_emptyCompound`, the blocks 1 and 2. -/
def start : State :=
  ((State.createNumber 0 .EMPTY 0 ⟨⟨fun _ => none, 1⟩, fun _ => none⟩).createMember 1
    (.vector [])).createMember 2 (.map [])

/-- `val::hasVal` -/
def hasVal (S : State) (m : Slot) (key : Bytes) : Bool :=
  if m.type ≠ .MAP then false
  else
    match S.heap.blocks m.word with
    | some (.map fields) => (position key fields).isSome
    | _ => false

/-- `val::get`; an assertion fails for a val that is neither EMPTY nor a MAP. -/
def getRef (S : State) (m : Slot) (key : Bytes) : Option Ref :=
  if m.type = .EMPTY then some (.var 0)
  else if m.type = .MAP then
    match S.heap.blocks m.word with
    | some (.map fields) =>
      match position key fields with
      | some k => some (.elem m.word k)
      | none => some (.var 0)
    | _ => none
  else none

/-- `val::arrayRef`: the address of a vector. -/
def arrayRef (a : Slot) : Nat := if a.type = .ARRAY then a.word else 1

/-- `val::compoundRef`: the address of a map. -/
def compoundRef (a : Slot) : Nat := if a.type = .MAP then a.word else 2

/-- `_map->insert(std::make_pair(key,val()))`, with what is in the union of the new val. -/
def insertEmpty (p : Nat) (key : Bytes) (word : Nat) (S : State) : Outcome State :=
  match S.heap.blocks p with
  | some (.map fields) =>
    match position key fields with
    | some _ => .done S
    | none => .done (S.withHeap (S.heap.put p (.map (OrderedMap.insert key ⟨.EMPTY, word⟩ fields))))
  | _ => .fault

/-- `val::operator[]` -/
def index (n : Nat) (x : Ref) (key : Bytes) (word : Nat) (S : State) : Outcome (Option State) :=
  (ensure n x .MAP S).bind fun S =>
    match S.load x with
    | some a =>
      if a.type = .MAP then (insertEmpty a.word key word S).bind fun S => .done (some S)
      else .done none
    | none => .fault

/-- `set(key, ival)` with a null pointer. With an object it goes on as `(*_map)[key] = v`. -/
def setNull (n : Nat) (x : Ref) (S : State) : Outcome (Option State) :=
  (ensure n x .MAP S).bind fun S =>
    match S.load x with
    | some a => if a.type = .MAP then .done (some S) else .done none
    | none => .fault

/-- `emplace` on the map behind `p`. -/
def emplace (builds : Bool) (n p : Nat) (key : Bytes) (src : Ref) (S : State) : Outcome State :=
  match S.heap.blocks p with
  | some (.map fields) =>
    match position key fields with
    | some _ => emplaceTemporary builds n src S
    | none => emplaceEntry n p fields key src S
  | _ => .fault

end State

/-! ## Runs -/

/-- What a program does with a val: an operation, or an insertion into the container that
`arrayRef` or `compoundRef` returns for it. -/
inductive Act where
  | op (op : Op)
  | index (key : Bytes) (word : Nat)
  | setNull
  | pushBack (src : Ref)
  | emplace (key : Bytes) (src : Ref)

def Act.step (builds : Bool) (n : Nat) (x : Ref) (S : State) : Act → Outcome (Option State)
  | .op o => o.step builds n x S
  | .index key word => S.index n x key word
  | .setNull => S.setNull n x
  | .pushBack src =>
    match S.load x with
    | some a => (S.pushBack n (State.arrayRef a) src).bind fun S => .done (some S)
    | none => .fault
  | .emplace key src =>
    match S.load x with
    | some a => (S.emplace builds n (State.compoundRef a) key src).bind fun S => .done (some S)
    | none => .fault

/-- A program names the val at a path from a variable; it has no val that is `s_emptyVec`
or `s_emptyCompound`, only the vals inside them. -/
def Named (i : Nat) (path : List Nat) : Prop := (i = 1 ∨ i = 2) → path ≠ []

/-- The states of the runs whose steps meet the condition. A reference is a place: the one
that `get` returns for an absent key is the variable 0. -/
inductive Run (builds : Bool) (ok : State → Nat → Slot → Act → Prop) : State → Prop
  | start : Run builds ok .start
  | number {S : State} {i : Nat} {type : Tag} (h : Run builds ok S) (hi : S.vars i = none)
      (ht : type.owns = false) (word : Nat) : Run builds ok (S.createNumber i type word)
  | member {S : State} {i : Nat} {b : Block} (h : Run builds ok S) (hi : S.vars i = none)
      (hb : b.children = []) : Run builds ok (S.createMember i b)
  | copy {S S' : State} {n i : Nat} {src : Ref} (h : Run builds ok S) (hi : S.vars i = none)
      (hrun : S.construct n i src = .done S') : Run builds ok S'
  | act {S S' : State} {n i : Nat} {path : List Nat} {x : Ref} {v : Slot} {act : Act}
      (h : Run builds ok S) (hv : S.find i path = some (x, v)) (hn : Named i path)
      (hlive : x = .var 0 → act ≠ .op .destruct) (hok : ok S i v act)
      (hrun : act.step builds n x S = .done (some S')) : Run builds ok S'

/-- An absent key reads as EMPTY, and a container of another type as empty. -/
structure ReadsEmpty (S : State) : Prop where
  get : ∀ {i path x m}, S.find i path = some (x, m) → m.type = .EMPTY ∨ m.type = .MAP →
    ∀ key, S.hasVal m key = false → ∃ r e, S.getRef m key = some r ∧ S.load r = some e ∧
      e.type = .EMPTY
  arrayRef : ∀ {i path x m}, S.find i path = some (x, m) → m.type ≠ .ARRAY →
    S.heap.blocks (State.arrayRef m) = some (.vector [])
  compoundRef : ∀ {i path x m}, S.find i path = some (x, m) → m.type ≠ .MAP →
    S.heap.blocks (State.compoundRef m) = some (.map [])

/-- The step does not write through a reference to a static object, or writes EMPTY. -/
def Careful (S : State) (i : Nat) (v : Slot) : Act → Prop
  | .op (.setType newType) => i = 0 → newType = .EMPTY
  | .op (.assign src) => i = 0 → ∀ s, S.load src = some s → s.type = .EMPTY
  | .op (.set _ _) => i ≠ 0
  | .op (.unset _) => True
  | .op (.appendVal _) => i ≠ 0
  | .op .clear => True
  | .op .destruct => True
  | .index _ _ => i ≠ 0
  | .setNull => i ≠ 0
  | .pushBack _ => v.type = .ARRAY
  | .emplace _ _ => v.type = .MAP

/-! ## One step -/

section Steps

variable {n : Nat} {S S' : State} (hS : S.Good) {i : Nat} {path : List Nat} {x : Ref} {v : Slot}
variable (hv : S.find i path = some (x, v))

section Map

variable {p : Nat} (hp : layout.ptr v = some p)

include hS hv hp in
theorem State.insertEmpty_touches {key : Bytes} {word : Nat}
    (hrun : S.insertEmpty p key word = .done S') :
    S'.find i path = some (x, v) ∧ Touches i path S S' := by
  rw [State.insertEmpty] at hrun
  split at hrun
  next fields hb =>
    split at hrun
    next =>
      cases hrun
      exact ⟨hv, .refl hS i path⟩
    next hk =>
      cases hrun
      exact State.insert_touches hS hv hp hb (not_mem_of_position hk)
        (.leaf hS.bounded (ptr_plain rfl))
  next => cases hrun

include hS hv hp in
theorem State.emplace_touches {builds : Bool} {key : Bytes} {src : Ref}
    (hrun : S.emplace builds n p key src = .done S') :
    S'.find i path = some (x, v) ∧ Touches i path S S' := by
  rw [State.emplace] at hrun
  split at hrun
  next fields hb =>
    split at hrun
    next => exact State.emplaceTemporary_touches hS hv hrun
    next hk => exact State.emplaceEntry_touches hS hv hp hb (not_mem_of_position hk) hrun
  next => cases hrun

end Map

include hS hv in
theorem State.index_touches {key : Bytes} {word : Nat}
    (hrun : S.index n x key word = .done (some S')) : Touches i path S S' := by
  obtain ⟨S₁, h₁, hrun⟩ := Outcome.bind_eq_done hrun
  obtain ⟨⟨w, hw⟩, hensure⟩ := State.ensure_touches hS hv h₁
  rw [State.find_load hw] at hrun
  simp only at hrun
  split at hrun
  next hty =>
    obtain ⟨S₂, h₂, hrun⟩ := Outcome.bind_eq_done hrun
    cases hrun
    have hp : layout.ptr w = some w.word := ptr_of_type hty rfl (by decide)
    obtain ⟨-, hinsert⟩ := State.insertEmpty_touches (hensure.changes.good hS) hw hp h₂
    exact hensure.trans hS hinsert
  next => cases hrun

include hS hv in
theorem State.setNull_touches (hrun : S.setNull n x = .done (some S')) : Touches i path S S' := by
  obtain ⟨S₁, h₁, hrun⟩ := Outcome.bind_eq_done hrun
  obtain ⟨⟨w, hw⟩, hensure⟩ := State.ensure_touches hS hv h₁
  rw [State.find_load hw] at hrun
  simp only at hrun
  split at hrun
  next =>
    cases hrun
    exact hensure
  next => cases hrun

include hS hv in
/-- A careful step changes only the variable below which its val is. -/
theorem Act.step_changes {builds : Bool} {act : Act} (hok : Careful S i v act)
    (hrun : act.step builds n x S = .done (some S')) : Changes i S S' := by
  cases act with
  | op o => exact (Op.step_touches hS hv hrun).2.changes
  | index key word => exact (State.index_touches hS hv hrun).changes
  | setNull => exact (State.setNull_touches hS hv hrun).changes
  | pushBack src =>
    have hty : v.type = .ARRAY := hok
    rw [Act.step, State.find_load hv] at hrun
    obtain ⟨S₁, h₁, hrun⟩ := Outcome.bind_eq_done hrun
    cases hrun
    rw [State.arrayRef, if_pos hty] at h₁
    have hp : layout.ptr v = some v.word := ptr_of_type hty rfl (by decide)
    exact (State.pushBack_touches hS hv hp h₁).2.changes
  | emplace key src =>
    have hty : v.type = .MAP := hok
    rw [Act.step, State.find_load hv] at hrun
    obtain ⟨S₁, h₁, hrun⟩ := Outcome.bind_eq_done hrun
    cases hrun
    rw [State.compoundRef, if_pos hty] at h₁
    have hp : layout.ptr v = some v.word := ptr_of_type hty rfl (by decide)
    exact (State.emplace_touches hS hv hp h₁).2.changes

end Steps

/-- To make an EMPTY val EMPTY changes nothing. -/
theorem State.retype_same {n : Nat} {S S' : State} {x : Ref} {v : Slot} (hv : S.load x = some v)
    (hrun : S.retype n x v.type = .done S') : S' = S := by
  rw [State.retype, hv] at hrun
  obtain ⟨r, hr, hrun⟩ := Outcome.bind_eq_done hrun
  rw [setType, if_pos rfl] at hr
  cases hr
  cases hrun
  exact State.store_self hv

/-- What a careful step does to `s_emptyVar` leaves it EMPTY. -/
theorem Act.step_emptyVar {builds : Bool} {n : Nat} {S S' : State} {e : Slot} {act : Act}
    (he : S.vars 0 = some e) (hempty : e.type = .EMPTY) (hlive : act ≠ .op .destruct)
    (hok : Careful S 0 e act) (hrun : act.step builds n (.var 0) S = .done (some S')) :
    ∃ e', S'.vars 0 = some e' ∧ e'.type = .EMPTY := by
  have hload : S.load (.var 0) = some e := he
  have hretype : ∀ {S'}, S.retype n (.var 0) .EMPTY = .done S' →
      ∃ e', S'.vars 0 = some e' ∧ e'.type = .EMPTY := by
    intro S' hrun
    rw [← hempty] at hrun
    rw [State.retype_same hload hrun]
    exact ⟨e, he, hempty⟩
  cases act with
  | op o =>
    cases o with
    | setType newType =>
      obtain ⟨S₁, h₁, hrun⟩ := Outcome.bind_eq_done hrun
      cases hrun
      obtain rfl : newType = .EMPTY := hok rfl
      exact hretype h₁
    | assign src =>
      obtain ⟨S₁, h₁, hrun⟩ := Outcome.bind_eq_done hrun
      cases hrun
      obtain ⟨r, s, r', hr, hs, hr', rfl⟩ := State.assign_steps hload h₁
      rw [setType, if_pos hempty] at hr
      cases hr
      have hsame : S.emptied (.var 0) (e, S.heap) = S := State.store_self hload
      rw [hsame] at hs ⊢
      have hload' : (S.withHeap r'.2).load (.var 0) = some e := he
      refine ⟨r'.1, State.load_store hload' r'.1, ?_⟩
      rw [copyMember_type hr']
      exact hok rfl s hs
    | set key src => exact (hok rfl).elim
    | unset key =>
      have hrun' : S.unset n (.var 0) key = .done (some S') := hrun
      rw [State.unset, hload] at hrun'
      simp only [if_pos hempty] at hrun'
      cases hrun'
      exact ⟨e, he, hempty⟩
    | appendVal src => exact (hok rfl).elim
    | clear =>
      obtain ⟨S₁, h₁, hrun⟩ := Outcome.bind_eq_done hrun
      cases hrun
      exact hretype h₁
    | destruct => exact (hlive rfl).elim
  | index key word => exact (hok rfl).elim
  | setNull => exact (hok rfl).elim
  | pushBack src =>
    have hty : e.type = .ARRAY := hok
    rw [hempty] at hty
    cases hty
  | emplace key src =>
    have hty : e.type = .MAP := hok
    rw [hempty] at hty
    cases hty

/-! ## The invariant -/

/-- The static objects are as they were at the start. -/
structure Quiet (S : State) : Prop where
  good : S.Good
  emptyVar : ∃ e, S.vars 0 = some e ∧ e.type = .EMPTY
  emptyVec : S.vars 1 = some ⟨.ARRAY, 1⟩
  vec : S.heap.blocks 1 = some (.vector [])
  emptyCompound : S.vars 2 = some ⟨.MAP, 2⟩
  map : S.heap.blocks 2 = some (.map [])

theorem quiet_start : Quiet .start where
  good := (((@Reach.init true).number rfl rfl 0).member rfl rfl |>.member rfl rfl).good
  emptyVar := ⟨_, rfl, rfl⟩
  emptyVec := rfl
  vec := rfl
  emptyCompound := rfl
  map := rfl

section Quiet

variable {S S' : State} (h : Quiet S)

include h in
/-- A change of another variable leaves them so. -/
theorem Quiet.of_changes {i : Nat} (hc : Changes i S S') (h1 : i ≠ 1) (h2 : i ≠ 2)
    (h0 : i = 0 → ∃ e, S'.vars 0 = some e ∧ e.type = .EMPTY) : Quiet S' where
  good := hc.good h.good
  emptyVar := by
    by_cases hi : i = 0
    · exact h0 hi
    · rw [hc.others 0 (Ne.symm hi)]
      exact h.emptyVar
  emptyVec := (hc.others 1 (Ne.symm h1)).trans h.emptyVec
  vec := by
    obtain ⟨-, -, hkeep⟩ := hc.keeps h.good (Ne.symm h1) h.emptyVec
    rw [hkeep 1 (.here rfl), h.vec]
  emptyCompound := (hc.others 2 (Ne.symm h2)).trans h.emptyCompound
  map := by
    obtain ⟨-, -, hkeep⟩ := hc.keeps h.good (Ne.symm h2) h.emptyCompound
    rw [hkeep 2 (.here rfl), h.map]

include h in
/-- Nothing is below the static objects. -/
theorem Quiet.find_static {i : Nat} {path : List Nat} {x : Ref} {v : Slot}
    (hv : S.find i path = some (x, v)) (hn : Named i path) :
    i ≠ 1 ∧ i ≠ 2 ∧ (i = 0 → x = .var 0 ∧ v.type = .EMPTY) := by
  obtain ⟨a, y, ha, hy, rfl⟩ := State.find_eq hv
  cases path with
  | nil =>
    refine ⟨fun hi => hn (Or.inl hi) rfl, fun hi => hn (Or.inr hi) rfl, ?_⟩
    rintro rfl
    obtain ⟨e, he, hempty⟩ := h.emptyVar
    cases he.symm.trans ha
    cases hy
    exact ⟨rfl, hempty⟩
  | cons k path =>
    obtain ⟨p, b, c, hp, hb, hk, -⟩ := Layout.walk_cons hy
    refine ⟨?_, ?_, ?_⟩
    · rintro rfl
      cases h.emptyVec.symm.trans ha
      cases hp
      cases h.vec.symm.trans hb
      cases hk
    · rintro rfl
      cases h.emptyCompound.symm.trans ha
      cases hp
      cases h.map.symm.trans hb
      cases hk
    · rintro rfl
      obtain ⟨e, he, hempty⟩ := h.emptyVar
      cases he.symm.trans ha
      rw [ptr_plain (by rw [hempty]; rfl)] at hp
      cases hp

include h in
theorem Quiet.readsEmpty : ReadsEmpty S where
  get := by
    intro i path x m hm hty key hkey
    obtain ⟨e, he, hempty⟩ := h.emptyVar
    refine ⟨.var 0, e, ?_, he, hempty⟩
    rw [State.getRef]
    rcases hty with hty | hty
    · exact if_pos hty
    · rw [if_neg (by rw [hty]; nofun), if_pos hty]
      have hp : layout.ptr m = some m.word := ptr_of_type hty rfl (by decide)
      have htree := State.find_tree h.good hm
      obtain ⟨b, hb, -⟩ := htree.live (.here hp)
      obtain ⟨hfits, -, -⟩ := htree.children hp hb
      have hbty : b.type = .MAP := hfits.1.trans hty
      rw [State.hasVal, if_neg (not_not_intro hty)] at hkey
      cases b with
      | map fields =>
        simp only [hb] at hkey ⊢
        cases hk : State.position key fields with
        | some k =>
          rw [hk] at hkey
          cases hkey
        | none => rfl
      | _ => cases hbty
  arrayRef := by
    intro i path x m _ hne
    rw [State.arrayRef, if_neg hne]
    exact h.vec
  compoundRef := by
    intro i path x m _ hne
    rw [State.compoundRef, if_neg hne]
    exact h.map

include h in
theorem Quiet.act {builds : Bool} {n i : Nat} {path : List Nat} {x : Ref} {v : Slot} {act : Act}
    (hv : S.find i path = some (x, v)) (hn : Named i path)
    (hlive : x = .var 0 → act ≠ .op .destruct) (hok : Careful S i v act)
    (hrun : act.step builds n x S = .done (some S')) : Quiet S' := by
  obtain ⟨h1, h2, h0⟩ := h.find_static hv hn
  apply h.of_changes (Act.step_changes h.good hv hok hrun) h1 h2
  rintro rfl
  obtain ⟨rfl, hempty⟩ := h0 rfl
  exact Act.step_emptyVar (State.find_load hv) hempty (hlive rfl) hok hrun

include h in
/-- A new variable is not a static object. -/
theorem Quiet.of_new {i : Nat} (hi : S.vars i = none) (hc : Changes i S S') : Quiet S' := by
  obtain ⟨e, he, -⟩ := h.emptyVar
  apply h.of_changes hc
  · rintro rfl
    cases hi.symm.trans h.emptyVec
  · rintro rfl
    cases hi.symm.trans h.emptyCompound
  · rintro rfl
    cases hi.symm.trans he

end Quiet

theorem Run.quiet {builds : Bool} {S : State} (h : Run builds Careful S) : Quiet S := by
  induction h with
  | start => exact quiet_start
  | number _ hi ht word ih => exact ih.of_new hi (.ofNew hi (.leaf ih.good.bounded (ptr_plain ht)))
  | member _ hi hb ih => exact ih.of_new hi (State.createMember_changes ih.good hi hb)
  | copy _ hi hrun ih => exact ih.of_new hi (State.construct_changes ih.good hi hrun)
  | act _ hv hn hlive hok hrun ih => exact ih.act hv hn hlive hok hrun

/-- In every state of a run of careful steps an absent key reads as EMPTY. -/
theorem absent_reads_empty {builds : Bool} {S : State} (h : Run builds Careful S) : ReadsEmpty S :=
  h.quiet.readsEmpty

/-- The start, and the variables `val x;`, `val y(5);` and `val z;`. -/
def threeVals : State :=
  ((State.start.createNumber 3 .EMPTY 0).createNumber 4 .INT32 5).createNumber 5 .EMPTY 0

theorem threeVals_run (builds : Bool) (ok : State → Nat → Slot → Act → Prop) :
    Run builds ok threeVals :=
  ((Run.start.number rfl rfl 0).number rfl rfl 5).number rfl rfl 0

/-- `x.set("a", y);` and then `x.get("a")` is an element, and `x.get("b")` is EMPTY. -/
theorem absent_reads_empty_set : ∃ S, Run true Careful S ∧
    S.getRef ⟨.MAP, 3⟩ [0x61] = some (.elem 3 0) ∧ S.getRef ⟨.MAP, 3⟩ [0x62] = some (.var 0) ∧
    ReadsEmpty S := by
  have hx : threeVals.find 3 [] = some (.var 3, ⟨.EMPTY, 0⟩) := rfl
  have hstep : ∃ S, Act.step true 1 (.var 3) threeVals (.op (.set [0x61] (.var 4))) =
      .done (some S) ∧
      S.getRef ⟨.MAP, 3⟩ [0x61] = some (.elem 3 0) ∧ S.getRef ⟨.MAP, 3⟩ [0x62] = some (.var 0) :=
    ⟨_, rfl, rfl, rfl⟩
  obtain ⟨S, hstep, ha, hb⟩ := hstep
  have hcareful : Careful threeVals 3 ⟨.EMPTY, 0⟩ (.op (.set [0x61] (.var 4))) := nofun
  have hrun : Run true Careful S :=
    (threeVals_run true Careful).act hx (fun _ => by omega) nofun hcareful hstep
  exact ⟨S, hrun, ha, hb, absent_reads_empty hrun⟩

/-- `x.get("a") = y;` and then `z.get("b")` is 5. -/
theorem absent_reads_five : threeVals.getRef ⟨.EMPTY, 0⟩ [0x61] = some (.var 0) ∧
    ∃ S, Act.step true 1 (.var 0) threeVals (.op (.assign (.var 4))) = .done (some S) ∧
      Run true (fun _ _ _ _ => True) S ∧ ¬ReadsEmpty S := by
  have hvar : threeVals.find 0 [] = some (.var 0, ⟨.EMPTY, 0⟩) := rfl
  have hstep : ∃ S, Act.step true 1 (.var 0) threeVals (.op (.assign (.var 4))) = .done (some S) ∧
      S.find 5 [] = some (.var 5, ⟨.EMPTY, 0⟩) ∧ S.load (.var 0) = some ⟨.INT32, 5⟩ :=
    ⟨_, rfl, rfl, rfl⟩
  obtain ⟨S, hstep, hz, hfive⟩ := hstep
  have hlive : Ref.var 0 = .var 0 → Act.op (.assign (.var 4)) ≠ .op .destruct := by
    intro _ h
    cases h
  refine ⟨rfl, S, hstep, (threeVals_run true _).act hvar nofun hlive trivial hstep, ?_⟩
  intro h
  obtain ⟨r, e, hr, he, hempty⟩ := h.get hz (Or.inl rfl) [0x62] rfl
  cases hr
  cases hfive.symm.trans he
  cases hempty

end Libacorn.ValHeap
