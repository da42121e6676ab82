import Libacorn.ValPlaces

/-!
# Operations on vals

An operation on a val, at any path from a variable, changes this val and what it owns,
and nothing else (`Op.step_touches`). So the blocks of the variables are separate trees
in every state that a program reaches (`Reach.good`).
-/

namespace Libacorn.ValHeap

open Support

/-! ## Assignment -/

/-- The state of an assignment when the destination is EMPTY and the source is looked
at; `r` is what `setType` returned. -/
def State.emptied (S : State) (x : Ref) (r : Slot × Heap) : State := (S.withHeap r.2).store x r.1

/-- The steps of an assignment that ends. -/
theorem State.assign_steps {n : Nat} {S S' : State} {x y : Ref} {v : Slot} (hv : S.load x = some v)
    (hrun : S.assign n x y = .done S') :
    ∃ r s r', setType n .EMPTY v S.heap = .done r ∧ (S.emptied x r).load y = some s ∧
      copyMember n s r.1.word (S.emptied x r).heap = .done r' ∧
      S' = ((S.emptied x r).withHeap r'.2).store x r'.1 := by
  rw [State.assign, hv] at hrun
  obtain ⟨r, hr, hrun⟩ := Outcome.bind_eq_done hrun
  simp only at hrun
  split at hrun
  next => cases hrun
  next s hs =>
    obtain ⟨r', hr', hrun⟩ := Outcome.bind_eq_done hrun
    cases hrun
    exact ⟨r, s, r', hr, hs, hr', rfl⟩

/-- An assignment whose steps are made. -/
theorem State.assign_done {n : Nat} {S : State} {x y : Ref} {v s : Slot} {r r' : Slot × Heap}
    (hv : S.load x = some v) (hr : setType n .EMPTY v S.heap = .done r)
    (hs : (S.emptied x r).load y = some s)
    (hr' : copyMember n s r.1.word (S.emptied x r).heap = .done r') :
    S.assign n x y = .done (((S.emptied x r).withHeap r'.2).store x r'.1) := by
  have hs' : ((S.withHeap r.2).store x r.1).load y = some s := hs
  have hcopy : copyMember n s r.1.word ((S.withHeap r.2).store x r.1).heap = .done r' := hr'
  rw [State.assign, hv]
  simp only [hr, Outcome.bind_done, hs', hcopy]
  rfl

/-! ## One operation -/

section Operations

variable {n : Nat} {S S' : State} (hS : S.Good) {i : Nat} {path : List Nat} {x : Ref} {v : Slot}
variable (hv : S.find i path = some (x, v))

include hS hv in
theorem State.retype_touches {newType : Tag} (hrun : S.retype n x newType = .done S') :
    (∃ w, S'.find i path = some (x, w)) ∧ Touches i path S S' := by
  rw [State.retype, State.find_load hv] at hrun
  obtain ⟨r, hr, hrun⟩ := Outcome.bind_eq_done hrun
  cases hrun
  obtain ⟨hfind, htouch⟩ := State.store_found hS hv
    (setType_turns hS.bounded (State.find_tree hS hv) hr)
  exact ⟨⟨r.1, hfind⟩, htouch⟩

include hS hv in
theorem State.ensure_touches {newType : Tag} (hrun : S.ensure n x newType = .done S') :
    (∃ w, S'.find i path = some (x, w)) ∧ Touches i path S S' := by
  rw [State.ensure, State.find_load hv] at hrun
  simp only at hrun
  split at hrun
  next => exact State.retype_touches hS hv hrun
  next =>
    cases hrun
    exact ⟨⟨v, hv⟩, .refl hS i path⟩

include hS hv in
/-- The destination is EMPTY; only it has changed. -/
theorem State.emptied_found {r : Slot × Heap} (hr : setType n .EMPTY v S.heap = .done r) :
    (S.emptied x r).find i path = some (x, r.1) ∧ Touches i path S (S.emptied x r) :=
  State.store_found hS hv (setType_turns hS.bounded (State.find_tree hS hv) hr)

include hS hv in
theorem State.assign_touches {src : Ref} (hrun : S.assign n x src = .done S') :
    (∃ w, S'.find i path = some (x, w)) ∧ Touches i path S S' := by
  obtain ⟨r, s, r', hr, -, hr', rfl⟩ := State.assign_steps (State.find_load hv) hrun
  obtain ⟨hfind, htouch⟩ := State.emptied_found hS hv hr
  have hgood := htouch.changes.good hS
  have hcopy := (copyMember_turns hgood.bounded hr').drop (ptr_setType_empty hr)
  obtain ⟨hfind', htouch'⟩ := State.store_found hgood hfind hcopy
  exact ⟨⟨r'.1, hfind'⟩, htouch.trans hS htouch'⟩

include hS hv in
/-- The pair that `emplace` may make and destroy leaves the vals where they are. -/
theorem State.emplaceTemporary_touches {builds : Bool} {src : Ref}
    (hrun : S.emplaceTemporary builds n src = .done S') :
    S'.find i path = some (x, v) ∧ Touches i path S S' := by
  have hturns : layout.Turns S.heap S'.heap [] [] ∧ S' = S.withHeap S'.heap := by
    rw [State.emplaceTemporary] at hrun
    split at hrun
    next =>
      split at hrun
      next => cases hrun
      next s hs =>
        obtain ⟨r, hr, hrun⟩ := Outcome.bind_eq_done hrun
        obtain ⟨H, hd, hrun⟩ := Outcome.bind_eq_done hrun
        cases hrun
        have hcopy := copyMember_turns hS.bounded hr
        have hdestroy := destroy_turns hcopy.bounded (Layout.forest_singleton.mp hcopy.forest) hd
        exact ⟨hcopy.trans hdestroy, rfl⟩
    next =>
      cases hrun
      exact ⟨.refl hS.bounded (Layout.forest_nil _), rfl⟩
  obtain ⟨hturn, hstate⟩ := hturns
  rw [hstate]
  apply State.inside_found hS hv
  exact hturn.context (r := [v]) (Layout.forest_singleton.mpr (State.find_tree hS hv))

theorem not_mem_of_position {key : Bytes} {fields : List (Bytes × Slot)}
    (h : State.position key fields = none) : ∀ f ∈ fields, f.1 ≠ key := by
  intro f hf heq
  have := List.findIdx?_eq_none_iff.mp h f hf
  rw [heq] at this
  simp at this

variable {p : Nat} (hp : layout.ptr v = some p)

include hS hv hp in
/-- A map gets a new entry. -/
theorem State.insert_touches {key : Bytes} {fields : List (Bytes × Slot)} {w : Slot} {H : Heap}
    (hb : S.heap.blocks p = some (.map fields)) (hkey : ∀ f ∈ fields, f.1 ≠ key)
    (hw : layout.Turns S.heap H [] [w]) :
    (S.withHeap (H.put p (.map (OrderedMap.insert key w fields)))).find i path = some (x, v) ∧
      Touches i path S (S.withHeap (H.put p (.map (OrderedMap.insert key w fields)))) := by
  have htree := State.find_tree hS hv
  apply State.inside_found hS hv
  obtain ⟨hfits, -, -⟩ := htree.children hp hb
  have hfits' : layout.fits v (.map (OrderedMap.insert key w fields)) := hfits
  have hperm := (OrderedMap.insert_perm key w fields hkey).map Prod.snd
  exact Layout.Turns.splice htree hp hb (l := []) (r := fields.map Prod.snd)
    (List.Perm.refl _) hw hfits' hperm

include hS hv hp in
theorem State.emplaceEntry_touches {key : Bytes} {fields : List (Bytes × Slot)} {src : Ref}
    (hb : S.heap.blocks p = some (.map fields)) (hkey : ∀ f ∈ fields, f.1 ≠ key)
    (hrun : S.emplaceEntry n p fields key src = .done S') :
    S'.find i path = some (x, v) ∧ Touches i path S S' := by
  rw [State.emplaceEntry] at hrun
  split at hrun
  next => cases hrun
  next s hs =>
    obtain ⟨r, hr, hrun⟩ := Outcome.bind_eq_done hrun
    cases hrun
    exact State.insert_touches hS hv hp hb hkey (copyMember_turns hS.bounded hr)

include hS hv hp in
theorem State.setField_touches {builds : Bool} {key : Bytes} {src : Ref}
    (hrun : S.setField builds n p key src = .done S') :
    S'.find i path = some (x, v) ∧ Touches i path S S' := by
  rw [State.setField] at hrun
  split at hrun
  next fields hb =>
    split at hrun
    next k hk =>
      obtain ⟨S₁, h₁, hrun⟩ := Outcome.bind_eq_done hrun
      obtain ⟨hv₁, htemp⟩ := State.emplaceTemporary_touches hS hv h₁
      cases hload : S₁.load (.elem p k) with
      | none =>
        rw [State.assign, hload] at hrun
        cases hrun
      | some c =>
        have hc := State.find_child hv₁ hp hload
        obtain ⟨-, hassign⟩ := State.assign_touches (htemp.changes.good hS) hc hrun
        exact ⟨hassign.above rfl (List.cons_ne_nil k []) hv₁, htemp.trans hS hassign.outer⟩
    next hk => exact State.emplaceEntry_touches hS hv hp hb (not_mem_of_position hk) hrun
  next => cases hrun

include hS hv hp in
theorem State.eraseField_touches {key : Bytes} (hrun : S.eraseField n p key = .done S') :
    S'.find i path = some (x, v) ∧ Touches i path S S' := by
  have htree := State.find_tree hS hv
  have hself : S.find i path = some (x, v) ∧ Touches i path S S := ⟨hv, .refl hS i path⟩
  rw [State.eraseField] at hrun
  split at hrun
  next fields hb =>
    split at hrun
    next k hk =>
      split at hrun
      next f hf =>
        obtain ⟨H, hH, hrun⟩ := Outcome.bind_eq_done hrun
        cases hrun
        obtain ⟨hfits, hforest, -⟩ := htree.children hp hb
        have hmem : f.2 ∈ fields.map Prod.snd := List.mem_map_of_mem (List.mem_of_getElem? hf)
        have hperm : (fields.map Prod.snd).Perm ([f.2] ++ (fields.eraseIdx k).map Prod.snd) :=
          (Layout.perm_cons_eraseIdx hf).map Prod.snd
        apply State.inside_found hS hv
        exact Layout.Turns.splice htree hp hb hperm
          (destroy_turns hS.bounded (hforest.tree f.2 hmem) hH) hfits (List.Perm.refl _)
      next =>
        cases hrun
        exact hself
    next =>
      cases hrun
      exact hself
  next => cases hrun

include hS hv hp in
theorem State.pushBack_touches {src : Ref} (hrun : S.pushBack n p src = .done S') :
    S'.find i path = some (x, v) ∧ Touches i path S S' := by
  have htree := State.find_tree hS hv
  rw [State.pushBack] at hrun
  split at hrun
  next vec hb =>
    split at hrun
    next => cases hrun
    next s hs =>
      obtain ⟨r, hr, hrun⟩ := Outcome.bind_eq_done hrun
      cases hrun
      obtain ⟨hfits, -, -⟩ := htree.children hp hb
      apply State.inside_found hS hv
      exact Layout.Turns.splice htree hp hb (l := []) (r := vec) (List.Perm.refl _)
        (copyMember_turns hS.bounded hr) hfits List.perm_append_comm
  next => cases hrun

end Operations

section Steps

variable {n : Nat} {S S' : State} (hS : S.Good) {i : Nat} {path : List Nat} {x : Ref} {v : Slot}
variable (hv : S.find i path = some (x, v))

include hS hv in
theorem State.set_touches {builds : Bool} {key : Bytes} {src : Ref}
    (hrun : S.set builds n x key src = .done (some S')) :
    (∃ w, S'.find i path = some (x, w)) ∧ Touches i path S S' := by
  obtain ⟨S₁, h₁, hrun⟩ := Outcome.bind_eq_done hrun
  obtain ⟨⟨w, hw⟩, hensure⟩ := State.ensure_touches hS hv h₁
  rw [State.find_load hw] at hrun
  simp only at hrun
  split at hrun
  next hty =>
    obtain ⟨S₂, h₂, hrun⟩ := Outcome.bind_eq_done hrun
    cases hrun
    have hp : layout.ptr w = some w.word := ptr_of_type hty rfl (by decide)
    obtain ⟨hw', hset⟩ := State.setField_touches (hensure.changes.good hS) hw hp h₂
    exact ⟨⟨w, hw'⟩, hensure.trans hS hset⟩
  next => cases hrun

include hS hv in
theorem State.unset_touches {key : Bytes} (hrun : S.unset n x key = .done (some S')) :
    (∃ w, S'.find i path = some (x, w)) ∧ Touches i path S S' := by
  rw [State.unset, State.find_load hv] at hrun
  simp only at hrun
  split at hrun
  next =>
    cases hrun
    exact ⟨⟨v, hv⟩, .refl hS i path⟩
  next =>
    split at hrun
    next hty =>
      obtain ⟨S₁, h₁, hrun⟩ := Outcome.bind_eq_done hrun
      cases hrun
      have hp : layout.ptr v = some v.word := ptr_of_type hty rfl (by decide)
      obtain ⟨hv', herase⟩ := State.eraseField_touches hS hv hp h₁
      exact ⟨⟨v, hv'⟩, herase⟩
    next => cases hrun

include hS hv in
theorem State.appendVal_touches {src : Ref} (hrun : S.appendVal n x src = .done (some S')) :
    (∃ w, S'.find i path = some (x, w)) ∧ Touches i path S S' := by
  obtain ⟨S₁, h₁, hrun⟩ := Outcome.bind_eq_done hrun
  obtain ⟨⟨w, hw⟩, hensure⟩ := State.ensure_touches hS hv h₁
  rw [State.find_load hw] at hrun
  simp only at hrun
  split at hrun
  next hty =>
    obtain ⟨S₂, h₂, hrun⟩ := Outcome.bind_eq_done hrun
    cases hrun
    have hp : layout.ptr w = some w.word := ptr_of_type hty rfl (by decide)
    obtain ⟨hw', hpush⟩ := State.pushBack_touches (hensure.changes.good hS) hw hp h₂
    exact ⟨⟨w, hw'⟩, hensure.trans hS hpush⟩
  next => cases hrun

theorem State.destruct_touches (hS : S.Good) (hrun : S.destruct n i = .done S') :
    S'.vars i = none ∧ Touches i [] S S' := by
  rw [State.destruct] at hrun
  split at hrun
  next a ha =>
    obtain ⟨H, hH, hrun⟩ := Outcome.bind_eq_done hrun
    cases hrun
    have hnone : (⟨H, Function.update S.vars i none⟩ : State).vars i = none :=
      Function.update_self ..
    have hchange : Changes i S ⟨H, Function.update S.vars i none⟩ := by
      constructor
      · rw [ha, hnone]
        exact destroy_turns hS.bounded (hS.tree ha) hH
      · intro j hj
        exact Function.update_of_ne hj _ _
    refine ⟨hnone, hchange, ?_, ?_⟩
    · intro rest l y u hpath hl
      exact (hl (List.append_eq_nil_iff.mp hpath.symm).2).elim
    · intro j rest y u hno
      apply hchange.aside hS
      rintro rfl
      exact hno ⟨rfl, Or.inl List.nil_prefix⟩
  next => cases hrun

include hS hv in
/-- An operation on a val touches only this val; it is where it was, or it was destructed. -/
theorem Op.step_touches {builds : Bool} {op : Op} (hrun : op.step builds n x S = .done (some S')) :
    ((∃ w, S'.find i path = some (x, w)) ∨ S'.load x = none) ∧ Touches i path S S' := by
  have hfound : (∃ w, S'.find i path = some (x, w)) ∧ Touches i path S S' →
      ((∃ w, S'.find i path = some (x, w)) ∨ S'.load x = none) ∧ Touches i path S S' := by
    intro h
    exact ⟨Or.inl h.1, h.2⟩
  cases op with
  | setType newType =>
    obtain ⟨S₁, h₁, hrun⟩ := Outcome.bind_eq_done hrun
    cases hrun
    exact hfound (State.retype_touches hS hv h₁)
  | assign src =>
    obtain ⟨S₁, h₁, hrun⟩ := Outcome.bind_eq_done hrun
    cases hrun
    exact hfound (State.assign_touches hS hv h₁)
  | set key src => exact hfound (State.set_touches hS hv hrun)
  | unset key => exact hfound (State.unset_touches hS hv hrun)
  | appendVal src => exact hfound (State.appendVal_touches hS hv hrun)
  | clear =>
    obtain ⟨S₁, h₁, hrun⟩ := Outcome.bind_eq_done hrun
    cases hrun
    exact hfound (State.retype_touches hS hv h₁)
  | destruct =>
    cases x with
    | elem p k => cases hrun
    | var j =>
      obtain ⟨S₁, h₁, hrun⟩ := Outcome.bind_eq_done hrun
      cases hrun
      obtain ⟨rfl, rfl⟩ := State.find_var_path hv
      obtain ⟨hnone, htouch⟩ := State.destruct_touches hS h₁
      exact ⟨Or.inr hnone, htouch⟩

end Steps

/-- A val that does not exist has no operations. -/
theorem Op.step_none {builds : Bool} {n : Nat} {x : Ref} {S : State} (hx : S.load x = none)
    (op : Op) :
    op.step builds n x S = .fault := by
  cases op with
  | setType newType => rw [Op.step, State.retype, hx]; rfl
  | assign src => rw [Op.step, State.assign, hx]; rfl
  | set key src => rw [Op.step, State.set, State.ensure, hx]; rfl
  | unset key => rw [Op.step, State.unset, hx]
  | appendVal src => rw [Op.step, State.appendVal, State.ensure, hx]; rfl
  | clear => rw [Op.step, State.clear, State.retype, hx]; rfl
  | destruct =>
    cases x with
    | elem p k => rfl
    | var i => rw [Op.step, State.destruct, show S.vars i = none from hx]; rfl

/-- A run of operations on a val touches only this val. -/
theorem run_touches {builds : Bool} {n : Nat} {x : Ref} {ops : List Op} {S S' : State} (hS : S.Good)
    {i : Nat} {path : List Nat} {v : Slot} (hv : S.find i path = some (x, v))
    (hrun : run builds n x ops S = .done (some S')) : Touches i path S S' := by
  induction ops generalizing S v with
  | nil =>
    cases hrun
    exact .refl hS i path
  | cons op ops ih =>
    obtain ⟨r, hr, hrun⟩ := Outcome.bind_eq_done hrun
    cases r with
    | none => cases hrun
    | some S₁ =>
      obtain ⟨hafter, hstep⟩ := Op.step_touches hS hv hr
      rcases hafter with ⟨w, hw⟩ | hgone
      · exact hstep.trans hS (ih (hstep.changes.good hS) hw hrun)
      · -- after the destruction there are no more operations
        cases ops with
        | nil =>
          cases hrun
          exact hstep
        | cons op' ops =>
          have hrest : run builds n x (op' :: ops) S₁ = .done (some S') := hrun
          rw [run, Op.step_none hgone] at hrest
          cases hrest

/-! ## Programs -/

/-- The states that a program of constructors and operations reaches. -/
inductive Reach (builds : Bool) : State → Prop
  | init : Reach builds ⟨⟨fun _ => none, 1⟩, fun _ => none⟩
  | number {S : State} {i : Nat} {type : Tag} (h : Reach builds S) (hi : S.vars i = none)
      (ht : type.owns = false) (word : Nat) : Reach builds (S.createNumber i type word)
  | member {S : State} {i : Nat} {b : Block} (h : Reach builds S) (hi : S.vars i = none)
      (hb : b.children = []) : Reach builds (S.createMember i b)
  | copy {S S' : State} {n i : Nat} {src : Ref} (h : Reach builds S) (hi : S.vars i = none)
      (hrun : S.construct n i src = .done S') : Reach builds S'
  | step {S S' : State} {n i : Nat} {path : List Nat} {x : Ref} {v : Slot} {op : Op}
      (h : Reach builds S) (hv : S.find i path = some (x, v))
      (hrun : op.step builds n x S = .done (some S')) : Reach builds S'

theorem Changes.ofNew {i : Nat} {S : State} {w : Slot} {H : Heap} (hi : S.vars i = none)
    (h : layout.Turns S.heap H [] [w]) : Changes i S ((S.withHeap H).store (.var i) w) where
  turns := by
    have hw : ((S.withHeap H).store (.var i) w).vars i = some w := Function.update_self ..
    rw [hi, hw]
    exact h
  others j hj := Function.update_of_ne hj _ _

theorem State.construct_changes {n j : Nat} {src : Ref} {S S' : State} (hS : S.Good)
    (hj : S.vars j = none) (hrun : S.construct n j src = .done S') : Changes j S S' := by
  rw [State.construct] at hrun
  split at hrun
  next => cases hrun
  next s hs =>
    obtain ⟨r, hr, hrun⟩ := Outcome.bind_eq_done hrun
    cases hrun
    exact .ofNew hj (copyMember_turns hS.bounded hr)

theorem State.createMember_changes {i : Nat} {b : Block} {S : State} (hS : S.Good)
    (hi : S.vars i = none) (hb : b.children = []) : Changes i S (S.createMember i b) := by
  apply Changes.ofNew hi
  have hshared : b.type = .OBJECT →
      layout.Turns S.heap (S.heap.alloc b) [] [⟨b.type, S.heap.next⟩] := by
    intro hty
    have halloc := Layout.Turns.alloc (L := layout) hS.bounded b
    exact halloc.trans (.leaf halloc.bounded (ptr_object hty))
  cases b with
  | sp obj => exact hshared rfl
  | string s => exact newMember_turns hb rfl nofun hS.bounded
  | bytearray s => exact newMember_turns hb rfl nofun hS.bounded
  | vector vec => exact newMember_turns hb rfl nofun hS.bounded
  | map fields => exact newMember_turns hb rfl nofun hS.bounded
  | error code msg => exact newMember_turns hb rfl nofun hS.bounded

/-- In every state that is reached the blocks of the variables are separate trees. -/
theorem Reach.good {builds : Bool} {S : State} (h : Reach builds S) : S.Good := by
  induction h with
  | init => exact ⟨⟨Nat.one_pos, fun _ _ => rfl⟩, nofun, nofun⟩
  | number _ hi ht word ih =>
    exact Changes.good ih (.ofNew hi (.leaf ih.bounded (ptr_plain ht)))
  | member _ hi hb ih => exact (State.createMember_changes ih hi hb).good ih
  | copy _ hi hrun ih => exact (State.construct_changes ih hi hrun).good ih
  | step _ hv hrun ih => exact (Op.step_touches ih hv hrun).2.changes.good ih

end Libacorn.ValHeap
