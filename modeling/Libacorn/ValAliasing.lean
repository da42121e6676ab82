import Libacorn.ValIndependence

/-!
# Assignment under aliasing

`val::assign` makes the destination EMPTY before it looks at the source.
`assign_correct_iff` says when the destination nevertheless gets the value that the
source had, for two vals at any places: the destination is EMPTY already, or none of
the two is the other or inside the other, and no object of the source is released
with the destination. `set(key, get(key))` is an assignment of a val to itself.
-/

namespace Libacorn.ValHeap

open Support

/-! ## Assignment -/

/-- After `v = s` the destination has the value that the source had. -/
def AssignCorrect (S : State) (x y : Ref) (s : Slot) : Prop :=
  ∃ N, ∀ n ≥ N, ∃ S' w, S.assign n x y = .done S' ∧ S'.load x = some w ∧
    ∀ k, view k S'.heap w = view k S.heap s

/-- No object of the source is released with the destination, unless it is null and
only reset. -/
def Untouched (H : Heap) (v s : Slot) : Prop :=
  ∀ t, layout.Inside H s t → t.type = .OBJECT → Points H [v] t.word →
    v.type ≠ .OBJECT ∧ H.blocks t.word = some (.sp 0)

section Assignment

variable {S : State} (hS : S.Good) {i j : Nat} {path rest : List Nat} {x y : Ref} {v s : Slot}
variable (hv : S.find i path = some (x, v)) (hs : S.find j rest = some (y, s))

include hS hv hs in
theorem correct_of_empty (ha : Alive S.heap s) (hempty : v.type = .EMPTY) :
    AssignCorrect S x y s := by
  have hts := State.find_tree hS hs
  obtain ⟨N, hN⟩ := hts.exists_low
  refine ⟨N, ?_⟩
  intro n hn
  have hset : setType n .EMPTY v S.heap = .done (v, S.heap) := by
    rw [setType, if_pos hempty]
  obtain ⟨r, hr⟩ := copyMember_total v.word hS.bounded hts (hN.mono hn)
  have hassign : S.assign n x y = .done ((S.withHeap r.2).store x r.1) :=
    State.assign_unchanged (State.find_load hv) hset (State.find_load hs) hr
  obtain ⟨hview, hframe⟩ := copied_spec hS.bounded (State.find_load hv) hts hr
  have hcopy := (copyMember_turns hS.bounded hr).drop (ptr_plain (by rw [hempty]; rfl))
  refine ⟨_, r.1, hassign, State.find_load (State.store_found hS hv hcopy).1, ?_⟩
  intro k
  rw [view, hview]
  apply viewWith_congr hts (fun _ _ => rfl)
  intro t hti htobj
  obtain ⟨hne, obj, hobj⟩ := ha t hti htobj
  have hkept := hframe _ (hS.bounded.lt hobj) (holder_ne_sp hv hobj)
  rw [objectVal_of_sp hobj hne]
  exact objectVal_of_sp (hkept.trans hobj) hne

include hS hv hs in
theorem assign_apart_total (ha : Alive S.heap v) (hno : ¬Overlap i path j rest) :
    ∃ N, ∀ n ≥ N, ∃ S', S.assign n x y = .done S' := by
  have htv := State.find_tree hS hv
  have hts := State.find_tree hS hs
  obtain ⟨N, hN⟩ := setType_empty_done hS.bounded htv ha
  obtain ⟨M, hM⟩ := hts.exists_low
  refine ⟨max N M, ?_⟩
  intro n hn
  obtain ⟨r, hr⟩ := hN n (Nat.le_trans (Nat.le_max_left N M) hn)
  obtain ⟨-, htouch⟩ := State.emptied_found hS hv hr
  obtain ⟨hfind, hm⟩ := htouch.aside hno hs
  have hlow := hts.low_of_agree hm (hM.mono (Nat.le_trans (Nat.le_max_right N M) hn))
  obtain ⟨r', hr'⟩ := copyMember_total r.1.word (htouch.changes.good hS).bounded (hts.congr hm).1
      hlow
  exact ⟨_, State.assign_done (State.find_load hv) hr (State.find_load hfind) hr'⟩

include hS hv hs in
theorem correct_apart_iff (hav : Alive S.heap v) (has : Alive S.heap s)
    (hno : ¬Overlap i path j rest) : AssignCorrect S x y s ↔ Untouched S.heap v s := by
  have htv := State.find_tree hS hv
  have hts := State.find_tree hS hs
  constructor
  · rintro ⟨N, hN⟩ t hti htobj hpoints
    obtain ⟨S', w, hrun, hload, hview⟩ := hN N (Nat.le_refl N)
    obtain ⟨r, w', hr, hfind, hview', hobjects⟩ := assign_apart_spec hS hv hs hno hrun
    cases hload.symm.trans (State.find_load hfind)
    obtain ⟨hne, obj, hobj⟩ := has t hti htobj
    have hsame : objectVal S'.heap t.word = objectVal S.heap t.word :=
      objects_of_view hts has (fun k => (hview' _ k).symm.trans (hview k)) hti htobj
    rw [hobjects hobj] at hsame
    obtain ⟨hv', rfl⟩ := (setType_empty_objectVal hS.bounded htv hav hr hne hobj).mp hsame hpoints
    exact ⟨hv', hobj⟩
  · intro huntouched
    obtain ⟨N, hN⟩ := assign_apart_total hS hv hs hav hno
    refine ⟨N, ?_⟩
    intro n hn
    obtain ⟨S', hrun⟩ := hN n hn
    obtain ⟨r, w, hr, hfind, hview, hobjects⟩ := assign_apart_spec hS hv hs hno hrun
    refine ⟨S', w, hrun, State.find_load hfind, ?_⟩
    intro k
    rw [view, hview]
    apply viewWith_congr hts (fun _ _ => rfl)
    intro t hti htobj
    obtain ⟨hne, obj, hobj⟩ := has t hti htobj
    rw [hobjects hobj]
    apply (setType_empty_objectVal hS.bounded htv hav hr hne hobj).mpr
    intro hpoints
    obtain ⟨hv', hsp⟩ := huntouched t hti htobj hpoints
    cases hobj.symm.trans hsp
    exact ⟨hv', rfl⟩

include hS hv in
/-- `v = v` makes `v` EMPTY. -/
theorem assign_self_empty {n : Nat} {S' : State} (hrun : S.assign n x x = .done S') :
    ∃ e, S'.find i path = some (x, e) ∧ e.type = .EMPTY := by
  obtain ⟨r, e, r', hr, he, hr', rfl⟩ := State.assign_steps (State.find_load hv) hrun
  obtain ⟨hempty, htouch⟩ := State.emptied_found hS hv hr
  have hgood := htouch.changes.good hS
  cases (State.find_load hempty).symm.trans he
  have hcopy := (copyMember_turns hgood.bounded hr').drop (ptr_setType_empty hr)
  exact ⟨r'.1, (State.store_found hgood hempty hcopy).1, (copyMember_type hr').trans
    (setType_type hr)⟩

include hS hv in
theorem not_correct_self (hne : v.type ≠ .EMPTY) : ¬AssignCorrect S x x v := by
  rintro ⟨N, hN⟩
  obtain ⟨S', w, hrun, hload, hview⟩ := hN N (Nat.le_refl N)
  obtain ⟨e, hfind, he⟩ := assign_self_empty hS hv hrun
  cases hload.symm.trans (State.find_load hfind)
  exact view_ne_empty hne S.heap 1 ((hview 1).symm.trans (viewWith_empty he _ _ 0))

include hS hv in
/-- A source inside the destination is freed before it is read. -/
theorem not_correct_inside (hs : S.find i (path ++ rest) = some (y, s)) (hrest : rest ≠ []) :
    ¬AssignCorrect S x y s := by
  rintro ⟨N, hN⟩
  obtain ⟨S', w, hrun, -⟩ := hN N (Nat.le_refl N)
  obtain ⟨r, s', r', hr, hs', -⟩ := State.assign_steps (State.find_load hv) hrun
  obtain ⟨p, k, rfl, hown⟩ := State.find_below hS hv hs hrest
  have hturn := setType_turns hS.bounded (State.find_tree hS hv) hr
  have hfreed : r.2.blocks p = none := by
    rcases hturn.freed v (List.mem_singleton_self v) p hown with ⟨c, hc, hq⟩ | hnone
    · rw [List.mem_singleton.mp hc] at hq
      exact (Layout.not_owns_of_leaf (ptr_setType_empty hr) p hq).elim
    · exact hnone
  have hnot : x.holder ≠ some p := fun hp => find_holder_self hS hv hp hown
  have hblocks : (S.emptied x r).heap.blocks p = none :=
    (State.blocks_store (S.withHeap r.2) hnot r.1).trans hfreed
  rw [State.load, hblocks] at hs'
  cases hs'

include hS in
/-- When the destination is inside the source, it is EMPTY when the source is copied. -/
theorem not_correct_around (hv : S.find i (path ++ rest) = some (x, v))
    (hs : S.find i path = some (y, s)) (hrest : rest ≠ []) (has : Alive S.heap s)
    (hne : v.type ≠ .EMPTY) : ¬AssignCorrect S x y s := by
  rintro ⟨N, hN⟩
  obtain ⟨S', w, hrun, hload, hview⟩ := hN N (Nat.le_refl N)
  obtain ⟨r, s', r', hr, hs', hr', rfl⟩ := State.assign_steps (State.find_load hv) hrun
  obtain ⟨hempty, htouch⟩ := State.emptied_found hS hv hr
  have hgood := htouch.changes.good hS
  have hsource := htouch.above rfl hrest hs
  cases (State.find_load hsource).symm.trans hs'
  have hcopy := (copyMember_turns hgood.bounded hr').drop (ptr_setType_empty hr)
  have hfind := (State.store_found hgood hempty hcopy).1
  cases hload.symm.trans (State.find_load hfind)
  obtain ⟨hview', -⟩ := copied_spec hgood.bounded (State.find_load hempty)
    (State.find_tree hgood hsource) hr'
  -- the values differ at the path of the destination
  obtain ⟨M, hM⟩ := has.view_isSome (State.find_tree hS hs)
  obtain ⟨V, hV⟩ := Option.isSome_iff_exists.mp (hM (M + 1 + rest.length) (by omega))
  obtain ⟨z, z', hwalk, -, -⟩ := State.find_append hsource hempty
  obtain ⟨u, u', hwalk', -, -⟩ := State.find_append hs hv
  obtain ⟨U, hU, hU'⟩ := viewWith_walk hwalk hwalk'
    ((hview' _ _).symm.trans ((hview _).trans hV)) hV
  rw [viewWith_empty (setType_type hr)] at hU
  cases hU
  exact view_ne_empty hne S.heap (M + 1) hU'

include hS hv hs in
/-- Assignment between any two vals. -/
theorem correct_iff (hav : Alive S.heap v) (has : Alive S.heap s) :
    AssignCorrect S x y s ↔
      v.type = .EMPTY ∨ ¬Overlap i path j rest ∧ Untouched S.heap v s := by
  by_cases hempty : v.type = .EMPTY
  · exact iff_of_true (correct_of_empty hS hv hs has hempty) (Or.inl hempty)
  · by_cases hover : Overlap i path j rest
    · apply iff_of_false
      · obtain ⟨rfl, ⟨l, rfl⟩ | ⟨l, rfl⟩⟩ := hover
        · by_cases hl : l = []
          · rw [hl, List.append_nil] at hs
            cases hv.symm.trans hs
            exact not_correct_self hS hv hempty
          · exact not_correct_inside hS hv hs hl
        · by_cases hl : l = []
          · rw [hl, List.append_nil] at hv
            cases hv.symm.trans hs
            exact not_correct_self hS hs hempty
          · exact not_correct_around hS hv hs hl has hempty
      · rintro (h | h)
        · exact hempty h
        · exact h.1 hover
    · rw [correct_apart_iff hS hv hs hav has hover]
      constructor
      · intro h
        exact Or.inr ⟨hover, h⟩
      · rintro (h | h)
        · exact (hempty h).elim
        · exact h.2

end Assignment

/-! ## set(key, get(key)) -/

/-- `val::get` of a key that is in the map. -/
def State.get (S : State) (m : Slot) (key : Bytes) : Option Ref :=
  match S.heap.blocks m.word with
  | some (.map fields) => (State.position key fields).map fun k => .elem m.word k
  | _ => none

/-- `m.set(key, y)` leaves the map `m` at `x` as it was. -/
def SetKeeps (builds : Bool) (S : State) (x : Ref) (m : Slot) (key : Bytes) (y : Ref) : Prop :=
  ∃ N, ∀ n ≥ N, ∃ S' w, S.set builds n x key y = .done (some S') ∧ S'.load x = some w ∧
    ∀ k, view k S'.heap w = view k S.heap m

theorem State.set_get {builds : Bool} {n : Nat} {S : State} {x : Ref} {m : Slot} {key : Bytes}
    {y : Ref} (hx : S.load x = some m) (hty : m.type = .MAP) (h : S.get m key = some y) :
    S.set builds n x key y = ((S.emplaceTemporary builds n y).bind (State.assign n y y)).bind
      fun S => .done (some S) := by
  have hensure : S.ensure n x .MAP = .done S := by
    rw [State.ensure, hx]
    simp only [hty]
    exact if_neg (by decide)
  rw [State.set, hensure, Outcome.bind_done, hx]
  simp only [if_pos hty]
  rw [State.get] at h
  split at h
  next fields hb =>
    obtain ⟨k, hk, rfl⟩ := Option.map_eq_some_iff.mp h
    rw [State.setField]
    simp only [hb, hk]
  next => cases h

theorem State.get_elem {S : State} {m : Slot} {key : Bytes} {y : Ref} (h : S.get m key = some y) :
    ∃ k, y = .elem m.word k := by
  rw [State.get] at h
  split at h
  next fields hb =>
    obtain ⟨k, -, rfl⟩ := Option.map_eq_some_iff.mp h
    exact ⟨k, rfl⟩
  next => cases h

theorem copyMember_empty {c : Slot} (hc : c.type = .EMPTY) (n word : Nat) (H : Heap) :
    copyMember (n + 1) c word H = .done (⟨.EMPTY, word⟩, H) := by
  obtain ⟨type, p⟩ := c
  cases hc
  rfl

theorem State.assign_empty_self {S : State} {y : Ref} {c : Slot} (hy : S.load y = some c)
    (hc : c.type = .EMPTY) (n : Nat) : S.assign (n + 1) y y = .done S := by
  have hset : ValHeap.setType (n + 1) .EMPTY c S.heap = .done (c, S.heap) := by
    rw [setType, if_pos hc]
  have hcopy : copyMember (n + 1) c c.word S.heap = .done (c, S.heap) := by
    rw [copyMember_empty hc]
    obtain ⟨type, p⟩ := c
    cases hc
    rfl
  rw [State.assign_unchanged hy hset hy hcopy]
  exact congrArg Outcome.done (State.store_self hy)

theorem State.emplaceTemporary_empty {S : State} {y : Ref} {c : Slot} (hy : S.load y = some c)
    (hc : c.type = .EMPTY) (builds : Bool) (n : Nat) :
    S.emplaceTemporary builds (n + 1) y = .done S := by
  rw [State.emplaceTemporary]
  split
  next =>
    simp only [hy, copyMember_empty hc, Outcome.bind_done]
    rfl
  next => rfl

theorem setKeeps_of_empty (builds : Bool) {S : State} {x y : Ref} {m c : Slot} {key : Bytes}
    (hx : S.load x = some m) (hty : m.type = .MAP) (hget : S.get m key = some y)
    (hy : S.load y = some c) (hc : c.type = .EMPTY) : SetKeeps builds S x m key y := by
  refine ⟨1, ?_⟩
  intro n hn
  obtain ⟨n, rfl⟩ := Nat.exists_eq_add_of_le' hn
  refine ⟨S, m, ?_, hx, fun _ => rfl⟩
  rw [State.set_get hx hty hget, State.emplaceTemporary_empty hy hc, Outcome.bind_done,
    State.assign_empty_self hy hc]
  rfl

/-- `m.set(key, m.get(key))` makes the val under the key EMPTY. -/
theorem setKeeps_iff (builds : Bool) {S : State} (hS : S.Good) {i : Nat} {path : List Nat}
    {x y : Ref} {m c : Slot} {key : Bytes} (hm : S.find i path = some (x, m)) (ha : Alive S.heap m)
    (hty : m.type = .MAP) (hget : S.get m key = some y) (hy : S.load y = some c) :
    SetKeeps builds S x m key y ↔ c.type = .EMPTY := by
  constructor
  · rintro ⟨N, hN⟩
    obtain ⟨S', w, hrun, hload, hview⟩ := hN N (Nat.le_refl N)
    obtain ⟨k, rfl⟩ := State.get_elem hget
    rw [State.set_get (State.find_load hm) hty hget] at hrun
    obtain ⟨S₂, hrun, hdone⟩ := Outcome.bind_eq_done hrun
    cases hdone
    obtain ⟨S₁, h₁, hrun⟩ := Outcome.bind_eq_done hrun
    have hp : layout.ptr m = some m.word := ptr_of_type hty rfl (by decide)
    have hc := State.find_child hm hp hy
    obtain ⟨hm₁, htouch⟩ := State.emplaceTemporary_touches hS hm h₁
    obtain ⟨hc₁, -⟩ := State.emplaceTemporary_touches hS hc h₁
    have hS₁ := htouch.changes.good hS
    obtain ⟨e, he, hempty⟩ := assign_self_empty hS₁ hc₁ hrun
    -- the map stays in its place
    have hmap := (State.assign_touches hS₁ hc₁ hrun).2.above rfl (List.cons_ne_nil k []) hm₁
    cases hload.symm.trans (State.find_load hmap)
    -- its value under the key is EMPTY now, and is what it was
    obtain ⟨b, hb, hk⟩ := State.load_elem hy
    obtain ⟨b', hb', hk'⟩ := State.load_elem (State.find_load he)
    obtain ⟨M, hM⟩ := ha.view_isSome (State.find_tree hS hm)
    obtain ⟨V, hV⟩ := Option.isSome_iff_exists.mp (hM (M + 1 + 1) (by omega))
    have hwalk : layout.walk S.heap none m [k] = some (some (m.word, k), c) :=
      Layout.walk_step hp hb hk none []
    have hwalk' : layout.walk S'.heap none m [k] = some (some (m.word, k), e) :=
      Layout.walk_step hp hb' hk' none []
    obtain ⟨U, hU, hU'⟩ := viewWith_walk hwalk' hwalk ((hview _).trans hV) hV
    rw [viewWith_empty hempty] at hU
    cases hU
    by_contra hcne
    exact view_ne_empty hcne S.heap (M + 1) hU'
  · exact setKeeps_of_empty builds (State.find_load hm) hty hget hy

/-- Assignment of any val to any val, also inside one another, and of a val in a map to
itself. -/
theorem assign_correct_iff {S : State} (hS : S.Good) {i : Nat} {path : List Nat} {x : Ref}
    {v : Slot} (hv : S.find i path = some (x, v)) (hav : Alive S.heap v) :
    (∀ {j rest y s}, S.find j rest = some (y, s) → Alive S.heap s →
      (AssignCorrect S x y s ↔
        v.type = .EMPTY ∨ ¬Overlap i path j rest ∧ Untouched S.heap v s)) ∧
    ∀ {builds key y c}, v.type = .MAP → S.get v key = some y → S.load y = some c →
      (SetKeeps builds S x v key y ↔ c.type = .EMPTY) := by
  constructor
  · intro j rest y s hs has
    exact correct_iff hS hv hs hav has
  · intro builds key y c hty hget hy
    exact setKeeps_iff builds hS hv hav hty hget hy

/-- A map with one field and nothing further down. -/
theorem single_map {f : Bytes × Slot} (hf : f.2.type.owns = false) :
    (single .MAP (.map [f])).Good ∧ Alive (single .MAP (.map [f])).heap ⟨.MAP, 1⟩ := by
  have hleaf := ptr_plain hf
  constructor
  · apply single_good
    refine .node rfl rfl ⟨rfl, nofun, nofun⟩ ?_ ?_ (List.pairwise_singleton _ _)
    · intro c hc
      rw [List.mem_singleton.mp hc]
      exact .leaf hleaf
    · intro c hc
      rw [List.mem_singleton.mp hc]
      exact Layout.not_owns_of_leaf hleaf 1
  · intro t hti htobj
    cases hti with
    | self => cases htobj
    | child hp hb hc hti =>
      cases hp
      cases hb
      rw [List.mem_singleton.mp hc] at hti
      rw [inside_leaf hleaf hti] at htobj
      rw [htobj] at hf
      cases hf

/-- In `{k: EMPTY}` the map may be assigned to its own field, and not the field to the
map; `set(k, get(k))` does nothing. -/
theorem assign_correct_empty_field :
    AssignCorrect (single .MAP (.map [([0x6b], ⟨.EMPTY, 0⟩)])) (.elem 1 0) (.var 0) ⟨.MAP, 1⟩ ∧
      ¬AssignCorrect (single .MAP (.map [([0x6b], ⟨.EMPTY, 0⟩)])) (.var 0) (.elem 1 0) ⟨.EMPTY, 0⟩ ∧
      SetKeeps true (single .MAP (.map [([0x6b], ⟨.EMPTY, 0⟩)])) (.var 0) ⟨.MAP, 1⟩ [0x6b]
        (.elem 1 0) := by
  obtain ⟨hgood, halive⟩ := single_map (f := ([0x6b], ⟨.EMPTY, 0⟩)) rfl
  have hfield : Alive (single .MAP (.map [([0x6b], ⟨.EMPTY, 0⟩)])).heap ⟨.EMPTY, 0⟩ := by
    intro t hti htobj
    rw [inside_leaf (ptr_plain rfl) hti] at htobj
    cases htobj
  have hmap : (single .MAP (.map [([0x6b], ⟨.EMPTY, 0⟩)])).find 0 [] = some (.var 0, ⟨.MAP, 1⟩) :=
    rfl
  have helem : (single .MAP (.map [([0x6b], ⟨.EMPTY, 0⟩)])).find 0 [0] =
      some (.elem 1 0, ⟨.EMPTY, 0⟩) := rfl
  refine ⟨?_, ?_, ?_⟩
  · exact ((assign_correct_iff hgood helem hfield).1 hmap halive).mpr (Or.inl rfl)
  · intro h
    rcases ((assign_correct_iff hgood hmap halive).1 helem hfield).mp h with h | h
    · cases h
    · exact h.1 ⟨rfl, Or.inl List.nil_prefix⟩
  · exact ((assign_correct_iff hgood hmap halive).2 rfl rfl rfl).mpr rfl

/-- In `{k: 5}`: `m = m` and `m.set(k, m.get(k))`. -/
theorem assign_self_not_correct :
    (single .MAP (.map [([0x6b], ⟨.INT32, 5⟩)])).Good ∧
      ¬AssignCorrect (single .MAP (.map [([0x6b], ⟨.INT32, 5⟩)])) (.var 0) (.var 0) ⟨.MAP, 1⟩ ∧
      ¬SetKeeps true (single .MAP (.map [([0x6b], ⟨.INT32, 5⟩)])) (.var 0) ⟨.MAP, 1⟩ [0x6b]
        (.elem 1 0) := by
  obtain ⟨hgood, halive⟩ := single_map (f := ([0x6b], ⟨.INT32, 5⟩)) rfl
  have hmap : (single .MAP (.map [([0x6b], ⟨.INT32, 5⟩)])).find 0 [] = some (.var 0, ⟨.MAP, 1⟩) :=
    rfl
  refine ⟨hgood, not_correct_self hgood hmap nofun, ?_⟩
  intro h
  cases (setKeeps_iff true hgood hmap halive rfl rfl rfl).mp h

end Libacorn.ValHeap
