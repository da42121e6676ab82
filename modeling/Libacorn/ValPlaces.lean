import Libacorn.ValOwnership

/-!
# Places of vals

A val stands in a variable or in a block, and is found by a path from its variable
(`State.find`). This module has the laws of loads and stores at such places, says when
two of them are apart, and what a store at a place does to its variable.
-/

namespace Libacorn.ValHeap

open Support

/-! ## Loads and stores -/

/-- The block in which the val stands. -/
def Ref.holder : Ref → Option Nat
  | .var _ => none
  | .elem p _ => some p

theorem withChildren_self (b : Block) : b.withChildren b.children = b := by
  cases b with
  | map fields =>
    have hzip : (fields.map Prod.fst).zip (fields.map Prod.snd) = fields := by
      induction fields with
      | nil => rfl
      | cons f fields ih => rw [List.map_cons, List.map_cons, List.zip_cons_cons, ih]
    exact congrArg Block.map hzip
  | _ => rfl

namespace State

theorem load_elem {S : State} {p k : Nat} {c : Slot} (h : S.load (.elem p k) = some c) :
    ∃ b, S.heap.blocks p = some b ∧ b.children[k]? = some c := Option.bind_eq_some_iff.mp h

theorem store_elem {S : State} {p k : Nat} {b : Block} (hb : S.heap.blocks p = some b) (w : Slot) :
    S.store (.elem p k) w =
      S.withHeap (S.heap.put p (b.withChildren (b.children.set k w))) := by
  rw [store]
  simp only [hb]
  rfl

/-- What is stored is there. -/
theorem load_store {S : State} {x : Ref} {c : Slot} (h : S.load x = some c) (w : Slot) :
    (S.store x w).load x = some w := by
  cases x with
  | var i => exact Function.update_self ..
  | elem p k =>
    obtain ⟨b, hb, hk⟩ := load_elem h
    have hb' : (S.store (.elem p k) w).heap.blocks p =
        some (b.withChildren (b.children.set k w)) := by
      rw [store_elem hb]
      exact Function.update_self ..
    rw [load, hb', Option.bind_some, children_withChildren b List.length_set]
    exact List.getElem?_set_self (List.getElem?_eq_some_iff.mp hk).1

theorem load_withHeap {S : State} {x : Ref} {c : Slot} (h : S.load x = some c) {H : Heap}
    (hm : ∀ p, x.holder = some p → H.blocks p = S.heap.blocks p) :
    (S.withHeap H).load x = some c := by
  cases x with
  | var i => exact h
  | elem p k =>
    obtain ⟨b, hb, hk⟩ := load_elem h
    exact Option.bind_eq_some_iff.mpr ⟨b, (hm p rfl).trans hb, hk⟩

/-- To store what is there changes nothing. -/
theorem store_self {S : State} {x : Ref} {c : Slot} (h : S.load x = some c) : S.store x c = S := by
  cases x with
  | var i =>
    have hi : S.vars i = some c := h
    rw [store, ← hi, Function.update_eq_self]
  | elem p k =>
    obtain ⟨b, hb, hk⟩ := load_elem h
    obtain ⟨hlt, hget⟩ := List.getElem?_eq_some_iff.mp hk
    rw [store_elem hb, ← hget, List.set_getElem_self, withChildren_self, BlockHeap.put, ← hb,
      Function.update_eq_self]
    rfl

theorem blocks_store (S : State) {x : Ref} {q : Nat} (hq : x.holder ≠ some q) (w : Slot) :
    (S.store x w).heap.blocks q = S.heap.blocks q := by
  cases x with
  | var i => rfl
  | elem p k =>
    have hqp : q ≠ p := by
      rintro rfl
      exact hq rfl
    rw [store]
    split
    next b hb => exact Function.update_of_ne hqp _ _
    next => rfl

/-- A block with vals in it is not shared. -/
theorem holder_of_load {S : State} {x : Ref} {c : Slot} (h : S.load x = some c) {p : Nat}
    (hp : x.holder = some p) : ∃ b, S.heap.blocks p = some b ∧ b.type ≠ .OBJECT := by
  cases x with
  | var i => cases hp
  | elem q k =>
    cases hp
    obtain ⟨b, hb, hk⟩ := load_elem h
    refine ⟨b, hb, ?_⟩
    intro hty
    cases b with
    | sp obj => cases hk
    | _ => cases hty

end State

/-! ## Paths -/

/-- A place below the variable `i`. -/
def Ref.ofPlace (i : Nat) : Option (Nat × Nat) → Ref
  | none => .var i
  | some (p, k) => .elem p k

/-- The val at a path from the variable `i`: a path gives the index of an element in
each array and of an entry in each map. -/
def State.find (S : State) (i : Nat) (path : List Nat) : Option (Ref × Slot) :=
  (S.vars i).bind fun a => (layout.walk S.heap none a path).map fun r => (Ref.ofPlace i r.1, r.2)

/-- One of the two vals is the other or inside the other. -/
def Overlap (i : Nat) (path : List Nat) (j : Nat) (path' : List Nat) : Prop :=
  i = j ∧ (path <+: path' ∨ path' <+: path)

/-- Vals in different places, neither of them inside the other. -/
structure Apart (H : Heap) (x : Ref) (v : Slot) (y : Ref) (s : Slot) : Prop where
  ne : x ≠ y
  separate : layout.Separate H v s
  left : ∀ {p}, x.holder = some p → ¬layout.Owns H s p
  right : ∀ {p}, y.holder = some p → ¬layout.Owns H v p

theorem Ref.ofPlace_injective (i : Nat) : Function.Injective (Ref.ofPlace i) := by
  rintro (_ | ⟨p, k⟩) (_ | ⟨q, l⟩) h
  · rfl
  · cases h
  · cases h
  · cases h
    rfl

theorem Ref.holder_ofPlace {i : Nat} {y : Option (Nat × Nat)} {p : Nat}
    (h : (Ref.ofPlace i y).holder = some p) : ∃ k, y = some (p, k) := by
  rcases y with _ | ⟨q, k⟩
  · cases h
  · cases h
    exact ⟨k, rfl⟩

namespace State

theorem find_eq {S : State} {i : Nat} {path : List Nat} {x : Ref} {v : Slot}
    (h : S.find i path = some (x, v)) :
    ∃ a y, S.vars i = some a ∧ layout.walk S.heap none a path = some (y, v) ∧
      x = Ref.ofPlace i y := by
  obtain ⟨a, ha, h⟩ := Option.bind_eq_some_iff.mp h
  obtain ⟨⟨y, u⟩, hy, h⟩ := Option.map_eq_some_iff.mp h
  cases h
  exact ⟨a, y, ha, hy, rfl⟩

theorem find_var {S : State} {i : Nat} {a : Slot} (hi : S.vars i = some a) :
    S.find i [] = some (.var i, a) := by
  rw [find, hi]
  rfl

/-- A variable is found from itself. -/
theorem find_var_path {S : State} {i j : Nat} {path : List Nat} {v : Slot}
    (h : S.find i path = some (.var j, v)) : i = j ∧ path = [] := by
  obtain ⟨a, y, -, hy, hx⟩ := find_eq h
  by_cases hne : path = []
  · subst hne
    cases hy
    cases hx
    exact ⟨rfl, rfl⟩
  · obtain ⟨-, k, -, u, p, b, -, -, -, -, -, rfl⟩ := Layout.walk_last hy hne
    cases hx

theorem find_load {S : State} {i : Nat} {path : List Nat} {x : Ref} {v : Slot}
    (h : S.find i path = some (x, v)) : S.load x = some v := by
  obtain ⟨a, y, ha, hy, rfl⟩ := find_eq h
  by_cases hne : path = []
  · subst hne
    cases hy
    exact ha
  · obtain ⟨-, k, -, u, p, b, -, -, -, hb, hk, rfl⟩ := Layout.walk_last hy hne
    exact Option.bind_eq_some_iff.mpr ⟨b, hb, hk⟩

theorem find_tree {S : State} (hS : S.Good) {i : Nat} {path : List Nat} {x : Ref} {v : Slot}
    (h : S.find i path = some (x, v)) : layout.Tree S.heap v := by
  obtain ⟨a, y, ha, hy, -⟩ := find_eq h
  exact ((hS.tree ha).walk hy).1

/-- One step further. -/
theorem find_child {S : State} {i : Nat} {path : List Nat} {x : Ref} {m c : Slot} {p k : Nat}
    (hm : S.find i path = some (x, m)) (hp : layout.ptr m = some p)
    (hc : S.load (.elem p k) = some c) : S.find i (path ++ [k]) = some (.elem p k, c) := by
  obtain ⟨a, y, ha, hy, -⟩ := find_eq hm
  obtain ⟨b, hb, hk⟩ := load_elem hc
  rw [find, ha, Option.bind_some, Layout.walk_append, hy, Option.bind_some,
    Layout.walk_step hp hb hk]
  rfl

/-- Paths only depend on the blocks of the variable. -/
theorem find_congr {S S' : State} (hS : S.Good) {i : Nat} {path : List Nat} {x : Ref} {v : Slot}
    (h : S.find i path = some (x, v)) (hvars : S'.vars i = S.vars i)
    (hm : ∀ {a}, S.vars i = some a → ∀ q, layout.Owns S.heap a q →
      S'.heap.blocks q = S.heap.blocks q) : S'.find i path = some (x, v) := by
  obtain ⟨a, y, ha, hy, rfl⟩ := find_eq h
  have hy' := (hS.tree ha).walk_congr hy fun q hq _ => hm ha q hq
  rw [find, hvars, ha, Option.bind_some, hy']
  rfl

/-- The block in which a val stands belongs to the variable and not to the val. -/
theorem find_holder {S : State} (hS : S.Good) {i : Nat} {path : List Nat} {x : Ref} {a v : Slot}
    (ha : S.vars i = some a) (h : S.find i path = some (x, v)) {p : Nat} (hp : x.holder = some p) :
    layout.Owns S.heap a p ∧ ¬layout.Owns S.heap v p := by
  obtain ⟨a', y, ha', hy, rfl⟩ := find_eq h
  cases ha.symm.trans ha'
  by_cases hne : path = []
  · subst hne
    cases hy
    cases hp
  · obtain ⟨p', k, rfl, hown, hnot⟩ := (hS.tree ha).walk_holder hy hne
    cases hp
    exact ⟨hown, hnot⟩

theorem find_append {S : State} {i : Nat} {path rest : List Nat} {x y : Ref} {v s : Slot}
    (hv : S.find i path = some (x, v)) (hs : S.find i (path ++ rest) = some (y, s)) :
    ∃ z z', layout.walk S.heap z v rest = some (z', s) ∧ x = Ref.ofPlace i z ∧
      y = Ref.ofPlace i z' := by
  obtain ⟨a, z, ha, hz, rfl⟩ := find_eq hv
  obtain ⟨a', z', ha', hz', rfl⟩ := find_eq hs
  cases ha.symm.trans ha'
  rw [Layout.walk_append, hz, Option.bind_some] at hz'
  exact ⟨z, z', hz', rfl, rfl⟩

/-- A val further down stands in a block of the upper one. -/
theorem find_below {S : State} (hS : S.Good) {i : Nat} {path rest : List Nat} {x y : Ref}
    {v s : Slot} (hv : S.find i path = some (x, v)) (hs : S.find i (path ++ rest) = some (y, s))
    (hne : rest ≠ []) : ∃ p k, y = .elem p k ∧ layout.Owns S.heap v p := by
  obtain ⟨z, z', hz, -, rfl⟩ := find_append hv hs
  obtain ⟨p, k, rfl, hown, -⟩ := (find_tree hS hv).walk_holder hz hne
  exact ⟨p, k, rfl, hown⟩

theorem find_owns {S : State} (hS : S.Good) {i : Nat} {path : List Nat} {x : Ref} {a v : Slot}
    (ha : S.vars i = some a) (h : S.find i path = some (x, v)) {q : Nat}
    (hq : layout.Owns S.heap v q) : layout.Owns S.heap a q := by
  obtain ⟨a', y, ha', hy, -⟩ := find_eq h
  cases ha.symm.trans ha'
  exact ((hS.tree ha).walk hy).2 q hq

theorem find_apart {S : State} (hS : S.Good) {i j : Nat} {path rest : List Nat} {x y : Ref}
    {v s : Slot} (hv : S.find i path = some (x, v)) (hs : S.find j rest = some (y, s))
    (hno : ¬Overlap i path j rest) : Apart S.heap x v y s := by
  obtain ⟨a, x', ha, hx, rfl⟩ := find_eq hv
  obtain ⟨b, y', hb, hy, rfl⟩ := find_eq hs
  by_cases hij : i = j
  · subst hij
    cases ha.symm.trans hb
    have hpath : ¬path <+: rest := fun h => hno ⟨rfl, Or.inl h⟩
    have hrest : ¬rest <+: path := fun h => hno ⟨rfl, Or.inr h⟩
    obtain ⟨hne, hsep, hleft, hright⟩ := (hS.tree ha).walk_apart hx hy hpath hrest
    refine ⟨fun h => hne (Ref.ofPlace_injective i h), hsep, ?_, ?_⟩
    · intro p hp
      obtain ⟨k, hk⟩ := Ref.holder_ofPlace hp
      exact hleft hk
    · intro p hp
      obtain ⟨k, hk⟩ := Ref.holder_ofPlace hp
      exact hright hk
  · -- vals of different variables
    have hsep := hS.separate hij ha hb
    refine ⟨?_, ?_, ?_, ?_⟩
    · intro hxy
      cases hp : (Ref.ofPlace i x').holder with
      | none =>
        rcases x' with _ | ⟨p, k⟩
        · rcases y' with _ | ⟨q, l⟩
          · cases hxy
            exact hij rfl
          · cases hxy
        · cases hp
      | some p =>
        exact hsep p (find_holder hS ha hv hp).1 (find_holder hS hb hs (hxy ▸ hp)).1
    · intro q hq hq'
      exact hsep q (find_owns hS ha hv hq) (find_owns hS hb hs hq')
    · intro p hp hq
      exact hsep p (find_holder hS ha hv hp).1 (find_owns hS hb hs hq)
    · intro p hp hq
      exact hsep p (find_owns hS ha hv hq) (find_holder hS hb hs hp).1

end State

/-! ## A val turns into another -/

/-- One val of a block turns into another. -/
theorem child_turns {H H' : Heap} {a c w : Slot} (ht : layout.Tree H a) {p k : Nat}
    {b : Block} (hp : layout.ptr a = some p) (hb : H.blocks p = some b)
    (hk : b.children[k]? = some c) (h : layout.Turns H H' [c] [w]) :
    H'.blocks p = some b ∧
      layout.Turns H (H'.put p (b.withChildren (b.children.set k w))) [a] [a] := by
  obtain ⟨hfits, -, hout⟩ := ht.children hp hb
  obtain ⟨hlt, hc⟩ := List.getElem?_eq_some_iff.mp hk
  constructor
  · apply h.keeps hb (layout.not_shared hfits)
    intro d hd
    rw [List.mem_singleton.mp hd]
    exact hout c (List.mem_of_getElem? hk)
  · apply Layout.Turns.splice ht hp hb (r := b.children.eraseIdx k) ?_ h ?_ ?_
    · exact Layout.perm_cons_eraseIdx hk
    · exact ⟨(type_withChildren b _).trans hfits.1, hfits.2⟩
    · have hchildren : (b.withChildren (b.children.set k w)).children = b.children.set k w :=
        children_withChildren b List.length_set
      rw [show layout.children (b.withChildren (b.children.set k w)) = _ from hchildren]
      exact List.set_perm_cons_eraseIdx hlt w

section Replace

variable {H H' : Heap} {z : Option (Nat × Nat)} {s v w : Slot} (hs : layout.Tree H s)
variable {path : List Nat} {p k : Nat} (hwalk : layout.walk H z s path = some (some (p, k), v))
variable (h : layout.Turns H H' [v] [w])

include hs h in
/-- Blocks of `s` that the val neither stands in nor owns. -/
theorem replace_keeps (b : Block) {q : Nat} (hq : layout.Owns H s q) (hqp : q ≠ p)
    (hv : ¬layout.Owns H v q) : (H'.put p b).blocks q = H.blocks q := by
  obtain ⟨b', hb', hns⟩ := hs.live hq
  rw [hb']
  refine (Function.update_of_ne hqp _ _).trans (h.keeps hb' hns ?_)
  intro d hd hdq
  rw [List.mem_singleton.mp hd] at hdq
  exact hv hdq

include hs hwalk h in
/-- The vals above stay where they are. -/
theorem replace_above (b : Block) {rest l : List Nat} (hpath : path = rest ++ l) (hl : l ≠ [])
    {y : Option (Nat × Nat)} {u : Slot} (hu : layout.walk H z s rest = some (y, u)) :
    layout.walk (H'.put p b) z s rest = some (y, u) := by
  rw [hpath, Layout.walk_append, hu, Option.bind_some] at hwalk
  obtain ⟨htu, -⟩ := hs.walk hu
  obtain ⟨p', k', heq, hown, -⟩ := htu.walk_holder hwalk hl
  cases heq
  apply hs.walk_congr hu
  intro q hq hnot
  apply replace_keeps hs h b hq
  · rintro rfl
    exact hnot hown
  · intro hvq
    exact hnot ((htu.walk hwalk).2 q hvq)

include hs hwalk h in
/-- A val inside another turns into a val there. -/
theorem replace_turns (hne : path ≠ []) :
    ∃ b, H.blocks p = some b ∧ H'.blocks p = some b ∧
      layout.Turns H (H'.put p (b.withChildren (b.children.set k w))) [s] [s] ∧
      layout.walk (H'.put p (b.withChildren (b.children.set k w))) z s path =
        some (some (p, k), w) := by
  obtain ⟨init, k', y, u, p', b, hpath, hu, hp, hb, hk, heq⟩ := Layout.walk_last hwalk hne
  cases heq
  obtain ⟨hb', hchild⟩ := child_turns (hs.walk hu).1 hp hb hk h
  refine ⟨b, hb, hb', Layout.Turns.within hs hu hchild, ?_⟩
  have hway := replace_above hs hwalk h (b.withChildren (b.children.set k w)) hpath
    (List.cons_ne_nil k []) hu
  have hblock : (H'.put p (b.withChildren (b.children.set k w))).blocks p =
      some (b.withChildren (b.children.set k w)) := Function.update_self ..
  have hlast : (layout.children (b.withChildren (b.children.set k w)))[k]? = some w := by
    show (b.withChildren (b.children.set k w)).children[k]? = some w
    rw [children_withChildren b List.length_set]
    exact List.getElem?_set_self (List.getElem?_eq_some_iff.mp hk).1
  rw [hpath, Layout.walk_append, hway, Option.bind_some]
  exact Layout.walk_step hp hblock hlast y []

include hs hwalk h in
/-- So do the vals beside it. -/
theorem replace_aside (hne : path ≠ []) {b : Block} (hb : H.blocks p = some b) {rest : List Nat}
    (hpath : ¬path <+: rest) (hrest : ¬rest <+: path) {y : Option (Nat × Nat)} {u : Slot}
    (hu : layout.walk H z s rest = some (y, u)) :
    layout.walk (H'.put p (b.withChildren (b.children.set k w))) z s rest = some (y, u) := by
  apply hs.walk_aside hwalk hne hu hpath hrest
  · intro q hq hqp hv
    exact replace_keeps hs h _ hq hqp hv
  · intro b₁ hb₁
    cases hb.symm.trans hb₁
    refine ⟨_, Function.update_self .., ?_⟩
    intro l hl
    show (b.withChildren (b.children.set k w)).children[l]? = b.children[l]?
    rw [children_withChildren b List.length_set]
    exact List.getElem?_set_ne (Ne.symm hl)

end Replace

/-- Only the val at this path has changed: the vals above it and beside it are where
they were, and the latter own what they owned. -/
structure Touches (i : Nat) (path : List Nat) (S S' : State) : Prop where
  changes : Changes i S S'
  above : ∀ {rest l y u}, path = rest ++ l → l ≠ [] → S.find i rest = some (y, u) →
    S'.find i rest = some (y, u)
  aside : ∀ {j rest y u}, ¬Overlap i path j rest → S.find j rest = some (y, u) →
    S'.find j rest = some (y, u) ∧ ∀ q, layout.Owns S.heap u q → S'.heap.blocks q = S.heap.blocks q

theorem Touches.refl {S : State} (hS : S.Good) (i : Nat) (path : List Nat) :
    Touches i path S S where
  changes := .refl hS i
  above _ _ h := h
  aside _ h := ⟨h, fun _ _ => rfl⟩

theorem Touches.trans {S S₁ S₂ : State} (hS : S.Good) {i : Nat} {path : List Nat}
    (h : Touches i path S S₁) (h' : Touches i path S₁ S₂) : Touches i path S S₂ where
  changes := h.changes.trans h'.changes
  above hpath hl hu := h'.above hpath hl (h.above hpath hl hu)
  aside := by
    intro j rest y u hno hu
    obtain ⟨hu₁, hm⟩ := h.aside hno hu
    obtain ⟨hu₂, hm'⟩ := h'.aside hno hu₁
    refine ⟨hu₂, ?_⟩
    intro q hq
    have hq₁ := (((State.find_tree hS hu).congr hm).2 q).mpr hq
    exact (hm' q hq₁).trans (hm q hq)

/-- What overlaps an inner val overlaps the outer one. -/
theorem Overlap.outer {i j : Nat} {path l rest : List Nat} (h : Overlap i (path ++ l) j rest) :
    Overlap i path j rest := by
  obtain ⟨hij, h | h⟩ := h
  · exact ⟨hij, Or.inl ((List.prefix_append path l).trans h)⟩
  · exact ⟨hij, List.prefix_or_prefix_of_prefix (List.prefix_append path l) h⟩

/-- What touches an inner val touches the outer one. -/
theorem Touches.outer {i : Nat} {path l : List Nat} {S S' : State}
    (h : Touches i (path ++ l) S S') :
    Touches i path S S' where
  changes := h.changes
  above := by
    rintro rest l' y u rfl hl hu
    apply h.above (List.append_assoc rest l' l) _ hu
    intro hnil
    exact hl (List.append_eq_nil_iff.mp hnil).1
  aside := by
    intro j rest y u hno hu
    exact h.aside (fun h => hno h.outer) hu

/-- The vals of other variables are where they were. -/
theorem Changes.aside {i j : Nat} {S S' : State} (hS : S.Good) (h : Changes i S S') (hj : j ≠ i)
    {rest : List Nat} {y : Ref} {u : Slot} (hu : S.find j rest = some (y, u)) :
    S'.find j rest = some (y, u) ∧
      ∀ q, layout.Owns S.heap u q → S'.heap.blocks q = S.heap.blocks q := by
  have hm : ∀ {a}, S.vars j = some a → ∀ q, layout.Owns S.heap a q →
      S'.heap.blocks q = S.heap.blocks q := fun ha => (h.keeps hS hj ha).2.2
  refine ⟨State.find_congr hS hu (h.others j hj) hm, ?_⟩
  intro q hq
  obtain ⟨a, -, ha, -, -⟩ := State.find_eq hu
  exact hm ha q (State.find_owns hS ha hu hq)

section Found

variable {S : State} (hS : S.Good) {i : Nat} {path : List Nat} {x : Ref} {v w : Slot}
variable (hv : S.find i path = some (x, v)) {H : Heap}

include hS hv in
/-- What is stored at a place is found there, and only this val has changed. -/
theorem State.store_found (h : layout.Turns S.heap H [v] [w]) :
    ((S.withHeap H).store x w).find i path = some (x, w) ∧
      Touches i path S ((S.withHeap H).store x w) := by
  obtain ⟨a, z, ha, hz, rfl⟩ := State.find_eq hv
  by_cases hne : path = []
  · subst hne
    cases hz
    have hchange : Changes i S ((S.withHeap H).store (.var i) w) := .ofVar ha h
    refine ⟨State.find_var (Function.update_self ..), hchange, ?_, ?_⟩
    · intro rest l y u hpath hl
      exact (hl (List.append_eq_nil_iff.mp hpath.symm).2).elim
    · intro j rest y u hno
      apply hchange.aside hS
      rintro rfl
      exact hno ⟨rfl, Or.inl List.nil_prefix⟩
  · have hta := hS.tree ha
    obtain ⟨p, k, rfl, -, -⟩ := hta.walk_holder hz hne
    obtain ⟨b, hb, hb', hturn, hwalk⟩ := replace_turns hta hz h hne
    have hstore : (S.withHeap H).store (Ref.ofPlace i (some (p, k))) w =
        S.withHeap (H.put p (b.withChildren (b.children.set k w))) :=
      State.store_elem (S := S.withHeap H) hb' w
    rw [hstore]
    have hfind : ∀ {rest y u}, layout.walk (H.put p (b.withChildren (b.children.set k w))) none a
        rest =
        some (y, u) → (S.withHeap (H.put p (b.withChildren (b.children.set k w)))).find i rest =
          some (Ref.ofPlace i y, u) := by
      intro rest y u hwalk
      show ((S.vars i).bind fun a => (layout.walk (H.put p _) none a rest).map _) = _
      rw [ha, Option.bind_some, hwalk]
      rfl
    have hchange : Changes i S (S.withHeap (H.put p (b.withChildren (b.children.set k w)))) :=
      .ofHeap ha hturn
    refine ⟨hfind hwalk, hchange, ?_, ?_⟩
    · intro rest l y u hpath hl hu
      obtain ⟨a', y', ha', hy', rfl⟩ := State.find_eq hu
      cases ha.symm.trans ha'
      exact hfind (replace_above hta hz h _ hpath hl hy')
    · intro j rest y u hno hu
      by_cases hj : j = i
      · subst hj
        have hapart := State.find_apart hS hv hu hno
        obtain ⟨a', y', ha', hy', rfl⟩ := State.find_eq hu
        cases ha.symm.trans ha'
        refine ⟨hfind (replace_aside hta hz h hne hb (fun hp => hno ⟨rfl, Or.inl hp⟩)
          (fun hp => hno ⟨rfl, Or.inr hp⟩) hy'), ?_⟩
        intro q hq
        apply replace_keeps hta h _ (State.find_owns hS ha hu hq)
        · rintro rfl
          exact hapart.left rfl hq
        · intro hvq
          exact hapart.separate q hvq hq
      · exact hchange.aside hS hj hu

include hS hv in
/-- What happens inside a val leaves it where it is. -/
theorem State.inside_found (h : layout.Turns S.heap H [v] [v]) :
    (S.withHeap H).find i path = some (x, v) ∧ Touches i path S (S.withHeap H) := by
  have hload : (S.withHeap H).load x = some v := by
    apply State.load_withHeap (State.find_load hv)
    intro p hp
    obtain ⟨b, hb, hne⟩ := State.holder_of_load (State.find_load hv) hp
    obtain ⟨a, -, ha, -, -⟩ := State.find_eq hv
    rw [hb]
    apply h.keeps hb hne
    intro d hd
    rw [List.mem_singleton.mp hd]
    exact (State.find_holder hS ha hv hp).2
  have hfound := State.store_found hS hv h
  rw [State.store_self hload] at hfound
  exact hfound

end Found

end Libacorn.ValHeap
