import Mathlib.Tactic.Common
import Mathlib.Data.List.Perm.Basic
import Mathlib.Logic.Function.Basic
import Libacorn.Support.Scan

/-!
# Slots that own blocks

A heap of blocks; a slot owns at most one block, and a block is made of slots.
Shared blocks are owned by nobody. `Tree H s` says that what `s` owns is a tree:
every block is reached once. `Turns H H' l l'` says that a piece of code that had
the slots `l` has the slots `l'` now, that what they own was owned before or is
new, that what is not owned any more was freed, and that all other blocks were left
alone, up to shared ones. Its rules are the frame rule, composition, and one rule for
each way to build a block, open it or change its slots.
-/

namespace Libacorn.Support

/-- The live blocks by address; addresses from `next` on are unused, and so is 0. -/
structure BlockHeap (β : Type) where
  blocks : Nat → Option β
  next : Nat

namespace BlockHeap

variable {β : Type}

def put (H : BlockHeap β) (p : Nat) (b : β) : BlockHeap β :=
  { H with blocks := Function.update H.blocks p (some b) }

def free (H : BlockHeap β) (p : Nat) : BlockHeap β :=
  { H with blocks := Function.update H.blocks p none }

/-- A new block; its address is `H.next`. -/
def alloc (H : BlockHeap β) (b : β) : BlockHeap β :=
  { blocks := Function.update H.blocks H.next (some b), next := H.next + 1 }

structure Bounded (H : BlockHeap β) : Prop where
  pos : 0 < H.next
  unused : ∀ p, H.next ≤ p → H.blocks p = none

theorem Bounded.lt {H : BlockHeap β} (h : H.Bounded) {p : Nat} {b : β} (hp : H.blocks p = some b) :
    p < H.next := by
  by_contra hlt
  rw [h.unused p (Nat.le_of_not_lt hlt)] at hp
  cases hp

theorem Bounded.update {H : BlockHeap β} (h : H.Bounded) {p : Nat} (hp : p < H.next)
    (x : Option β) :
    BlockHeap.Bounded { H with blocks := Function.update H.blocks p x } := by
  refine ⟨h.pos, ?_⟩
  intro q hq
  have hne : q ≠ p := by
    intro e
    rw [e] at hq
    exact Nat.not_lt.mpr hq hp
  exact (Function.update_of_ne hne _ _).trans (h.unused q hq)

theorem Bounded.alloc {H : BlockHeap β} (h : H.Bounded) (b : β) : (H.alloc b).Bounded := by
  refine ⟨Nat.succ_pos _, ?_⟩
  intro q hq
  have hq' : H.next + 1 ≤ q := hq
  exact (Function.update_of_ne (by omega) _ _).trans (h.unused q (by omega))

/-- Only new blocks were added. -/
structure Extends (H H' : BlockHeap β) : Prop where
  next_le : H.next ≤ H'.next
  blocks_eq : ∀ q, q < H.next → H'.blocks q = H.blocks q

theorem Extends.refl (H : BlockHeap β) : H.Extends H := ⟨Nat.le_refl _, fun _ _ => rfl⟩

theorem Extends.trans {H H₁ H₂ : BlockHeap β} (h : H.Extends H₁) (h' : H₁.Extends H₂) :
    H.Extends H₂ where
  next_le := Nat.le_trans h.next_le h'.next_le
  blocks_eq q hq := (h'.blocks_eq q (Nat.lt_of_lt_of_le hq h.next_le)).trans (h.blocks_eq q hq)

theorem Extends.alloc (H : BlockHeap β) (b : β) : H.Extends (H.alloc b) where
  next_le := Nat.le_succ _
  blocks_eq _ hq := Function.update_of_ne (Nat.ne_of_lt hq) _ _

end BlockHeap

/-- Which block a slot owns and which blocks fit it, the slots of a block, and the
blocks that are shared. -/
structure Layout (σ β : Type) where
  ptr : σ → Option Nat
  fits : σ → β → Prop
  children : β → List σ
  shared : β → Prop
  not_shared : ∀ {s b}, fits s b → ¬shared b

namespace Layout

variable {σ β : Type} (L : Layout σ β)

/-- The slot owns the block at this address, directly or through its slots. -/
inductive Owns (H : BlockHeap β) : σ → Nat → Prop
  | here {s : σ} {p : Nat} (hp : L.ptr s = some p) : Owns H s p
  | inside {s c : σ} {p q : Nat} {b : β} (hp : L.ptr s = some p) (hb : H.blocks p = some b)
      (hc : c ∈ L.children b) (h : Owns H c q) : Owns H s q

/-- No block is owned by both. -/
def Separate (H : BlockHeap β) (c d : σ) : Prop := ∀ q, L.Owns H c q → ¬L.Owns H d q

/-- Every block below the slot is live, fits its slot and is reached once. -/
inductive Tree (H : BlockHeap β) : σ → Prop
  | leaf {s : σ} (hp : L.ptr s = none) : Tree H s
  | node {s : σ} {p : Nat} {b : β} (hp : L.ptr s = some p) (hb : H.blocks p = some b)
      (hfits : L.fits s b) (hc : ∀ c ∈ L.children b, Tree H c)
      (hout : ∀ c ∈ L.children b, ¬L.Owns H c p) (hsep : (L.children b).Pairwise (L.Separate H)) :
      Tree H s

/-- `t` is `s` or a slot below it. -/
inductive Inside (H : BlockHeap β) : σ → σ → Prop
  | self (s : σ) : Inside H s s
  | child {s c t : σ} {p : Nat} {b : β} (hp : L.ptr s = some p) (hb : H.blocks p = some b)
      (hc : c ∈ L.children b) (h : Inside H c t) : Inside H s t

/-- Less than `n` blocks follow each other below the slot. -/
def Low (H : BlockHeap β) : Nat → σ → Prop
  | 0, _ => False
  | n + 1, s => ∀ p b, L.ptr s = some p → H.blocks p = some b → ∀ c ∈ L.children b, Low H n c

/-- The slot at a path below `s`, and the block and the index where it stands; `x` is
where `s` stands. -/
def walk (H : BlockHeap β) :
    Option (Nat × Nat) → σ → List Nat → Option (Option (Nat × Nat) × σ)
  | x, s, [] => some (x, s)
  | _, s, k :: path => (L.ptr s).bind fun p => (H.blocks p).bind fun b =>
    ((L.children b)[k]?).bind fun c => walk H (some (p, k)) c path

/-- Slots in different places, neither of them inside the other. -/
structure Apart (H : BlockHeap β) (x : Option (Nat × Nat)) (s : σ) (y : Option (Nat × Nat))
  (t : σ) :
    Prop where
  ne : x ≠ y
  separate : L.Separate H s t
  left : ∀ {p k}, x = some (p, k) → ¬L.Owns H t p
  right : ∀ {p k}, y = some (p, k) → ¬L.Owns H s p

/-- Trees that are pairwise separate. -/
structure Forest (H : BlockHeap β) (l : List σ) : Prop where
  tree : ∀ c ∈ l, L.Tree H c
  separate : l.Pairwise (L.Separate H)

/-- The block is as it was, or it is shared and still is, if it is live. -/
def Same (H H' : BlockHeap β) (q : Nat) : Prop :=
  H'.blocks q = H.blocks q ∨
    ∃ b, H.blocks q = some b ∧ L.shared b ∧ ∀ b', H'.blocks q = some b' → L.shared b'

/-- The slots `l` of the heap `H` turn into the slots `l'` of the heap `H'`. -/
structure Turns (H H' : BlockHeap β) (l l' : List σ) : Prop where
  source_bounded : H.Bounded
  source : L.Forest H l
  next_le : H.next ≤ H'.next
  bounded : H'.Bounded
  forest : L.Forest H' l'
  owned : ∀ c ∈ l', ∀ q, L.Owns H' c q → (∃ d ∈ l, L.Owns H d q) ∨ H.next ≤ q
  freed : ∀ d ∈ l, ∀ q, L.Owns H d q → (∃ c ∈ l', L.Owns H' c q) ∨ H'.blocks q = none
  frame : ∀ q, q < H.next → (∀ d ∈ l, ¬L.Owns H d q) → L.Same H H' q

variable {L}

theorem perm_cons_eraseIdx {l : List σ} {k : Nat} {c : σ} (h : l[k]? = some c) :
    l.Perm ([c] ++ l.eraseIdx k) := by
  obtain ⟨hlt, rfl⟩ := List.getElem?_eq_some_iff.mp h
  exact (List.getElem_cons_eraseIdx_perm hlt).symm

/-! ## Ownership -/

theorem Owns.ptr {H : BlockHeap β} {s : σ} {q : Nat} (h : L.Owns H s q) :
    ∃ p, L.ptr s = some p := by
  cases h with
  | here hp => exact ⟨_, hp⟩
  | inside hp _ _ _ => exact ⟨_, hp⟩

theorem not_owns_of_leaf {H : BlockHeap β} {s : σ} (hs : L.ptr s = none) (q : Nat) :
    ¬L.Owns H s q := by
  intro h
  obtain ⟨p, hp⟩ := h.ptr
  rw [hs] at hp
  cases hp

theorem owns_iff {H : BlockHeap β} {s : σ} {p q : Nat} {b : β} (hp : L.ptr s = some p)
    (hb : H.blocks p = some b) : L.Owns H s q ↔ q = p ∨ ∃ c ∈ L.children b, L.Owns H c q := by
  constructor
  · intro h
    cases h with
    | here hp' =>
      rw [hp] at hp'
      exact Or.inl (Option.some.inj hp').symm
    | inside hp' hb' hc h =>
      rw [hp] at hp'
      obtain rfl := Option.some.inj hp'
      rw [hb] at hb'
      obtain rfl := Option.some.inj hb'
      exact Or.inr ⟨_, hc, h⟩
  · rintro (rfl | ⟨c, hc, h⟩)
    · exact .here hp
    · exact .inside hp hb hc h

theorem Separate.symm {H : BlockHeap β} {c d : σ} (h : L.Separate H c d) : L.Separate H d c := by
  intro q hd hc
  exact h q hc hd

/-- What a tree owns is live and not shared. -/
theorem Tree.live {H : BlockHeap β} {s : σ} (h : L.Tree H s) {q : Nat} (hq : L.Owns H s q) :
    ∃ b, H.blocks q = some b ∧ ¬L.shared b := by
  induction h with
  | leaf hp => exact (not_owns_of_leaf hp q hq).elim
  | node hp hb hfits _ _ _ ih =>
    rcases (owns_iff hp hb).mp hq with rfl | ⟨c, hc, hq⟩
    · exact ⟨_, hb, L.not_shared hfits⟩
    · exact ih c hc hq

theorem Tree.lt {H : BlockHeap β} (hH : H.Bounded) {s : σ} (h : L.Tree H s) {q : Nat}
    (hq : L.Owns H s q) : q < H.next := by
  obtain ⟨b, hb, -⟩ := h.live hq
  exact hH.lt hb

/-- A tree only depends on the blocks it owns. -/
theorem Tree.congr {H H' : BlockHeap β} {s : σ} (h : L.Tree H s)
    (hm : ∀ q, L.Owns H s q → H'.blocks q = H.blocks q) :
    L.Tree H' s ∧ ∀ q, L.Owns H' s q ↔ L.Owns H s q := by
  induction h with
  | leaf hp =>
    refine ⟨.leaf hp, ?_⟩
    intro q
    exact iff_of_false (not_owns_of_leaf hp q) (not_owns_of_leaf hp q)
  | @node s p b hp hb hfits hc hout hsep ih =>
    have hb' : H'.blocks p = some b := (hm p (.here hp)).trans hb
    have hchild := fun c hc => ih c hc fun q hq => hm q (.inside hp hb hc hq)
    have hiff : ∀ q, L.Owns H' s q ↔ L.Owns H s q := by
      intro q
      rw [owns_iff hp hb', owns_iff hp hb]
      apply or_congr_right
      constructor
      · rintro ⟨c, hc, h⟩
        exact ⟨c, hc, ((hchild c hc).2 q).mp h⟩
      · rintro ⟨c, hc, h⟩
        exact ⟨c, hc, ((hchild c hc).2 q).mpr h⟩
    refine ⟨.node hp hb' hfits (fun c hc => (hchild c hc).1) ?_ ?_, hiff⟩
    · intro c hc h
      exact hout c hc (((hchild c hc).2 p).mp h)
    · apply hsep.imp_of_mem
      intro c d hc hd hcd q hq hq'
      exact hcd q (((hchild c hc).2 q).mp hq) (((hchild d hd).2 q).mp hq')

theorem Tree.children {H : BlockHeap β} {s : σ} (h : L.Tree H s) {p : Nat} {b : β}
    (hp : L.ptr s = some p) (hb : H.blocks p = some b) :
    L.fits s b ∧ L.Forest H (L.children b) ∧ ∀ c ∈ L.children b, ¬L.Owns H c p := by
  cases h with
  | leaf hp' =>
    rw [hp] at hp'
    cases hp'
  | node hp' hb' hfits hc hout hsep =>
    rw [hp] at hp'
    obtain rfl := Option.some.inj hp'
    rw [hb] at hb'
    obtain rfl := Option.some.inj hb'
    exact ⟨hfits, ⟨hc, hsep⟩, hout⟩

theorem Tree.inside_iff {H H' : BlockHeap β} {s : σ} (h : L.Tree H s)
    (hm : ∀ q, L.Owns H s q → H'.blocks q = H.blocks q) (t : σ) :
    L.Inside H' s t ↔ L.Inside H s t := by
  induction h with
  | leaf hp =>
    constructor
    · intro h
      cases h with
      | self => exact .self _
      | child hp' _ _ _ =>
        rw [hp] at hp'
        cases hp'
    · intro h
      cases h with
      | self => exact .self _
      | child hp' _ _ _ =>
        rw [hp] at hp'
        cases hp'
  | @node s p b hp hb _ _ _ _ ih =>
    have hb' : H'.blocks p = some b := (hm p (.here hp)).trans hb
    have hchild := fun c hc => ih c hc fun q hq => hm q (.inside hp hb hc hq)
    constructor
    · intro h
      cases h with
      | self => exact .self _
      | child hp' hb'' hc h =>
        rw [hp] at hp'
        cases hp'
        rw [hb'] at hb''
        cases hb''
        exact .child hp hb hc ((hchild _ hc).mp h)
    · intro h
      cases h with
      | self => exact .self _
      | child hp' hb'' hc h =>
        rw [hp] at hp'
        cases hp'
        rw [hb] at hb''
        cases hb''
        exact .child hp hb' hc ((hchild _ hc).mpr h)

theorem Tree.low_of_agree {H H' : BlockHeap β} {s : σ} (h : L.Tree H s)
    (hm : ∀ q, L.Owns H s q → H'.blocks q = H.blocks q) {n : Nat} (hn : L.Low H n s) :
    L.Low H' n s := by
  induction n generalizing s with
  | zero => exact hn.elim
  | succ n ih =>
    intro p b hp hb c hc
    have hb' : H.blocks p = some b := (hm p (.here hp)).symm.trans hb
    have hchild := (h.children hp hb').2.1.tree c hc
    exact ih hchild (fun q hq => hm q (.inside hp hb' hc hq)) (hn p b hp hb' c hc)

theorem Low.mono {H : BlockHeap β} {n m : Nat} (hnm : n ≤ m) {s : σ} (h : L.Low H n s) :
    L.Low H m s := by
  induction n generalizing m s with
  | zero => exact h.elim
  | succ n ih =>
    obtain ⟨m, rfl⟩ := Nat.exists_eq_add_of_le' (Nat.lt_of_lt_of_le (Nat.succ_pos n) hnm)
    intro p b hp hb c hc
    exact ih (by omega) (h p b hp hb c hc)

/-- A tree is finite. -/
theorem Tree.exists_low {H : BlockHeap β} {s : σ} (h : L.Tree H s) : ∃ n, L.Low H n s := by
  induction h with
  | leaf hp =>
    refine ⟨1, ?_⟩
    intro p b hp'
    rw [hp] at hp'
    cases hp'
  | node hp hb _ _ _ _ ih =>
    obtain ⟨n, hn⟩ := exists_bound (P := L.Low _) (fun hnm hlow => hlow.mono hnm) ih
    refine ⟨n + 1, ?_⟩
    intro p' b' hp' hb' c hc
    rw [hp] at hp'
    cases hp'
    rw [hb] at hb'
    cases hb'
    exact hn c hc

theorem Same.refl (H : BlockHeap β) (q : Nat) : L.Same H H q := Or.inl rfl

theorem Same.trans {H H₁ H₂ : BlockHeap β} {q : Nat} (h : L.Same H H₁ q) (h' : L.Same H₁ H₂ q) :
    L.Same H H₂ q := by
  rcases h with h | ⟨b, hb, hs, hall⟩
  · rcases h' with h' | ⟨b, hb, hs, hall⟩
    · exact Or.inl (h'.trans h)
    · exact Or.inr ⟨b, h ▸ hb, hs, hall⟩
  · right
    refine ⟨b, hb, hs, ?_⟩
    rcases h' with h' | ⟨_, _, _, hall'⟩
    · intro b' hb'
      exact hall b' (h' ▸ hb')
    · exact hall'

/-- A tree whose blocks are the same up to shared ones is the same tree. -/
theorem Tree.same {H H' : BlockHeap β} {s : σ} (h : L.Tree H s)
    (hm : ∀ q, L.Owns H s q → L.Same H H' q) :
    L.Tree H' s ∧ (∀ q, L.Owns H' s q ↔ L.Owns H s q) ∧
      ∀ q, L.Owns H s q → H'.blocks q = H.blocks q := by
  have heq : ∀ q, L.Owns H s q → H'.blocks q = H.blocks q := by
    intro q hq
    obtain ⟨b, hb, hns⟩ := h.live hq
    rcases hm q hq with h' | ⟨b', hb', hs, -⟩
    · exact h'
    · rw [hb] at hb'
      cases hb'
      exact (hns hs).elim
  obtain ⟨ht, ho⟩ := h.congr heq
  exact ⟨ht, ho, heq⟩

/-! ## Paths -/

theorem Forest.separate_of_ne {H : BlockHeap β} {l : List σ} (h : L.Forest H l) {i j : Nat}
    {c d : σ} (hc : l[i]? = some c) (hd : l[j]? = some d) (hij : i ≠ j) : L.Separate H c d := by
  obtain ⟨hi, rfl⟩ := List.getElem?_eq_some_iff.mp hc
  obtain ⟨hj, rfl⟩ := List.getElem?_eq_some_iff.mp hd
  have hpair := List.pairwise_iff_getElem.mp h.separate
  rcases Nat.lt_or_gt_of_ne hij with hlt | hlt
  · exact hpair i j hi hj hlt
  · exact (hpair j i hj hi hlt).symm

theorem walk_cons {H : BlockHeap β} {x : Option (Nat × Nat)} {s : σ} {k : Nat} {path : List Nat}
    {r : Option (Nat × Nat) × σ} (h : L.walk H x s (k :: path) = some r) :
    ∃ p b c, L.ptr s = some p ∧ H.blocks p = some b ∧ (L.children b)[k]? = some c ∧
      L.walk H (some (p, k)) c path = some r := by
  obtain ⟨p, hp, h⟩ := Option.bind_eq_some_iff.mp h
  obtain ⟨b, hb, h⟩ := Option.bind_eq_some_iff.mp h
  obtain ⟨c, hc, h⟩ := Option.bind_eq_some_iff.mp h
  exact ⟨p, b, c, hp, hb, hc, h⟩

theorem walk_step {H : BlockHeap β} {s c : σ} {p k : Nat} {b : β} (hp : L.ptr s = some p)
    (hb : H.blocks p = some b) (hc : (L.children b)[k]? = some c) (x : Option (Nat × Nat))
    (path : List Nat) : L.walk H x s (k :: path) = L.walk H (some (p, k)) c path := by
  simp only [walk, hp, hb, hc, Option.bind_some]

theorem walk_append (H : BlockHeap β) (x : Option (Nat × Nat)) (s : σ) (path rest : List Nat) :
    L.walk H x s (path ++ rest) = (L.walk H x s path).bind fun r => L.walk H r.1 r.2 rest := by
  induction path generalizing x s with
  | nil => rfl
  | cons k path ih =>
    simp only [List.cons_append, walk, ih, Option.bind_assoc]

/-- The last step of a path. -/
theorem walk_last {H : BlockHeap β} {x y : Option (Nat × Nat)} {s t : σ} {path : List Nat}
    (h : L.walk H x s path = some (y, t)) (hne : path ≠ []) :
    ∃ init k y' u p b, path = init ++ [k] ∧ L.walk H x s init = some (y', u) ∧
      L.ptr u = some p ∧ H.blocks p = some b ∧ (L.children b)[k]? = some t ∧ y = some (p, k) := by
  obtain ⟨init, k, rfl⟩ := (List.eq_nil_or_concat path).resolve_left hne
  rw [List.concat_eq_append, walk_append] at h
  obtain ⟨⟨y', u⟩, hu, h⟩ := Option.bind_eq_some_iff.mp h
  obtain ⟨p, b, c, hp, hb, hc, h⟩ := walk_cons h
  cases h
  exact ⟨init, k, y', u, p, b, List.concat_eq_append, hu, hp, hb, hc, rfl⟩

theorem Tree.walk {H : BlockHeap β} {x y : Option (Nat × Nat)} {s t : σ} (hs : L.Tree H s)
    {path : List Nat} (h : L.walk H x s path = some (y, t)) :
    L.Tree H t ∧ ∀ q, L.Owns H t q → L.Owns H s q := by
  induction path generalizing x s with
  | nil =>
    cases h
    exact ⟨hs, fun _ hq => hq⟩
  | cons k path ih =>
    obtain ⟨p, b, c, hp, hb, hc, h⟩ := walk_cons h
    have hmem := List.mem_of_getElem? hc
    obtain ⟨ht, hown⟩ := ih ((hs.children hp hb).2.1.tree c hmem) h
    refine ⟨ht, ?_⟩
    intro q hq
    exact .inside hp hb hmem (hown q hq)

/-- The block where a slot stands belongs to the upper slot, and not to the slot. -/
theorem Tree.walk_holder {H : BlockHeap β} {x y : Option (Nat × Nat)} {s t : σ} (hs : L.Tree H s)
    {path : List Nat} (h : L.walk H x s path = some (y, t)) (hne : path ≠ []) :
    ∃ p k, y = some (p, k) ∧ L.Owns H s p ∧ ¬L.Owns H t p := by
  obtain ⟨init, k, y', u, p, b, -, hu, hp, hb, hc, rfl⟩ := walk_last h hne
  obtain ⟨htree, hown⟩ := hs.walk hu
  exact ⟨p, k, rfl, hown p (.here hp), (htree.children hp hb).2.2 t (List.mem_of_getElem? hc)⟩

/-- A path only depends on the blocks on the way. -/
theorem Tree.walk_congr {H H' : BlockHeap β} {x y : Option (Nat × Nat)} {s t : σ} (hs : L.Tree H s)
    {path : List Nat} (h : L.walk H x s path = some (y, t))
    (hm : ∀ q, L.Owns H s q → ¬L.Owns H t q → H'.blocks q = H.blocks q) :
    L.walk H' x s path = some (y, t) := by
  induction path generalizing x s with
  | nil => exact h
  | cons k path ih =>
    obtain ⟨p, b, c, hp, hb, hc, h⟩ := walk_cons h
    have hmem := List.mem_of_getElem? hc
    obtain ⟨-, hforest, hout⟩ := hs.children hp hb
    have hb' : H'.blocks p = some b := by
      refine (hm p (.here hp) ?_).trans hb
      intro hq
      exact hout c hmem (((hforest.tree c hmem).walk h).2 p hq)
    rw [walk_step hp hb' hc]
    apply ih (hforest.tree c hmem) h
    intro q hq hnot
    exact hm q (.inside hp hb hmem hq) hnot

/-- Where a slot stands: where the upper slot does, or in a block of it. -/
theorem Tree.walk_place {H : BlockHeap β} {p k : Nat} {y : Option (Nat × Nat)} {s t : σ}
    (hs : L.Tree H s) {path : List Nat} (h : L.walk H (some (p, k)) s path = some (y, t)) :
    y = some (p, k) ∨ ∃ p' k', y = some (p', k') ∧ L.Owns H s p' := by
  by_cases hne : path = []
  · subst hne
    cases h
    exact Or.inl rfl
  · obtain ⟨p', k', hy, hown, -⟩ := hs.walk_holder h hne
    exact Or.inr ⟨p', k', hy, hown⟩

/-- The way to a slot that no change touches: the block where another slot stands may
have that one replaced. -/
theorem Tree.walk_aside {H H' : BlockHeap β} {s : σ} (hs : L.Tree H s)
    {x z : Option (Nat × Nat)} {t u : σ} {path rest : List Nat} {p k : Nat}
    (ht : L.walk H x s path = some (some (p, k), t)) (hne : path ≠ [])
    (hu : L.walk H x s rest = some (z, u)) (hpath : ¬path <+: rest) (hrest : ¬rest <+: path)
    (hm : ∀ q, L.Owns H s q → q ≠ p → ¬L.Owns H t q → H'.blocks q = H.blocks q)
    (hp : ∀ {b}, H.blocks p = some b → ∃ b', H'.blocks p = some b' ∧
      ∀ l, l ≠ k → (L.children b')[l]? = (L.children b)[l]?) :
    L.walk H' x s rest = some (z, u) := by
  induction path generalizing x s rest with
  | nil => exact (hne rfl).elim
  | cons i path ih =>
    cases rest with
    | nil => exact (hrest List.nil_prefix).elim
    | cons j rest =>
      obtain ⟨p₀, b₀, c, hp₀, hb₀, hc, ht⟩ := walk_cons ht
      obtain ⟨p₁, b₁, d, hp₁, hb₁, hd, hu⟩ := walk_cons hu
      cases hp₀.symm.trans hp₁
      cases hb₀.symm.trans hb₁
      obtain ⟨-, hforest, hout⟩ := hs.children hp₀ hb₀
      have hmc := List.mem_of_getElem? hc
      have hmd := List.mem_of_getElem? hd
      obtain ⟨-, howntc⟩ := (hforest.tree c hmc).walk ht
      have htp₀ : ¬L.Owns H t p₀ := fun h => hout c hmc (howntc _ h)
      by_cases hij : i = j
      · subst hij
        cases hc.symm.trans hd
        have hpath' : path ≠ [] := by
          rintro rfl
          exact hpath (List.cons_prefix_cons.mpr ⟨rfl, List.nil_prefix⟩)
        obtain ⟨p', k', heq, hown, -⟩ := (hforest.tree c hmc).walk_holder ht hpath'
        cases heq
        have hp₀p : p₀ ≠ p := by
          rintro rfl
          exact hout c hmc hown
        rw [walk_step hp₀ ((hm p₀ (.here hp₀) hp₀p htp₀).trans hb₀) hc]
        apply ih (hforest.tree c hmc) ht hpath' hu
        · intro h
          exact hpath (List.cons_prefix_cons.mpr ⟨rfl, h⟩)
        · intro h
          exact hrest (List.cons_prefix_cons.mpr ⟨rfl, h⟩)
        · intro q hq
          exact hm q (.inside hp₀ hb₀ hmc hq)
      · have hsep : L.Separate H c d := hforest.separate_of_ne hc hd hij
        -- below this block nothing has changed
        have hbelow : p = p₀ ∨ L.Owns H c p → L.walk H' (some (p₀, j)) d rest = some (z, u) := by
          intro hor
          apply (hforest.tree d hmd).walk_congr hu
          intro q hq _
          apply hm q (.inside hp₀ hb₀ hmd hq)
          · rintro rfl
            rcases hor with rfl | hcp
            · exact hout d hmd hq
            · exact hsep q hcp hq
          · intro h
            exact hsep q (howntc q h) hq
        rcases (hforest.tree c hmc).walk_place ht with heq | ⟨p', k', heq, hown⟩
        · cases heq
          obtain ⟨b', hb', hsame⟩ := hp hb₀
          rw [walk_step hp₀ hb' ((hsame j (Ne.symm hij)).trans hd)]
          exact hbelow (Or.inl rfl)
        · cases heq
          have hp₀p : p₀ ≠ p := by
            rintro rfl
            exact hout c hmc hown
          rw [walk_step hp₀ ((hm p₀ (.here hp₀) hp₀p htp₀).trans hb₀) hd]
          exact hbelow (Or.inr hown)

theorem Inside.exists_walk {H : BlockHeap β} {s t : σ} (h : L.Inside H s t)
    (x : Option (Nat × Nat)) : ∃ path y, L.walk H x s path = some (y, t) := by
  induction h generalizing x with
  | self s => exact ⟨[], x, rfl⟩
  | @child s c t p b hp hb hc _ ih =>
    obtain ⟨k, hk⟩ := List.mem_iff_getElem?.mp hc
    obtain ⟨path, y, hpath⟩ := ih (some (p, k))
    exact ⟨k :: path, y, (walk_step hp hb hk x path).trans hpath⟩

/-- Paths of which none continues the other. -/
theorem Tree.walk_apart {H : BlockHeap β} {s : σ} (hs : L.Tree H s)
    {x y z : Option (Nat × Nat)} {t u : σ} {path rest : List Nat}
    (ht : L.walk H x s path = some (y, t)) (hu : L.walk H x s rest = some (z, u))
    (hpath : ¬path <+: rest) (hrest : ¬rest <+: path) : L.Apart H y t z u := by
  induction path generalizing x s rest with
  | nil => exact (hpath List.nil_prefix).elim
  | cons k path ih =>
    cases rest with
    | nil => exact (hrest List.nil_prefix).elim
    | cons l rest =>
      obtain ⟨p, b, c, hp, hb, hc, ht⟩ := walk_cons ht
      obtain ⟨p', b', d, hp', hb', hd, hu⟩ := walk_cons hu
      cases hp.symm.trans hp'
      cases hb.symm.trans hb'
      obtain ⟨-, hforest, hout⟩ := hs.children hp hb
      have hmc := List.mem_of_getElem? hc
      have hmd := List.mem_of_getElem? hd
      by_cases hkl : k = l
      · subst hkl
        cases hc.symm.trans hd
        apply ih (hforest.tree c hmc) ht hu
        · intro h
          exact hpath (List.cons_prefix_cons.mpr ⟨rfl, h⟩)
        · intro h
          exact hrest (List.cons_prefix_cons.mpr ⟨rfl, h⟩)
      · -- they part here
        have hsep : L.Separate H c d := hforest.separate_of_ne hc hd hkl
        obtain ⟨-, howntc⟩ := (hforest.tree c hmc).walk ht
        obtain ⟨-, hownud⟩ := (hforest.tree d hmd).walk hu
        have hplace := (hforest.tree c hmc).walk_place ht
        have hplace' := (hforest.tree d hmd).walk_place hu
        have hleft : ∀ {p' k'}, y = some (p', k') → ¬L.Owns H d p' := by
          rintro p' k' rfl hq
          rcases hplace with hy | ⟨_, _, hy, hcq⟩
          · cases hy
            exact hout d hmd hq
          · cases hy
            exact hsep p' hcq hq
        have hright : ∀ {p' k'}, z = some (p', k') → ¬L.Owns H c p' := by
          rintro p' k' rfl hq
          rcases hplace' with hz | ⟨_, _, hz, hdq⟩
          · cases hz
            exact hout c hmc hq
          · cases hz
            exact hsep p' hq hdq
        refine ⟨?_, ?_, fun hy hq => hleft hy (hownud _ hq), fun hz hq => hright hz (howntc _ hq)⟩
        · rintro rfl
          rcases hplace with hy | ⟨_, _, hy, hcq⟩
          · rcases hplace' with hz | ⟨_, _, hz, hdq⟩
            · cases hy.symm.trans hz
              exact hkl rfl
            · exact hleft hz hdq
          · exact hright hy hcq
        · intro q hq hq'
          exact hsep q (howntc q hq) (hownud q hq')

/-! ## Forests -/

theorem Forest.perm {H : BlockHeap β} {l l' : List σ} (h : L.Forest H l) (hp : l.Perm l') :
    L.Forest H l' where
  tree c hc := h.tree c (hp.mem_iff.mpr hc)
  separate := hp.pairwise h.separate fun h => Separate.symm h

theorem forest_nil (H : BlockHeap β) : L.Forest H [] := ⟨nofun, .nil⟩

theorem forest_singleton {H : BlockHeap β} {s : σ} : L.Forest H [s] ↔ L.Tree H s := by
  constructor
  · intro h
    exact h.tree s (List.mem_singleton_self s)
  · intro h
    refine ⟨?_, List.pairwise_singleton _ _⟩
    intro c hc
    rw [List.mem_singleton.mp hc]
    exact h

theorem Forest.right {H : BlockHeap β} {l r : List σ} (h : L.Forest H (l ++ r)) : L.Forest H r where
  tree c hc := h.tree c (List.mem_append_right l hc)
  separate := (List.pairwise_append.mp h.separate).2.1

/-! ## Rules -/

theorem Turns.refl {H : BlockHeap β} (hH : H.Bounded) {l : List σ} (hf : L.Forest H l) :
    L.Turns H H l l where
  source_bounded := hH
  source := hf
  next_le := Nat.le_refl _
  bounded := hH
  forest := hf
  owned c hc _ hq := Or.inl ⟨c, hc, hq⟩
  freed c hc _ hq := Or.inl ⟨c, hc, hq⟩
  frame q _ _ := Same.refl H q

/-- A block that was free stays free, if its address was in use. -/
theorem Turns.stays_free {H H' : BlockHeap β} {l l' : List σ} (h : L.Turns H H' l l') {q : Nat}
    (hq : H.blocks q = none) (hlt : q < H.next) : H'.blocks q = none := by
  have hnot : ∀ d ∈ l, ¬L.Owns H d q := by
    intro d hd hdq
    obtain ⟨b, hb, -⟩ := (h.source.tree d hd).live hdq
    rw [hq] at hb
    cases hb
  rcases h.frame q hlt hnot with h' | ⟨b, hb, -⟩
  · exact h'.trans hq
  · rw [hq] at hb
    cases hb

theorem Turns.trans {H H₁ H₂ : BlockHeap β} {l l₁ l₂ : List σ} (h : L.Turns H H₁ l l₁)
    (h' : L.Turns H₁ H₂ l₁ l₂) : L.Turns H H₂ l l₂ where
  source_bounded := h.source_bounded
  source := h.source
  next_le := Nat.le_trans h.next_le h'.next_le
  bounded := h'.bounded
  forest := h'.forest
  freed := by
    intro d hd q hq
    rcases h.freed d hd q hq with ⟨c, hc, hq⟩ | hnone
    · exact h'.freed c hc q hq
    · right
      apply h'.stays_free hnone
      exact Nat.lt_of_lt_of_le ((h.source.tree d hd).lt h.source_bounded hq) h.next_le
  owned := by
    intro c hc q hq
    rcases h'.owned c hc q hq with ⟨d, hd, hq⟩ | hq
    · exact h.owned d hd q hq
    · exact Or.inr (Nat.le_trans h.next_le hq)
  frame := by
    intro q hlt hq
    apply (h.frame q hlt hq).trans
    apply h'.frame q (Nat.lt_of_lt_of_le hlt h.next_le)
    intro d hd hdq
    rcases h.owned d hd q hdq with ⟨e, he, heq⟩ | hle
    · exact hq e he heq
    · exact Nat.not_lt.mpr hle hlt

/-- A slot that owns nothing may be forgotten. -/
theorem Turns.drop {H H' : BlockHeap β} {s : σ} (hs : L.ptr s = none) {l' : List σ}
    (h : L.Turns H H' [] l') : L.Turns H H' [s] l' where
  source_bounded := h.source_bounded
  source := forest_singleton.mpr (.leaf hs)
  next_le := h.next_le
  bounded := h.bounded
  forest := h.forest
  owned := by
    intro c hc q hq
    rcases h.owned c hc q hq with ⟨d, hd, -⟩ | hq
    · cases hd
    · exact Or.inr hq
  freed := by
    intro d hd q hq
    rw [List.mem_singleton.mp hd] at hq
    exact (not_owns_of_leaf hs q hq).elim
  frame q hlt _ := h.frame q hlt nofun

theorem Turns.perm {H H' : BlockHeap β} {l l' r : List σ} (h : L.Turns H H' l l') (hp : l'.Perm r) :
    L.Turns H H' l r where
  source_bounded := h.source_bounded
  source := h.source
  next_le := h.next_le
  bounded := h.bounded
  forest := h.forest.perm hp
  owned c hc := h.owned c (hp.mem_iff.mpr hc)
  freed := by
    intro d hd q hq
    rcases h.freed d hd q hq with ⟨c, hc, hq⟩ | hnone
    · exact Or.inl ⟨c, hp.mem_iff.mp hc, hq⟩
    · exact Or.inr hnone
  frame := h.frame

/-- A new block that nobody owns. -/
theorem Turns.alloc {H : BlockHeap β} (hH : H.Bounded) (b : β) : L.Turns H (H.alloc b) [] [] where
  source_bounded := hH
  source := forest_nil H
  next_le := Nat.le_succ _
  bounded := hH.alloc b
  forest := forest_nil _
  owned := nofun
  freed := nofun
  frame _ hlt _ := Or.inl (Function.update_of_ne (Nat.ne_of_lt hlt) _ _)

/-- A slot that owns nothing. -/
theorem Turns.leaf {H : BlockHeap β} (hH : H.Bounded) {s : σ} (hs : L.ptr s = none) :
    L.Turns H H [] [s] where
  source_bounded := hH
  source := forest_nil H
  next_le := Nat.le_refl _
  bounded := hH
  forest := forest_singleton.mpr (.leaf hs)
  owned := by
    intro c hc q hq
    rw [List.mem_singleton.mp hc] at hq
    exact (not_owns_of_leaf hs q hq).elim
  freed := nofun
  frame q _ _ := Same.refl H q

/-- A block that none of the slots owns. -/
theorem Turns.keeps {H H' : BlockHeap β} {l l' : List σ} (h : L.Turns H H' l l') {p : Nat} {b : β}
    (hb : H.blocks p = some b) (hs : ¬L.shared b) (hp : ∀ d ∈ l, ¬L.Owns H d p) :
    H'.blocks p = some b := by
  rcases h.frame p (h.source_bounded.lt hb) hp with h' | ⟨b', hb', hs', -⟩
  · exact h'.trans hb
  · rw [hb] at hb'
    cases hb'
    exact (hs hs').elim

/-- What other slots own is not touched. -/
theorem Turns.others {H H' : BlockHeap β} {l l' r : List σ} (h : L.Turns H H' l l')
    (hf : L.Forest H (l ++ r)) {c : σ} (hc : c ∈ r) :
    L.Tree H' c ∧ (∀ q, L.Owns H' c q ↔ L.Owns H c q) ∧
      ∀ q, L.Owns H c q → H'.blocks q = H.blocks q := by
  have htree : L.Tree H c := hf.tree c (List.mem_append_right l hc)
  apply htree.same
  intro q hq
  apply h.frame q (htree.lt h.source_bounded hq)
  intro d hd hdq
  exact (List.pairwise_append.mp hf.separate).2.2 d hd c hc q hdq hq

/-- The frame rule. -/
theorem Turns.context {H H' : BlockHeap β} {l l' r : List σ} (h : L.Turns H H' l l')
    (hf : L.Forest H (l ++ r)) : L.Turns H H' (l ++ r) (l' ++ r) where
  source_bounded := h.source_bounded
  source := hf
  next_le := h.next_le
  bounded := h.bounded
  forest := by
    constructor
    · intro c hc
      rcases List.mem_append.mp hc with hc | hc
      · exact h.forest.tree c hc
      · exact (h.others hf hc).1
    · apply List.pairwise_append.mpr
      refine ⟨h.forest.separate, ?_, ?_⟩
      · apply (List.pairwise_append.mp hf.separate).2.1.imp_of_mem
        intro c d hc hd hcd q hq hq'
        exact hcd q (((h.others hf hc).2.1 q).mp hq) (((h.others hf hd).2.1 q).mp hq')
      · intro c hc d hd q hq hq'
        have hdq := ((h.others hf hd).2.1 q).mp hq'
        rcases h.owned c hc q hq with ⟨e, he, heq⟩ | hle
        · exact (List.pairwise_append.mp hf.separate).2.2 e he d hd q heq hdq
        · exact Nat.not_lt.mpr hle ((hf.tree d (List.mem_append_right l hd)).lt h.source_bounded
            hdq)
  owned := by
    intro c hc q hq
    rcases List.mem_append.mp hc with hc | hc
    · rcases h.owned c hc q hq with ⟨d, hd, hq⟩ | hq
      · exact Or.inl ⟨d, List.mem_append_left r hd, hq⟩
      · exact Or.inr hq
    · exact Or.inl ⟨c, List.mem_append_right l hc, ((h.others hf hc).2.1 q).mp hq⟩
  freed := by
    intro d hd q hq
    rcases List.mem_append.mp hd with hd | hd
    · rcases h.freed d hd q hq with ⟨c, hc, hq⟩ | hnone
      · exact Or.inl ⟨c, List.mem_append_left r hc, hq⟩
      · exact Or.inr hnone
    · exact Or.inl ⟨d, List.mem_append_right l' hd, ((h.others hf hd).2.1 q).mpr hq⟩
  frame q hlt hq := h.frame q hlt fun d hd => hq d (List.mem_append_left r hd)

/-- A new block around slots. -/
theorem Turns.wrap {H : BlockHeap β} (hH : H.Bounded) {b : β} (hf : L.Forest H (L.children b))
    {s : σ} (hs : L.ptr s = some H.next) (hfits : L.fits s b) :
    L.Turns H (H.alloc b) (L.children b) [s] := by
  have hchild : ∀ c ∈ L.children b, L.Tree (H.alloc b) c ∧
      ∀ q, L.Owns (H.alloc b) c q ↔ L.Owns H c q := by
    intro c hc
    apply (hf.tree c hc).congr
    intro q hq
    exact Function.update_of_ne (Nat.ne_of_lt ((hf.tree c hc).lt hH hq)) _ _
  have hb : (H.alloc b).blocks H.next = some b := Function.update_self ..
  have hbound := hH.alloc b
  refine ⟨hH, hf, Nat.le_succ _, hbound, forest_singleton.mpr (.node hs hb hfits ?_ ?_ ?_),
    ?_, ?_, ?_⟩
  · intro c hc
    exact (hchild c hc).1
  · intro c hc h
    exact Nat.lt_irrefl _ ((hf.tree c hc).lt hH (((hchild c hc).2 _).mp h))
  · apply hf.separate.imp_of_mem
    intro c d hc hd hcd q hq hq'
    exact hcd q (((hchild c hc).2 q).mp hq) (((hchild d hd).2 q).mp hq')
  · intro c hc q hq
    rw [List.mem_singleton.mp hc] at hq
    rcases (owns_iff hs hb).mp hq with rfl | ⟨d, hd, hq⟩
    · exact Or.inr (Nat.le_refl _)
    · exact Or.inl ⟨d, hd, ((hchild d hd).2 q).mp hq⟩
  · intro d hd q hq
    exact Or.inl ⟨s, List.mem_singleton_self s, .inside hs hb hd (((hchild d hd).2 q).mpr hq)⟩
  · intro q hlt _
    exact Or.inl (Function.update_of_ne (Nat.ne_of_lt hlt) _ _)

/-- A block is freed, and its slots are left. -/
theorem Turns.unwrap {H : BlockHeap β} (hH : H.Bounded) {s : σ} (ht : L.Tree H s) {p : Nat} {b : β}
    (hp : L.ptr s = some p) (hb : H.blocks p = some b) :
    L.Turns H (H.free p) [s] (L.children b) := by
  obtain ⟨-, hf, hout⟩ := ht.children hp hb
  have hchild : ∀ c ∈ L.children b, L.Tree (H.free p) c ∧
      ∀ q, L.Owns (H.free p) c q ↔ L.Owns H c q := by
    intro c hc
    apply (hf.tree c hc).congr
    intro q hq
    apply Function.update_of_ne
    rintro rfl
    exact hout c hc hq
  refine ⟨hH, forest_singleton.mpr ht, Nat.le_refl _, hH.update (hH.lt hb) none,
    ⟨fun c hc => (hchild c hc).1, ?_⟩, ?_, ?_, ?_⟩
  · apply hf.separate.imp_of_mem
    intro c d hc hd hcd q hq hq'
    exact hcd q (((hchild c hc).2 q).mp hq) (((hchild d hd).2 q).mp hq')
  · intro c hc q hq
    exact Or.inl ⟨s, List.mem_singleton_self s, .inside hp hb hc (((hchild c hc).2 q).mp hq)⟩
  · intro d hd q hq
    rw [List.mem_singleton.mp hd] at hq
    rcases (owns_iff hp hb).mp hq with rfl | ⟨c, hc, hq⟩
    · exact Or.inr (Function.update_self ..)
    · exact Or.inl ⟨c, hc, ((hchild c hc).2 q).mpr hq⟩
  · intro q _ hq
    left
    apply Function.update_of_ne
    rintro rfl
    exact hq s (List.mem_singleton_self s) (.here hp)

/-- Some slots of a block turn into others, and are stored in it. -/
theorem Turns.splice {H H' : BlockHeap β} {s : σ} (ht : L.Tree H s) {p : Nat}
    {b b' : β} (hp : L.ptr s = some p) (hb : H.blocks p = some b) {l l' r : List σ}
    (hl : (L.children b).Perm (l ++ r)) (h : L.Turns H H' l l') (hfits : L.fits s b')
    (hl' : (L.children b').Perm (l' ++ r)) : L.Turns H (H'.put p b') [s] [s] := by
  obtain ⟨-, hf, hout⟩ := ht.children hp hb
  have hH := h.source_bounded
  have hplt : p < H.next := hH.lt hb
  have hctx := h.context (hf.perm hl)
  have hout' : ∀ c ∈ L.children b', ¬L.Owns H' c p := by
    intro c hc hq
    rcases hctx.owned c (hl'.mem_iff.mp hc) p hq with ⟨d, hd, hq⟩ | hle
    · exact hout d (hl.mem_iff.mpr hd) hq
    · exact Nat.not_lt.mpr hle hplt
  have hf' : L.Forest H' (L.children b') := hctx.forest.perm hl'.symm
  have hchild : ∀ c ∈ L.children b', L.Tree (H'.put p b') c ∧
      ∀ q, L.Owns (H'.put p b') c q ↔ L.Owns H' c q := by
    intro c hc
    apply (hf'.tree c hc).congr
    intro q hq
    apply Function.update_of_ne
    rintro rfl
    exact hout' c hc hq
  have hb' : (H'.put p b').blocks p = some b' := Function.update_self ..
  have hplt' : p < H'.next := Nat.lt_of_lt_of_le hplt h.next_le
  refine ⟨hH, forest_singleton.mpr ht, h.next_le, h.bounded.update hplt' _,
    forest_singleton.mpr (.node hp hb' hfits ?_ ?_ ?_), ?_, ?_, ?_⟩
  · intro c hc
    exact (hchild c hc).1
  · intro c hc hq
    exact hout' c hc (((hchild c hc).2 p).mp hq)
  · apply hf'.separate.imp_of_mem
    intro c d hc hd hcd q hq hq'
    exact hcd q (((hchild c hc).2 q).mp hq) (((hchild d hd).2 q).mp hq')
  · intro c hc q hq
    rw [List.mem_singleton.mp hc] at hq
    rcases (owns_iff hp hb').mp hq with rfl | ⟨d, hd, hq⟩
    · exact Or.inl ⟨s, List.mem_singleton_self s, .here hp⟩
    · rcases hctx.owned d (hl'.mem_iff.mp hd) q (((hchild d hd).2 q).mp hq) with ⟨e, he, hq⟩ | hle
      · exact Or.inl ⟨s, List.mem_singleton_self s, .inside hp hb (hl.mem_iff.mpr he) hq⟩
      · exact Or.inr hle
  · intro d hd q hq
    rw [List.mem_singleton.mp hd] at hq
    rcases (owns_iff hp hb).mp hq with rfl | ⟨e, he, hq⟩
    · exact Or.inl ⟨s, List.mem_singleton_self s, .here hp⟩
    · rcases hctx.freed e (hl.mem_iff.mp he) q hq with ⟨c, hc, hq⟩ | hnone
      · have hc' := hl'.mem_iff.mpr hc
        exact Or.inl ⟨s, List.mem_singleton_self s,
          .inside hp hb' hc' (((hchild c hc').2 q).mpr hq)⟩
      · by_cases hqp : q = p
        · subst hqp
          exact Or.inl ⟨s, List.mem_singleton_self s, .here hp⟩
        · exact Or.inr ((Function.update_of_ne hqp _ _).trans hnone)
  · intro q hlt hq
    have hns := hq s (List.mem_singleton_self s)
    have hne : q ≠ p := by
      rintro rfl
      exact hns (.here hp)
    have hsame : L.Same H H' q := by
      apply h.frame q hlt
      intro d hd hdq
      exact hns (.inside hp hb (hl.mem_iff.mpr (List.mem_append_left r hd)) hdq)
    have hput : (H'.put p b').blocks q = H'.blocks q := Function.update_of_ne hne _ _
    exact hsame.trans (Or.inl hput)

/-- What happens inside a slot at a path happens inside the upper slot. -/
theorem Turns.within {H H' : BlockHeap β} {x y : Option (Nat × Nat)} {s u : σ} (ht : L.Tree H s)
    {path : List Nat} (hw : L.walk H x s path = some (y, u)) (h : L.Turns H H' [u] [u]) :
    L.Turns H H' [s] [s] := by
  induction path generalizing x s with
  | nil =>
    cases hw
    exact h
  | cons k path ih =>
    obtain ⟨p, b, c, hp, hb, hc, hw⟩ := walk_cons hw
    obtain ⟨hfits, hforest, hout⟩ := ht.children hp hb
    have hmem := List.mem_of_getElem? hc
    have hchild := ih (hforest.tree c hmem) hw
    have hb' : H'.blocks p = some b := by
      apply hchild.keeps hb (L.not_shared hfits)
      intro d hd
      rw [List.mem_singleton.mp hd]
      exact hout c hmem
    have hput : H'.put p b = H' := by
      rw [BlockHeap.put, ← hb', Function.update_eq_self]
    have hperm := perm_cons_eraseIdx hc
    have hsplice := Turns.splice ht hp hb hperm hchild hfits hperm
    rw [hput] at hsplice
    exact hsplice

/-- A shared block changes. -/
theorem Turns.ofShared {H : BlockHeap β} (hH : H.Bounded) {p : Nat} {b : β}
    (hb : H.blocks p = some b) (hs : L.shared b) {x : Option β}
    (hx : ∀ b', x = some b' → L.shared b') :
    L.Turns H { H with blocks := Function.update H.blocks p x } [] [] where
  source_bounded := hH
  source := forest_nil H
  next_le := Nat.le_refl _
  bounded := hH.update (hH.lt hb) x
  forest := forest_nil _
  owned := nofun
  freed := nofun
  frame := by
    intro q _ _
    by_cases hq : q = p
    · subst hq
      right
      refine ⟨b, hb, hs, ?_⟩
      intro b' hb'
      have hself : Function.update H.blocks q x q = x := Function.update_self ..
      exact hx b' (hself.symm.trans hb')
    · exact Or.inl (Function.update_of_ne hq _ _)

end Layout

end Libacorn.Support
