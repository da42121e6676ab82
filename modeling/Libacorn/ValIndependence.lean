import Libacorn.ValAssignment
import Libacorn.ValRelease

/-!
# Copies of a val

A copy made by the copy constructor or by `operator=` has blocks of its own, but it
shares the `sp` of every OBJECT inside. `copy_independent_iff` says that later
operations on the source leave the copy as it was exactly when there is none.
-/

namespace Libacorn.ValHeap

open Support

/-! ## The copy -/

/-- The val at `y` is a copy of the one at `x`: a new variable, or a val that was
assigned. -/
def Copies (n : Nat) (x : Ref) (j : Nat) (rest : List Nat) (y : Ref) (S₀ S : State) : Prop :=
  (S₀.vars j = none ∧ rest = [] ∧ y = .var j ∧ S₀.construct n j x = .done S) ∨
    ((S₀.find j rest).map Prod.fst = some y ∧ S₀.assign n y x = .done S)

/-- Whatever is done with the val at `x`, what can be seen of the one at `y` stays. -/
def Independent (builds : Bool) (x y : Ref) (S : State) : Prop :=
  ∀ n ops S', run builds n x ops S = .done (some S') →
    ∀ k, (S'.load y).bind (view k S'.heap) = (S.load y).bind (view k S.heap)

/-- After the copy, the two vals look alike. -/
theorem Copies.alike {n : Nat} {S₀ S : State} (hS₀ : S₀.Good) {i j : Nat} {path rest : List Nat}
    {x y : Ref} {a : Slot} (hx : S₀.find i path = some (x, a)) (hno : ¬Overlap i path j rest)
    (h : Copies n x j rest y S₀ S) :
    S.Good ∧ S.find i path = some (x, a) ∧ ∃ b, S.find j rest = some (y, b) ∧
      ∀ f k, viewWith f S.heap k b = viewWith f S.heap k a := by
  have hta := State.find_tree hS₀ hx
  have hsame : (∀ q, layout.Owns S₀.heap a q → S.heap.blocks q = S₀.heap.blocks q) →
      ∀ f k, viewWith f S.heap k a = viewWith f S₀.heap k a := fun hm f k =>
    viewWith_congr hta hm (fun _ _ _ => rfl) k
  rcases h with ⟨hj, rfl, rfl, hrun⟩ | ⟨hy, hrun⟩
  · have hchange := State.construct_changes hS₀ hj hrun
    have hij : i ≠ j := by
      rintro rfl
      exact hno ⟨rfl, Or.inr List.nil_prefix⟩
    obtain ⟨hx', hm⟩ := hchange.aside hS₀ hij hx
    refine ⟨hchange.good hS₀, hx', ?_⟩
    rw [State.construct, State.find_load hx] at hrun
    obtain ⟨r, hr, hrun⟩ := Outcome.bind_eq_done hrun
    cases hrun
    refine ⟨r.1, State.find_var (Function.update_self ..), ?_⟩
    intro f k
    rw [hsame hm]
    exact copyMember_view hS₀.bounded hta hr f k
  · obtain ⟨⟨y', b₀⟩, hfound, rfl⟩ := Option.map_eq_some_iff.mp hy
    have hno' : ¬Overlap j rest i path := fun h => hno ⟨h.1.symm, h.2.symm⟩
    obtain ⟨-, htouch⟩ := State.assign_touches hS₀ hfound hrun
    obtain ⟨hx', hm⟩ := htouch.aside hno' hx
    obtain ⟨r, b, -, hb, hview, -⟩ := assign_apart_spec hS₀ hfound hx hno' hrun
    refine ⟨htouch.changes.good hS₀, hx', b, hb, ?_⟩
    intro f k
    rw [hview, hsame hm]

section Copy

variable {builds : Bool} {S : State} (hS : S.Good) {i j : Nat} {path rest : List Nat} {x y : Ref}
variable {a b : Slot} (hx : S.find i path = some (x, a)) (hy : S.find j rest = some (y, b))
variable (hno : ¬Overlap i path j rest)

include hS hx hy hno in
/-- The view of the copy after a run on the source, up to the objects. -/
theorem viewWith_run {n : Nat} {ops : List Op} {S' : State}
    (hrun : run builds n x ops S = .done (some S')) (f : Nat → Option CVal) (k : Nat) :
    S'.load y = some b ∧ viewWith f S'.heap k b = viewWith f S.heap k b := by
  obtain ⟨hy', hm⟩ := (run_touches hS hx hrun).aside hno hy
  exact ⟨State.find_load hy', viewWith_congr (State.find_tree hS hy) hm (fun _ _ _ => rfl) k⟩

/-! ## A shared object -/

/-- Vals that look alike whatever their objects show have the same pointers to objects. -/
theorem inside_of_alike {H : Heap} {a b t : Slot} (ha : layout.Tree H a) (hb : layout.Tree H b)
    (halive : Alive H a) (hview : ∀ f k, viewWith f H k b = viewWith f H k a)
    (hti : layout.Inside H a t) (htobj : t.type = .OBJECT) :
    ∃ t', layout.Inside H b t' ∧ t'.type = .OBJECT ∧ t'.word = t.word := by
  by_contra hnone
  have hne : ∀ t', layout.Inside H b t' → t'.type = .OBJECT → t'.word ≠ t.word := by
    intro t' hti' hobj' hword
    exact hnone ⟨t', hti', hobj', hword⟩
  -- hide the object behind this one pointer
  obtain ⟨N, hN⟩ := halive.view_isSome ha
  have hhide : viewWith (Function.update (objectVal H) t.word none) H N b =
      viewWith (objectVal H) H N b := by
    apply viewWith_congr hb (fun _ _ => rfl)
    intro t' hti' hobj'
    exact Function.update_of_ne (hne t' hti' hobj') _ _
  have hsome : (viewWith (objectVal H) H N a).isSome = true := hN N (Nat.le_refl N)
  rw [hview, hview, viewWith_eq_none hti htobj (Function.update_self ..)] at hhide
  rw [← hhide] at hsome
  cases hsome

theorem State.clear_object {n : Nat} {w obj : Nat} (hx : S.load x = some ⟨.OBJECT, w⟩) (hw : w ≠ 0)
    (hobj : S.heap.blocks w = some (.sp obj)) :
    S.clear n x = .done ((S.withHeap (S.heap.free w)).store x ⟨.EMPTY, 0⟩) := by
  rw [State.clear, State.retype, hx]
  simp only [setType_empty_object hw hobj, Outcome.bind_done]

/-- A val inside another one is found from it. -/
theorem State.find_inside {t : Slot} (hy : S.find j rest = some (y, b))
    (hti : layout.Inside S.heap b t) : ∃ l z, S.find j (rest ++ l) = some (z, t) := by
  obtain ⟨a, z, ha, hz, rfl⟩ := State.find_eq hy
  obtain ⟨l, z', hl⟩ := hti.exists_walk z
  refine ⟨l, Ref.ofPlace j z', ?_⟩
  rw [State.find, ha, Option.bind_some, Layout.walk_append, hz, Option.bind_some, hl]
  rfl

include hS hx hy hno in
/-- An object inside the source can be deleted through it. -/
theorem exists_deleting_run (halive : Alive S.heap a)
    (hview : ∀ f k, viewWith f S.heap k b = viewWith f S.heap k a) {t : Slot}
    (hti : layout.Inside S.heap a t) (htobj : t.type = .OBJECT) :
    ∃ n ops S', run builds n x ops S = .done (some S') ∧ S'.heap.blocks t.word = none := by
  have hta := State.find_tree hS hx
  obtain ⟨hne, obj, hobj⟩ := halive t hti htobj
  have hholder := holder_ne_sp hx hobj
  have hgone : ∀ S₁ : State,
      ((S₁.withHeap (S₁.heap.free t.word)).store x ⟨.EMPTY, 0⟩).heap.blocks t.word = none := by
    intro S₁
    exact (State.blocks_store _ hholder _).trans (Function.update_self ..)
  by_cases haobj : a.type = .OBJECT
  · -- the val itself
    obtain rfl := inside_leaf (ptr_object haobj) hti
    have hload : S.load x = some ⟨.OBJECT, t.word⟩ := by
      rw [State.find_load hx, ← htobj]
    refine ⟨0, [.clear], _, ?_, hgone S⟩
    rw [run, Op.step, State.clear_object hload hne hobj]
    rfl
  · -- one of its vals: the same pointer in the copy is assigned to it first
    obtain ⟨t', hti', htobj', hword⟩ := inside_of_alike hta (State.find_tree hS hy) halive hview hti
        htobj
    obtain ⟨l, src, hsrc⟩ := State.find_inside hy hti'
    have hno' : ¬Overlap i path j (rest ++ l) := by
      intro h
      have hswap : Overlap j (rest ++ l) i path := ⟨h.1.symm, h.2.symm⟩
      exact hno ⟨h.1, hswap.outer.2.symm⟩
    obtain ⟨N, hN⟩ := hta.exists_low
    obtain ⟨w, H, hset, hsp⟩ := setType_empty_total hS.bounded hta (hN.mono (Nat.le_add_right N 2))
      halive haobj
    obtain ⟨hempty, htouch⟩ := State.emptied_found hS hx hset
    obtain ⟨hsrc', -⟩ := htouch.aside hno' hsrc
    have hcopy : copyMember (N + 1) t' w (S.emptied x (⟨.EMPTY, w⟩, H)).heap =
        .done (⟨.OBJECT, t.word⟩, (S.emptied x (⟨.EMPTY, w⟩, H)).heap) := by
      obtain ⟨type, word⟩ := t'
      cases htobj'
      cases hword
      rfl
    have hassign := State.assign_done (State.find_load hx) hset (State.find_load hsrc') hcopy
    obtain ⟨obj', hobj'⟩ := hsp t.word obj hobj
    have hsp' : ((S.emptied x (⟨.EMPTY, w⟩, H)).store x ⟨.OBJECT, t.word⟩).heap.blocks t.word =
        some (.sp obj') :=
      (State.blocks_store _ hholder _).trans ((State.blocks_store _ hholder _).trans hobj')
    have hclear := State.clear_object (n := N + 1)
      (State.load_store (State.find_load hempty) ⟨.OBJECT, t.word⟩) hne hsp'
    refine ⟨N + 1, [.assign src, .clear], _, ?_,
      hgone ((S.emptied x (⟨.EMPTY, w⟩, H)).store x ⟨.OBJECT, t.word⟩)⟩
    rw [run, Op.step, hassign]
    simp only [Outcome.bind_done]
    have hself : (S.emptied x (⟨.EMPTY, w⟩, H)).withHeap (S.emptied x (⟨.EMPTY, w⟩, H)).heap =
        S.emptied x (⟨.EMPTY, w⟩, H) := rfl
    rw [run, Op.step, hself, hclear]
    rfl

end Copy

/-- Operations on a val leave a copy of it as it was, if and only if it has no
OBJECT inside. -/
theorem copy_independent_iff (builds : Bool) {n : Nat} {S₀ S : State} (hS₀ : S₀.Good) {i j : Nat}
    {path rest : List Nat} {x y : Ref} {a : Slot} (hx : S₀.find i path = some (x, a))
    (hno : ¬Overlap i path j rest) (hcopy : Copies n x j rest y S₀ S) (halive : Alive S.heap a) :
    Independent builds x y S ↔ NoObject S.heap a := by
  obtain ⟨hS, hx, b, hy, hview⟩ := hcopy.alike hS₀ hx hno
  have hta := State.find_tree hS hx
  constructor
  · intro hind t hti htobj
    obtain ⟨m, ops, S', hrun, hgone⟩ := exists_deleting_run hS hx hy hno halive
      hview hti htobj
    obtain ⟨N, hN⟩ := halive.view_isSome hta
    have hsame := hind m ops S' hrun N
    obtain ⟨hload, hrest⟩ := viewWith_run hS hx hy hno hrun (objectVal S'.heap) N
    rw [hload, State.find_load hy] at hsame
    have hnone : objectVal S'.heap t.word = none := by
      rw [objectVal, if_neg (halive t hti htobj).1]
      simp only [hgone]
    have hafter : view N S'.heap b = none := by
      rw [view, hrest, hview, viewWith_eq_none hti htobj hnone]
    have hbefore : (view N S.heap b).isSome = true := by
      rw [view, hview]
      exact hN N (Nat.le_refl N)
    rw [← show view N S'.heap b = view N S.heap b from hsame, hafter] at hbefore
    cases hbefore
  · intro hnone m ops S' hrun k
    obtain ⟨hload, hrest⟩ := viewWith_run hS hx hy hno hrun (objectVal S'.heap) k
    have hobjects : viewWith (objectVal S'.heap) S.heap k a =
        viewWith (objectVal S.heap) S.heap k a := by
      apply viewWith_congr hta (fun _ _ => rfl)
      intro t hti htobj
      exact (hnone t hti htobj).elim
    rw [hload, State.find_load hy]
    show view k S'.heap b = view k S.heap b
    rw [view, view, hrest, hview, hobjects, hview]

/-- A program with one variable, whose member is at the address 1. -/
def single (type : Tag) (b : Block) : State where
  heap := ⟨fun p => if p = 1 then some b else none, 2⟩
  vars := fun i => if i = 0 then some ⟨type, 1⟩ else none

theorem single_vars {type : Tag} {b : Block} {i : Nat} {s : Slot}
    (h : (single type b).vars i = some s) : i = 0 ∧ s = ⟨type, 1⟩ := by
  by_cases hi : i = 0
  · subst hi
    exact ⟨rfl, (Option.some.inj h).symm⟩
  · have hnone : (single type b).vars i = none := if_neg hi
    rw [hnone] at h
    cases h

theorem single_good {type : Tag} {b : Block} (ht : layout.Tree (single type b).heap ⟨type, 1⟩) :
    (single type b).Good where
  bounded := by
    refine ⟨Nat.succ_pos 1, ?_⟩
    intro p hp
    have hp' : 2 ≤ p := hp
    exact if_neg (by omega)
  tree h := by
    rw [(single_vars h).2]
    exact ht
  separate hij hi hj := absurd ((single_vars hi).1.trans (single_vars hj).1.symm) hij

/-- A STRING and its copy. -/
theorem copy_independent_string :
    ∃ S, (single .STRING (.string [0x61])).construct 1 1 (.var 0) = .done S ∧
      Independent true (.var 0) (.var 1) S := by
  have htree : layout.Tree (single .STRING (.string [0x61])).heap ⟨.STRING, 1⟩ :=
    .node rfl rfl ⟨rfl, nofun, nofun⟩ nofun nofun .nil
  refine ⟨_, rfl, ?_⟩
  have hno : ∀ t, layout.Inside
      ((single .STRING (.string [0x61])).heap.alloc (.string [0x61])) ⟨.STRING, 1⟩ t →
      t.type ≠ .OBJECT := by
    intro t ht
    cases ht with
    | self => nofun
    | child hp hb hc _ =>
      cases hp
      cases hb
      cases hc
  have hvar : (single .STRING (.string [0x61])).find 0 [] = some (.var 0, ⟨.STRING, 1⟩) := rfl
  have hdiff : ¬Overlap 0 [] 1 [] := fun h => absurd h.1 (by decide)
  apply (copy_independent_iff true (n := 1) (single_good htree) hvar hdiff
    (Or.inl ⟨rfl, rfl, rfl, rfl⟩) ?_).mpr
  · exact hno
  · intro t ht htobj
    exact (hno t ht htobj).elim

/-- An OBJECT and its copy: after `clear()` of the one the other points at nothing. -/
theorem copy_not_independent_object :
    (single .OBJECT (.sp 7)).Good ∧ ∃ S, (single .OBJECT (.sp 7)).construct 1 1 (.var 0) = .done S ∧
      Alive S.heap ⟨.OBJECT, 1⟩ ∧ ¬Independent true (.var 0) (.var 1) S := by
  refine ⟨single_good (.leaf rfl), _, rfl, ?_, ?_⟩
  · intro t ht _
    cases ht with
    | self => exact ⟨by decide, 7, rfl⟩
    | child hp _ _ _ => cases hp
  · intro h
    have hsame : (none : Option CVal) = some (.object 7) := h 0 [.clear] _ rfl 1
    cases hsame

end Libacorn.ValHeap
