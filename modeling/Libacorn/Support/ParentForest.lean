import Mathlib.Logic.Relation
import Mathlib.Logic.Function.Basic
import Mathlib.Order.WellFounded

/-!
# Forests of parent pointers

Every node has at most one parent. The nodes are a forest when no way up and no way
down goes on for ever; `climbsEnd_link_iff` says when a new link keeps them one.
-/

namespace Libacorn.Support

variable {V : Type}

/-- `p` is the parent of `c`. -/
def Child (parent : V → Option V) (c p : V) : Prop := parent c = some p

/-- `v` is `a` or below `a`. -/
def Within (parent : V → Option V) (v a : V) : Prop := Relation.ReflTransGen (Child parent) v a

/-- No way up goes on for ever. -/
def ClimbsEnd (parent : V → Option V) : Prop := ∀ v, Acc (flip (Child parent)) v

/-- No way down goes on for ever. -/
def DescentsEnd (parent : V → Option V) : Prop := ∀ v, Acc (Child parent) v

theorem climbsEnd_of_none {parent : V → Option V} (h : ∀ v, parent v = none) :
    ClimbsEnd parent := by
  intro v
  constructor
  intro p hp
  cases (h v).symm.trans hp

theorem descentsEnd_of_none {parent : V → Option V} (h : ∀ v, parent v = none) :
    DescentsEnd parent := by
  intro v
  constructor
  intro c hc
  cases (h c).symm.trans hc

theorem within_of_child {parent : V → Option V} {c p a : V} (h : Child parent c p) :
    Within parent c a ↔ c = a ∨ Within parent p a := by
  constructor
  · intro hw
    rcases Relation.ReflTransGen.cases_head hw with rfl | ⟨q, hq, hw⟩
    · exact Or.inl rfl
    · cases h.symm.trans hq
      exact Or.inr hw
  · rintro (rfl | hw)
    · exact .refl
    · exact .head h hw

theorem not_acc_of_cycle {r : V → V → Prop} {v : V} (h : Relation.TransGen r v v) : ¬Acc r v := by
  intro hacc
  have htrans := hacc.transGen
  clear hacc
  induction htrans with
  | intro v _ ih => exact ih v h h

/-- Of two nodes above another one, one is above the other. -/
theorem within_linear {parent : V → Option V} {c s t : V} (hs : Within parent c s)
    (ht : Within parent c t) :
    Within parent s t ∨ Within parent t s := by
  induction hs using Relation.ReflTransGen.head_induction_on with
  | refl => exact Or.inl ht
  | head hstep hrest ih =>
    rcases (within_of_child hstep).mp ht with rfl | ht
    · exact Or.inr (.head hstep hrest)
    · exact ih ht

theorem not_below_self {parent : V → Option V} (h : ClimbsEnd parent) (v : V) :
    ¬Relation.TransGen (Child parent) v v :=
  fun hcycle => not_acc_of_cycle hcycle.swap (h v)

/-- Two children of one node have nothing below them in common. -/
theorem siblings_disjoint {parent : V → Option V} (h : ClimbsEnd parent) {v s t c : V}
    (hs : Child parent s v) (ht : Child parent t v) (hcs : Within parent c s)
    (hct : Within parent c t) : s = t := by
  have key : ∀ {s t : V}, Child parent s v → Child parent t v → Within parent s t → s = t := by
    intro s t hs ht hst
    rcases (within_of_child hs).mp hst with heq | hvt
    · exact heq
    · exact (not_below_self h v (.tail' hvt ht)).elim
  rcases within_linear hcs hct with hst | hts
  · exact key hs ht hst
  · exact (key ht hs hts).symm

section Link

variable [DecidableEq V] {parent : V → Option V} {c p : V}

/-- The root `c` gets the parent `p`. -/
def link (parent : V → Option V) (c p : V) : V → Option V := Function.update parent c (some p)

theorem child_link_iff (hc : parent c = none) {v u : V} :
    Child (link parent c p) v u ↔ Child parent v u ∨ v = c ∧ u = p := by
  by_cases hv : v = c
  · subst hv
    simp only [Child, link, Function.update_self, hc, Option.some.injEq, true_and, reduceCtorEq,
      false_or]
    exact eq_comm
  · simp only [Child, link, Function.update_of_ne hv, hv, false_and, or_false]

/-- A root that is linked to a node below it is on a cycle. -/
theorem link_cycle (hc : parent c = none) (h : Within parent p c) :
    Relation.TransGen (Child (link parent c p)) c c := by
  have hstep : Child (link parent c p) c p := (child_link_iff hc).mpr (Or.inr ⟨rfl, rfl⟩)
  have hpath : Relation.ReflTransGen (Child (link parent c p)) p c :=
    Relation.ReflTransGen.mono (fun _ _ hchild => (child_link_iff hc).mpr (Or.inl hchild)) p c h
  exact Relation.TransGen.head' hstep hpath

theorem climbsEnd_link (hc : parent c = none) (hno : ¬Within parent p c) (h : ClimbsEnd parent) :
    ClimbsEnd (link parent c p) := by
  -- the way up from a node that is not below `c` is the old one
  have hold : ∀ v, ¬Within parent v c → Acc (flip (Child (link parent c p))) v := by
    intro v
    induction h v with
    | intro v _ ih =>
      intro hv
      constructor
      intro u hu
      rcases (child_link_iff hc).mp hu with hchild | ⟨rfl, -⟩
      · exact ih u hchild fun hw => hv ((within_of_child hchild).mpr (Or.inr hw))
      · exact (hv .refl).elim
  intro v
  induction h v with
  | intro v _ ih =>
    constructor
    intro u hu
    rcases (child_link_iff hc).mp hu with hchild | ⟨-, rfl⟩
    · exact ih u hchild
    · exact hold u hno

/-- A new link closes a way up just when the new parent is below the child. -/
theorem climbsEnd_link_iff (hc : parent c = none) :
    ClimbsEnd (link parent c p) ↔ ClimbsEnd parent ∧ ¬Within parent p c := by
  constructor
  · intro h
    constructor
    · intro v
      have hsub : Subrelation (flip (Child parent)) (flip (Child (link parent c p))) := by
        intro u w hchild
        exact (child_link_iff hc).mpr (Or.inl hchild)
      exact hsub.accessible (h v)
    · intro hw
      exact not_acc_of_cycle (link_cycle hc hw).swap (h c)
  · rintro ⟨h, hno⟩
    exact climbsEnd_link hc hno h

theorem descentsEnd_link (hc : parent c = none) (hno : ¬Within parent p c)
    (h : DescentsEnd parent) :
    DescentsEnd (link parent c p) := by
  -- nothing below `c` gets a new child
  have hbelow : ∀ v, Within parent v c → Acc (Child (link parent c p)) v := by
    intro v
    induction h v with
    | intro v _ ih =>
      intro hv
      constructor
      intro u hu
      rcases (child_link_iff hc).mp hu with hchild | ⟨-, rfl⟩
      · exact ih u hchild ((within_of_child hchild).mpr (Or.inr hv))
      · exact (hno hv).elim
  intro v
  induction h v with
  | intro v _ ih =>
    constructor
    intro u hu
    rcases (child_link_iff hc).mp hu with hchild | ⟨rfl, -⟩
    · exact ih u hchild
    · exact hbelow u .refl

end Link

end Libacorn.Support
