import Libacorn.Support.ParentForest
import Libacorn.Layout

/-!
# ux/view.cpp: the view hierarchy

`addView` checks that the added view has no superview, and not that it is not the
receiver or above it. `hierarchy_iff`: the views are a forest, on which `findView` and
`layout` end, just when no call does that.

The virtual `measure` of a class is a function of the rectangle, and AppKit's part of a
view is the frame that `layout` sets. `TextView::layout` is `View::layout`, and then moves
the text inside its view.
-/

namespace Libacorn.Views

open Support Layout

/-! ## Geometry -/

abbrev Point : Type := Layout.Point Float32

abbrev Size : Type := Layout.Size Float32

abbrev Rect : Type := Layout.Rect Float32

/-! ## Views -/

/-- `class View`, as far as `addView`, `findView` and `layout` read it. A class that
overrides `measure` has its own. -/
structure View (V : Type) extends Layout.View Float32 where
  isRoot : Bool
  id : Bytes
  superview : Option V
  subviews : List V

/-- The views of a program, by address. -/
abbrev State (V : Type) : Type := V → View V

section Hierarchy

variable {V : Type} [DecidableEq V]

/-- `c->_superview = p;` -/
def setSuperview (c p : V) (S : State V) : State V :=
  Function.update S c { S c with superview := some p }

/-- `p->_subviews.push_back(c);` -/
def pushSubview (p c : V) (S : State V) : State V :=
  Function.update S p { S p with subviews := (S p).subviews ++ [c] }

/-- `p->addView(c)`; `none` when the assertion fails. -/
def addView (p c : V) (S : State V) : Option (State V) :=
  if (S c).superview = none then some (pushSubview p c (setSuperview c p S)) else none

/-- A sequence of calls `p->addView(c)`. -/
def run : List (V × V) → State V → Option (State V)
  | [], S => some S
  | call :: calls, S => (addView call.1 call.2 S).bind (run calls)

end Hierarchy

section Methods

variable {V : Type} (S : State V)

/-- The root that is reached by `_superview`. -/
def rootOf : Nat → V → Outcome V
  | 0, _ => .timeout
  | n + 1, v =>
    match (S v).superview with
    | none => .done v
    | some p => rootOf n p

/-- The first view that is found below one of the subviews. -/
def findBelow (find : V → Outcome (Option V)) : List V → Outcome (Option V)
  | [] => .done none
  | subview :: l => (find subview).bind fun r =>
    match r with
    | some v => .done (some v)
    | none => findBelow find l

def findView : Nat → V → Bytes → Outcome (Option V)
  | 0, _, _ => .timeout
  | n + 1, v, id =>
    match (S v).subviews.find? fun subview => id == (S subview).id with
    | some subview => .done (some subview)
    | none => findBelow (fun subview => findView n subview id) (S v).subviews

variable [Platform]

/-! ## layout -/

/-- The frames that were set, in this order. -/
abbrev Frames (V : Type) : Type := List (V × Rect)

/-- Steps in sequence, up to an assertion that fails. -/
def andThen (x y : Outcome (Option (Frames V))) : Outcome (Option (Frames V)) :=
  x.bind fun r =>
    match r with
    | some frames => y.bind fun rest => .done (rest.map fun l => frames ++ l)
    | none => .done none

/-- The second loop of a flexbox, over the subviews with their main lengths. -/
def layoutFlex (layout : V → Rect → Outcome (Option (Frames V))) (axis : Axis)
    (diff growTotal shrinkTotal : Float32) : List (V × Float32) → Rect → Outcome (Option (Frames V))
  | [], _ => .done (some [])
  | (s, length) :: l, rect =>
    let v := (S s).toView
    match getActualMargins v rect with
    | none => .done none
    | some margins =>
      let subrect := flexRect axis rect v margins (flexed v length diff growTotal shrinkTotal)
      andThen (layout s subrect) (layoutFlex layout axis diff growTotal shrinkTotal l
        (advance rect (main subrect.size axis) axis))

/-- The default layout. -/
def layoutEach (layout : V → Rect → Outcome (Option (Frames V))) (rect : Rect) :
    List V → Outcome (Option (Frames V))
  | [] => .done (some [])
  | s :: l =>
    let v := (S s).toView
    let size := measure v rect
    match getActualMargins v rect with
    | none => .done none
    | some margins =>
      let origin : Point := ⟨rect.origin.x + margins.left, rect.origin.y + margins.top⟩
      andThen (layout s (position v rect ⟨origin, size⟩)) (layoutEach layout rect l)

/-- Hardware pixels as logical pixels. -/
def toLogical (r : Rect) : Rect where
  origin := ⟨r.origin.x / Platform.backingScaleFactor, r.origin.y / Platform.backingScaleFactor⟩
  size := ⟨r.size.width / Platform.backingScaleFactor, r.size.height / Platform.backingScaleFactor⟩

/-- The subviews in the rectangle that the padding leaves. -/
def layoutSubviews (layout : V → Rect → Outcome (Option (Frames V))) (v : View V) (rect : Rect) :
    Outcome (Option (Frames V)) :=
  match Axis.ofLayout v.layout with
  | some axis =>
    let subviews := v.subviews.map fun s => (S s).toView
    match mainLengths axis rect subviews with
    | none => .done none
    | some lengths =>
      layoutFlex S layout axis (leftOver axis rect lengths)
        (total (subviews.map fun s => s.flexGrow)) (total (subviews.map fun s => s.flexShrink))
        (v.subviews.zip lengths) rect
  | none => layoutEach S layout rect v.subviews

/-- `View::layout`; `none` when an assertion fails. -/
def layout : Nat → V → Rect → Outcome (Option (Frames V))
  | 0, _, _ => .timeout
  | n + 1, v, r =>
    let frame := if (S v).isRoot then [] else [(v, toLogical r)]
    if (S v).subviews = [] then .done (some frame)
    else
      match padded (S v).toView r with
      | none => .done none
      | some rect => andThen (.done (some frame)) (layoutSubviews S (layout n) (S v) rect)

end Methods

/-! ## Ends -/

section Ends

variable {V : Type} {S : State V}

/-- Less than `n` views follow each other below the view. -/
def Low (S : State V) : Nat → V → Prop
  | 0, _ => False
  | n + 1, v => ∀ c ∈ (S v).subviews, Low S n c

theorem Low.mono {n m : Nat} (hnm : n ≤ m) {v : V} (h : Low S n v) : Low S m v := by
  induction n generalizing m v with
  | zero => exact h.elim
  | succ n ih =>
    obtain ⟨m, rfl⟩ := Nat.exists_eq_add_of_le' (Nat.lt_of_lt_of_le (Nat.succ_pos n) hnm)
    intro c hc
    exact ih (by omega) (h c hc)

theorem exists_low (hlist : ∀ v, ∀ c ∈ (S v).subviews, (S c).superview = some v) {v : V}
    (h : Acc (Child fun u => (S u).superview) v) : ∃ n, Low S n v := by
  induction h with
  | intro v _ ih =>
    obtain ⟨n, hn⟩ := exists_bound (P := Low S) (fun hnm hlow => hlow.mono hnm)
      fun c hc => ih c (hlist v c hc)
    exact ⟨n + 1, hn⟩

theorem findBelow_total {find : V → Outcome (Option V)} {l : List V}
    (h : ∀ s ∈ l, ∃ r, find s = .done r) : ∃ r, findBelow find l = .done r := by
  induction l with
  | nil => exact ⟨none, rfl⟩
  | cons s l ih =>
    obtain ⟨r, hr⟩ := h s (List.mem_cons_self ..)
    rw [findBelow, hr, Outcome.bind_done]
    cases r with
    | some v => exact ⟨some v, rfl⟩
    | none => exact ih fun t ht => h t (List.mem_cons_of_mem s ht)

theorem findView_total {n : Nat} {v : V} (h : Low S n v) (id : Bytes) :
    ∃ r, findView S n v id = .done r := by
  induction n generalizing v with
  | zero => exact h.elim
  | succ n ih =>
    rw [findView]
    split
    next s _ => exact ⟨some s, rfl⟩
    next => exact findBelow_total fun s hs => ih (h s hs)

theorem andThen_total {x y : Outcome (Option (Frames V))} (hx : ∃ r, x = .done r)
    (hy : ∃ r, y = .done r) : ∃ r, andThen x y = .done r := by
  obtain ⟨r, rfl⟩ := hx
  obtain ⟨r', rfl⟩ := hy
  cases r with
  | some frames => exact ⟨_, rfl⟩
  | none => exact ⟨none, rfl⟩

section Layout

variable [Platform] {layout : V → Rect → Outcome (Option (Frames V))}

theorem layoutFlex_total {axis : Axis} {diff growTotal shrinkTotal : Float32}
    {l : List (V × Float32)} (h : ∀ e ∈ l, ∀ r, ∃ f, layout e.1 r = .done f) (rect : Rect) :
    ∃ f, layoutFlex S layout axis diff growTotal shrinkTotal l rect = .done f := by
  induction l generalizing rect with
  | nil => exact ⟨_, rfl⟩
  | cons e l ih =>
    obtain ⟨s, length⟩ := e
    rw [layoutFlex]
    split
    next => exact ⟨none, rfl⟩
    next margins _ =>
      apply andThen_total
      · exact h (s, length) (List.mem_cons_self ..) _
      · exact ih (fun e he => h e (List.mem_cons_of_mem _ he)) _

theorem layoutEach_total {rect : Rect} {l : List V} (h : ∀ s ∈ l, ∀ r, ∃ f, layout s r = .done f) :
    ∃ f, layoutEach S layout rect l = .done f := by
  induction l with
  | nil => exact ⟨_, rfl⟩
  | cons s l ih =>
    rw [layoutEach]
    split
    next => exact ⟨none, rfl⟩
    next margins _ =>
      apply andThen_total
      · exact h s (List.mem_cons_self ..) _
      · exact ih fun t ht => h t (List.mem_cons_of_mem s ht)

theorem layoutSubviews_total {v : View V} (h : ∀ s ∈ v.subviews, ∀ r, ∃ f, layout s r = .done f)
    (rect : Rect) : ∃ f, layoutSubviews S layout v rect = .done f := by
  rw [layoutSubviews]
  split
  next axis _ =>
    dsimp only
    split
    next => exact ⟨none, rfl⟩
    next lengths _ =>
      apply layoutFlex_total
      intro e he
      exact h e.1 (List.of_mem_zip he).1
  next => exact layoutEach_total h

end Layout

theorem layout_total [Platform] {n : Nat} {v : V} (h : Low S n v) (r : Rect) :
    ∃ f, layout S n v r = .done f := by
  induction n generalizing v r with
  | zero => exact h.elim
  | succ n ih =>
    rw [layout]
    split
    next => exact ⟨_, rfl⟩
    next =>
      split
      next => exact ⟨none, rfl⟩
      next padding _ =>
        apply andThen_total ⟨_, rfl⟩
        exact layoutSubviews_total (fun s hs r => ih (h s hs) r) _

theorem rootOf_total_iff {v : V} :
    (∃ n r, rootOf S n v = .done r) ↔ Acc (flip (Child fun u => (S u).superview)) v := by
  constructor
  · rintro ⟨n, r, hr⟩
    induction n generalizing v with
    | zero => cases hr
    | succ n ih =>
      rw [rootOf] at hr
      constructor
      intro p hp
      have hp' : (S v).superview = some p := hp
      rw [hp'] at hr
      exact ih hr
  · intro h
    induction h with
    | intro v _ ih =>
      cases hp : (S v).superview with
      | none =>
        refine ⟨1, v, ?_⟩
        rw [rootOf, hp]
      | some p =>
        obtain ⟨n, r, hr⟩ := ih p hp
        refine ⟨n + 1, r, ?_⟩
        rw [rootOf, hp]
        exact hr

end Ends

/-! ## Runs of addView -/

/-- No superview and no subviews. -/
def Fresh {V : Type} (S : State V) : Prop := ∀ v, (S v).superview = none ∧ (S v).subviews = []

/-- Every view is in the list of its superview, once, and in no other. -/
def Listed {V : Type} [DecidableEq V] (S : State V) : Prop :=
  ∀ p c, (S p).subviews.count c = if (S c).superview = some p then 1 else 0

/-- The views are a forest. -/
structure Hierarchy {V : Type} [DecidableEq V] [Platform] (S : State V) : Prop where
  rooted : ∀ v, ∃ n r, rootOf S n v = .done r
  listed : Listed S
  findView : ∀ v id, ∃ n r, findView S n v id = .done r
  layout : ∀ v rect, ∃ n f, layout S n v rect = .done f

/-- No call adds a view to itself or to a view below it. -/
def Careful {V : Type} [DecidableEq V] : List (V × V) → State V → Prop
  | [], _ => True
  | call :: calls, S => ¬Within (fun v => (S v).superview) call.1 call.2 ∧
    ∀ S', addView call.1 call.2 S = some S' → Careful calls S'

section Runs

variable {V : Type} [DecidableEq V] {S S' : State V}

theorem setSuperview_superview (c p v : V) :
    (setSuperview c p S v).superview = if v = c then some p else (S v).superview := by
  rw [setSuperview, Function.update_apply]
  split
  next => rfl
  next => rfl

theorem setSuperview_subviews (c p v : V) : (setSuperview c p S v).subviews = (S v).subviews := by
  rw [setSuperview, Function.update_apply]
  split
  next hv => rw [hv]
  next => rfl

theorem pushSubview_superview (p c v : V) : (pushSubview p c S v).superview = (S v).superview := by
  rw [pushSubview, Function.update_apply]
  split
  next hv => rw [hv]
  next => rfl

theorem pushSubview_subviews (p c v : V) :
    (pushSubview p c S v).subviews = if v = p then (S p).subviews ++ [c] else (S v).subviews := by
  rw [pushSubview, Function.update_apply]
  split
  next => rfl
  next => rfl

/-- What a call changes. -/
theorem addView_spec {p c : V} (h : addView p c S = some S') :
    (S c).superview = none ∧
      (fun v => (S' v).superview) = link (fun v => (S v).superview) c p ∧
      ∀ v, (S' v).subviews = if v = p then (S p).subviews ++ [c] else (S v).subviews := by
  rw [addView] at h
  split at h
  next hc =>
    cases h
    refine ⟨hc, ?_, ?_⟩
    · funext v
      rw [pushSubview_superview, setSuperview_superview, link, Function.update_apply]
    · intro v
      rw [pushSubview_subviews, setSuperview_subviews, setSuperview_subviews]
  next => cases h

theorem Listed.addView {p c : V} (hS : Listed S) (h : addView p c S = some S') : Listed S' := by
  obtain ⟨hc, hsuper, hsub⟩ := addView_spec h
  intro q d
  have hd : (S' d).superview = link (fun v => (S v).superview) c p d := congrFun hsuper d
  have hold := hS q d
  rw [hd, hsub, link]
  by_cases hdc : d = c
  · subst hdc
    rw [hc, if_neg (Option.some_ne_none q).symm] at hold
    rw [Function.update_self]
    by_cases hq : q = p
    · subst hq
      rw [if_pos rfl, if_pos rfl, List.count_append, hold, List.count_singleton_self]
    · rw [if_neg hq, hold, if_neg fun h => hq (Option.some.inj h).symm]
  · rw [Function.update_of_ne hdc]
    by_cases hq : q = p
    · subst hq
      have hone : List.count d [c] = 0 :=
        List.count_eq_zero.mpr fun h => hdc (List.mem_singleton.mp h)
      rw [if_pos rfl, List.count_append, hone, hold, Nat.add_zero]
    · rw [if_neg hq, hold]

theorem listed_fresh (hS : Fresh S) : Listed S := by
  intro p c
  rw [(hS p).2, (hS c).1]
  rfl

theorem Listed.run {calls : List (V × V)} (hS : Listed S) (h : run calls S = some S') :
    Listed S' := by
  induction calls generalizing S with
  | nil =>
    cases h
    exact hS
  | cons call calls ih =>
    obtain ⟨S₁, h₁, h⟩ := Option.bind_eq_some_iff.mp h
    exact ih (hS.addView h₁) h

/-- All ways up end just when they did at the start and no call closed one. -/
theorem climbsEnd_run_iff {calls : List (V × V)} (h : run calls S = some S') :
    ClimbsEnd (fun v => (S' v).superview) ↔
      ClimbsEnd (fun v => (S v).superview) ∧ Careful calls S := by
  induction calls generalizing S with
  | nil =>
    cases h
    exact ⟨fun hS => ⟨hS, trivial⟩, fun hS => hS.1⟩
  | cons call calls ih =>
    obtain ⟨S₁, h₁, h⟩ := Option.bind_eq_some_iff.mp h
    obtain ⟨hc, hsuper, -⟩ := addView_spec h₁
    have hnext : Careful (call :: calls) S ↔
        ¬Within (fun v => (S v).superview) call.1 call.2 ∧ Careful calls S₁ := by
      constructor
      · rintro ⟨hno, hcareful⟩
        exact ⟨hno, hcareful S₁ h₁⟩
      · rintro ⟨hno, hcareful⟩
        refine ⟨hno, ?_⟩
        intro S₂ h₂
        cases h₁.symm.trans h₂
        exact hcareful
    rw [ih h, hsuper, climbsEnd_link_iff hc, hnext, and_assoc]

theorem descentsEnd_run {calls : List (V × V)} (hS : DescentsEnd fun v => (S v).superview)
    (hcareful : Careful calls S) (h : run calls S = some S') :
    DescentsEnd fun v => (S' v).superview := by
  induction calls generalizing S with
  | nil =>
    cases h
    exact hS
  | cons call calls ih =>
    obtain ⟨S₁, h₁, h⟩ := Option.bind_eq_some_iff.mp h
    obtain ⟨hc, hsuper, -⟩ := addView_spec h₁
    obtain ⟨hno, hcareful⟩ := hcareful
    have hS₁ : DescentsEnd fun v => (S₁ v).superview := by
      rw [hsuper]
      exact descentsEnd_link hc hno hS
    exact ih hS₁ (hcareful S₁ h₁) h

/-- From fresh views the hierarchy is a forest just when no call adds a view to itself or
to a view below it. -/
theorem hierarchy_iff [Platform] {calls : List (V × V)} (hS : Fresh S) (h : run calls S = some S') :
    Hierarchy S' ↔ Careful calls S := by
  have hclimbs := climbsEnd_run_iff h
  constructor
  · intro hierarchy
    exact (hclimbs.mp fun v => rootOf_total_iff.mp (hierarchy.rooted v)).2
  · intro hcareful
    have hlisted := (listed_fresh hS).run h
    have hup := hclimbs.mpr ⟨climbsEnd_of_none fun v => (hS v).1, hcareful⟩
    have hdown := descentsEnd_run (descentsEnd_of_none fun v => (hS v).1) hcareful h
    have hlist : ∀ v, ∀ c ∈ (S' v).subviews, (S' c).superview = some v := by
      intro v c hc
      by_contra hne
      have hcount := hlisted v c
      rw [if_neg hne] at hcount
      exact List.count_eq_zero.mp hcount hc
    have hlow : ∀ v, ∃ n, Low S' n v := fun v => exists_low hlist (hdown v)
    refine ⟨fun v => rootOf_total_iff.mpr (hup v), hlisted, ?_, ?_⟩
    · intro v id
      obtain ⟨n, hn⟩ := hlow v
      exact ⟨n, findView_total hn id⟩
    · intro v rect
      obtain ⟨n, hn⟩ := hlow v
      exact ⟨n, layout_total hn rect⟩

end Runs

/-- Any number of new views. -/
def fresh (_ : Nat) : View Nat where
  isRoot := false
  x := .empty
  y := .empty
  width := .empty
  height := .empty
  flexBasis := .empty
  flexGrow := 0
  flexShrink := 0
  layout := []
  margin := .empty
  padding := .empty
  measure := none
  id := []
  superview := none
  subviews := []

theorem not_within_of_root {V : Type} {parent : V → Option V} {v a : V} (hv : parent v = none)
    (hne : v ≠ a) : ¬Within parent v a := by
  intro h
  rcases Relation.ReflTransGen.cases_head h with heq | ⟨q, hq, -⟩
  · exact hne heq
  · cases hv.symm.trans hq

/-- `b.addView(c); a.addView(b);` -/
theorem hierarchy_chain : ∃ S, run [(1, 2), (0, 1)] fresh = some S ∧ @Hierarchy Nat _ .plain S := by
  have hrun : ∃ S₁ S₂, addView 1 2 fresh = some S₁ ∧ (S₁ 0).superview = none ∧
      run [(1, 2), (0, 1)] fresh = some S₂ := ⟨_, _, rfl, rfl, rfl⟩
  obtain ⟨S₁, S₂, h₁, hroot, h₂⟩ := hrun
  refine ⟨S₂, h₂, (@hierarchy_iff _ _ _ _ .plain _ (fun _ => ⟨rfl, rfl⟩) h₂).mpr ?_⟩
  refine ⟨not_within_of_root rfl nofun, ?_⟩
  intro S hS
  cases h₁.symm.trans hS
  exact ⟨not_within_of_root hroot nofun, fun _ _ => trivial⟩

/-- `v.addView(v);` -/
theorem hierarchy_self : ∃ S, run [(0, 0)] fresh = some S ∧ ¬@Hierarchy Nat _ .plain S := by
  refine ⟨_, rfl, ?_⟩
  rintro ⟨hrooted, -, -, -⟩
  obtain ⟨n, r, hr⟩ := hrooted 0
  have hloop : ∀ n, rootOf (pushSubview 0 0 (setSuperview 0 0 fresh)) n 0 = .timeout := by
    intro n
    induction n with
    | zero => rfl
    | succ n ih => exact ih
  cases (hloop n).symm.trans hr

end Libacorn.Views
