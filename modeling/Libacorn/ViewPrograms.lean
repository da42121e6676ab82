import Libacorn.Support.Lockstep
import Libacorn.ViewTree

/-!
# Programs that make views

`createImpl` makes exactly the tree that its val describes (`createImpl_describes`), and a
program that makes views and adds them to each other leaves a forest just when no call of
`addView` closes a cycle (`hierarchy_program_iff`).
-/

namespace Libacorn.Views

open Support Layout

/-! ## The views as a hierarchy -/

/-- What AppKit measures for a view of a class: its text, its image or its title. -/
class AppKit where
  measure : ViewClass → Nat → Rect → Size

/-- Nothing asks for any size. -/
@[reducible] def bareKit : AppKit where
  measure _ _ _ := ⟨0, 0⟩

/-- `measure` of the class; `View` has no own. -/
def ViewClass.measure [AppKit] (a : Nat) : ViewClass → Option (Rect → Size)
  | .View => none
  | cls => some (AppKit.measure cls a)

/-- The views as `findView` and `layout` see them. -/
def Ui.state [AppKit] (u : Ui) : State Nat := fun a =>
  { isRoot := u.isRoot a
    x := (u.props a).x
    y := (u.props a).y
    width := (u.props a).width
    height := (u.props a).height
    flexBasis := (u.props a).flexBasis
    flexGrow := (u.props a).flexGrow
    flexShrink := (u.props a).flexShrink
    layout := (u.props a).layout
    margin := (u.props a).margin
    padding := (u.props a).padding
    measure := (u.cls a).measure a
    id := (u.props a).id
    superview := u.superview a
    subviews := u.subviews a }

/-- The views that are not made yet stand alone. -/
def Unmade (u : Ui) : Prop := ∀ x, u.next ≤ x → u.superview x = none ∧ u.subviews x = []

/-- The views are a forest. -/
structure Grown (u : Ui) : Prop where
  listed : ∀ p c, (u.subviews p).count c = if u.superview c = some p then 1 else 0
  climbs : ClimbsEnd u.superview
  descends : DescentsEnd u.superview

theorem Grown.hierarchy [AppKit] [Platform] {u : Ui} (h : Grown u) : Hierarchy u.state := by
  have hlist : ∀ v, ∀ c ∈ (u.state v).subviews, (u.state c).superview = some v := by
    intro v c hc
    by_contra hne
    have hcount := h.listed v c
    rw [if_neg (show ¬u.superview c = some v from hne)] at hcount
    exact List.count_eq_zero.mp hcount hc
  have hlow : ∀ v, ∃ n, Low u.state n v := fun v => exists_low hlist (h.descends v)
  refine ⟨fun v => rootOf_total_iff.mpr (h.climbs v), h.listed, ?_, ?_⟩
  · intro v id
    obtain ⟨n, hn⟩ := hlow v
    exact ⟨n, findView_total hn id⟩
  · intro v rect
    obtain ⟨n, hn⟩ := hlow v
    exact ⟨n, layout_total hn rect⟩

/-- A view that is not made yet stands alone already. -/
theorem Unmade.alloc_superview {u : Ui} (h : Unmade u) (cls : ViewClass) :
    (u.alloc cls).superview = u.superview :=
  Function.update_eq_self_iff.mpr (h u.next (Nat.le_refl _)).1.symm

theorem Unmade.alloc_subviews {u : Ui} (h : Unmade u) (cls : ViewClass) :
    (u.alloc cls).subviews = u.subviews :=
  Function.update_eq_self_iff.mpr (h u.next (Nat.le_refl _)).2.symm

/-- What a step keeps. -/
structure Keeps (u u' : Ui) : Prop where
  unmade : Unmade u → Unmade u'
  grown : Unmade u → Grown u → Grown u'

theorem Keeps.rfl {u : Ui} : Keeps u u := ⟨id, fun _ => id⟩

theorem Keeps.trans {u v w : Ui} (h : Keeps u v) (h' : Keeps v w) : Keeps u w :=
  ⟨fun hu => h'.unmade (h.unmade hu), fun hu hg => h'.grown (h.unmade hu) (h.grown hu hg)⟩

theorem keeps_alloc (u : Ui) (cls : ViewClass) : Keeps u (u.alloc cls) := by
  refine ⟨?_, ?_⟩
  · intro h x hx
    rw [h.alloc_superview, h.alloc_subviews]
    exact h x (Nat.le_of_succ_le hx)
  · rintro h ⟨hlisted, hclimbs, hdescends⟩
    refine ⟨?_, ?_, ?_⟩
    · rwa [h.alloc_superview, h.alloc_subviews]
    · rwa [h.alloc_superview]
    · rwa [h.alloc_superview]

theorem keeps_setProps (u : Ui) (a : Nat) (p : Props) : Keeps u (u.setProps a p) :=
  ⟨id, fun _ h => ⟨h.listed, h.climbs, h.descends⟩⟩

theorem Ui.addView_superview {u u' : Ui} {p c : Nat} (h : u.addView p c = some u') :
    u.superview c = none ∧ u'.superview = link u.superview c p ∧
      u'.subviews = Function.update u.subviews p (u.subviews p ++ [c]) ∧ u'.next = u.next := by
  rw [addView] at h
  split at h
  next hc =>
    cases h
    exact ⟨hc, rfl, rfl, rfl⟩
  next => cases h

/-- `addView` of the views of a program is `addView` of their hierarchy. -/
theorem Ui.state_addView [AppKit] (u : Ui) (p c : Nat) :
    (u.addView p c).map Ui.state = Views.addView p c u.state := by
  rw [addView, Views.addView]
  have hsame : (u.state c).superview = u.superview c := Eq.refl _
  rw [hsame]
  split
  next =>
    rw [Option.map_some]
    congr 1
    funext x
    by_cases hxp : x = p
    · subst hxp
      by_cases hxc : x = c
      · subst hxc
        simp only [Ui.state, pushSubview, setSuperview, Function.update_self]
      · simp only [Ui.state, pushSubview, setSuperview, Function.update_self,
          Function.update_of_ne hxc]
    · by_cases hxc : x = c
      · subst hxc
        simp only [Ui.state, pushSubview, setSuperview, Function.update_self,
          Function.update_of_ne hxp]
      · simp only [Ui.state, pushSubview, setSuperview, Function.update_of_ne hxp,
          Function.update_of_ne hxc]
  next => rfl

theorem unmade_addView {u u' : Ui} (h : Unmade u) {p c : Nat} (hp : p < u.next) (hc : c < u.next)
    (hadd : u.addView p c = some u') : Unmade u' := by
  obtain ⟨hnone, hsuper, hsubs, hnext⟩ := Ui.addView_superview hadd
  intro x hx
  rw [hnext] at hx
  rw [hsuper, hsubs, link, Function.update_of_ne (by omega), Function.update_of_ne (by omega)]
  exact h x hx

/-- A link that does not close a way up keeps the forest. -/
theorem Grown.addView {u u' : Ui} (h : Grown u) {p c : Nat} (hno : ¬Within u.superview p c)
    (hadd : u.addView p c = some u') : Grown u' := by
  obtain ⟨hnone, hsuper, -, -⟩ := Ui.addView_superview hadd
  refine ⟨?_, ?_, ?_⟩
  · have hstate := @Ui.state_addView bareKit u p c
    rw [hadd, Option.map_some] at hstate
    exact Listed.addView (S := @Ui.state bareKit u) h.listed hstate.symm
  · rw [hsuper]
    exact climbsEnd_link hnone hno h.climbs
  · rw [hsuper]
    exact descentsEnd_link hnone hno h.descends

/-- A view without a superview takes any other view. -/
theorem keeps_addView {u u' : Ui} {p c : Nat} (hp : p < u.next) (hc : c < u.next)
    (hroot : u.superview p = none) (hne : p ≠ c) (hadd : u.addView p c = some u') : Keeps u u' :=
  ⟨fun h => unmade_addView h hp hc hadd, fun _ h => h.addView (not_within_of_root hroot hne) hadd⟩

/-! ## createImpl -/

/-- No views. -/
def Ui.start : Ui where
  next := 0
  cls _ := .View
  props _ := .initial
  isRoot _ := false
  superview _ := none
  subviews _ := []

theorem unmade_start : Unmade .start := fun _ _ => ⟨rfl, rfl⟩

theorem grown_start : Grown .start := by
  refine ⟨?_, climbsEnd_of_none fun _ => rfl, descentsEnd_of_none fun _ => rfl⟩
  intro p c
  rfl

section Making

variable {u : Ui} {root : Bool} {a : Nat} {cls : ViewClass} {r : Props × List Desc}

/-- The result of a call that makes the tree `d`. -/
structure Made (u : Ui) (root : Bool) (u' : Ui) (d : Desc) : Prop where
  stands : Stands u' d root none u.next
  next : u'.next = u.next + d.size
  same : ∀ x, x < u.next → SameAt u u' x
  keeps : Keeps u u'

/-- The view at `a` is being made: it has these members and subviews so far. -/
structure Making (u : Ui) (root : Bool) (a : Nat) (cls : ViewClass) (r : Props × List Desc) :
  Prop where
  stands : Stands u (.view cls r.1 r.2) root none a
  next : u.next = a + (sizeAll r.2 + 1)

theorem Making.cls_eq (h : Making u root a cls r) : u.cls a = cls :=
  h.stands.1.1

theorem Making.props_eq (h : Making u root a cls r) :
    u.props a = r.1 :=
  h.stands.1.2.1

theorem alloc_same (cls : ViewClass) {x : Nat} (hx : x ≠ u.next) : SameAt u (u.alloc cls) x :=
  ⟨Function.update_of_ne hx _ _, Function.update_of_ne hx _ _, Function.update_of_ne hx _ _,
    Function.update_of_ne hx _ _, Function.update_of_ne hx _ _⟩

theorem making_alloc (u : Ui) (cls : ViewClass) :
    Making (u.alloc cls) false u.next cls (.initial, []) :=
  ⟨⟨⟨Function.update_self .., Function.update_self .., Function.update_self ..⟩,
    Function.update_self .., Function.update_self .., trivial⟩, rfl⟩

theorem setProps_same (p : Props) {x : Nat} (hx : x ≠ a) : SameAt u (u.setProps a p) x :=
  ⟨rfl, Function.update_of_ne hx _ _, rfl, rfl, rfl⟩

theorem Making.setProps (h : Making u root a cls r) (p : Props) :
    Making (u.setProps a p) root a cls (p, r.2) := by
  obtain ⟨⟨⟨hcls, hprops, hroot⟩, hsuper, hsubs, hall⟩, hnext⟩ := h
  refine ⟨⟨⟨hcls, Function.update_self .., hroot⟩, hsuper, hsubs, ?_⟩, hnext⟩
  exact StandAll.frame r.2 (fun x hx _ => setProps_same p (by omega)) hall

/-- The view at `a` is still being made, and the views before it are what they were. -/
structure Progress (u : Ui) (root : Bool) (a : Nat) (cls : ViewClass) (r : Props × List Desc)
  (u' : Ui) : Prop where
  making : Making u' root a cls r
  same : ∀ x, x < a → SameAt u u' x
  keeps : Keeps u u'

theorem Progress.trans {u' u'' : Ui} {r' : Props × List Desc} (h : Progress u root a cls r u')
    (h' : Progress u' root a cls r' u'') : Progress u root a cls r' u'' :=
  ⟨h'.making, fun x hx => (h.same x hx).trans (h'.same x hx), h.keeps.trans h'.keeps⟩

theorem Making.progress (h : Making u root a cls r) :
    Progress u root a cls r u :=
  ⟨h, fun _ _ => SameAt.rfl, Keeps.rfl⟩

/-- `addView` of a view that was just made. -/
theorem Making.addView {u' : Ui} (h : Making u root a cls r)
    {d : Desc} (hd : Made u false u' d) :
    ∃ u'', u'.addView a u.next = some u'' ∧ Progress u root a cls (r.1, r.2 ++ [d]) u'' := by
  obtain ⟨hstands, hnext⟩ := h
  have hlt : a < u.next := by omega
  have hold : Stands u' (.view cls r.1 r.2) root none a := by
    apply Stands.frame _ _ hstands
    intro x _ hx
    rw [Desc.size] at hx
    exact hd.same x (by omega)
  obtain ⟨⟨hcls, hprops, hroot⟩, hsuper, hsubs, hall⟩ := hold
  have hsize := d.size_pos
  have hmade := hd.next
  refine ⟨_, if_pos hd.stands.superview, ⟨⟨⟨hcls, hprops, hroot⟩, ?_, ?_, ?_⟩, ?_⟩, ?_, ?_⟩
  · exact (Function.update_of_ne (Nat.ne_of_lt hlt) _ _).trans hsuper
  · show Function.update u'.subviews a _ a = _
    rw [Function.update_self, hsubs, starts_append, starts, starts, hnext, Nat.add_assoc,
      Nat.add_comm 1]
  · rw [standAll_append]
    constructor
    · apply StandAll.frame r.2 _ hall
      intro x hx hlt
      exact ⟨rfl, rfl, rfl, Function.update_of_ne (by omega) _ _, Function.update_of_ne (by omega) _
        _⟩
    · refine ⟨?_, trivial⟩
      rw [Nat.add_assoc, Nat.add_comm 1, ← hnext]
      obtain ⟨cls', props', subviews'⟩ := d
      obtain ⟨⟨hcls', hprops', hroot'⟩, hsuper', hsubs', hall'⟩ := hd.stands
      refine ⟨⟨hcls', hprops', hroot'⟩, Function.update_self .., ?_, ?_⟩
      · exact (Function.update_of_ne (Nat.ne_of_gt hlt) _ _).trans hsubs'
      · apply StandAll.frame subviews' _ hall'
        intro x hx _
        exact ⟨rfl, rfl, rfl, Function.update_of_ne (by omega) _ _, Function.update_of_ne (by omega)
          _ _⟩
  · show u'.next = _
    rw [hmade, hnext, sizeAll_append, sizeAll, sizeAll]
    omega
  · intro x hx
    apply (hd.same x (by omega)).trans
    exact ⟨rfl, rfl, rfl, Function.update_of_ne (by omega) _ _, Function.update_of_ne (by omega) _
      _⟩
  · exact hd.keeps.trans (keeps_addView (by omega) (by omega) hsuper (Nat.ne_of_lt hlt)
      (if_pos hd.stands.superview))

theorem setRoot_same {x : Nat} (hx : x ≠ a) : SameAt u (u.setRoot a) x :=
  ⟨rfl, rfl, Function.update_of_ne hx _ _, rfl, rfl⟩

theorem Making.setRoot (h : Making u root a cls r) : Progress u true a cls r (u.setRoot a) := by
  obtain ⟨⟨⟨hcls, hprops, hroot⟩, hsuper, hsubs, hall⟩, hnext⟩ := h
  refine ⟨⟨⟨⟨hcls, hprops, Function.update_self ..⟩, hsuper, hsubs, ?_⟩, hnext⟩, ?_, ?_⟩
  · exact StandAll.frame r.2 (fun x hx _ => setRoot_same (by omega)) hall
  · exact fun x hx => setRoot_same (Nat.ne_of_lt hx)
  · exact ⟨id, fun _ h => ⟨h.listed, h.climbs, h.descends⟩⟩

section Make

variable [Platform] [FormatF]

/-- `createImpl` makes the tree that the val describes, and fails where there is none. -/
def Describes (v : Val Text) : Prop :=
  ∀ u, Option.Rel (fun d r => r.1 = u.next ∧ Made u false r.2 d) (describe v) (createImpl v u)

theorem addViews_rel {vec : List (Val Text)} (hvec : ∀ v ∈ vec, Describes v)
    (h : Making u root a cls r) :
    Option.Rel (fun ds u' => Progress u root a cls (r.1, r.2 ++ ds) u') (describeAll vec)
      (addViews a vec u) := by
  induction vec generalizing u r with
  | nil =>
    rw [describeAll, addViews]
    refine .some ?_
    rw [List.append_nil]
    exact h.progress
  | cons v vec ih =>
    rw [describeAll, addViews]
    apply rel_bind (hvec v (List.mem_cons_self ..) u)
    rintro d ⟨c, u'⟩ ⟨rfl, hmade⟩
    obtain ⟨u'', hadd, hfirst⟩ := h.addView hmade
    show Option.Rel _ (describeAll vec >>= fun ds => some (d :: ds))
      ((u'.addView a u.next).bind fun u' => addViews a vec u')
    rw [hadd, Option.bind_some]
    apply rel_last (ih (fun v hv => hvec v (List.mem_cons_of_mem _ hv)) hfirst.making)
    intro ds u₃ hprogress
    rw [List.append_assoc, List.singleton_append] at hprogress
    exact hfirst.trans hprogress

/-- The key `views` adds the subviews. -/
theorem applyViews_rel {v : Val Text} (hv : ∀ vec, v = .array vec → ∀ e ∈ vec, Describes e)
    (h : Making u root a cls r) :
    Option.Rel (fun ds m => Progress u root a cls (r.1, r.2 ++ ds) m.2)
      (describeField cls viewsKey v) (applyProp a viewsKey v u) := by
  rw [describeField.eq_def, applyProp.eq_def, passes_views]
  simp only [if_pos]
  cases v with
  | array vec =>
    have hrel := addViews_rel (hv vec rfl) h
    show Option.Rel _ (describeAll vec) ((addViews a vec u).map fun u => (true, u))
    generalize describeAll vec = x at hrel
    generalize addViews a vec u = y at hrel
    cases hrel with
    | none => exact .none
    | some hprogress => exact .some hprogress
  | _ =>
    refine .some ?_
    rw [List.append_nil]
    exact h.progress

/-- Any key changes the members as they are described, or adds the subviews. -/
theorem applyProp_rel {v : Val Text} (hv : ∀ vec, v = .array vec → ∀ e ∈ vec, Describes e)
    (key : Text) (h : Making u root a cls r) :
    Option.Rel (fun ds m => Progress u root a cls (described cls r.1 [(key, v)], r.2 ++ ds) m.2)
      (describeField cls key.content v) (applyProp a key.content v u) := by
  by_cases hkey : key.content = viewsKey
  · rw [described_views hkey, hkey]
    exact applyViews_rel hv h
  rw [describeField.eq_def, applyProp.eq_def, h.cls_eq, h.props_eq, if_neg hkey]
  rcases passes_eq cls hkey v r.1 with ⟨hpasses, haccepts⟩ | ⟨hpasses, haccepts, hsame⟩ |
    ⟨k, hpasses, hk, hset⟩
  · rw [hpasses, haccepts]
    exact .none
  · rw [hpasses, haccepts, hsame]
    refine .some ?_
    rw [List.append_nil]
    exact h.progress
  · rw [hpasses]
    simp only [if_neg hk]
    split_ifs at hset ⊢ with haccepts
    · obtain ⟨m, hm, hmembers⟩ := Option.map_eq_some_iff.mp hset
      rw [hm, ← hmembers]
      refine .some ?_
      rw [List.append_nil]
      exact ⟨h.setProps m.2, fun x hx => setProps_same m.2 (Nat.ne_of_lt hx),
        keeps_setProps u a m.2⟩
    · rw [Option.map_eq_none_iff.mp hset]
      exact .none

theorem applyProps_rel {fields : List (Text × Val Text)}
    (hfields : ∀ f ∈ fields, ∀ vec, f.2 = .array vec → ∀ e ∈ vec, Describes e)
    (h : Making u root a cls r) :
    Option.Rel (fun ds u' => Progress u root a cls (described cls r.1 fields, r.2 ++ ds) u')
      (describeFields cls fields) (applyProps a fields u) := by
  induction fields generalizing u r with
  | nil =>
    rw [describeFields, applyProps]
    refine .some ?_
    rw [List.append_nil]
    exact h.progress
  | cons f fields ih =>
    obtain ⟨key, v⟩ := f
    rw [describeFields, applyProps]
    apply rel_bind (applyProp_rel (hfields (key, v) (List.mem_cons_self ..)) key h)
    rintro ds ⟨known, u'⟩ hfirst
    apply rel_last (ih (fun f hf => hfields f (List.mem_cons_of_mem _ hf)) hfirst.making)
    intro rest u'' hprogress
    rw [described_cons, ← List.append_assoc]
    exact hfirst.trans hprogress

theorem describes (v : Val Text) : Describes v := by
  intro u
  cases v with
  | empty =>
    rw [describe, createImpl]
    have h := making_alloc u .View
    exact .some ⟨rfl, h.stands, h.next, fun x hx => alloc_same _ (Nat.ne_of_lt hx),
      keeps_alloc u .View⟩
  | map fields =>
    rw [describe, createImpl, viewClass_eq]
    cases describedClass fields with
    | none => exact .none
    | some cls =>
      have hfields : ∀ f ∈ fields, ∀ vec, f.2 = .array vec → ∀ e ∈ vec, Describes e := by
        intro f hf vec hvec e he
        exact describes e
      apply rel_bind (applyProps_rel hfields (making_alloc u cls))
      rintro subviews u' ⟨hmade, hsame, hkeeps⟩
      refine .some ⟨rfl, hmade.stands, hmade.next, ?_, (keeps_alloc u cls).trans hkeeps⟩
      intro x hx
      exact (alloc_same cls (Nat.ne_of_lt hx)).trans (hsame x hx)
  | _ => exact .none
termination_by sizeOf v
decreasing_by
  have h1 := List.sizeOf_lt_of_mem he
  have h2 := List.sizeOf_lt_of_mem hf
  obtain ⟨key, v⟩ := f
  simp only at hvec
  subst hvec
  simp only [Prod.mk.sizeOf_spec, Val.array.sizeOf_spec, Val.map.sizeOf_spec] at h2 ⊢
  omega

/-- A key of the window is shown by AppKit; any other is the root view's. -/
theorem applyWindowProp_rel (key : Text) (v : Val Text) (h : Making u root a .View r) :
    Option.Rel
      (fun ds m =>
        Progress u root a .View
          (described .View r.1 ([(key, v)].filter fun f => !windowKey f.1.content), r.2 ++ ds)
          m.2)
      (describeWindowField key.content v) (applyWindowProp a key.content v u) := by
  rw [describeWindowField, applyWindowProp]
  cases hkey : windowKey key.content with
  | false =>
    rw [List.filter_cons_of_pos (by rw [hkey]; rfl), List.filter_nil]
    have htitle : key.content ≠ lit ['t', 'i', 't', 'l', 'e'] := by
      intro htitle
      rw [htitle] at hkey
      exact absurd hkey (by decide)
    rw [if_neg htitle, if_neg htitle, if_neg Bool.false_ne_true, if_neg Bool.false_ne_true]
    exact applyProp_rel (fun vec _ e _ => describes e) key h
  | true =>
    rw [List.filter_cons_of_neg (by rw [hkey]; decide), List.filter_nil, described_nil]
    have hsome : Option.Rel (fun ds m => Progress u root a .View (r.1, r.2 ++ ds) m.2)
        (some []) (some (true, u)) := by
      refine .some ?_
      rw [List.append_nil]
      exact h.progress
    by_cases htitle : key.content = lit ['t', 'i', 't', 'l', 'e']
    · rw [if_pos htitle, if_pos htitle]
      split_ifs
      · exact hsome
      · exact .none
    · rw [if_neg htitle, if_neg htitle, if_pos rfl, if_pos rfl]
      exact hsome

theorem applyWindowProps_rel (fields : List (Text × Val Text)) (h : Making u root a .View r) :
    Option.Rel
      (fun ds u' =>
        Progress u root a .View
          (described .View r.1 (fields.filter fun f => !windowKey f.1.content), r.2 ++ ds) u')
      (describeWindowFields fields) (applyWindowProps a fields u) := by
  induction fields generalizing u r with
  | nil =>
    rw [List.filter_nil, describeWindowFields, applyWindowProps]
    refine .some ?_
    rw [List.append_nil]
    exact h.progress
  | cons f fields ih =>
    obtain ⟨key, v⟩ := f
    rw [describeWindowFields, applyWindowProps]
    apply rel_bind (applyWindowProp_rel key v h)
    rintro ds ⟨known, u'⟩ hfirst
    apply rel_last (ih hfirst.making)
    intro rest u'' hprogress
    rw [← List.singleton_append, List.filter_append, described_append, ← List.append_assoc]
    exact hfirst.trans hprogress

theorem windowDescribes (props : Val Text) (u : Ui) :
    Option.Rel (fun d w => w.1 = u.next ∧ Made u true w.2 d) (describeWindow props)
      (openWindow props u) := by
  have hnew : Progress u true u.next .View (.initial, []) ((u.alloc .View).setRoot u.next) := by
    have hroot := (making_alloc u .View).setRoot
    refine ⟨hroot.making, ?_, (keeps_alloc u .View).trans hroot.keeps⟩
    exact fun x hx => (alloc_same .View (Nat.ne_of_lt hx)).trans (hroot.same x hx)
  rw [describeWindow.eq_def, openWindow, createImpl]
  cases props with
  | map fields =>
    have hrel := applyWindowProps_rel fields hnew.making
    show Option.Rel _ (Option.map _ _) ((applyWindowProps u.next fields _).bind fun u' =>
      some (u.next, u'))
    generalize describeWindowFields fields = x at hrel
    generalize applyWindowProps u.next fields ((u.alloc .View).setRoot u.next) = y at hrel
    cases hrel with
    | none => exact .none
    | some hlast =>
      have hall := hnew.trans hlast
      exact .some ⟨rfl, hall.making.stands, hall.making.next, hall.same, hall.keeps⟩
  | _ => exact .some ⟨rfl, hnew.making.stands, hnew.making.next, hnew.same, hnew.keeps⟩

/-- So does the constructor of a window, with the keys that are not the window's own, and a root
view. -/
theorem openWindow_describes (props : Val Text) (u : Ui) :
    Option.Rel (fun d w => w.1 = u.next ∧ Stands w.2 d true none u.next ∧
      w.2.next = u.next + d.size ∧
      ∀ x, x < u.next → SameAt u w.2 x) (describeWindow props) (openWindow props u) :=
  rel_mono (windowDescribes props u) fun _ _ h => ⟨h.1, h.2.stands, h.2.next, h.2.same⟩

end Make

end Making

/-! ## Programs -/

theorem made_of_rel {root : Bool} {u u' : Ui} {x : Option Desc} {y : Option (Nat × Ui)}
    (hrel : Option.Rel (fun d r => r.1 = u.next ∧ Made u root r.2 d) x y)
    (h : y.map Prod.snd = some u') :
    ∃ d, Made u root u' d := by
  cases hrel with
  | none => cases h
  | some hmade =>
    cases h
    exact ⟨_, hmade.2⟩

theorem Made.climbsEnd {root : Bool} {u u' : Ui} {d : Desc} (hmade : Made u root u' d)
    (hu : Unmade u) (hclimbs : ClimbsEnd u'.superview) : ClimbsEnd u.superview := by
  have hsub : Subrelation (flip (Child u.superview)) (flip (Child u'.superview)) := by
    intro p c hchild
    have hc : u.superview c = some p := hchild
    by_cases hlt : c < u.next
    · exact ((hmade.same c hlt).superview).trans hc
    · rw [(hu c (Nat.le_of_not_lt hlt)).1] at hc
      cases hc
  exact fun v => hsub.accessible (hclimbs v)

section Programs

variable [Platform] [FormatF]

/-- What a program does to the hierarchy. -/
inductive Call where
  | create (v : Val Text)
  | window (props : Val Text)
  | addView (p c : Nat)

/-- `none` when an assertion fails, or for a view that is not made yet. -/
def Ui.exec (u : Ui) : Call → Option Ui
  | .create v => (createImpl v u).map Prod.snd
  | .window props => (openWindow props u).map Prod.snd
  | .addView p c => if p < u.next ∧ c < u.next then u.addView p c else none

def Ui.execAll (u : Ui) : List Call → Option Ui
  | [] => some u
  | call :: calls => (u.exec call).bind fun u' => u'.execAll calls

/-- The call does not add a view to itself or to a view below it. -/
def Ui.Opens (u : Ui) : Call → Prop
  | .create _ | .window _ => True
  | .addView p c => ¬Within u.superview p c

/-- No call of the program closes a cycle. -/
def Ui.Sound (u : Ui) : List Call → Prop
  | [] => True
  | call :: calls => u.Opens call ∧ ∀ u', u.exec call = some u' → u'.Sound calls

/-- Making views links none that were there. -/
theorem exec_made {call : Call} {u u' : Ui} (h : u.exec call = some u') :
    (∃ root d, Made u root u' d) ∨ ∃ p c, call = .addView p c := by
  cases call with
  | create v => exact Or.inl ⟨false, made_of_rel (describes v u) h⟩
  | window props => exact Or.inl ⟨true, made_of_rel (windowDescribes props u) h⟩
  | addView p c => exact Or.inr ⟨p, c, rfl⟩

theorem exec_addView {p c : Nat} {u u' : Ui} (h : u.exec (.addView p c) = some u') :
    p < u.next ∧ c < u.next ∧ u.addView p c = some u' := by
  rw [Ui.exec] at h
  split at h
  next hlt => exact ⟨hlt.1, hlt.2, h⟩
  next => cases h

theorem unmade_exec {call : Call} {u u' : Ui} (hu : Unmade u) (h : u.exec call = some u') :
    Unmade u' := by
  rcases exec_made h with ⟨root, d, hmade⟩ | ⟨p, c, rfl⟩
  · exact hmade.keeps.unmade hu
  · obtain ⟨hp, hc, hadd⟩ := exec_addView h
    exact unmade_addView hu hp hc hadd

theorem grown_exec {call : Call} {u u' : Ui} (hu : Unmade u) (hgrown : Grown u)
    (hopen : u.Opens call) (h : u.exec call = some u') : Grown u' := by
  rcases exec_made h with ⟨root, d, hmade⟩ | ⟨p, c, rfl⟩
  · exact hmade.keeps.grown hu hgrown
  · obtain ⟨-, -, hadd⟩ := exec_addView h
    exact hgrown.addView hopen hadd

theorem climbsEnd_of_exec {call : Call} {u u' : Ui} (hu : Unmade u) (h : u.exec call = some u')
    (hclimbs : ClimbsEnd u'.superview) : ClimbsEnd u.superview ∧ u.Opens call := by
  cases call with
  | create v =>
    obtain ⟨d, hmade⟩ := made_of_rel (describes v u) h
    exact ⟨hmade.climbsEnd hu hclimbs, trivial⟩
  | window props =>
    obtain ⟨d, hmade⟩ := made_of_rel (windowDescribes props u) h
    exact ⟨hmade.climbsEnd hu hclimbs, trivial⟩
  | addView p c =>
    obtain ⟨-, -, hadd⟩ := exec_addView h
    obtain ⟨hnone, hsuper, -, -⟩ := Ui.addView_superview hadd
    rw [hsuper] at hclimbs
    exact (climbsEnd_link_iff hnone).mp hclimbs

theorem grown_execAll {calls : List Call} {u u' : Ui} (hu : Unmade u) (hgrown : Grown u)
    (hsound : u.Sound calls) (h : u.execAll calls = some u') : Grown u' := by
  induction calls generalizing u with
  | nil =>
    cases h
    exact hgrown
  | cons call calls ih =>
    obtain ⟨u₁, h₁, h⟩ := Option.bind_eq_some_iff.mp h
    exact ih (unmade_exec hu h₁) (grown_exec hu hgrown hsound.1 h₁) (hsound.2 u₁ h₁) h

theorem sound_of_execAll {calls : List Call} {u u' : Ui} (hu : Unmade u)
    (h : u.execAll calls = some u') (hclimbs : ClimbsEnd u'.superview) :
    ClimbsEnd u.superview ∧ u.Sound calls := by
  induction calls generalizing u with
  | nil =>
    cases h
    exact ⟨hclimbs, trivial⟩
  | cons call calls ih =>
    obtain ⟨u₁, h₁, h⟩ := Option.bind_eq_some_iff.mp h
    obtain ⟨hclimbs₁, hsound₁⟩ := ih (unmade_exec hu h₁) h
    obtain ⟨hclimbs₀, hopen⟩ := climbsEnd_of_exec hu h₁ hclimbs₁
    refine ⟨hclimbs₀, hopen, ?_⟩
    intro u₂ h₂
    cases h₁.symm.trans h₂
    exact hsound₁

/-- A program that makes views from descriptions and adds them to each other leaves a forest just
when no call of `addView` adds a view to itself or to a view below it. -/
theorem hierarchy_program_iff [AppKit] {calls : List Call} {u : Ui}
    (h : Ui.start.execAll calls = some u) :
    Hierarchy u.state ↔ Ui.start.Sound calls := by
  constructor
  · intro hierarchy
    exact (sound_of_execAll unmade_start h fun v => rootOf_total_iff.mp (hierarchy.rooted v)).2
  · intro hsound
    exact (grown_execAll unmade_start grown_start hsound h).hierarchy

end Programs

/-- No number is printed. -/
@[reducible] def noFormat : FormatF where
  f32 _ := []
  f64 _ := []

/-- `{views: [{}, {}]}` -/
def twoViews : Val Text := .map [(Text.whole viewsKey (by decide), .array [.empty, .empty])]

/-- A view that takes the one that was just made. -/
theorem hierarchy_program_three : ∃ u, @Ui.execAll .plain noFormat .start
      [.create twoViews, .create .empty, .addView 3 0] = some u ∧
    @Hierarchy Nat _ .plain (@Ui.state bareKit u) := by
  have hrun : ∃ u₁ u₂ u, @Ui.exec .plain noFormat .start (.create twoViews) = some u₁ ∧
      @Ui.exec .plain noFormat u₁ (.create .empty) = some u₂ ∧ u₂.superview 3 = none ∧
      @Ui.execAll .plain noFormat .start
        [.create twoViews, .create .empty, .addView 3 0] = some u :=
    ⟨_, _, _, rfl, rfl, rfl, rfl⟩
  obtain ⟨u₁, u₂, u, h₁, h₂, hroot, h⟩ := hrun
  refine ⟨u, h, (@hierarchy_program_iff .plain noFormat bareKit _ u h).mpr ⟨trivial, ?_⟩⟩
  intro v₁ hv₁
  cases h₁.symm.trans hv₁
  refine ⟨trivial, ?_⟩
  intro v₂ hv₂
  cases h₂.symm.trans hv₂
  exact ⟨not_within_of_root hroot (by decide), fun _ _ => trivial⟩

end Libacorn.Views
