import Mathlib.Data.List.Nodup
import Libacorn.ViewPrograms

/-!
# The orders of findView and layout

In a forest `findView` goes over the views below the receiver once, and `layout` sets one
frame for each view of the subtree, a view before its subviews. Nothing below a view
depends on where its rectangle is.
-/

namespace Libacorn.Views

open Support Layout

/-! ## The order of findView -/

section Order

variable {V : Type} {S : State V}

/-- The views below a view in the order of `findView`: the subviews, and then what is below each. -/
def below (S : State V) : Nat → V → List V
  | 0, _ => []
  | n + 1, v => (S v).subviews ++ (S v).subviews.flatMap (below S n)

/-- A view and all views below it, each before its subviews. -/
def preorder (S : State V) : Nat → V → List V
  | 0, _ => []
  | n + 1, v => v :: (S v).subviews.flatMap (preorder S n)

theorem findBelow_eq {find : V → Outcome (Option V)} {f : V → List V} {p : V → Bool} {l : List V}
    (h : ∀ s ∈ l, find s = .done ((f s).find? p)) :
    findBelow find l = .done ((l.flatMap f).find? p) := by
  induction l with
  | nil => rfl
  | cons s l ih =>
    rw [findBelow, h s (List.mem_cons_self ..), Outcome.bind_done, List.flatMap_cons,
      List.find?_append]
    cases (f s).find? p with
    | some v => rfl
    | none => exact ih fun t ht => h t (List.mem_cons_of_mem s ht)

theorem findView_eq {n : Nat} {v : V} (h : Low S n v) (id : Bytes) :
    findView S n v id = .done ((below S n v).find? fun s => id == (S s).id) := by
  induction n generalizing v with
  | zero => exact h.elim
  | succ n ih =>
    rw [findView, below, List.find?_append]
    cases (S v).subviews.find? fun s => id == (S s).id with
    | some s => rfl
    | none => exact findBelow_eq fun s hs => ih (h s hs)

theorem below_mono {n m : Nat} (hnm : n ≤ m) {v : V} (h : Low S n v) :
    below S m v = below S n v := by
  induction n generalizing m v with
  | zero => exact h.elim
  | succ n ih =>
    obtain ⟨m, rfl⟩ := Nat.exists_eq_add_of_le' (Nat.lt_of_lt_of_le (Nat.succ_pos n) hnm)
    rw [below, below, List.flatMap_congr fun s hs => ih (Nat.le_of_succ_le_succ hnm) (h s hs)]

theorem preorder_mono {n m : Nat} (hnm : n ≤ m) {v : V} (h : Low S n v) :
    preorder S m v = preorder S n v := by
  induction n generalizing m v with
  | zero => exact h.elim
  | succ n ih =>
    obtain ⟨m, rfl⟩ := Nat.exists_eq_add_of_le' (Nat.lt_of_lt_of_le (Nat.succ_pos n) hnm)
    rw [preorder, preorder, List.flatMap_congr fun s hs => ih (Nat.le_of_succ_le_succ hnm) (h s hs)]

variable (hmem : ∀ v c, c ∈ (S v).subviews ↔ Child (fun u => (S u).superview) c v)
include hmem

theorem mem_below {n : Nat} {v : V} (h : Low S n v) (c : V) :
    c ∈ below S n v ↔ Relation.TransGen (Child fun u => (S u).superview) c v := by
  induction n generalizing v with
  | zero => exact h.elim
  | succ n ih =>
    rw [below, List.mem_append, List.mem_flatMap]
    constructor
    · rintro (hc | ⟨s, hs, hc⟩)
      · exact .single ((hmem v c).mp hc)
      · exact .tail ((ih (h s hs)).mp hc) ((hmem v s).mp hs)
    · intro hc
      rcases Relation.TransGen.tail'_iff.mp hc with ⟨s, hcs, hs⟩
      have hsv := (hmem v s).mpr hs
      rcases Relation.reflTransGen_iff_eq_or_transGen.mp hcs with rfl | hcs
      · exact Or.inl hsv
      · exact Or.inr ⟨s, hsv, (ih (h s hsv)).mpr hcs⟩

theorem mem_preorder {n : Nat} {v : V} (h : Low S n v) (c : V) :
    c ∈ preorder S n v ↔ Within (fun u => (S u).superview) c v := by
  induction n generalizing v with
  | zero => exact h.elim
  | succ n ih =>
    rw [preorder, List.mem_cons, List.mem_flatMap]
    constructor
    · rintro (rfl | ⟨s, hs, hc⟩)
      · exact .refl
      · exact .tail ((ih (h s hs)).mp hc) ((hmem v s).mp hs)
    · intro hc
      rcases Relation.ReflTransGen.cases_tail hc with rfl | ⟨s, hcs, hs⟩
      · exact Or.inl rfl
      · have hsv := (hmem v s).mpr hs
        exact Or.inr ⟨s, hsv, (ih (h s hsv)).mpr hcs⟩

variable (hclimbs : ClimbsEnd fun u => (S u).superview) (hnodup : ∀ v, (S v).subviews.Nodup)
include hclimbs hnodup

theorem nodup_below {n : Nat} {v : V} (h : Low S n v) : (below S n v).Nodup := by
  induction n generalizing v with
  | zero => exact h.elim
  | succ n ih =>
    rw [below, List.nodup_append', List.nodup_flatMap]
    refine ⟨hnodup v, ⟨fun s hs => ih (h s hs), ?_⟩, ?_⟩
    · apply (hnodup v).imp_of_mem
      intro s t hs ht hne c hcs hct
      have hcs := (mem_below hmem (h s hs) c).mp hcs
      have hct := (mem_below hmem (h t ht) c).mp hct
      exact hne (siblings_disjoint hclimbs ((hmem v s).mp hs) ((hmem v t).mp ht) hcs.to_reflTransGen
        hct.to_reflTransGen)
    · intro c hc hdeep
      obtain ⟨s, hs, hcs⟩ := List.mem_flatMap.mp hdeep
      have hcs := (mem_below hmem (h s hs) c).mp hcs
      have heq := siblings_disjoint hclimbs ((hmem v c).mp hc) ((hmem v s).mp hs) .refl
          hcs.to_reflTransGen
      rw [heq] at hcs
      exact not_below_self hclimbs s hcs

theorem nodup_preorder {n : Nat} {v : V} (h : Low S n v) : (preorder S n v).Nodup := by
  induction n generalizing v with
  | zero => exact h.elim
  | succ n ih =>
    rw [preorder, List.nodup_cons, List.nodup_flatMap]
    refine ⟨?_, fun s hs => ih (h s hs), ?_⟩
    · intro hv
      obtain ⟨s, hs, hvs⟩ := List.mem_flatMap.mp hv
      exact not_below_self hclimbs v
        (.tail' ((mem_preorder hmem (h s hs) v).mp hvs) ((hmem v s).mp hs))
    · apply (hnodup v).imp_of_mem
      intro s t hs ht hne c hcs hct
      exact hne (siblings_disjoint hclimbs ((hmem v s).mp hs) ((hmem v t).mp ht)
        ((mem_preorder hmem (h s hs) c).mp hcs)
        ((mem_preorder hmem (h t ht) c).mp hct))

end Order

/-! ## The frames of layout -/

theorem andThen_eq_some {V : Type} {x y : Outcome (Option (Frames V))} {frames : Frames V}
    (h : andThen x y = .done (some frames)) :
    ∃ f g, x = .done (some f) ∧ y = .done (some g) ∧ frames = f ++ g := by
  obtain ⟨r, hx, h⟩ := Outcome.bind_eq_done h
  cases r with
  | none => cases h
  | some f =>
    obtain ⟨r, hy, h⟩ := Outcome.bind_eq_done h
    cases r with
    | none => cases h
    | some g =>
      cases h
      exact ⟨f, g, hx, hy, rfl⟩

section Frames

variable {V : Type} {S : State V} [Platform]

/-- `layout` of each subview, wherever its rectangle is, sets the frames of the views `f s`. -/
theorem layoutFlex_frames {layout : V → Rect → Outcome (Option (Frames V))} {f : V → List V}
    {axis : Axis} {diff growTotal shrinkTotal : Float32} {l : List (V × Float32)} {rect : Rect}
    {frames : Frames V}
    (hl : ∀ e ∈ l, ∀ r frames, layout e.1 r = .done (some frames) → frames.map Prod.fst = f e.1)
    (h : layoutFlex S layout axis diff growTotal shrinkTotal l rect = .done (some frames)) :
    frames.map Prod.fst = (l.map Prod.fst).flatMap f := by
  induction l generalizing rect frames with
  | nil =>
    cases h
    rfl
  | cons e l ih =>
    obtain ⟨s, length⟩ := e
    rw [layoutFlex] at h
    cases hm : getActualMargins (S s).toView rect with
    | none =>
      simp only [hm] at h
      cases h
    | some margins =>
      simp only [hm] at h
      obtain ⟨g, g', hg, hg', rfl⟩ := andThen_eq_some h
      rw [List.map_append, hl (s, length) (List.mem_cons_self ..) _ _ hg,
        ih (fun e he => hl e (List.mem_cons_of_mem _ he)) hg', List.map_cons, List.flatMap_cons]

theorem layoutEach_frames {layout : V → Rect → Outcome (Option (Frames V))} {f : V → List V}
    {l : List V} {rect : Rect} {frames : Frames V}
    (hl : ∀ s ∈ l, ∀ r frames, layout s r = .done (some frames) → frames.map Prod.fst = f s)
    (h : layoutEach S layout rect l = .done (some frames)) : frames.map Prod.fst = l.flatMap f := by
  induction l generalizing frames with
  | nil =>
    cases h
    rfl
  | cons s l ih =>
    rw [layoutEach] at h
    cases hm : getActualMargins (S s).toView rect with
    | none =>
      simp only [hm] at h
      cases h
    | some margins =>
      simp only [hm] at h
      obtain ⟨g, g', hg, hg', rfl⟩ := andThen_eq_some h
      rw [List.map_append, hl s (List.mem_cons_self ..) _ _ hg,
        ih (fun t ht => hl t (List.mem_cons_of_mem s ht)) hg', List.flatMap_cons]

theorem layoutSubviews_frames {layout : V → Rect → Outcome (Option (Frames V))} {f : V → List V}
    {v : View V} {rect : Rect} {frames : Frames V}
    (hl : ∀ s ∈ v.subviews, ∀ r frames, layout s r = .done (some frames) →
      frames.map Prod.fst = f s)
    (h : layoutSubviews S layout v rect = .done (some frames)) :
    frames.map Prod.fst = v.subviews.flatMap f := by
  rw [layoutSubviews] at h
  cases ha : Axis.ofLayout v.layout with
  | none =>
    simp only [ha] at h
    exact layoutEach_frames hl h
  | some axis =>
    simp only [ha] at h
    cases hm : mainLengths axis rect (v.subviews.map fun s => (S s).toView) with
    | none =>
      simp only [hm] at h
      cases h
    | some lengths =>
      simp only [hm] at h
      have hlen : lengths.length = v.subviews.length := by
        rw [length_mainLengths hm, List.length_map]
      have hframes := layoutFlex_frames (f := f) (fun e he => hl e.1 (List.of_mem_zip he).1) h
      rwa [List.map_fst_zip (Nat.le_of_eq hlen.symm)] at hframes

/-- The frames are those of the views in preorder, without roots of windows. -/
theorem layout_frames {n : Nat} {v : V} {r : Rect} {frames : Frames V}
    (h : layout S n v r = .done (some frames)) :
    frames.map Prod.fst = (preorder S n v).filter fun a => !(S a).isRoot := by
  induction n generalizing v r frames with
  | zero => cases h
  | succ n ih =>
    have hown : ∀ l, ((if (S v).isRoot then [] else [(v, toLogical r)]).map Prod.fst) ++
        l.filter (fun a => !(S a).isRoot) = (v :: l).filter fun a => !(S a).isRoot := by
      intro l
      cases hroot : (S v).isRoot with
      | true =>
        rw [if_pos rfl, List.filter_cons_of_neg (by rw [hroot]; decide), List.map_nil,
          List.nil_append]
      | false =>
        rw [if_neg Bool.false_ne_true, List.filter_cons_of_pos (by rw [hroot]; decide),
          List.map_singleton, List.singleton_append]
    rw [layout] at h
    rw [preorder, ← hown]
    by_cases hsubs : (S v).subviews = []
    · rw [if_pos hsubs] at h
      cases h
      rw [hsubs, List.flatMap_nil, List.filter_nil, List.append_nil]
    · simp only [if_neg hsubs] at h
      cases hp : padded (S v).toView r with
      | none =>
        simp only [hp] at h
        cases h
      | some rect =>
        simp only [hp] at h
        obtain ⟨f, g, hf, hg, rfl⟩ := andThen_eq_some h
        cases hf
        rw [List.map_append, layoutSubviews_frames (fun s _ r frames hs => ih hs) hg,
          List.filter_flatMap]

theorem padded_moved (v : View V) (o o' : Point) (s : Size) :
    padded v.toView ⟨o', s⟩ = padded v.toView ⟨o, s⟩ := by
  rw [padded, padded, getActualPadding, getActualPadding, actualInsets.eq_def, actualInsets.eq_def]

/-- The frames with another one for `v`. -/
def reframe [DecidableEq V] (v : V) (r : Rect) (frames : Frames V) : Frames V :=
  frames.map fun f => if f.1 = v then (v, toLogical r) else f

theorem reframe_other [DecidableEq V] {v : V} {r : Rect} {frames : Frames V}
    (h : v ∉ frames.map Prod.fst) :
    reframe v r frames = frames := by
  rw [reframe]
  nth_rewrite 2 [← List.map_id frames]
  apply List.map_congr_left
  intro f hf
  rw [if_neg, id]
  rintro rfl
  exact h (List.mem_map_of_mem hf)

theorem reframe_own [DecidableEq V] {v : V} {o o' : Point} {s : Size} {root : Bool} :
    reframe v ⟨o', s⟩ (if root then [] else [(v, toLogical ⟨o, s⟩)]) =
      if root then [] else [(v, toLogical ⟨o', s⟩)] := by
  cases root with
  | true => rfl
  | false =>
    rw [if_neg Bool.false_ne_true, if_neg Bool.false_ne_true, reframe, List.map_singleton,
      if_pos rfl]

/-- Where the rectangle of a view is changes the frame of this view, and of no other. -/
theorem layout_moved [DecidableEq V] {n : Nat} {v : V}
    (hv : v ∉ (S v).subviews.flatMap (preorder S (n - 1))) (o o' : Point) (s : Size) :
    layout S n v ⟨o', s⟩ = (layout S n v ⟨o, s⟩).bind fun r =>
      .done (r.map (reframe v ⟨o', s⟩)) := by
  cases n with
  | zero => rfl
  | succ n =>
    rw [layout, layout]
    by_cases hsubs : (S v).subviews = []
    · rw [if_pos hsubs, if_pos hsubs, Outcome.bind_done, Option.map_some, reframe_own]
    · simp only [if_neg hsubs, padded_moved _ o o' s]
      cases padded (S v).toView ⟨o, s⟩ with
      | none => rfl
      | some rect =>
        simp only [andThen, Outcome.bind_done]
        cases hrest : layoutSubviews S (layout S n) (S v) rect with
        | timeout => rfl
        | fault => rfl
        | done r =>
          cases r with
          | none => rfl
          | some rest =>
            have hfst := layoutSubviews_frames (fun s _ r frames hs => layout_frames hs) hrest
            have hother : reframe v ⟨o', s⟩ rest = rest := by
              apply reframe_other
              rw [hfst, ← List.filter_flatMap]
              exact fun hmem => hv (List.mem_of_mem_filter hmem)
            simp only [Outcome.bind_done, Option.map_some]
            rw [← reframe_own (o := o), reframe, reframe, List.map_append, ← reframe, ← reframe,
              hother]

end Frames

/-! ## Programs -/

section Programs

variable [AppKit]

/-- Every view is in the list of its superview, and in no other. -/
theorem Grown.mem_subviews {u : Ui} (h : Grown u) (v c : Nat) :
    c ∈ (u.state v).subviews ↔ Child (fun x => (u.state x).superview) c v := by
  have hcount := h.listed v c
  constructor
  · intro hc
    by_contra hne
    rw [if_neg (show ¬u.superview c = some v from hne)] at hcount
    exact List.count_eq_zero.mp hcount hc
  · intro hc
    rw [if_pos (show u.superview c = some v from hc)] at hcount
    apply List.count_pos_iff.mp
    rw [show List.count c (u.state v).subviews = 1 from hcount]
    decide

theorem Grown.nodup_subviews {u : Ui} (h : Grown u) (v : Nat) : (u.state v).subviews.Nodup := by
  rw [List.nodup_iff_count_le_one]
  intro c
  have hcount := h.listed v c
  split at hcount
  next => exact Nat.le_of_eq hcount
  next => exact (Nat.le_of_eq hcount).trans (Nat.zero_le 1)

theorem Grown.exists_low {u : Ui} (h : Grown u) (v : Nat) : ∃ n, Low u.state n v :=
  Views.exists_low (fun v c hc => (h.mem_subviews v c).mp hc) (h.descends v)

variable [Platform] [FormatF]

/-- In every program that closes no cycle, `findView` looks at each view below the receiver once,
the subviews first and then what is below each of them, and returns the first one with the id. -/
theorem findView_program {calls : List Call} {u : Ui} (h : Ui.start.execAll calls = some u)
    (hsound : Ui.start.Sound calls) (v : Nat) :
    ∃ n, (below u.state n v).Nodup ∧
      (∀ c, c ∈ below u.state n v ↔ Relation.TransGen (Child u.superview) c v) ∧
      ∀ m id, n ≤ m → findView u.state m v id =
        .done ((below u.state n v).find? fun s => id == (u.props s).id) := by
  have hgrown := grown_execAll unmade_start grown_start hsound h
  obtain ⟨n, hn⟩ := hgrown.exists_low v
  refine ⟨n, nodup_below hgrown.mem_subviews hgrown.climbs hgrown.nodup_subviews hn,
    mem_below hgrown.mem_subviews hn, ?_⟩
  intro m id hm
  rw [findView_eq (hn.mono hm) id, below_mono hm hn]
  rfl

/-- In every program that closes no cycle, a layout that meets no failed assertion sets one frame
for the view and one for each view below it, in preorder and without roots of windows; and all but
the first depend on the size alone. -/
theorem layout_program {calls : List Call} {u : Ui} (h : Ui.start.execAll calls = some u)
    (hsound : Ui.start.Sound calls) (v : Nat) :
    ∃ n, ∀ m, n ≤ m →
      (∀ r frames, layout u.state m v r = .done (some frames) →
        frames.map Prod.fst = (preorder u.state n v).filter (fun a => !u.isRoot a) ∧
          (frames.map Prod.fst).Nodup ∧
          ∀ a, a ∈ frames.map Prod.fst ↔ Within u.superview a v ∧ u.isRoot a = false) ∧
      ∀ o o' s, layout u.state m v ⟨o', s⟩ =
        (layout u.state m v ⟨o, s⟩).bind fun f => .done (f.map (reframe v ⟨o', s⟩)) := by
  have hgrown := grown_execAll unmade_start grown_start hsound h
  obtain ⟨n, hn⟩ := hgrown.exists_low v
  refine ⟨n, ?_⟩
  intro m hm
  have hpre := preorder_mono hm hn
  have hmemv := mem_preorder hgrown.mem_subviews hn
  have hnodup := nodup_preorder hgrown.mem_subviews hgrown.climbs hgrown.nodup_subviews hn
  constructor
  · intro r frames hframes
    have hfst := layout_frames hframes
    rw [hpre] at hfst
    refine ⟨hfst, ?_, ?_⟩
    · rw [hfst]
      exact hnodup.filter _
    · intro a
      rw [hfst, List.mem_filter, hmemv a, Bool.not_eq_true']
      rfl
  · intro o o' s
    apply layout_moved
    have hnodup := nodup_preorder hgrown.mem_subviews hgrown.climbs hgrown.nodup_subviews
        (hn.mono hm)
    cases m with
    | zero => exact (hn.mono hm).elim
    | succ m => exact (List.nodup_cons.mp hnodup).1

end Programs

theorem findView_program_three : ∃ u, @Ui.execAll .plain noFormat .start
      [.create twoViews, .create .empty] = some u ∧
    ∃ n, (below (@Ui.state bareKit u) n 0).Nodup ∧
      (∀ c, c ∈ below (@Ui.state bareKit u) n 0 ↔ Relation.TransGen (Child u.superview) c 0) ∧
      ∀ m id, n ≤ m → findView (@Ui.state bareKit u) m 0 id =
        .done ((below (@Ui.state bareKit u) n 0).find? fun s => id == (u.props s).id) := by
  have hrun : ∃ u, @Ui.execAll .plain noFormat .start
      [.create twoViews, .create .empty] = some u := ⟨_, rfl⟩
  obtain ⟨u, hu⟩ := hrun
  exact ⟨u, hu, @findView_program bareKit .plain noFormat _ u hu
    ⟨trivial, fun _ _ => ⟨trivial, fun _ _ => trivial⟩⟩ 0⟩

theorem layout_program_three : ∃ u, @Ui.execAll .plain noFormat .start
      [.create twoViews, .create .empty] = some u ∧
    ∃ n, ∀ m, n ≤ m →
      (∀ r frames, @layout Nat (@Ui.state bareKit u) .plain m 0 r = .done (some frames) →
        frames.map Prod.fst = (preorder (@Ui.state bareKit u) n 0).filter (fun a => !u.isRoot a) ∧
          (frames.map Prod.fst).Nodup ∧
          ∀ a, a ∈ frames.map Prod.fst ↔ Within u.superview a 0 ∧ u.isRoot a = false) ∧
      ∀ o o' s, @layout Nat (@Ui.state bareKit u) .plain m 0 ⟨o', s⟩ =
        (@layout Nat (@Ui.state bareKit u) .plain m 0 ⟨o, s⟩).bind fun f =>
          .done (f.map (@reframe Nat .plain _ 0 ⟨o', s⟩)) := by
  have hrun : ∃ u, @Ui.execAll .plain noFormat .start
      [.create twoViews, .create .empty] = some u := ⟨_, rfl⟩
  obtain ⟨u, hu⟩ := hrun
  exact ⟨u, hu, @layout_program bareKit .plain noFormat _ u hu
    ⟨trivial, fun _ _ => ⟨trivial, fun _ _ => trivial⟩⟩ 0⟩

end Libacorn.Views
