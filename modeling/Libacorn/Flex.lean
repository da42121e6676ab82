import Mathlib.Algebra.BigOperators.Group.List.Basic
import Mathlib.Tactic.Linarith
import Libacorn.Lengths
import Libacorn.Views

/-!
# ux/view.cpp: the flexbox

The second loop of `layout` strips a subview of its margins, and then advances by what
is left of its length, where the margins belong to the length that it has used.
`tiles_iff`: the subviews tile their container just when no subview but the last has
margins along the axis.
-/

namespace Libacorn.Lengths

open Support Layout

/-! ## The source -/

section Source

variable {K : Type} [Add K] [Sub K] [Mul K] [Div K] [LE K] [LT K] [DecidableLE K] [DecidableLT K]
  [Reading K]

/-- The second loop: the rectangles that are passed to the `layout` of the subviews. -/
def flexRects (axis : Axis) (diff growTotal shrinkTotal : K) :
    List (View K × K) → Rect K → Option (List (Rect K))
  | [], _ => some []
  | (v, length) :: l, rect =>
    (getActualMargins v rect).bind fun margins =>
      let subrect := flexRect axis rect v margins (flexed v length diff growTotal shrinkTotal)
      (flexRects axis diff growTotal shrinkTotal l (advance rect (main subrect.size axis) axis)).map
        fun rects => subrect :: rects

/-- `layout` with a layout of 'row' or 'column', on the rectangle without the padding. -/
def flexLayout (axis : Axis) (rect : Rect K) (subviews : List (View K)) : Option (List (Rect K)) :=
  (mainLengths axis rect subviews).bind fun lengths =>
    flexRects axis (leftOver axis rect lengths) (total (subviews.map View.flexGrow))
      (total (subviews.map View.flexShrink)) (subviews.zip lengths) rect

/-- The rectangles that a view with such a layout passes to its subviews. -/
def layoutRects (v : View K) (subviews : List (View K)) (r : Rect K) : Option (List (Rect K)) :=
  (Axis.ofLayout v.layout).bind fun axis =>
    (padded v r).bind fun rect => flexLayout axis rect subviews

end Source

/-! ## The arithmetic of the machine -/

section Machine

variable [Platform] {V : Type}

/-- The calls of `layout`, one after the other. -/
def layoutAll (layout : V → Rect Float32 → Outcome (Option (Views.Frames V))) :
    List (V × Rect Float32) → Outcome (Option (Views.Frames V))
  | [] => .done (some [])
  | (s, r) :: l => Views.andThen (layout s r) (layoutAll layout l)

/-- The rectangles are those that `Views` passes to the subviews. -/
theorem layoutFlex_rects (S : Views.State V)
    (layout : V → Rect Float32 → Outcome (Option (Views.Frames V))) (axis : Axis)
    (diff growTotal shrinkTotal : Float32) {l : List (V × Float32)} {rect : Rect Float32}
    {rects : List (Rect Float32)}
    (h : flexRects axis diff growTotal shrinkTotal (l.map fun e => ((S e.1).toView, e.2)) rect =
      some rects) :
    Views.layoutFlex S layout axis diff growTotal shrinkTotal l rect =
      layoutAll layout ((l.map Prod.fst).zip rects) := by
  induction l generalizing rect rects with
  | nil => rfl
  | cons e l ih =>
    obtain ⟨s, length⟩ := e
    obtain ⟨margins, hm, h⟩ := Option.bind_eq_some_iff.mp h
    obtain ⟨rects, hrects, rfl⟩ := Option.map_eq_some_iff.mp h
    rw [Views.layoutFlex]
    simp only [hm]
    rw [ih hrects]
    rfl

/-- In the arithmetic of the machine the flexbox of a view is that of `Views`. -/
theorem layoutSubviews_rects (S : Views.State V)
    (layout : V → Rect Float32 → Outcome (Option (Views.Frames V))) {axis : Axis}
    {v : Views.View V} (hv : Axis.ofLayout v.layout = some axis) {rect : Rect Float32}
    {rects : List (Rect Float32)}
    (h : flexLayout axis rect (v.subviews.map fun s => (S s).toView) = some rects) :
    Views.layoutSubviews S layout v rect = layoutAll layout (v.subviews.zip rects) := by
  obtain ⟨lengths, hlengths, hrects⟩ := Option.bind_eq_some_iff.mp h
  have hlen : lengths.length = v.subviews.length := by
    rw [length_mainLengths hlengths, List.length_map]
  have hzip : (v.subviews.map fun s => (S s).toView).zip lengths =
      (v.subviews.zip lengths).map fun e => ((S e.1).toView, e.2) := by
    rw [List.zip_map_left]
    rfl
  rw [hzip] at hrects
  rw [Views.layoutSubviews, hv]
  simp only [hlengths]
  rw [layoutFlex_rects S layout axis _ _ _ hrects,
    List.map_fst_zip (Nat.le_of_eq hlen.symm)]

end Machine

/-! ## Boxes -/

/-- Each box, from its start to its end, starts where the one before it ends. -/
def Adjoin : ℚ → List (ℚ × ℚ) → Prop
  | _, [] => True
  | at', b :: l => b.1 = at' ∧ Adjoin b.2 l

/-- The boxes of subviews with their lengths and margins, where the next subview starts its
margins too early. -/
def boxes : ℚ → List (ℚ × ℚ) → List (ℚ × ℚ)
  | _, [] => []
  | at', (length, margin) :: l => (at', at' + length) :: boxes (at' + (length - margin)) l

theorem adjoin_boxes (l : List (ℚ × ℚ)) (p q : ℚ) :
    Adjoin q (boxes p l) ↔ (l ≠ [] → p = q) ∧ ∀ e ∈ l.dropLast, e.2 = 0 := by
  induction l generalizing p q with
  | nil => simp [Adjoin, boxes]
  | cons e l ih =>
    obtain ⟨length, margin⟩ := e
    have hstep : p + (length - margin) = p + length ↔ margin = 0 := by
      constructor
      · intro h
        linarith
      · intro h
        rw [h, sub_zero]
    rw [boxes, Adjoin, ih, hstep]
    cases l with
    | nil => simp
    | cons e' l => simp

theorem boxes_last (l : List (ℚ × ℚ)) (p : ℚ) (hl : ∀ e ∈ l.dropLast, e.2 = 0) :
    ∀ b ∈ (boxes p l).getLast?, b.2 = p + (l.map Prod.fst).sum := by
  induction l generalizing p with
  | nil => simp [boxes]
  | cons e l ih =>
    obtain ⟨length, margin⟩ := e
    cases l with
    | nil => simp [boxes]
    | cons e' l =>
      have hmargin : margin = 0 := hl (length, margin) (by simp)
      have hrest := ih (p + (length - margin)) fun e he => hl e (by simp [he])
      intro b hb
      rw [boxes, boxes, List.getLast?_cons_cons] at hb
      rw [hrest b hb, hmargin, List.map_cons (l := e' :: l), List.sum_cons]
      ring

/-! ## Tilings -/

section Exact

/-- Insets without percentages, which no assertion rejects. -/
def FixedInsets : CVal → Prop
  | .empty => True
  | .array l => (l.length = 2 ∨ l.length = 4) ∧ ∀ e ∈ l, ∀ unitVal, e ≠ .measurement unitVal .PC
  | v => isNumeric v = true ∧ ∀ unitVal, v ≠ .measurement unitVal .PC

variable [ExactPlatform]

/-- The margins of a subview of the rectangle. -/
def ownMargins (v : View ℚ) (rect : Rect ℚ) : Insets ℚ :=
  (getActualMargins v rect).getD ⟨0, 0, 0, 0⟩

/-- The rectangle extended by the margins, along the axis. -/
def outerBox (axis : Axis) (m : Insets ℚ) (r : Rect ℚ) : ℚ × ℚ :=
  match axis with
  | .row => (r.origin.x - m.left, r.origin.x + r.size.width + m.right)
  | .column => (r.origin.y - m.top, r.origin.y + r.size.height + m.bottom)

/-- The outer boxes of the subviews of a rectangle. -/
def outerBoxes (axis : Axis) (rect : Rect ℚ) (subviews : List (View ℚ)) (rects : List (Rect ℚ)) :
    List (ℚ × ℚ) :=
  subviews.zipWith (fun v r => outerBox axis (ownMargins v rect) r) rects

/-- What is left over is taken up by growing, and what is missing by shrinking. -/
def Flexible (subviews : List (View ℚ)) (diff : ℚ) : Prop :=
  (0 < diff → 0 < total (subviews.map View.flexGrow)) ∧
    (diff < 0 → 0 < total (subviews.map View.flexShrink))

/-- Every subview is laid out, and their outer boxes go from the start of the rectangle to its
end. -/
structure Tiles (axis : Axis) (rect : Rect ℚ) (subviews : List (View ℚ)) (rects : List (Rect ℚ)) :
    Prop where
  length : rects.length = subviews.length
  adjoin : Adjoin (start rect.origin axis) (outerBoxes axis rect subviews rects)
  ends : ∀ lengths, mainLengths axis rect subviews = some lengths →
    Flexible subviews (leftOver axis rect lengths) →
    ∀ b ∈ (outerBoxes axis rect subviews rects).getLast?,
      b.2 = start rect.origin axis + main rect.size axis

theorem valuePx_fixed {e : CVal} (he : ∀ unitVal, e ≠ .measurement unitVal .PC) (l l' : ℚ) :
    valuePx (measurementVal e) l = valuePx (measurementVal e) l' := by
  cases e with
  | measurement unitVal unit =>
    cases unit with
    | PC => exact absurd rfl (he unitVal)
    | _ => rfl
  | _ => rfl

/-- Fixed insets are the same in every rectangle. -/
theorem FixedInsets.same {v : CVal} (h : FixedInsets v) :
    ∃ m : Insets ℚ, ∀ r, actualInsets v r = some m := by
  cases v with
  | empty => exact ⟨_, fun _ => rfl⟩
  | array l =>
    obtain ⟨hlen, hl⟩ := h
    match l with
    | [a, b] =>
      refine ⟨⟨valuePx (measurementVal a) 0, valuePx (measurementVal b) 0,
        valuePx (measurementVal a) 0, valuePx (measurementVal b) 0⟩, fun r => ?_⟩
      rw [actualInsets, valuePx_fixed (hl a (by simp)) _ 0, valuePx_fixed (hl b (by simp)) _ 0]
    | [a, b, c, d] =>
      refine ⟨⟨valuePx (measurementVal a) 0, valuePx (measurementVal b) 0,
        valuePx (measurementVal c) 0, valuePx (measurementVal d) 0⟩, fun r => ?_⟩
      rw [actualInsets, valuePx_fixed (hl a (by simp)) _ 0, valuePx_fixed (hl b (by simp)) _ 0,
        valuePx_fixed (hl c (by simp)) _ 0, valuePx_fixed (hl d (by simp)) _ 0]
    | [] => simp at hlen
    | [_] => simp at hlen
    | [_, _, _] => simp at hlen
    | _ :: _ :: _ :: _ :: _ :: _ => simp at hlen
  | _ => exact ⟨_, fun r => actualInsets_numeric h.1 r⟩

theorem margins_eq {v : View ℚ} (h : FixedInsets v.margin) (rect r : Rect ℚ) :
    getActualMargins v r = some (ownMargins v rect) := by
  obtain ⟨m, hm⟩ := h.same
  rw [ownMargins, getActualMargins, getActualMargins, hm, hm, Option.getD_some]

/-- A subview without `x` and `y`, and with margins that are not percentages. -/
structure Plain (v : View ℚ) : Prop where
  x : v.x = .empty
  y : v.y = .empty
  margin : FixedInsets v.margin

theorem Plain.position {v : View ℚ} (h : Plain v) (rect subrect : Rect ℚ) :
    position v rect subrect = subrect := by
  rw [Layout.position, h.x, h.y]
  rfl

omit [ExactPlatform] in
/-- One round of the second loop. -/
theorem round_eq (axis : Axis) (rect : Rect ℚ) (m : Insets ℚ) (length : ℚ) :
    let subrect := m.applyToRect ⟨rect.origin, withMain rect.size length axis⟩
    outerBox axis m subrect = (start rect.origin axis, start rect.origin axis + length) ∧
      start (advance rect (main subrect.size axis) axis).origin axis =
        start rect.origin axis + (length - margins m axis) := by
  cases axis with
  | row =>
    refine ⟨Prod.ext ?_ ?_, rfl⟩
    · exact add_sub_cancel_right ..
    · show rect.origin.x + m.left + (length - (m.left + m.right)) + m.right = rect.origin.x + length
      ring
  | column =>
    refine ⟨Prod.ext ?_ ?_, rfl⟩
    · exact add_sub_cancel_right ..
    · show rect.origin.y + m.top + (length - (m.top + m.bottom)) + m.bottom = rect.origin.y + length
      ring

/-- The second loop makes boxes that leave out the margins. -/
theorem flexRects_boxes {axis : Axis} {diff growTotal shrinkTotal : ℚ} (container : Rect ℚ)
    {l : List (View ℚ × ℚ)} (hl : ∀ e ∈ l, Plain e.1) (rect : Rect ℚ) :
    ∃ rects, flexRects axis diff growTotal shrinkTotal l rect = some rects ∧
      rects.length = l.length ∧
      outerBoxes axis container (l.map Prod.fst) rects =
        boxes (start rect.origin axis) (l.map fun e =>
          (flexed e.1 e.2 diff growTotal shrinkTotal,
            margins (ownMargins e.1 container) axis)) := by
  induction l generalizing rect with
  | nil => exact ⟨[], rfl, rfl, rfl⟩
  | cons e l ih =>
    obtain ⟨v, length⟩ := e
    have hv : Plain v := hl (v, length) (List.mem_cons_self ..)
    obtain ⟨hbox, hnext⟩ := round_eq axis rect (ownMargins v container)
      (flexed v length diff growTotal shrinkTotal)
    obtain ⟨subrect, hsub⟩ : ∃ subrect, subrect = (ownMargins v container).applyToRect
        ⟨rect.origin, withMain rect.size (flexed v length diff growTotal shrinkTotal) axis⟩ :=
          ⟨_, rfl⟩
    rw [← hsub] at hbox hnext
    obtain ⟨rects, hrects, hlen, hboxes⟩ := ih (fun e he => hl e (List.mem_cons_of_mem _ he))
      (advance rect (main subrect.size axis) axis)
    refine ⟨subrect :: rects, ?_, congrArg (· + 1) hlen, ?_⟩
    · rw [flexRects, margins_eq hv.margin container, Option.bind_some, flexRect, hv.position,
        ← hsub]
      show Option.map _ _ = _
      rw [hrects, Option.map_some]
    · rw [hnext] at hboxes
      rw [List.map_cons, outerBoxes, List.zipWith_cons_cons, hbox, List.map_cons, boxes, ← hboxes]
      rfl

theorem mainLengths_plain {axis : Axis} {rect : Rect ℚ} {l : List (View ℚ)}
    (hl : ∀ v ∈ l, Plain v) :
    ∃ lengths, mainLengths axis rect l = some lengths := by
  induction l with
  | nil => exact ⟨[], rfl⟩
  | cons v l ih =>
    obtain ⟨xs, hxs⟩ := ih fun w hw => hl w (List.mem_cons_of_mem _ hw)
    obtain ⟨m, hm⟩ := (hl v (List.mem_cons_self ..)).margin.same
    have hx : ∃ x, mainLength axis rect v = some x := by
      rw [mainLength, getActualMargins, hm]
      exact ⟨_, rfl⟩
    obtain ⟨x, hx⟩ := hx
    exact ⟨x :: xs, by rw [mainLengths, hx, hxs]; rfl⟩

theorem total_eq (l : List ℚ) : total l = l.sum := by
  rw [total, List.sum_eq_foldl]
  rfl

omit [ExactPlatform] in
theorem sum_share (share : View ℚ → ℚ) (sum diff : ℚ) (l : List (View ℚ × ℚ)) :
    (l.map fun e => e.2 + share e.1 / sum * diff).sum =
      (l.map Prod.snd).sum + (l.map fun e => share e.1).sum / sum * diff := by
  induction l with
  | nil => simp
  | cons e l ih =>
    simp only [List.map_cons, List.sum_cons, ih]
    ring

omit [ExactPlatform] in
theorem sum_zip (share : View ℚ → ℚ) (sum diff : ℚ) {subviews : List (View ℚ)} {lengths : List ℚ}
    (hlen : lengths.length = subviews.length) :
    ((subviews.zip lengths).map fun e => e.2 + share e.1 / sum * diff).sum =
      lengths.sum + (subviews.map share).sum / sum * diff := by
  have hfst : ((subviews.zip lengths).map fun e => share e.1) = subviews.map share := by
    have hmap := congrArg (List.map share) (List.map_fst_zip (Nat.le_of_eq hlen.symm))
    rwa [List.map_map] at hmap
  rw [sum_share, List.map_snd_zip (Nat.le_of_eq hlen), hfst]

theorem flexed_grow (v : View ℚ) (length shrinkTotal : ℚ) {diff growTotal : ℚ} (hdiff : 0 ≤ diff)
    (hgrow : 0 < growTotal) :
    flexed v length diff growTotal shrinkTotal = length + v.flexGrow / growTotal * diff :=
  if_pos ⟨hdiff, hgrow⟩

theorem flexed_shrink (v : View ℚ) (length growTotal : ℚ) {diff shrinkTotal : ℚ} (hdiff : diff < 0)
    (hshrink : 0 < shrinkTotal) :
    flexed v length diff growTotal shrinkTotal = length + v.flexShrink / shrinkTotal * diff := by
  rw [flexed, if_neg fun h => absurd h.1 (not_le.mpr hdiff), if_pos ⟨hdiff, hshrink⟩]

theorem flexed_zero (v : View ℚ) (length growTotal shrinkTotal : ℚ) :
    flexed v length 0 growTotal shrinkTotal = length := by
  rw [flexed]
  split_ifs with hgrow hshrink
  · rw [mul_zero, add_zero]
  · exact absurd hshrink.1 (lt_irrefl 0)
  · rfl

/-- What is left over or missing is shared out. -/
theorem sum_flexed {subviews : List (View ℚ)} {lengths : List ℚ}
    (hlen : lengths.length = subviews.length) {diff : ℚ} (hflex : Flexible subviews diff) :
    ((subviews.zip lengths).map fun e => flexed e.1 e.2 diff (total (subviews.map View.flexGrow))
      (total (subviews.map View.flexShrink))).sum = lengths.sum + diff := by
  rcases lt_trichotomy diff 0 with hneg | rfl | hpos
  · have hsum := hflex.2 hneg
    simp only [flexed_shrink _ _ _ hneg hsum]
    rw [sum_zip _ _ _ hlen, ← total_eq (subviews.map _), div_self hsum.ne', one_mul]
  · simp only [flexed_zero]
    rw [add_zero, List.map_snd_zip (Nat.le_of_eq hlen)]
  · have hsum := hflex.1 hpos
    simp only [flexed_grow _ _ _ hpos.le hsum]
    rw [sum_zip _ _ _ hlen, ← total_eq (subviews.map _), div_self hsum.ne', one_mul]

theorem flexLayout_plain (axis : Axis) (rect : Rect ℚ) {subviews : List (View ℚ)}
    (hplain : ∀ c ∈ subviews, Plain c) :
    ∃ lengths rects, mainLengths axis rect subviews = some lengths ∧
      flexLayout axis rect subviews = some rects ∧ rects.length = subviews.length ∧
      outerBoxes axis rect subviews rects = boxes (start rect.origin axis)
        ((subviews.zip lengths).map fun e =>
          (flexed e.1 e.2 (leftOver axis rect lengths) (total (subviews.map View.flexGrow))
            (total (subviews.map View.flexShrink)), margins (ownMargins e.1 rect) axis)) := by
  obtain ⟨lengths, hlengths⟩ := mainLengths_plain hplain
  have hle : subviews.length ≤ lengths.length := Nat.le_of_eq (length_mainLengths hlengths).symm
  have hzip : ∀ e ∈ subviews.zip lengths, Plain e.1 := fun e he => hplain e.1 (List.of_mem_zip he).1
  obtain ⟨rects, hrects, hlen, hboxes⟩ := flexRects_boxes rect hzip rect
  rw [List.map_fst_zip hle] at hboxes
  rw [List.length_zip, Nat.min_eq_left hle] at hlen
  refine ⟨lengths, rects, hlengths, ?_, hlen, hboxes⟩
  rw [flexLayout, hlengths, Option.bind_some, hrects]

/-- The outer boxes of the subviews tile the rectangle without the padding if and only if
every subview but the last has margins along the axis that add up to nothing. -/
theorem tiles_iff (v : View ℚ) (subviews : List (View ℚ)) (r : Rect ℚ) {axis : Axis} {rect : Rect ℚ}
    (hlayout : Axis.ofLayout v.layout = some axis) (hpadding : padded v r = some rect)
    (hplain : ∀ c ∈ subviews, Plain c) :
    (∃ rects, layoutRects v subviews r = some rects ∧ Tiles axis rect subviews rects) ↔
      ∀ c ∈ subviews.dropLast, margins (ownMargins c rect) axis = 0 := by
  obtain ⟨lengths, rects, hlengths, hrun, hlen, hboxes⟩ := flexLayout_plain axis rect hplain
  have hlen' := length_mainLengths hlengths
  have hmargins : ∀ (f : View ℚ × ℚ → ℚ), (∀ e ∈ ((subviews.zip lengths).map fun e =>
      (f e, margins (ownMargins e.1 rect) axis)).dropLast, e.2 = 0) ↔
      ∀ c ∈ subviews.dropLast, margins (ownMargins c rect) axis = 0 := by
    intro f
    have hfst : subviews.dropLast = (subviews.zip lengths).dropLast.map Prod.fst := by
      rw [List.map_dropLast, List.map_fst_zip (Nat.le_of_eq hlen'.symm)]
    rw [hfst, ← List.map_dropLast, List.forall_mem_map, List.forall_mem_map]
  rw [layoutRects, hlayout, Option.bind_some, hpadding, Option.bind_some, hrun]
  constructor
  · rintro ⟨rects', hrects', htiles⟩
    obtain rfl := Option.some.inj hrects'
    have hadjoin := htiles.adjoin
    rw [hboxes, adjoin_boxes, hmargins] at hadjoin
    exact hadjoin.2
  · intro h
    refine ⟨rects, rfl, hlen, ?_, ?_⟩
    · rw [hboxes, adjoin_boxes, hmargins]
      exact ⟨fun _ => rfl, h⟩
    · intro lengths' hlengths' hflex b hb
      obtain rfl := Option.some.inj (hlengths.symm.trans hlengths')
      rw [hboxes] at hb
      rw [boxes_last _ _ ((hmargins _).mpr h) b hb, List.map_map]
      have hsum := sum_flexed hlen' hflex
      have hleft : lengths.sum + leftOver axis rect lengths = main rect.size axis := by
        rw [leftOver, total_eq, add_sub_cancel]
      rw [hleft] at hsum
      exact congrArg (start rect.origin axis + ·) hsum

end Exact

/-- A row. -/
def row : View ℚ :=
  ⟨.empty, .empty, .empty, .empty, .empty, 0, 0, lit ['r', 'o', 'w'], .empty, .empty, none⟩

/-- A view with a flex basis of 10, that can grow. -/
def item (margin : CVal) : View ℚ :=
  ⟨.empty, .empty, .empty, .empty, .int32 10, 1, 1, [], margin, .empty, none⟩

/-- Two subviews without margins tile a row. -/
theorem tiles_two :
    letI := retina
    ∃ rects, layoutRects row [item .empty, item .empty] ⟨⟨0, 0⟩, ⟨100, 20⟩⟩ = some rects ∧
      Tiles .row ⟨⟨0, 0⟩, ⟨100, 20⟩⟩ [item .empty, item .empty] rects := by
  let _ := retina
  have hpadded : padded row ⟨⟨0, 0⟩, ⟨100, 20⟩⟩ = some ⟨⟨0, 0⟩, ⟨100, 20⟩⟩ := by decide +kernel
  refine (tiles_iff row [item .empty, item .empty] ⟨⟨0, 0⟩, ⟨100, 20⟩⟩ rfl hpadded ?_).mpr ?_
  · intro c hc
    have hitem : c = item .empty := by simpa using hc
    rw [hitem]
    exact ⟨rfl, rfl, trivial⟩
  · intro c hc
    have hitem : c = item .empty := by simpa using hc
    rw [hitem]
    exact add_zero (0 : ℚ)

/-- Two subviews with margins of 5 on each side: the second one starts 10 too early. -/
theorem tiles_fails :
    letI := retina
    layoutRects row [item (.int32 5), item (.int32 5)] ⟨⟨0, 0⟩, ⟨100, 20⟩⟩ =
        some [⟨⟨5, 5⟩, ⟨40, 10⟩⟩, ⟨⟨45, 5⟩, ⟨40, 10⟩⟩] ∧
      ¬∃ rects, layoutRects row [item (.int32 5), item (.int32 5)] ⟨⟨0, 0⟩, ⟨100, 20⟩⟩ =
        some rects ∧
        Tiles .row ⟨⟨0, 0⟩, ⟨100, 20⟩⟩ [item (.int32 5), item (.int32 5)] rects := by
  let _ := retina
  have hrun : layoutRects row [item (.int32 5), item (.int32 5)] ⟨⟨0, 0⟩, ⟨100, 20⟩⟩ =
      some [⟨⟨5, 5⟩, ⟨40, 10⟩⟩, ⟨⟨45, 5⟩, ⟨40, 10⟩⟩] := by decide +kernel
  refine ⟨hrun, ?_⟩
  rintro ⟨rects, hrects, htiles⟩
  obtain rfl := Option.some.inj (hrun.symm.trans hrects)
  have hnext : (45 : ℚ) - 5 = 5 + 40 + 5 := htiles.adjoin.2.1
  norm_num at hnext

end Libacorn.Lengths
