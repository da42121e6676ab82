import Mathlib.Algebra.Order.Field.Rat
import Mathlib.Tactic.NormNum
import Libacorn.Layout

/-!
# ux/view.cpp: lengths

What a length means, in exact rationals. A plain number is in points as a `measurement`,
and in pixels as a margin, a padding or a flex basis; a percentage is of the container as
a `measurement`, and of one pixel as the others. `sameLength_iff` says for which lengths
this makes no difference.
-/

namespace Libacorn.Lengths

open Layout

/-! ## Exact arithmetic -/

/-- The rational of a finite float with `e` bits of fraction. -/
def rationalOfBits {w : Nat} (e : Nat) (bias : Int) (bits : BitVec w) : ℚ :=
  let fraction := bits.toNat % 2 ^ e
  let exponent := bits.toNat % 2 ^ (w - 1) / 2 ^ e
  let magnitude : ℚ :=
    if exponent = 0 then fraction * 2 ^ (1 - bias - e)
    else (2 ^ e + fraction) * 2 ^ (exponent - bias - e)
  if bits.msb then -magnitude else magnitude

/-- The globals of the platform as rationals, and its `atof`. -/
class ExactPlatform where
  backingScaleFactor : ℚ
  systemFontSize : ℚ
  atof : Bytes → ℚ
  backingScaleFactor_pos : 0 < backingScaleFactor
  systemFontSize_pos : 0 < systemFontSize

/-- Floats as exact rationals. -/
instance exact [ExactPlatform] : Reading ℚ where
  literal n := n
  int32 i := i.toInt
  int64 i := i.toInt
  uint32 u := u.toNat
  uint64 u := u.toNat
  float32 bits := rationalOfBits 23 127 bits
  float64 bits := rationalOfBits 52 1023 bits
  atof := ExactPlatform.atof
  backingScaleFactor := ExactPlatform.backingScaleFactor
  systemFontSize := ExactPlatform.systemFontSize

/-! ## What a length means -/

section Meaning

/-- A view whose main length along the axis is the val. -/
def withMainProp {K : Type} (v : View K) (m : CVal) : Axis → View K
  | .row => { v with width := m }
  | .column => { v with height := m }

variable [ExactPlatform]

/-- The length is the same in every place where it can be written. -/
structure SameLength (m : CVal) (r : Rect ℚ) : Prop where
  margins : ∀ v : View ℚ,
    getActualMargins { v with margin := .array [m, m] } r =
      getActualMargins { v with margin := m } r ∧
    getActualMargins { v with margin := .array [m, m, m, m] } r =
      getActualMargins { v with margin := m } r
  padding : ∀ v : View ℚ,
    getActualPadding { v with padding := .array [m, m] } r =
      getActualPadding { v with padding := m } r ∧
    getActualPadding { v with padding := .array [m, m, m, m] } r =
      getActualPadding { v with padding := m } r
  basis : ∀ (v : View ℚ) (axis : Axis),
    mainLength axis r { v with flexBasis := m } =
      mainLength axis r (withMainProp { v with flexBasis := .empty } m axis)

/-- A measurement that is no percentage, and anything where the unit makes no difference: zero,
points that are pixels, a percentage of one pixel. -/
def Unambiguous (size : Size ℚ) : CVal → Prop
  | .measurement unitVal .PC =>
    rationalOfBits 23 127 unitVal = 0 ∨ size.width = 1 ∧ size.height = 1
  | .measurement _ _ => True
  | m => (floatVal m : ℚ) = 0 ∨ ExactPlatform.backingScaleFactor = 1

/-- The number that a margin, a padding or a flex basis is, and that a `measurement` makes of it. -/
def Agrees (m : CVal) (l : ℚ) : Prop := valuePx (measurementVal m) l = (floatVal m : ℚ)

theorem actualInsets_numeric {m : CVal} (hm : isNumeric m = true) (r : Rect ℚ) :
    actualInsets m r = some ⟨floatVal m, floatVal m, floatVal m, floatVal m⟩ := by
  cases m <;> first | rfl | cases hm

theorem actualInsets_pair (m : CVal) (r : Rect ℚ) :
    actualInsets (.array [m, m]) r = actualInsets (.array [m, m, m, m]) r := rfl

theorem actualInsets_agrees {m : CVal} (hm : isNumeric m = true) (r : Rect ℚ) :
    actualInsets (.array [m, m, m, m]) r = actualInsets m r ↔
      Agrees m r.size.width ∧ Agrees m r.size.height := by
  rw [actualInsets_numeric hm, actualInsets]
  simp only [Option.some.injEq, Insets.mk.injEq, Agrees]
  tauto

theorem agrees_main {m : CVal} {s : Size ℚ} (h : Agrees m s.width ∧ Agrees m s.height)
    (axis : Axis) :
    Agrees m (main s axis) := by
  cases axis with
  | row => exact h.1
  | column => exact h.2

theorem mainLength_basis {m : CVal} (hm : isNumeric m = true) (axis : Axis) (r : Rect ℚ)
    (v : View ℚ) :
    mainLength axis r { v with flexBasis := m } =
      (getActualMargins v r).map fun i => (floatVal m : ℚ) + margins i axis := by
  have hauto : (isEmpty m || equals m (lit ['a', 'u', 't', 'o'])) = false := by
    cases m <;> first | rfl | cases hm
  rw [mainLength]
  simp only [hauto, Bool.false_eq_true, if_false]
  rfl

theorem mainLength_mainProp {m : CVal} (hm : isNumeric m = true) (axis : Axis) (r : Rect ℚ)
    (v : View ℚ) :
    mainLength axis r (withMainProp { v with flexBasis := .empty } m axis) =
      (getActualMargins v r).map fun i =>
        (valuePx (measurementVal m) (main r.size axis) : ℚ) + margins i axis := by
  have hempty : isEmpty m = false := by cases m <;> first | rfl | cases hm
  cases axis with
  | row =>
    simp only [mainLength, withMainProp, mainProp, hempty]
    rfl
  | column =>
    simp only [mainLength, withMainProp, mainProp, hempty]
    rfl

theorem agrees_plain {m : CVal} (hm : isNumeric m = true)
    (hplain : ∀ unitVal unit, m ≠ .measurement unitVal unit) (l : ℚ) :
    Agrees m l ↔ (floatVal m : ℚ) = 0 ∨ ExactPlatform.backingScaleFactor = 1 := by
  have hval : measurementVal m = ((floatVal m : ℚ), MeasureUnit.PT) := by
    rw [measurementVal, if_pos hm]
    exact hplain
  rw [Agrees, hval, valuePx, or_comm]
  exact mul_right_eq_self₀

theorem agrees_percent (unitVal : BitVec 32) (l : ℚ) :
    Agrees (.measurement unitVal .PC) l ↔ rationalOfBits 23 127 unitVal = 0 ∨ l = 1 := by
  have h : Agrees (.measurement unitVal .PC) l ↔
      rationalOfBits 23 127 unitVal / 100 * l = rationalOfBits 23 127 unitVal / 100 := Iff.rfl
  rw [h, mul_right_eq_self₀, or_comm, div_eq_zero_iff]
  norm_num

theorem agrees_iff {m : CVal} (hm : isNumeric m = true) (size : Size ℚ) :
    Agrees m size.width ∧ Agrees m size.height ↔ Unambiguous size m := by
  have hplain : (∀ unitVal unit, m ≠ .measurement unitVal unit) →
      (Agrees m size.width ∧ Agrees m size.height ↔
        (floatVal m : ℚ) = 0 ∨ ExactPlatform.backingScaleFactor = 1) := by
    intro h
    rw [agrees_plain hm h, agrees_plain hm h, and_self]
  cases m with
  | measurement unitVal unit =>
    cases unit with
    | PC => rw [agrees_percent, agrees_percent, ← or_and_left]; rfl
    | PX => exact iff_of_true ⟨rfl, rfl⟩ trivial
    | PT => exact iff_of_true ⟨rfl, rfl⟩ trivial
    | EM => exact iff_of_true ⟨rfl, rfl⟩ trivial
    | undeclared bits => exact iff_of_true ⟨rfl, rfl⟩ trivial
  | _ => exact hplain nofun

/-- A numeric val means the same length wherever it is written if and only if it is unambiguous. -/
theorem sameLength_iff (m : CVal) (hm : isNumeric m = true) (r : Rect ℚ) :
    SameLength m r ↔ Unambiguous r.size m := by
  rw [← agrees_iff hm, ← actualInsets_agrees hm]
  constructor
  · intro h
    exact (h.margins ⟨.empty, .empty, .empty, .empty, .empty, 0, 0, [], .empty, .empty, none⟩).2
  · intro h
    have hpair := (actualInsets_pair m r).trans h
    refine ⟨fun v => ⟨hpair, h⟩, fun v => ⟨hpair, h⟩, fun v axis => ?_⟩
    have hmain : Agrees m (main r.size axis) := agrees_main ((actualInsets_agrees hm r).mp h) axis
    rw [mainLength_basis hm, mainLength_mainProp hm, hmain]

end Meaning

/-- A platform with two pixels to a point. -/
@[reducible] def retina : ExactPlatform := ⟨2, 13, fun _ => 0, by norm_num, by norm_num⟩

/-- Ten pixels. -/
theorem sameLength_px :
    letI := retina
    SameLength (.measurement 0x41200000 .PX) ⟨⟨0, 0⟩, ⟨100, 50⟩⟩ := by
  let _ := retina
  exact (sameLength_iff _ rfl _).mpr trivial

/-- The integer 10 is a margin of 10 pixels, and one of 10 points as an element of an array. -/
theorem sameLength_fails :
    letI := retina
    ¬SameLength (.int32 10) ⟨⟨0, 0⟩, ⟨100, 100⟩⟩ := by
  let _ := retina
  intro h
  have hpair := (h.margins ⟨.empty, .empty, .empty, .empty, .empty, 0, 0, [], .empty, .empty,
      none⟩).1
  have hleft : (10 : ℚ) * 2 = 10 := congrArg (fun i => (i.map Insets.left).getD 0) hpair
  norm_num at hleft

end Libacorn.Lengths
