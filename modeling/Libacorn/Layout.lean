import Libacorn.Bytestream
import Libacorn.Parse

/-!
# ux/view.cpp: the layout of one view

`measure`, `getActualPadding`, `getActualMargins` and the two loops of a flexbox, with the
arithmetic of `float` as a parameter: a view hierarchy has that of the machine, and the
exact rationals tell what a length means.
-/

namespace Libacorn.Layout

open Support

/-! ## Arithmetic -/

/-- The globals of the platform, its `atof`, and whether AppKit takes a C string for a text:
`stringWithUTF8String:` makes none of bytes that are not UTF-8. -/
class Platform where
  backingScaleFactor : Float32
  systemFontSize : Float32
  atof : Bytes → Float
  takesText : Bytes → Bool

/-- A display without scaling. -/
@[reducible] def Platform.plain : Platform where
  backingScaleFactor := 1
  systemFontSize := 13
  atof _ := 0
  takesText _ := true

/-- How `float` is read: the literals of the source, the numbers of vals, `atof`, and the
globals of the platform. -/
class Reading (K : Type) where
  literal : Nat → K
  int32 : BitVec 32 → K
  int64 : BitVec 64 → K
  uint32 : BitVec 32 → K
  uint64 : BitVec 64 → K
  float32 : BitVec 32 → K
  float64 : BitVec 64 → K
  atof : Bytes → K
  backingScaleFactor : K
  systemFontSize : K

/-- The arithmetic of the machine. -/
instance machine [Platform] : Reading Float32 where
  literal n := Float32.ofNat n
  int32 i := (Int32.ofBitVec i).toFloat32
  int64 i := (Int64.ofBitVec i).toFloat32
  uint32 u := (UInt32.ofBitVec u).toFloat32
  uint64 u := (UInt64.ofBitVec u).toFloat32
  float32 bits := Float32.ofBits (UInt32.ofBitVec bits)
  float64 bits := (Float.ofBits (UInt64.ofBitVec bits)).toFloat32
  atof s := (Platform.atof s).toFloat32
  backingScaleFactor := Platform.backingScaleFactor
  systemFontSize := Platform.systemFontSize

/-! ## Geometry -/

structure Point (K : Type) where
  x : K
  y : K
  deriving DecidableEq

structure Size (K : Type) where
  width : K
  height : K
  deriving DecidableEq

structure Rect (K : Type) where
  origin : Point K
  size : Size K
  deriving DecidableEq

structure Insets (K : Type) where
  left : K
  top : K
  right : K
  bottom : K
  deriving DecidableEq

section Source

variable {K : Type} [Add K] [Sub K] [Mul K] [Div K] [LE K] [LT K] [DecidableLE K] [DecidableLT K]
  [Reading K]

def Insets.applyToRect (i : Insets K) (r : Rect K) : Rect K where
  origin := ⟨r.origin.x + i.left, r.origin.y + i.top⟩
  size := ⟨r.size.width - (i.left + i.right), r.size.height - (i.top + i.bottom)⟩

/-! ## Numbers in vals -/

def isEmpty : CVal → Bool
  | .empty => true
  | _ => false

def isNumeric : CVal → Bool
  | .int32 _ => true
  | .int64 _ => true
  | .uint32 _ => true
  | .uint64 _ => true
  | .float32 _ => true
  | .float64 _ => true
  | .measurement _ _ => true
  | _ => false

/-- `val::operator==(const string&)` -/
def equals (v : CVal) (s : Bytes) : Bool :=
  match v with
  | .string t => compare t s == 0
  | _ => false

/-- `measurement::value` -/
def value (unitVal : K) : MeasureUnit → K
  | .PX => unitVal
  | .PT => unitVal * Reading.backingScaleFactor
  | .EM => unitVal * Reading.systemFontSize
  | .PC => unitVal / Reading.literal 100
  | .undeclared _ => unitVal

/-- `measurement::valuePx` -/
def valuePx (m : K × MeasureUnit) (containerLength : K) : K :=
  match m.2 with
  | .PX => m.1
  | .PT => m.1 * Reading.backingScaleFactor
  | .EM => m.1 * Reading.systemFontSize
  | .PC => (m.1 / Reading.literal 100) * containerLength
  | .undeclared _ => m.1

/-- `val::floatVal` -/
def floatVal : CVal → K
  | .empty => Reading.literal 0
  | .int32 i => Reading.int32 i
  | .int64 i => Reading.int64 i
  | .uint32 u => Reading.uint32 u
  | .uint64 u => Reading.uint64 u
  | .float32 bits => Reading.float32 bits
  | .float64 bits => Reading.float64 bits
  | .measurement unitVal unit => value (Reading.float32 unitVal) unit
  | .string s => Reading.atof s
  | _ => Reading.literal 0

/-- `val::measurementVal` -/
def measurementVal (v : CVal) : K × MeasureUnit :=
  match v with
  | .measurement unitVal unit => (Reading.float32 unitVal, unit)
  | v => if isNumeric v then (floatVal v, .PT) else (Reading.literal 0, .PX)

/-! ## Views -/

/-- `class View`, as far as a flexbox reads it. -/
structure View (K : Type) where
  x : CVal
  y : CVal
  width : CVal
  height : CVal
  flexBasis : CVal
  flexGrow : K
  flexShrink : K
  layout : Bytes
  margin : CVal
  padding : CVal
  measure : Option (Rect K → Size K)

/-- What `getActualPadding` and `getActualMargins` make of a val; `none` when an assertion fails. -/
def actualInsets (v : CVal) (r : Rect K) : Option (Insets K) :=
  match v with
  | .empty => some ⟨Reading.literal 0, Reading.literal 0, Reading.literal 0, Reading.literal 0⟩
  | .array [left, top, right, bottom] =>
    some ⟨valuePx (measurementVal left) r.size.width, valuePx (measurementVal top) r.size.height,
      valuePx (measurementVal right) r.size.width, valuePx (measurementVal bottom) r.size.height⟩
  | .array [horizontal, vertical] =>
    let x := valuePx (measurementVal horizontal) r.size.width
    let y := valuePx (measurementVal vertical) r.size.height
    some ⟨x, y, x, y⟩
  | .array _ => none
  | v => if isNumeric v then some ⟨floatVal v, floatVal v, floatVal v, floatVal v⟩ else none

def getActualPadding (v : View K) (r : Rect K) : Option (Insets K) := actualInsets v.padding r

def getActualMargins (v : View K) (r : Rect K) : Option (Insets K) := actualInsets v.margin r

/-- The rectangle of a view without its padding. -/
def padded (v : View K) (r : Rect K) : Option (Rect K) :=
  (getActualPadding v r).map fun padding =>
    padding.applyToRect ⟨⟨Reading.literal 0, Reading.literal 0⟩, r.size⟩

/-- `measure`, with `View::measure` where no class overrides it. -/
def measure (v : View K) (r : Rect K) : Size K :=
  match v.measure with
  | some f => f r
  | none =>
    ⟨valuePx (measurementVal v.width) r.size.width, valuePx (measurementVal v.height) r.size.height⟩

/-! ## The axis of a flexbox -/

/-- The direction of a flexbox: `isRow` or `isCol`. -/
inductive Axis where
  | row
  | column

def Axis.ofLayout (layout : Bytes) : Option Axis :=
  if layout = lit ['r', 'o', 'w'] then some .row
  else if layout = lit ['c', 'o', 'l', 'u', 'm', 'n'] then some .column
  else none

/-- The property that `pmainprop` points to. -/
def mainProp (v : View K) : Axis → CVal
  | .row => v.width
  | .column => v.height

/-- The member that `main` points to. -/
def main (s : Size K) : Axis → K
  | .row => s.width
  | .column => s.height

/-- The size with another main length. -/
def withMain (s : Size K) (length : K) : Axis → Size K
  | .row => ⟨length, s.height⟩
  | .column => ⟨s.width, length⟩

/-- The margins along the axis. -/
def margins (m : Insets K) : Axis → K
  | .row => m.left + m.right
  | .column => m.top + m.bottom

/-- The flex basis of a subview, with its margins. -/
def mainLength (axis : Axis) (rect : Rect K) (v : View K) : Option K :=
  let basis :=
    if isEmpty v.flexBasis || equals v.flexBasis (lit ['a', 'u', 't', 'o']) then
      if !isEmpty (mainProp v axis) then
        valuePx (measurementVal (mainProp v axis)) (main rect.size axis)
      else main (measure v ⟨rect.origin, withMain rect.size (Reading.literal 2000000000) axis⟩) axis
    else floatVal v.flexBasis
  (getActualMargins v rect).map fun m => basis + margins m axis

/-- The first loop: the main lengths. -/
def mainLengths (axis : Axis) (rect : Rect K) : List (View K) → Option (List K)
  | [] => some []
  | v :: l => (mainLength axis rect v).bind fun x => (mainLengths axis rect l).map fun xs => x :: xs

/-- What a loop adds up. -/
def total (l : List K) : K := l.foldl (fun x y => x + y) (Reading.literal 0)

omit [Sub K] [LE K] [LT K] [DecidableLE K] [DecidableLT K] in
theorem length_mainLengths {axis : Axis} {rect : Rect K} {l : List (View K)} {lengths : List K}
    (h : mainLengths axis rect l = some lengths) : lengths.length = l.length := by
  induction l generalizing lengths with
  | nil =>
    cases h
    rfl
  | cons v l ih =>
    obtain ⟨x, -, h⟩ := Option.bind_eq_some_iff.mp h
    obtain ⟨xs, hxs, rfl⟩ := Option.map_eq_some_iff.mp h
    rw [List.length_cons, List.length_cons, ih hxs]

/-- What the main lengths leave over of the rectangle. -/
def leftOver (axis : Axis) (rect : Rect K) (lengths : List K) : K :=
  main rect.size axis - total lengths

/-- The main length of a subview that shares in what is left over or missing. -/
def flexed (v : View K) (length diff growTotal shrinkTotal : K) : K :=
  if diff ≥ Reading.literal 0 ∧ growTotal > Reading.literal 0 then
    length + (v.flexGrow / growTotal) * diff
  else if diff < Reading.literal 0 ∧ shrinkTotal > Reading.literal 0 then
    length + (v.flexShrink / shrinkTotal) * diff
  else length

def applyPosition (existing : K) (pos : CVal) (parentLength ownLength : K) : K :=
  if equals pos (lit ['c', 'e', 'n', 't', 'e', 'r']) then
    existing + (parentLength - ownLength) / Reading.literal 2
  else if isNumeric pos then existing + valuePx (measurementVal pos) parentLength
  else existing

/-- A subview's rectangle moved by its own `x` and `y`. -/
def position (v : View K) (rect subrect : Rect K) : Rect K where
  origin := ⟨applyPosition subrect.origin.x v.x rect.size.width subrect.size.width,
    applyPosition subrect.origin.y v.y rect.size.height subrect.size.height⟩
  size := subrect.size

/-- The coordinate that `start` points to. -/
def start (p : Point K) : Axis → K
  | .row => p.x
  | .column => p.y

/-- `rect.origin.*start += length; rect.size.*main -= length;` -/
def advance (r : Rect K) (length : K) (axis : Axis) : Rect K where
  origin :=
    match axis with
    | .row => ⟨r.origin.x + length, r.origin.y⟩
    | .column => ⟨r.origin.x, r.origin.y + length⟩
  size := withMain r.size (main r.size axis - length) axis

/-- The rectangle of a subview in the second loop. -/
def flexRect (axis : Axis) (rect : Rect K) (v : View K) (margins : Insets K) (length : K) :
    Rect K :=
  position v rect (margins.applyToRect ⟨rect.origin, withMain rect.size length axis⟩)

end Source

end Libacorn.Layout
