import Mathlib.Tactic.IntervalCases
import Libacorn.Bytestream

/-!
# Colors: base/val.cpp

A color has four channels of type `float`, and vals name it by a packed number or by its CSS name.
The arithmetic is that of binary32: a channel that was unpacked is packed to the same byte, although
a division by 255 is not exact.
-/

namespace Libacorn

open Support

/-- `class color` -/
structure Color where
  r : Float32
  g : Float32
  b : Float32
  a : Float32
  deriving DecidableEq

namespace Color

/-- `color()` -/
def none : Color := ⟨0, 0, 0, 0⟩

/-- A `uint32_t` converted to `float`. -/
def toFloat (w : BitVec 32) : Float32 := (UInt32.ofBitVec w).toFloat32

/-- `color(rgba)` -/
def ofRgba (rgba : BitVec 32) : Color where
  r := toFloat (rgba &&& 0xff#32) / 255
  g := toFloat ((rgba &&& 0xff00#32) >>> 8) / 255
  b := toFloat ((rgba &&& 0xff0000#32) >>> 16) / 255
  a := toFloat ((rgba &&& 0xff000000#32) >>> 24) / 255

/-- A `float` converted to `uint8_t`; the number without its fraction must be one. -/
def toUint8 (x : Float32) : Outcome (BitVec 8) :=
  if (-1 : Float32) < x ∧ x < 256 then .done x.toUInt8.toBitVec else .fault

/-- `color::toRgbaUint32` -/
def toRgbaUint32 (c : Color) : Outcome (BitVec 32) :=
  (toUint8 (c.r * 255)).bind fun ir =>
  (toUint8 (c.g * 255)).bind fun ig =>
  (toUint8 (c.b * 255)).bind fun ib =>
  (toUint8 (c.a * 255)).bind fun ia =>
  .done (ir.setWidth 32 ||| ig.setWidth 32 <<< 8 ||| ib.setWidth 32 <<< 16 ||| ia.setWidth 32 <<<
    24)

def channels (c : Color) : List Float32 := [c.r, c.g, c.b, c.a]

/-- The rows of `s_cssColors`. -/
def cssRows : List (String × BitVec 32) :=
  [("aliceblue", 0xfff0f8ff#32), ("antiquewhite", 0xfffaebd7#32), ("aqua", 0xff00ffff#32),
    ("aquamarine", 0xff7fffd4#32), ("azure", 0xfff0ffff#32), ("beige", 0xfff5f5dc#32),
    ("bisque", 0xffffe4c4#32), ("black", 0xff000000#32), ("blanchedalmond", 0xffffebcd#32),
    ("blue", 0xff0000ff#32), ("blueviolet", 0xff8a2be2#32), ("brown", 0xffa52a2a#32),
    ("burlywood", 0xffdeb887#32), ("cadetblue", 0xff5f9ea0#32), ("chartreuse", 0xff7fff00#32),
    ("chocolate", 0xffd2691e#32), ("coral", 0xffff7f50#32), ("cornflowerblue", 0xff6495ed#32),
    ("cornsilk", 0xfffff8dc#32), ("crimson", 0xffdc143c#32), ("cyan", 0xff00ffff#32),
    ("darkblue", 0xff00008b#32), ("darkcyan", 0xff008b8b#32), ("darkgoldenrod", 0xffb8860b#32),
    ("darkgray", 0xffa9a9a9#32), ("darkgreen", 0xff006400#32), ("darkgrey", 0xffa9a9a9#32),
    ("darkkhaki", 0xffbdb76b#32), ("darkmagenta", 0xff8b008b#32),
    ("darkolivegreen", 0xff556b2f#32), ("darkorange", 0xffff8c00#32),
    ("darkorchid", 0xff9932cc#32), ("darkred", 0xff8b0000#32), ("darksalmon", 0xffe9967a#32),
    ("darkseagreen", 0xff8fbc8f#32), ("darkslateblue", 0xff483d8b#32),
    ("darkslategray", 0xff2f4f4f#32), ("darkslategrey", 0xff2f4f4f#32),
    ("darkturquoise", 0xff00ced1#32), ("darkviolet", 0xff9400d3#32), ("deeppink", 0xffff1493#32),
    ("deepskyblue", 0xff00bfff#32), ("dimgray", 0xff696969#32), ("dimgrey", 0xff696969#32),
    ("dodgerblue", 0xff1e90ff#32), ("firebrick", 0xffb22222#32), ("floralwhite", 0xfffffaf0#32),
    ("forestgreen", 0xff228b22#32), ("fuchsia", 0xffff00ff#32), ("gainsboro", 0xffdcdcdc#32),
    ("ghostwhite", 0xfff8f8ff#32), ("gold", 0xffffd700#32), ("goldenrod", 0xffdaa520#32),
    ("gray", 0xff808080#32), ("green", 0xff008000#32), ("greenyellow", 0xffadff2f#32),
    ("grey", 0xff808080#32), ("honeydew", 0xfff0fff0#32), ("hotpink", 0xffff69b4#32),
    ("indianred", 0xffcd5c5c#32), ("indigo", 0xff4b0082#32), ("ivory", 0xfffffff0#32),
    ("khaki", 0xfff0e68c#32), ("lavender", 0xffe6e6fa#32), ("lavenderblush", 0xfffff0f5#32),
    ("lawngreen", 0xff7cfc00#32), ("lemonchiffon", 0xfffffacd#32), ("lightblue", 0xffadd8e6#32),
    ("lightcoral", 0xfff08080#32), ("lightcyan", 0xffe0ffff#32),
    ("lightgoldenrodyellow", 0xfffafad2#32), ("lightgray", 0xffd3d3d3#32),
    ("lightgreen", 0xff90ee90#32), ("lightgrey", 0xffd3d3d3#32), ("lightpink", 0xffffb6c1#32),
    ("lightsalmon", 0xffffa07a#32), ("lightseagreen", 0xff20b2aa#32),
    ("lightskyblue", 0xff87cefa#32), ("lightslategray", 0xff778899#32),
    ("lightslategrey", 0xff778899#32), ("lightsteelblue", 0xffb0c4de#32),
    ("lightyellow", 0xffffffe0#32), ("lime", 0xff00ff00#32), ("limegreen", 0xff32cd32#32),
    ("linen", 0xfffaf0e6#32), ("magenta", 0xffff00ff#32), ("maroon", 0xff800000#32),
    ("mediumaquamarine", 0xff66cdaa#32), ("mediumblue", 0xff0000cd#32),
    ("mediumorchid", 0xffba55d3#32), ("mediumpurple", 0xff9370db#32),
    ("mediumseagreen", 0xff3cb371#32), ("mediumslateblue", 0xff7b68ee#32),
    ("mediumspringgreen", 0xff00fa9a#32), ("mediumturquoise", 0xff48d1cc#32),
    ("mediumvioletred", 0xffc71585#32), ("midnightblue", 0xff191970#32),
    ("mintcream", 0xfff5fffa#32), ("mistyrose", 0xffffe4e1#32), ("moccasin", 0xffffe4b5#32),
    ("navajowhite", 0xffffdead#32), ("navy", 0xff000080#32), ("oldlace", 0xfffdf5e6#32),
    ("olive", 0xff808000#32), ("olivedrab", 0xff6b8e23#32), ("orange", 0xffffa500#32),
    ("orangered", 0xffff4500#32), ("orchid", 0xffda70d6#32), ("palegoldenrod", 0xffeee8aa#32),
    ("palegreen", 0xff98fb98#32), ("paleturquoise", 0xffafeeee#32),
    ("palevioletred", 0xffdb7093#32), ("papayawhip", 0xffffefd5#32), ("peachpuff", 0xffffdab9#32),
    ("peru", 0xffcd853f#32), ("pink", 0xffffc0cb#32), ("plum", 0xffdda0dd#32),
    ("powderblue", 0xffb0e0e6#32), ("purple", 0xff800080#32), ("red", 0xffff0000#32),
    ("rosybrown", 0xffbc8f8f#32), ("royalblue", 0xff4169e1#32), ("saddlebrown", 0xff8b4513#32),
    ("salmon", 0xfffa8072#32), ("sandybrown", 0xfff4a460#32), ("seagreen", 0xff2e8b57#32),
    ("seashell", 0xfffff5ee#32), ("sienna", 0xffa0522d#32), ("silver", 0xffc0c0c0#32),
    ("skyblue", 0xff87ceeb#32), ("slateblue", 0xff6a5acd#32), ("slategray", 0xff708090#32),
    ("slategrey", 0xff708090#32), ("snow", 0xfffffafa#32), ("springgreen", 0xff00ff7f#32),
    ("steelblue", 0xff4682b4#32), ("tan", 0xffd2b48c#32), ("teal", 0xff008080#32),
    ("thistle", 0xffd8bfd8#32), ("tomato", 0xffff6347#32), ("turquoise", 0xff40e0d0#32),
    ("violet", 0xffee82ee#32), ("wheat", 0xfff5deb3#32), ("white", 0xffffffff#32),
    ("whitesmoke", 0xfff5f5f5#32), ("yellow", 0xffffff00#32), ("yellowgreen", 0xff9acd32#32)]

def cssEntries : List (Bytes × BitVec 32) := cssRows.map fun row => (lit row.1.toList, row.2)

/-- `s_cssColors` -/
def cssColors : List (Bytes × BitVec 32) := OrderedMap.insertAll [] cssEntries

/-- The color of a CSS name: that of the row, with `r` and `b` exchanged. -/
def ofName (s : Bytes) : Option Color :=
  (OrderedMap.lookup s cssColors).map fun rgb =>
    { ofRgba rgb with r := (ofRgba rgb).b, b := (ofRgba rgb).r }

end Color

/-- `type == UINT32 || type==UINT64 || type==INT32 || type==INT64` -/
def isIntegerTag (tag : BitVec 32) : Bool :=
  [Tag.UINT32, .UINT64, .INT32, .INT64].any fun t => tag = BitVec.ofNat 32 t.code

/-- `val::toColor` -/
def Val.toColor : CVal → Outcome Color
  | .empty => .done .none
  | .uint32 u => .done (.ofRgba u)
  | .uint64 u => .done (.ofRgba (u.setWidth 32))
  | .int32 i => .done (.ofRgba i)
  | .int64 i => .done (.ofRgba (i.setWidth 32))
  | .string s => .done ((Color.ofName s).getD .none)
  | .raw tag bits =>
    if isIntegerTag tag then .done (.ofRgba (bits.setWidth 32))
    else if tag = BitVec.ofNat 32 Tag.STRING.code then .fault
    else .done .none
  | _ => .done .none

namespace Color

/-! ## Channels -/

/-- A channel from a byte. -/
def ofByte (x : BitVec 8) : Float32 := toFloat (x.setWidth 32) / 255

/-- Truncation undoes the division. -/
theorem toUint8_ofByte (x : BitVec 8) : toUint8 (ofByte x * 255) = .done x := by
  have h : ∀ n : Fin 256, toUint8 (ofByte (BitVec.ofFin n) * 255) = .done (BitVec.ofFin n) := by
    decide +kernel
  exact h x.toFin

theorem ofByte_range (x : BitVec 8) : 0 ≤ ofByte x ∧ ofByte x ≤ 1 := by
  have h : ∀ n : Fin 256, 0 ≤ ofByte (BitVec.ofFin n) ∧ ofByte (BitVec.ofFin n) ≤ 1 := by
    decide +kernel
  exact h x.toFin

/-! ## Packing -/

theorem and_low (w : BitVec 32) : w &&& 0xff#32 = (w.setWidth 8).setWidth 32 := by
  apply BitVec.eq_of_toNat_eq
  have hmod := Nat.and_two_pow_sub_one_eq_mod w.toNat 8
  rw [BitVec.toNat_and, BitVec.toNat_setWidth, BitVec.toNat_setWidth]
  simp at hmod ⊢
  omega

/-- The channels of a packed color are its bytes. -/
theorem ofRgba_eq (w : BitVec 32) : ofRgba w =
    ⟨ofByte (w.setWidth 8), ofByte ((w >>> 8).setWidth 8), ofByte ((w >>> 16).setWidth 8),
      ofByte ((w >>> 24).setWidth 8)⟩ := by
  simp only [ofByte, ← and_low, ofRgba, BitVec.ushiftRight_and_distrib]
  rfl

theorem join_bytes (w : BitVec 32) :
    (w.setWidth 8).setWidth 32 ||| ((w >>> 8).setWidth 8).setWidth 32 <<< 8 |||
      ((w >>> 16).setWidth 8).setWidth 32 <<< 16 ||| ((w >>> 24).setWidth 8).setWidth 32 <<< 24 =
        w := by
  ext i hi
  interval_cases i <;> simp

theorem toRgbaUint32_ofRgba (w : BitVec 32) : (ofRgba w).toRgbaUint32 = .done w := by
  rw [ofRgba_eq, toRgbaUint32]
  simp only [toUint8_ofByte, Outcome.bind_done]
  rw [join_bytes]

theorem channels_range (w : BitVec 32) : ∀ x ∈ (ofRgba w).channels, 0 ≤ x ∧ x ≤ 1 := by
  intro x hx
  rw [ofRgba_eq] at hx
  simp only [channels, List.mem_cons, List.not_mem_nil, or_false] at hx
  rcases hx with rfl | rfl | rfl | rfl
  · exact ofByte_range _
  · exact ofByte_range _
  · exact ofByte_range _
  · exact ofByte_range _

/-! ## Names -/

/-- The number with its first and its third byte exchanged. -/
def swapRedBlue (w : BitVec 32) : BitVec 32 :=
  w &&& 0xff00ff00#32 ||| (w >>> 16) &&& 0xff#32 ||| (w &&& 0xff#32) <<< 16

/-- The rows have red and blue the other way round. -/
theorem ofRgba_swap (w : BitVec 32) :
    { ofRgba w with r := (ofRgba w).b, b := (ofRgba w).r } = ofRgba (swapRedBlue w) := by
  have h0 : (swapRedBlue w).setWidth 8 = (w >>> 16).setWidth 8 := by
    ext i hi
    interval_cases i <;> simp [swapRedBlue]
  have h1 : (swapRedBlue w >>> 8).setWidth 8 = (w >>> 8).setWidth 8 := by
    ext i hi
    interval_cases i <;> simp [swapRedBlue]
  have h2 : (swapRedBlue w >>> 16).setWidth 8 = w.setWidth 8 := by
    ext i hi
    interval_cases i <;> simp [swapRedBlue]
  have h3 : (swapRedBlue w >>> 24).setWidth 8 = (w >>> 24).setWidth 8 := by
    ext i hi
    interval_cases i <;> simp [swapRedBlue]
  rw [ofRgba_eq, ofRgba_eq, h0, h1, h2, h3]

/-- The rows stand in the order of the map. -/
theorem cssEntries_sorted : OrderedMap.Sorted cssEntries := by
  have hsteps : cssEntries.IsChain fun a b => a.1 < b.1 := by decide +kernel
  have : IsTrans (Bytes × BitVec 32) fun a b => a.1 < b.1 := ⟨fun _ _ _ h h' => lt_trans h h'⟩
  exact hsteps.pairwise

/-- The packed form of the color that a val names. -/
def packed : CVal → BitVec 32
  | .uint32 u => u
  | .uint64 u => u.setWidth 32
  | .int32 i => i
  | .int64 i => i.setWidth 32
  | .string s => ((OrderedMap.lookup s cssEntries).map swapRedBlue).getD 0
  | .raw tag bits => if isIntegerTag tag then bits.setWidth 32 else 0
  | _ => 0

theorem ofName_eq (s : Bytes) :
    ofName s = (OrderedMap.lookup s cssEntries).map fun rgb => ofRgba (swapRedBlue rgb) := by
  rw [ofName, cssColors, OrderedMap.insertAll_of_sorted [] cssEntries
    (by simpa using cssEntries_sorted), List.nil_append]
  simp only [ofRgba_swap]

end Color

/-- A number of any width, read or cut off, and a CSS name are painted in the color of their packed
form, which packing gives back; each channel lies between 0 and 1. -/
theorem color_of_val (v : CVal) :
    (v.toColor = .done (.ofRgba (Color.packed v)) ∨
      ∃ bits, v = .raw (BitVec.ofNat 32 Tag.STRING.code) bits ∧ v.toColor = .fault) ∧
    (Color.ofRgba (Color.packed v)).toRgbaUint32 = .done (Color.packed v) ∧
    ∀ x ∈ (Color.ofRgba (Color.packed v)).channels, 0 ≤ x ∧ x ≤ 1 := by
  refine ⟨?_, Color.toRgbaUint32_ofRgba _, Color.channels_range _⟩
  have hnone : Color.none = .ofRgba 0 := by decide +kernel
  cases v with
  | uint32 u | uint64 u | int32 u | int64 u => exact Or.inl (by rw [Val.toColor, Color.packed])
  | string s =>
    left
    rw [Val.toColor, Color.packed, Color.ofName_eq, hnone]
    cases OrderedMap.lookup s Color.cssEntries with
    | none => rfl
    | some rgb => rfl
  | raw tag bits =>
    rw [Val.toColor, Color.packed]
    by_cases hint : isIntegerTag tag
    · left
      rw [if_pos hint, if_pos hint]
    · rw [if_neg hint, if_neg hint]
      by_cases htag : tag = BitVec.ofNat 32 Tag.STRING.code
      · right
        exact ⟨bits, by rw [htag], if_pos htag⟩
      · left
        rw [if_neg htag, hnone]
  | _ => exact Or.inl (congrArg Outcome.done hnone)

end Libacorn
