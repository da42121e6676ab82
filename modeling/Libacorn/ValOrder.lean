import Mathlib.Order.WithBot
import Libacorn.Layout

/-!
# val::operator<

The loop of the ARRAY case reads `_vec[i]`, where `_vec` points to the vector: the
first round compares the whole vectors, and the second one reads behind them.
`strictWeak_iff`: on vals of one shape the operator is a strict weak order just when
no array among them has a second element, and no string more bytes than an `int` counts.
-/

namespace Libacorn.ValOrder

open Support Layout

/-! ## Floats -/

/-- The bits of a float of `w` bits, with `e` bits of fraction, are not a number. -/
def isNaN {w : Nat} (e : Nat) (bits : BitVec w) : Bool :=
  (2 ^ (w - 1) - 2 ^ e) < bits.toNat % 2 ^ (w - 1)

/-- Floats that are numbers stand in the order of their sign and magnitude. -/
def magnitude {w : Nat} (bits : BitVec w) : Int :=
  if bits.msb then -(bits.toNat % 2 ^ (w - 1) : Nat) else (bits.toNat % 2 ^ (w - 1) : Nat)

def floatLess {w : Nat} (e : Nat) (a b : BitVec w) : Bool :=
  !isNaN e a && !isNaN e b && decide (magnitude a < magnitude b)

/-! ## The source -/

/-- `string::operator<`. The shorter length is an `int`, and a negative one is more than there
is. -/
def stringLess (a b : Bytes) : Outcome Bool :=
  if min a.length b.length < 2 ^ 31 then .done (compare a b < 0) else .fault

/-- The BYTEARRAY case. -/
def bytearrayLess (a b : Bytes) : Bool :=
  let cb := min a.length b.length
  let cv := memcmp (a.take cb) (b.take cb)
  if cv ≠ 0 then cv < 0 else a.length < b.length

section Source
variable [Platform]

/-- The bits of `measurement::value()`. -/
def valueBits (unitVal : BitVec 32) (unit : MeasureUnit) : BitVec 32 :=
  (value (Float32.ofBits (UInt32.ofBitVec unitVal)) unit).toBits.toBitVec

mutual

/-- `val::operator<` -/
def less : CVal → CVal → Outcome Bool
  | .empty, .empty => .done false
  | .int32 a, .int32 b => .done (a.toInt < b.toInt)
  | .int64 a, .int64 b => .done (a.toInt < b.toInt)
  | .uint32 a, .uint32 b => .done (a.toNat < b.toNat)
  | .uint64 a, .uint64 b => .done (a.toNat < b.toNat)
  | .float32 a, .float32 b => .done (floatLess 23 a b)
  | .float64 a, .float64 b => .done (floatLess 52 a b)
  | .string a, .string b => stringLess a b
  | .measurement a u, .measurement b u' => .done (floatLess 23 (valueBits a u) (valueBits b u'))
  | .bytearray a, .bytearray b => .done (bytearrayLess a b)
  | .array a, .array b =>
    if min a.length b.length = 0 then .done (a.length < b.length)
    else (vectorLess a b).bind fun r =>
      if r then .done true
      -- the second round reads a vector that is not there
      else if min a.length b.length = 1 then .done (a.length < b.length)
      else .fault
  | .error code _, .error code' _ => .done (code.toInt < code'.toInt)
  | _, _ => .fault
termination_by a b => sizeOf a + sizeOf b

/-- `operator<` of `std::vector` -/
def vectorLess : List CVal → List CVal → Outcome Bool
  | _, [] => .done false
  | [], _ :: _ => .done true
  | x :: a, y :: b =>
    (less x y).bind fun r =>
    if r then .done true
    else (less y x).bind fun r =>
      if r then .done false else vectorLess a b
termination_by a b => sizeOf a + sizeOf b

end

/-! ## Vals of one shape -/

/-- A type, and for an array what its elements are. -/
inductive Shape where
  | leaf (t : Tag)
  | array (element : Shape)

/-- A val of a type that has no elements, and is not NaN. -/
def IsLeaf (t : Tag) : CVal → Prop
  | .empty => t = .EMPTY
  | .int32 _ => t = .INT32
  | .int64 _ => t = .INT64
  | .uint32 _ => t = .UINT32
  | .uint64 _ => t = .UINT64
  | .float32 bits => t = .FLOAT32 ∧ isNaN 23 bits = false
  | .float64 bits => t = .FLOAT64 ∧ isNaN 52 bits = false
  | .measurement unitVal unit => t = .MEASUREMENT ∧ isNaN 23 (valueBits unitVal unit) = false
  | .string _ => t = .STRING
  | .bytearray _ => t = .BYTEARRAY
  | .error _ _ => t = .ERROR
  | _ => False

/-- A val of the shape, without NaN. -/
def HasShape : Shape → CVal → Prop
  | .leaf t, v => IsLeaf t v
  | .array s, .array vec => ∀ e ∈ vec, HasShape s e
  | .array _, _ => False

/-- No array has a second element, and no string more bytes than an `int` counts. -/
def Short : Shape → CVal → Prop
  | .leaf _, .string s => s.length < 2 ^ 31
  | .leaf _, _ => True
  | .array s, .array vec => vec.length ≤ 1 ∧ ∀ e ∈ vec, Short s e
  | .array _, _ => True

/-- The operator returns on these vals, and is a strict weak order. -/
structure StrictWeak (D : CVal → Prop) : Prop where
  returns : ∀ a b, D a → D b → ∃ r, less a b = .done r
  irrefl : ∀ a, D a → less a a = .done false
  asymm : ∀ a b, D a → D b → less a b = .done true → less b a = .done false
  trans : ∀ a b c, D a → D b → D c → less a b = .done true → less b c = .done true →
    less a c = .done true
  incomparable : ∀ a b c, D a → D b → D c → less a b = .done false → less b a = .done false →
    less b c = .done false → less c b = .done false →
    less a c = .done false ∧ less c a = .done false

/-! ## Keys -/

/-- The run returns whether `p`. -/
def Decides (x : Outcome Bool) (p : Prop) : Prop := ∃ r, x = .done r ∧ (r = true ↔ p)

/-- On these vals the operator is the order of a key. -/
def Keyed (D : CVal → Prop) : Prop :=
  ∃ (κ : Type) (_ : LinearOrder κ) (key : CVal → κ),
    ∀ a b, D a → D b → Decides (less a b) (key a < key b)

theorem Keyed.of_key {D : CVal → Prop} {κ : Type} [LinearOrder κ] (key : CVal → κ)
    (h : ∀ a b, D a → D b → Decides (less a b) (key a < key b)) : Keyed D :=
  ⟨κ, inferInstance, key, h⟩

theorem Keyed.mono {D D' : CVal → Prop} (h : Keyed D) (hsub : ∀ v, D' v → D v) : Keyed D' := by
  obtain ⟨κ, _, key, hkey⟩ := h
  exact .of_key key fun a b ha hb => hkey a b (hsub a ha) (hsub b hb)

theorem Keyed.strictWeak {D : CVal → Prop} (h : Keyed D) : StrictWeak D := by
  obtain ⟨κ, _, key, hkey⟩ := h
  have htrue : ∀ {a b}, D a → D b → (less a b = .done true ↔ key a < key b) := by
    intro a b ha hb
    obtain ⟨r, hr, hlt⟩ := hkey a b ha hb
    rw [hr, Outcome.done.injEq, hlt]
  have hfalse : ∀ {a b}, D a → D b → (less a b = .done false ↔ key b ≤ key a) := by
    intro a b ha hb
    obtain ⟨r, hr, hlt⟩ := hkey a b ha hb
    rw [hr, Outcome.done.injEq, ← not_lt, ← hlt, Bool.not_eq_true]
  constructor
  · intro a b ha hb
    obtain ⟨r, hr, -⟩ := hkey a b ha hb
    exact ⟨r, hr⟩
  · intro a ha
    exact (hfalse ha ha).mpr (le_refl _)
  · intro a b ha hb hab
    exact (hfalse hb ha).mpr (le_of_lt ((htrue ha hb).mp hab))
  · intro a b c ha hb hc hab hbc
    exact (htrue ha hc).mpr (lt_trans ((htrue ha hb).mp hab) ((htrue hb hc).mp hbc))
  · intro a b c ha hb hc hab hba hbc hcb
    have hba' : key b ≤ key a := (hfalse ha hb).mp hab
    have hab' : key a ≤ key b := (hfalse hb ha).mp hba
    have hcb' : key c ≤ key b := (hfalse hb hc).mp hbc
    have hbc' : key b ≤ key c := (hfalse hc hb).mp hcb
    exact ⟨(hfalse ha hc).mpr (le_trans hcb' hba'), (hfalse hc ha).mpr (le_trans hab' hbc')⟩

/-- The number that is compared. -/
def number : CVal → Int
  | .int32 i => i.toInt
  | .int64 i => i.toInt
  | .uint32 u => u.toNat
  | .uint64 u => u.toNat
  | .float32 bits => magnitude bits
  | .float64 bits => magnitude bits
  | .measurement unitVal unit => magnitude (valueBits unitVal unit)
  | .error code _ => code.toInt
  | _ => 0

/-- The bytes that are compared. -/
def bytes : CVal → Bytes
  | .string s => s
  | .bytearray b => b
  | _ => []

omit [Platform] in
theorem floatLess_iff {w e : Nat} {a b : BitVec w} (ha : isNaN e a = false)
    (hb : isNaN e b = false) :
    floatLess e a b = true ↔ magnitude a < magnitude b := by
  simp [floatLess, ha, hb]

omit [Platform] in
theorem bytearrayLess_iff (a b : Bytes) : bytearrayLess a b = true ↔ a < b := by
  rw [← compare_neg_iff, bytearrayLess, compare]
  split_ifs <;> simp_all

omit [Platform] in
theorem stringLess_decides {a b : Bytes} (ha : a.length < 2 ^ 31) :
    Decides (stringLess a b) (a < b) := by
  rw [stringLess, if_pos (Nat.lt_of_le_of_lt (Nat.min_le_left ..) ha)]
  exact ⟨_, rfl, by rw [decide_eq_true_iff, compare_neg_iff]⟩

theorem less_number {t : Tag} {a b : CVal} (hstr : t ≠ .STRING) (hbytes : t ≠ .BYTEARRAY)
    (ha : IsLeaf t a) (hb : IsLeaf t b) : Decides (less a b) (number a < number b) := by
  cases a with
  | empty => cases b <;> simp_all [IsLeaf, less, number, Decides]
  | int32 i => cases b <;> simp_all [IsLeaf, less, number, Decides]
  | int64 i => cases b <;> simp_all [IsLeaf, less, number, Decides]
  | uint32 u => cases b <;> simp_all [IsLeaf, less, number, Decides]
  | uint64 u => cases b <;> simp_all [IsLeaf, less, number, Decides]
  | float32 bits => cases b <;> simp_all [IsLeaf, less, number, Decides, floatLess_iff]
  | float64 bits => cases b <;> simp_all [IsLeaf, less, number, Decides, floatLess_iff]
  | measurement unitVal unit => cases b <;> simp_all [IsLeaf, less, number, Decides, floatLess_iff]
  | error code msg => cases b <;> simp_all [IsLeaf, less, number, Decides]
  | string s => exact absurd ha hstr
  | bytearray s => exact absurd ha hbytes
  | _ => exact ha.elim

theorem less_bytes {t : Tag} {a b : CVal} (ht : t = .STRING ∨ t = .BYTEARRAY) (ha : IsLeaf t a)
    (hb : IsLeaf t b) (hshort : Short (.leaf t) a) : Decides (less a b) (bytes a < bytes b) := by
  rcases ht with rfl | rfl
  · cases a with
    | string s =>
      cases b with
      | string s' =>
        rw [less]
        exact stringLess_decides hshort
      | _ => simp [IsLeaf] at hb
    | _ => simp [IsLeaf] at ha
  · cases a with
    | bytearray s =>
      cases b with
      | bytearray s' =>
        rw [less]
        exact ⟨_, rfl, bytearrayLess_iff s s'⟩
      | _ => simp [IsLeaf] at hb
    | _ => simp [IsLeaf] at ha

theorem leaf_keyed (t : Tag) : Keyed fun v => IsLeaf t v ∧ Short (.leaf t) v := by
  by_cases ht : t = .STRING ∨ t = .BYTEARRAY
  · exact .of_key bytes fun a b ha hb => less_bytes ht ha.1 hb.1 ha.2
  · rw [not_or] at ht
    exact .of_key number fun a b ha hb => less_number ht.1 ht.2 ha.1 hb.1

/-- The key of the element of an array, below all of them for an empty one. -/
def headKey {κ : Type} (key : CVal → κ) : CVal → WithBot κ
  | .array (e :: _) => key e
  | _ => ⊥

/-- Arrays of at most one element, each with its key. -/
theorem array_keyed {D : CVal → Prop} (h : Keyed D) :
    Keyed fun v => ∃ vec, v = .array vec ∧ vec.length ≤ 1 ∧ ∀ e ∈ vec, D e := by
  obtain ⟨κ, _, key, hkey⟩ := h
  refine .of_key (headKey key) ?_
  rintro - - ⟨a, rfl, hla, ha⟩ ⟨b, rfl, hlb, hb⟩
  match a, b with
  | [], [] => simp [less, headKey, Decides]
  | [], [y] => simp [less, headKey, Decides]
  | [x], [] => simp [less, headKey, Decides]
  | [x], [y] =>
    have hx := ha x (List.mem_singleton_self x)
    have hy := hb y (List.mem_singleton_self y)
    obtain ⟨r, hr, hlt⟩ := hkey x y hx hy
    obtain ⟨r', hr', -⟩ := hkey y x hy hx
    have hrun : less (.array [x]) (.array [y]) = .done r := by
      rw [less, vectorLess, hr, Outcome.bind_done]
      cases r with
      | true => rfl
      | false =>
        rw [if_neg Bool.false_ne_true, hr']
        cases r' <;> simp [vectorLess]
    exact ⟨r, hrun, hlt.trans WithBot.coe_lt_coe.symm⟩
  | _ :: _ :: _, _ => simp at hla
  | _, _ :: _ :: _ => simp at hlb

theorem short_keyed (s : Shape) : Keyed fun v => HasShape s v ∧ Short s v := by
  induction s with
  | leaf t => exact leaf_keyed t
  | array s ih =>
    refine (array_keyed ih).mono ?_
    rintro v ⟨hv, hshort⟩
    cases v with
    | array vec => exact ⟨vec, rfl, hshort.1, fun e he => ⟨hv e he, hshort.2 e he⟩⟩
    | _ => exact hv.elim

/-! ## Arrays with a second element -/

/-- A val that is compared without a fault, and is not below itself, is short. -/
theorem short_of_irrefl {s : Shape} {v : CVal} (hv : HasShape s v) (h : less v v = .done false) :
    Short s v := by
  induction s generalizing v with
  | leaf t =>
    cases v with
    | string s =>
      rw [less, stringLess, Nat.min_self] at h
      split at h
      next hlt => exact hlt
      next => cases h
    | _ => exact trivial
  | array s ih =>
    cases v with
    | array vec =>
      match vec with
      | [] => exact ⟨Nat.zero_le 1, nofun⟩
      | [x] =>
        have hx : less x x = .done false := by
          rw [less, vectorLess] at h
          cases hr : less x x with
          | done r =>
            cases r with
            | false => rfl
            | true => simp [hr] at h
          | timeout => simp [hr] at h
          | fault => simp [hr] at h
        refine ⟨Nat.le_refl 1, fun e he => ?_⟩
        rw [List.mem_singleton.mp he]
        exact ih (hv x (List.mem_singleton_self x)) hx
      | x :: y :: l =>
        -- the first round ends with `true`, or the second one reads behind the vector
        exfalso
        rw [less] at h
        cases hr : vectorLess (x :: y :: l) (x :: y :: l) with
        | done r => cases r <;> simp [hr] at h
        | timeout => simp [hr] at h
        | fault => simp [hr] at h
    | _ => exact hv.elim

/-- On vals of one shape without NaN the operator is a strict weak order if and only if
all of them are short. -/
theorem strictWeak_iff (s : Shape) (D : CVal → Prop) (hD : ∀ v, D v → HasShape s v) :
    StrictWeak D ↔ ∀ v, D v → Short s v := by
  constructor
  · intro h v hv
    exact short_of_irrefl (hD v hv) (h.irrefl v hv)
  · intro h
    exact ((short_keyed s).mono fun v hv => ⟨hD v hv, h v hv⟩).strictWeak

end Source

/-- Globals of a platform, for runs on fixed inputs. -/
@[reducible] def onePlatform : Platform := ⟨1, 1, fun _ => 0, fun _ => true⟩

/-- Arrays of one number are in order. -/
theorem strictWeak_singles :
    letI := onePlatform
    StrictWeak fun v => ∃ i : BitVec 32, v = .array [.int32 i] := by
  let _ := onePlatform
  have hshape : ∀ v, (∃ i : BitVec 32, v = .array [.int32 i]) →
      HasShape (.array (.leaf .INT32)) v := by
    rintro - ⟨i, rfl⟩ e he
    rw [List.mem_singleton.mp he]
    rfl
  refine (strictWeak_iff (.array (.leaf .INT32)) _ hshape).mpr ?_
  rintro - ⟨i, rfl⟩
  refine ⟨Nat.le_refl 1, fun e he => ?_⟩
  rw [List.mem_singleton.mp he]
  trivial

/-- `[2]` and `[1, 0]` are each below the other, and `[1, 0]` is not compared with itself. -/
theorem strictWeak_fails :
    letI := onePlatform
    HasShape (.array (.leaf .INT32)) (.array [.int32 2]) ∧
      HasShape (.array (.leaf .INT32)) (.array [.int32 1, .int32 0]) ∧
      less (.array [.int32 1, .int32 0]) (.array [.int32 1, .int32 0]) = .fault ∧
      ¬StrictWeak fun v => v = .array [.int32 2] ∨ v = .array [.int32 1, .int32 0] := by
  let _ := onePlatform
  have hleft : less (.array [.int32 2]) (.array [.int32 1, .int32 0]) = .done true := by
    simp [less, vectorLess]
  have hright : less (.array [.int32 1, .int32 0]) (.array [.int32 2]) = .done true := by
    simp [less, vectorLess]
  refine ⟨?_, ?_, ?_, ?_⟩
  · simp [HasShape, IsLeaf]
  · simp [HasShape, IsLeaf]
  · simp [less, vectorLess]
  · intro h
    have hnot := h.asymm _ _ (.inl rfl) (.inr rfl) hleft
    cases hright.symm.trans hnot

end Libacorn.ValOrder
