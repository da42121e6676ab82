import Libacorn.UnionVal

/-!
# Tag and member in step

`InStep v` says that the tag of `v` names the member last written, in `v` and in
the vals inside it. Every constructor makes such a val and every operation keeps
it. The reads of an operation on such a val are of the member last written, with
one exception: `doubleVal` of a measurement (`InStep.doubleVal_misread_iff`).

`Shows c v` relates the two levels: `v` is in step and its value is `c`.
-/

namespace Libacorn

open Support

/-! ## Clean runs -/

/-- The run reads no member but the one last written, and its answer has `P`. -/
def Access.Clean {α : Type} (P : α → Prop) : Access α → Prop
  | .ok a => P a
  | .misread => False
  | .abort => True

namespace Access

variable {α β : Type} {P : α → Prop} {Q : β → Prop}

theorem Clean.bind {x : Access α} {f : α → Access β} (h : x.Clean P)
    (hf : ∀ a, P a → (f a).Clean Q) : (x >>= f).Clean Q := by
  cases x with
  | ok a => exact hf a h
  | misread => exact h.elim
  | abort => trivial

theorem Clean.mono {x : Access α} {P' : α → Prop} (h : x.Clean P) (hP : ∀ a, P a → P' a) :
    x.Clean P' := by
  cases x with
  | ok a => exact hP a h
  | misread => exact h.elim
  | abort => trivial

theorem Clean.ne_misread {x : Access α} (h : x.Clean P) : x ≠ .misread := by
  rintro rfl
  exact h

/-- What is known of the answer of a clean run. -/
theorem Clean.of_ok {x : Access α} {a : α} (h : x.Clean P) (hx : x = .ok a) : P a := by
  subst hx
  exact h

end Access

/-! ## The invariant -/

/-- The tag names the member last written. An empty val may hold any member:
nothing reads it. -/
inductive InStep : UVal → Prop
  | empty (u : Union UVal) : InStep ⟨.EMPTY, u⟩
  | int32 (i : BitVec 32) : InStep ⟨.INT32, .i32 i⟩
  | int64 (i : BitVec 64) : InStep ⟨.INT64, .i64 i⟩
  | uint32 (u : BitVec 32) : InStep ⟨.UINT32, .u32 u⟩
  | uint64 (u : BitVec 64) : InStep ⟨.UINT64, .u64 u⟩
  | float32 (bits : BitVec 32) : InStep ⟨.FLOAT32, .f32 bits⟩
  | float64 (bits : BitVec 64) : InStep ⟨.FLOAT64, .f64 bits⟩
  | measurement (unitVal : BitVec 32) (unit : MeasureUnit) :
      InStep ⟨.MEASUREMENT, .measurement unitVal unit⟩
  | string (s : Bytes) : InStep ⟨.STRING, .str (some s)⟩
  | bytearray (b : Bytes) : InStep ⟨.BYTEARRAY, .bytearray (some b)⟩
  | array {vec : List UVal} (h : ∀ v ∈ vec, InStep v) : InStep ⟨.ARRAY, .vec (some vec)⟩
  | map {fields : List (Bytes × UVal)} (h : ∀ f ∈ fields, InStep f.2) :
      InStep ⟨.MAP, .map (some fields)⟩
  | object (id : Nat) : InStep ⟨.OBJECT, .obj (some id)⟩
  | error (e : BitVec 32 × Bytes) : InStep ⟨.ERROR, .err (some e)⟩

mutual

/-- The val without its union: a payload the tag does not name is left out. -/
def UVal.value : UVal → CVal
  | ⟨.EMPTY, _⟩ => .empty
  | ⟨.INT32, .i32 i⟩ => .int32 i
  | ⟨.INT64, .i64 i⟩ => .int64 i
  | ⟨.UINT32, .u32 u⟩ => .uint32 u
  | ⟨.UINT64, .u64 u⟩ => .uint64 u
  | ⟨.FLOAT32, .f32 bits⟩ => .float32 bits
  | ⟨.FLOAT64, .f64 bits⟩ => .float64 bits
  | ⟨.MEASUREMENT, .measurement unitVal unit⟩ => .measurement unitVal unit
  | ⟨.STRING, .str (some s)⟩ => .string s
  | ⟨.BYTEARRAY, .bytearray (some b)⟩ => .bytearray b
  | ⟨.ARRAY, .vec (some vec)⟩ => .array (UVal.values vec)
  | ⟨.MAP, .map (some fields)⟩ => .map (UVal.fieldValues fields)
  | ⟨.OBJECT, .obj (some id)⟩ => .object id
  | ⟨.ERROR, .err (some e)⟩ => .error e.1 e.2
  | ⟨type, _⟩ => .raw (BitVec.ofNat 32 type.code) 0

def UVal.values : List UVal → List CVal
  | [] => []
  | v :: vec => v.value :: UVal.values vec

def UVal.fieldValues : List (Bytes × UVal) → List (Bytes × CVal)
  | [] => []
  | (name, v) :: fields => (name, v.value) :: UVal.fieldValues fields

end

theorem UVal.values_eq_map (vec : List UVal) : UVal.values vec = vec.map UVal.value := by
  induction vec with
  | nil => rfl
  | cons v vec ih => rw [values, ih, List.map_cons]

/-- `v` is in step and shows the value `c`. -/
def Shows (c : CVal) (v : UVal) : Prop := InStep v ∧ v.value = c

/-! ## Reads -/

section Reads

variable [Target] {v : UVal}

theorem InStep.intVal (h : InStep v) : v.intVal.Clean fun _ => True := by
  cases h <;> trivial

theorem InStep.boolVal (h : InStep v) : v.boolVal.Clean fun _ => True := by
  cases h with
  | string s =>
    simp only [UVal.boolVal, UVal.type, UVal.u, Union.readStr, Access.ok_bind, Access.deref_some]
    split_ifs <;> trivial
  | _ => trivial

theorem InStep.floatVal (h : InStep v) : v.floatVal.Clean fun _ => True := by
  cases h <;> trivial

/-- The missing `return` sends a measurement on to `_str`. -/
theorem InStep.doubleVal_misread_iff (h : InStep v) :
    v.doubleVal = .misread ↔ v.type = .MEASUREMENT := by
  cases h with
  | measurement unitVal unit => exact ⟨fun _ => rfl, fun _ => rfl⟩
  | _ => exact ⟨nofun, nofun⟩

theorem InStep.measurementVal (h : InStep v) : v.measurementVal.Clean fun _ => True := by
  unfold UVal.measurementVal
  split_ifs with ht hn
  · cases h with
    | measurement unitVal unit => trivial
    | _ => cases ht
  · apply Access.Clean.bind h.floatVal
    intro f _
    trivial
  · trivial

theorem InStep.stringVal (h : InStep v) : v.stringVal.Clean fun _ => True := by
  cases h <;> trivial

theorem elementsToJson_clean {vec : List UVal} (first : Bool)
    (h : ∀ v ∈ vec, v.toJson.Clean fun _ => True) :
    (UVal.elementsToJson first vec).Clean fun _ => True := by
  induction vec generalizing first with
  | nil => trivial
  | cons v vec ih =>
    apply Access.Clean.bind (h v (List.mem_cons_self ..))
    intro s _
    apply Access.Clean.bind (ih false fun w hw => h w (List.mem_cons_of_mem v hw))
    intro rest _
    trivial

theorem fieldsToJson_clean {fields : List (Bytes × UVal)} (first : Bool)
    (h : ∀ f ∈ fields, f.2.toJson.Clean fun _ => True) :
    (UVal.fieldsToJson first fields).Clean fun _ => True := by
  induction fields generalizing first with
  | nil => trivial
  | cons f fields ih =>
    apply Access.Clean.bind (h f (List.mem_cons_self ..))
    intro s _
    apply Access.Clean.bind (ih false fun g hg => h g (List.mem_cons_of_mem f hg))
    intro rest _
    trivial

theorem InStep.toJson (h : InStep v) : v.toJson.Clean fun _ => True := by
  induction h with
  | array _ ih =>
    apply Access.Clean.bind (elementsToJson_clean true ih)
    intro s _
    trivial
  | map _ ih =>
    apply Access.Clean.bind (fieldsToJson_clean true ih)
    intro s _
    trivial
  | _ => trivial

theorem elementsRamCost_clean {vec : List UVal}
    (h : ∀ v ∈ vec, v.getRamCost.Clean fun _ => True) :
    (UVal.elementsRamCost vec).Clean fun _ => True := by
  induction vec with
  | nil => trivial
  | cons v vec ih =>
    apply Access.Clean.bind (h v (List.mem_cons_self ..))
    intro cost _
    apply Access.Clean.bind (ih fun w hw => h w (List.mem_cons_of_mem v hw))
    intro rest _
    trivial

theorem fieldsRamCost_clean {fields : List (Bytes × UVal)}
    (h : ∀ f ∈ fields, f.2.getRamCost.Clean fun _ => True) :
    (UVal.fieldsRamCost fields).Clean fun _ => True := by
  induction fields with
  | nil => trivial
  | cons f fields ih =>
    apply Access.Clean.bind (h f (List.mem_cons_self ..))
    intro cost _
    apply Access.Clean.bind (ih fun g hg => h g (List.mem_cons_of_mem f hg))
    intro rest _
    trivial

theorem InStep.getRamCost (h : InStep v) : v.getRamCost.Clean fun _ => True := by
  induction h with
  | array _ ih =>
    apply Access.Clean.bind (elementsRamCost_clean ih)
    intro cost _
    trivial
  | map _ ih =>
    apply Access.Clean.bind (fieldsRamCost_clean ih)
    intro cost _
    trivial
  | _ => trivial

end Reads

/-! ## Destruction -/

theorem destroyElements_clean {vec : List UVal} (h : ∀ v ∈ vec, v.destroy.Clean fun _ => True) :
    (UVal.destroyElements vec).Clean fun _ => True := by
  induction vec with
  | nil => trivial
  | cons v vec ih =>
    apply Access.Clean.bind (h v (List.mem_cons_self ..))
    intro _ _
    exact ih fun w hw => h w (List.mem_cons_of_mem v hw)

theorem destroyFields_clean {fields : List (Bytes × UVal)}
    (h : ∀ f ∈ fields, f.2.destroy.Clean fun _ => True) :
    (UVal.destroyFields fields).Clean fun _ => True := by
  induction fields with
  | nil => trivial
  | cons f fields ih =>
    apply Access.Clean.bind (h f (List.mem_cons_self ..))
    intro _ _
    exact ih fun g hg => h g (List.mem_cons_of_mem f hg)

theorem InStep.destroy {v : UVal} (h : InStep v) : v.destroy.Clean fun _ => True := by
  induction h with
  | array _ ih => exact destroyElements_clean ih
  | map _ ih => exact destroyFields_clean ih
  | _ => trivial

/-! ## Copying -/

theorem copyElements_clean {vec : List UVal}
    (h : ∀ v ∈ vec, ∀ dst, (v.copyTo dst).Clean (Shows v.value)) :
    (UVal.copyElements vec).Clean fun vec' =>
      (∀ v ∈ vec', InStep v) ∧ UVal.values vec' = UVal.values vec := by
  induction vec with
  | nil => exact ⟨nofun, rfl⟩
  | cons v vec ih =>
    apply Access.Clean.bind (h v (List.mem_cons_self ..) _)
    intro v' hv
    apply Access.Clean.bind (ih fun w hw => h w (List.mem_cons_of_mem v hw))
    intro vec' hvec
    constructor
    · exact List.forall_mem_cons.mpr ⟨hv.1, hvec.1⟩
    · rw [UVal.values, UVal.values, hv.2, hvec.2]

theorem copyFields_clean {fields : List (Bytes × UVal)}
    (h : ∀ f ∈ fields, ∀ dst, (f.2.copyTo dst).Clean (Shows f.2.value)) :
    (UVal.copyFields fields).Clean fun fields' =>
      (∀ f ∈ fields', InStep f.2) ∧ UVal.fieldValues fields' = UVal.fieldValues fields := by
  induction fields with
  | nil => exact ⟨nofun, rfl⟩
  | cons f fields ih =>
    apply Access.Clean.bind (h f (List.mem_cons_self ..) _)
    intro v' hv
    apply Access.Clean.bind (ih fun g hg => h g (List.mem_cons_of_mem f hg))
    intro fields' hfields
    constructor
    · exact List.forall_mem_cons.mpr ⟨hv.1, hfields.1⟩
    · rw [UVal.fieldValues, UVal.fieldValues, hv.2, hfields.2]

/-- A copy is in step and shows the same value. -/
theorem InStep.copyTo {v : UVal} (h : InStep v) (dst : Union UVal) :
    (v.copyTo dst).Clean (Shows v.value) := by
  induction h generalizing dst with
  | empty u => exact ⟨.empty dst, rfl⟩
  | int32 i => exact ⟨.int32 i, rfl⟩
  | int64 i => exact ⟨.int64 i, rfl⟩
  | uint32 u => exact ⟨.uint32 u, rfl⟩
  | uint64 u => exact ⟨.uint64 u, rfl⟩
  | float32 bits => exact ⟨.float32 bits, rfl⟩
  | float64 bits => exact ⟨.float64 bits, rfl⟩
  | measurement unitVal unit => exact ⟨.measurement unitVal unit, rfl⟩
  | string s => exact ⟨.string s, rfl⟩
  | bytearray b => exact ⟨.bytearray b, rfl⟩
  | array _ ih =>
    apply Access.Clean.bind (copyElements_clean ih)
    intro vec' hvec
    exact ⟨.array hvec.1, congrArg Val.array hvec.2⟩
  | map _ ih =>
    apply Access.Clean.bind (copyFields_clean ih)
    intro fields' hfields
    exact ⟨.map hfields.1, congrArg Val.map hfields.2⟩
  | object id => exact ⟨.object id, rfl⟩
  | error e => exact ⟨.error e, rfl⟩

theorem InStep.copy {v : UVal} (h : InStep v) : v.copy.Clean (Shows v.value) := h.copyTo _

/-! ## setType and the setters -/

/-- `setType` on a pointer type, or on `EMPTY`, leaves tag and member in step. -/
def Tag.Allocated (t : Tag) : Prop :=
  t = .EMPTY ∨ t = .STRING ∨ t = .BYTEARRAY ∨ t = .ARRAY ∨ t = .MAP

theorem allocate_inStep {t : Tag} (ht : t.Allocated) (u : Union UVal) :
    InStep ⟨t, UVal.allocate t u⟩ := by
  rcases ht with rfl | rfl | rfl | rfl | rfl
  · exact .empty u
  · exact .string []
  · exact .bytearray []
  · exact .array nofun
  · exact .map nofun

theorem InStep.release {v : UVal} (h : InStep v) : v.release.Clean fun _ => True := by
  have hd := h.destroy
  cases h with
  | string s => exact hd.bind fun _ _ => trivial
  | bytearray b => exact hd.bind fun _ _ => trivial
  | array hv => exact hd.bind fun _ _ => trivial
  | map hf => exact hd.bind fun _ _ => trivial
  | error e => exact hd.bind fun _ _ => trivial
  | _ => trivial

theorem InStep.setType {v : UVal} (h : InStep v) (t : Tag) :
    (v.setType t).Clean fun w => w.type = t ∧ (t.Allocated → InStep w) := by
  unfold UVal.setType
  split_ifs with ht
  · exact ⟨ht, fun _ => h⟩
  · apply Access.Clean.bind h.release
    intro u _
    exact ⟨rfl, fun ha => allocate_inStep ha u⟩

theorem InStep.setInt32 {v : UVal} (h : InStep v) (i : BitVec 32) :
    (v.setInt32 i).Clean InStep := by
  apply Access.Clean.bind (h.setType .INT32)
  intro w hw
  rw [hw.1]
  exact .int32 i

theorem InStep.setDouble {v : UVal} (h : InStep v) (d : BitVec 64) :
    (v.setDouble d).Clean InStep := by
  apply Access.Clean.bind (h.setType .FLOAT64)
  intro w hw
  rw [hw.1]
  exact .float64 d

/-! What a val in step holds under the container and string tags. -/

theorem InStep.of_string {v : UVal} (h : InStep v) (ht : v.type = .STRING) :
    ∃ s, v = ⟨.STRING, .str (some s)⟩ := by
  cases h <;> first | exact ⟨_, rfl⟩ | cases ht

theorem InStep.of_bytearray {v : UVal} (h : InStep v) (ht : v.type = .BYTEARRAY) :
    ∃ b, v = ⟨.BYTEARRAY, .bytearray (some b)⟩ := by
  cases h <;> first | exact ⟨_, rfl⟩ | cases ht

theorem InStep.of_array {v : UVal} (h : InStep v) (ht : v.type = .ARRAY) :
    ∃ vec, v = ⟨.ARRAY, .vec (some vec)⟩ ∧ ∀ w ∈ vec, InStep w := by
  cases h with
  | array hv => exact ⟨_, rfl, hv⟩
  | _ => cases ht

theorem InStep.of_map {v : UVal} (h : InStep v) (ht : v.type = .MAP) :
    ∃ fields, v = ⟨.MAP, .map (some fields)⟩ ∧ ∀ f ∈ fields, InStep f.2 := by
  cases h with
  | map hf => exact ⟨_, rfl, hf⟩
  | _ => cases ht

theorem InStep.setString {v : UVal} (h : InStep v) (p : Bytes) :
    (v.setString p).Clean InStep := by
  apply Access.Clean.bind (h.setType .STRING)
  intro w hw
  obtain ⟨s, rfl⟩ := (hw.2 (by simp [Tag.Allocated])).of_string hw.1
  exact .string p

theorem InStep.setByteArray {v : UVal} (h : InStep v) (p : Bytes) :
    (v.setByteArray p).Clean InStep := by
  apply Access.Clean.bind (h.setType .BYTEARRAY)
  intro w hw
  obtain ⟨b, rfl⟩ := (hw.2 (by simp [Tag.Allocated])).of_bytearray hw.1
  exact .bytearray (b ++ p)

/-! ## Assignment and containers -/

theorem InStep.assign {v src : UVal} (h : InStep v) (hs : InStep src) :
    (v.assign src).Clean (Shows src.value) := by
  apply Access.Clean.bind (h.setType .EMPTY)
  intro w _
  exact hs.copyTo w.u

theorem InStep.assignSelf {v : UVal} (h : InStep v) : v.assignSelf.Clean InStep := by
  apply Access.Clean.bind (h.setType .EMPTY)
  intro w hw
  exact ((hw.2 (Or.inl rfl)).copyTo w.u).mono fun _ h => h.1

theorem InStep.require {v : UVal} (h : InStep v) {t : Tag} (ht : t.Allocated) :
    (v.require t).Clean fun w => w.type = t ∧ InStep w := by
  have hset : (if v.isEmpty then v.setType t else pure v : Access UVal).Clean InStep := by
    split_ifs
    · exact (h.setType t).mono fun _ hw => hw.2 ht
    · exact h
  apply Access.Clean.bind hset
  intro w hw
  split_ifs with e
  · exact ⟨e, hw⟩
  · trivial

theorem InStep.moveTo {v : UVal} (h : InStep v) : InStep v.moveTo := by
  cases v
  exact h

theorem InStep.movedFrom (v : UVal) : InStep v.movedFrom := .empty _

theorem inStep_assign_fields {fields : List (Bytes × UVal)} (h : ∀ f ∈ fields, InStep f.2)
    {v : UVal} (hv : InStep v) (key : Bytes) :
    ∀ f ∈ OrderedMap.assign key v fields, InStep f.2 := by
  intro f hf
  rcases OrderedMap.mem_assign hf with rfl | hf
  · exact hv
  · exact h f hf

theorem findField_inStep {fields : List (Bytes × UVal)} (h : ∀ f ∈ fields, InStep f.2)
    {key : Bytes} {v : UVal} (hv : UVal.findField key fields = some v) : InStep v := by
  obtain ⟨f, hf, rfl⟩ := Option.map_eq_some_iff.mp hv
  exact h f (List.mem_of_find?_eq_some hf)

theorem InStep.set {v value : UVal} (h : InStep v) (hv : InStep value) (key : Bytes) :
    (v.set key value).Clean InStep := by
  apply Access.Clean.bind (h.require (t := .MAP) (by simp [Tag.Allocated]))
  intro w hw
  obtain ⟨fields, rfl, hf⟩ := hw.2.of_map hw.1
  apply Access.Clean.bind hv.copy
  intro node hnode
  cases e : UVal.findField key fields with
  | none => exact .map (inStep_assign_fields hf hnode.1 key)
  | some field =>
    apply Access.Clean.bind ((findField_inStep hf e).assign hv)
    intro field' hfield
    exact .map (inStep_assign_fields hf hfield.1 key)

/-- The entry `operator[]` finds or makes is in step. -/
theorem getD_findField_inStep {fields : List (Bytes × UVal)} (h : ∀ f ∈ fields, InStep f.2)
    (key : Bytes) : InStep ((UVal.findField key fields).getD UVal.empty) := by
  cases e : UVal.findField key fields with
  | none => exact .empty _
  | some field => exact findField_inStep h e

theorem fieldValues_assign (key : Bytes) (v : UVal) (fields : List (Bytes × UVal)) :
    UVal.fieldValues (OrderedMap.assign key v fields) =
      OrderedMap.assign key v.value (UVal.fieldValues fields) := by
  induction fields with
  | nil => rfl
  | cons f fields ih =>
    simp only [OrderedMap.assign, UVal.fieldValues]
    split_ifs
    · rfl
    · rfl
    · rw [UVal.fieldValues, ih]

theorem assignField_clean {fields : List (Bytes × UVal)} (hf : ∀ f ∈ fields, InStep f.2)
    {value : UVal} (hv : InStep value) (key : Bytes) :
    (UVal.assignField ⟨.MAP, .map (some fields)⟩ key value).Clean
      (Shows (.map (OrderedMap.assign key value.value (UVal.fieldValues fields)))) := by
  apply Access.Clean.bind ((getD_findField_inStep hf key).assign hv)
  intro field hfield
  constructor
  · exact .map (inStep_assign_fields hf hfield.1 key)
  · rw [UVal.type, UVal.value, fieldValues_assign, hfield.2]

theorem pushBack_clean {vec : List UVal} (hv : ∀ v ∈ vec, InStep v) {elem : UVal}
    (he : InStep elem) :
    (UVal.pushBack ⟨.ARRAY, .vec (some vec)⟩ elem).Clean
      (Shows (.array (UVal.values vec ++ [elem.value]))) := by
  constructor
  · apply InStep.array
    intro x hx
    rcases List.mem_append.mp hx with hx | hx
    · exact hv x hx
    · exact List.mem_singleton.mp hx ▸ he
  · simp only [UVal.type, UVal.value, UVal.values_eq_map, List.map_append, List.map_cons,
      List.map_nil]

theorem InStep.setObject {v : UVal} {value : Option UVal} (h : InStep v)
    (hv : ∀ w ∈ value, InStep w) (key : Bytes) : (v.setObject key value).Clean InStep := by
  apply Access.Clean.bind (h.require (t := .MAP) (by simp [Tag.Allocated]))
  intro w hw
  cases value with
  | none => exact hw.2
  | some value =>
    obtain ⟨fields, rfl, hf⟩ := hw.2.of_map hw.1
    exact (assignField_clean hf (hv value rfl) key).mono fun _ h => h.1

theorem InStep.appendVal {v elem : UVal} (h : InStep v) (he : InStep elem) :
    (v.appendVal elem).Clean InStep := by
  apply Access.Clean.bind (h.require (t := .ARRAY) (by simp [Tag.Allocated]))
  intro w hw
  obtain ⟨vec, rfl, hv⟩ := hw.2.of_array hw.1
  apply Access.Clean.bind he.copy
  intro elem' he'
  exact (pushBack_clean hv he'.1).mono fun _ h => h.1

/-! ## Constructors of containers -/

theorem ofVector_clean {vec : List UVal} (h : ∀ v ∈ vec, InStep v) :
    (UVal.ofVector vec).Clean InStep := by
  apply Access.Clean.bind (copyElements_clean fun v hv => (h v hv).copyTo)
  intro vec' hvec
  exact .array hvec.1

theorem insertPairs_clean {fields vals : List (Bytes × UVal)} (hf : ∀ f ∈ fields, InStep f.2)
    (h : ∀ f ∈ vals, InStep f.2) :
    (UVal.insertPairs fields vals).Clean fun fields' => ∀ f ∈ fields', InStep f.2 := by
  induction vals generalizing fields with
  | nil => exact hf
  | cons p vals ih =>
    apply Access.Clean.bind (h p (List.mem_cons_self ..)).copy
    intro it hit
    apply Access.Clean.bind hit.1.copy
    intro node hnode
    apply ih ?_ fun f hf => h f (List.mem_cons_of_mem p hf)
    intro f hmem
    rcases OrderedMap.mem_insert hmem with rfl | hmem
    · exact hnode.1
    · exact hf f hmem

theorem ofPairs_clean {vals : List (Bytes × UVal)} (h : ∀ f ∈ vals, InStep f.2) :
    (UVal.ofPairs vals).Clean InStep := by
  apply Access.Clean.bind (insertPairs_clean (List.forall_mem_nil _) h)
  intro fields hfields
  exact .map hfields

end Libacorn
