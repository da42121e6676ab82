import Libacorn.UnionParse

/-!
# Union discipline of every reachable val

`Reach v`: `v` comes from the public constructors, the setters, copy and move,
`operator=`, `set`, `appendVal` and `val::parse`, and so may the vals inside it.
Every such val is in step (`Reach.inStep`), so its accessors read only the member
last written (`Reach.disciplined`).

The move constructor hands the union on with its member, and `_i64` and `_u64`
count as one member: the source copies every union through `_f64` and starts
`parseNumber` in `_u64` to go on in `_i64`. Read to the letter, both break the
rule (`union_misreads`), and so does `doubleVal` of a measurement.
-/

namespace Libacorn

open Support

/-! ## Reachable vals -/

/-- The vals a program can make. A parse counts when it waived nothing. -/
inductive Reach [Target] : UVal → Prop
  | empty : Reach .empty
  | int32 (i : BitVec 32) : Reach (.ofInt32 i)
  | int64 (i : BitVec 64) : Reach (.ofInt64 i)
  | uint32 (u : BitVec 32) : Reach (.ofUInt32 u)
  | uint64 (u : BitVec 64) : Reach (.ofUInt64 u)
  | float (bits : BitVec 32) : Reach (.ofFloat bits)
  | double (bits : BitVec 64) : Reach (.ofDouble bits)
  | string (s : Bytes) : Reach (.ofString s)
  | measurement (unitVal : BitVec 32) (unit : MeasureUnit) : Reach (.ofMeasurement unitVal unit)
  | bytearray (b : Bytes) : Reach (.ofBytearray b)
  | object (id : Nat) : Reach (.ofObject id)
  | error (code : BitVec 32) (msg : Bytes) : Reach (.ofError code msg)
  | vector {vec : List UVal} {v : UVal} (h : ∀ w ∈ vec, Reach w) (e : UVal.ofVector vec = .ok v) :
      Reach v
  | pairs {vals : List (Bytes × UVal)} {v : UVal} (h : ∀ f ∈ vals, Reach f.2)
      (e : UVal.ofPairs vals = .ok v) : Reach v
  | copy {v w : UVal} (h : Reach v) (e : v.copy = .ok w) : Reach w
  | moveTo {v : UVal} (h : Reach v) : Reach v.moveTo
  | movedFrom {v : UVal} (h : Reach v) : Reach v.movedFrom
  | assign {v src w : UVal} (h : Reach v) (hs : Reach src) (e : v.assign src = .ok w) : Reach w
  | assignSelf {v w : UVal} (h : Reach v) (e : v.assignSelf = .ok w) : Reach w
  | setInt32 {v w : UVal} {i : BitVec 32} (h : Reach v) (e : v.setInt32 i = .ok w) : Reach w
  | setDouble {v w : UVal} {d : BitVec 64} (h : Reach v) (e : v.setDouble d = .ok w) : Reach w
  | setString {v w : UVal} {p : Bytes} (h : Reach v) (e : v.setString p = .ok w) : Reach w
  | setByteArray {v w : UVal} {p : Bytes} (h : Reach v) (e : v.setByteArray p = .ok w) : Reach w
  | set {v value w : UVal} {key : Bytes} (h : Reach v) (hv : Reach value)
      (e : v.set key value = .ok w) : Reach w
  | setObject {v w : UVal} {value : Option UVal} {key : Bytes} (h : Reach v)
      (hv : ∀ x ∈ value, Reach x) (e : v.setObject key value = .ok w) : Reach w
  | appendVal {v elem w : UVal} (h : Reach v) (he : Reach elem) (e : v.appendVal elem = .ok w) :
      Reach w
  /-- An element, as `arrayRef` gives it. -/
  | element {vec : List UVal} {v : UVal} (h : Reach ⟨.ARRAY, .vec (some vec)⟩) (hv : v ∈ vec) :
      Reach v
  /-- The array, after one of its elements was changed through `arrayRef`. -/
  | elementChanged {vec : List UVal} {v : UVal} {i : Nat} (h : Reach ⟨.ARRAY, .vec (some vec)⟩)
      (hv : Reach v) : Reach ⟨.ARRAY, .vec (some (vec.set i v))⟩
  /-- A field, as `get` gives it. -/
  | field {fields : List (Bytes × UVal)} {f : Bytes × UVal}
      (h : Reach ⟨.MAP, .map (some fields)⟩) (hf : f ∈ fields) : Reach f.2
  /-- The map, after one of its fields was made or changed through `operator[]`. -/
  | fieldChanged {fields : List (Bytes × UVal)} {v : UVal} {key : Bytes}
      (h : Reach ⟨.MAP, .map (some fields)⟩) (hv : Reach v) :
      Reach ⟨.MAP, .map (some (OrderedMap.assign key v fields))⟩
  | parse {σ : Type} {r : Reader σ} {n : Nat} {flags : Flags} {s s' : σ} {v : UVal} {k : Marks}
      (e : UVal.parse Wide.sameUpToSign r n flags s = .done (v, s', k)) (hk : k.waived = false) :
      Reach v
  | parseNumber {σ : Type} {r : Reader σ} {n : Nat} {s s' : σ} {v : UVal} {k : Marks}
      (e : UVal.parseNumber Wide.sameUpToSign r n s = .done (v, s', k)) (hk : k.waived = false) :
      Reach v

section Target

variable [Target]

/-- `parse` misreads exactly the numbers with a second point or an exhausted fraction. -/
theorem parse_broken_eq {σ : Type} {r : Reader σ} {n : Nat} {flags : Flags} {s s' : σ} {v : UVal}
    {k : Marks} (e : UVal.parse Wide.sameUpToSign r n flags s = .done (v, s', k)) :
    k.broken = k.waived :=
  (UVal.parse_tracks r n flags s v s' k e).1

theorem parseNumber_broken_eq {σ : Type} {r : Reader σ} {n : Nat} {s s' : σ} {v : UVal}
    {k : Marks} (e : UVal.parseNumber Wide.sameUpToSign r n s = .done (v, s', k)) :
    k.broken = k.waived :=
  (UVal.parseNumber_tracks r n s v s' k e).1

theorem parse_inStep {σ : Type} {r : Reader σ} {n : Nat} {flags : Flags} {s s' : σ} {v : UVal}
    {k : Marks} (e : UVal.parse Wide.sameUpToSign r n flags s = .done (v, s', k))
    (hk : k.waived = false) : InStep v := by
  obtain ⟨c, _, hv⟩ := (UVal.parse_tracks r n flags s v s' k e).2 hk
  exact hv.1

theorem parseNumber_inStep {σ : Type} {r : Reader σ} {n : Nat} {s s' : σ} {v : UVal} {k : Marks}
    (e : UVal.parseNumber Wide.sameUpToSign r n s = .done (v, s', k)) (hk : k.waived = false) :
    InStep v := by
  obtain ⟨c, _, hv⟩ := (UVal.parseNumber_tracks r n s v s' k e).2 hk
  exact hv.1

theorem Reach.inStep {v : UVal} (h : Reach v) : InStep v := by
  induction h with
  | empty => exact .empty _
  | int32 i => exact .int32 i
  | int64 i => exact .int64 i
  | uint32 u => exact .uint32 u
  | uint64 u => exact .uint64 u
  | float bits => exact .float32 bits
  | double bits => exact .float64 bits
  | string s => exact .string s
  | measurement unitVal unit => exact .measurement unitVal unit
  | bytearray b => exact .bytearray b
  | object id => exact .object id
  | error code msg => exact .error (code, msg)
  | vector _ e ih => exact (ofVector_clean ih).of_ok e
  | pairs _ e ih => exact (ofPairs_clean ih).of_ok e
  | copy _ e ih => exact (ih.copy.of_ok e).1
  | moveTo _ ih => exact ih.moveTo
  | movedFrom _ _ => exact .movedFrom _
  | assign _ _ e ih ihs => exact ((ih.assign ihs).of_ok e).1
  | assignSelf _ e ih => exact ih.assignSelf.of_ok e
  | setInt32 _ e ih => exact (ih.setInt32 _).of_ok e
  | setDouble _ e ih => exact (ih.setDouble _).of_ok e
  | setString _ e ih => exact (ih.setString _).of_ok e
  | setByteArray _ e ih => exact (ih.setByteArray _).of_ok e
  | set _ _ e ih ihv => exact (ih.set ihv _).of_ok e
  | setObject _ _ e ih ihv => exact (ih.setObject ihv _).of_ok e
  | appendVal _ _ e ih ihe => exact (ih.appendVal ihe).of_ok e
  | element _ hv ih =>
    cases ih with
    | array h => exact h _ hv
  | elementChanged _ _ ih ihv =>
    cases ih with
    | array h =>
      apply InStep.array
      intro w hw
      rcases List.mem_or_eq_of_mem_set hw with hw | rfl
      · exact h w hw
      · exact ihv
  | field _ hf ih =>
    cases ih with
    | map h => exact h _ hf
  | fieldChanged _ _ ih ihv =>
    cases ih with
    | map h => exact .map (inStep_assign_fields h ihv _)
  | parse e hk => exact parse_inStep e hk
  | parseNumber e hk => exact parseNumber_inStep e hk

/-! ## Discipline -/

/-- What reads a val reads only the member last written. -/
structure Disciplined (v : UVal) : Prop where
  intVal : v.intVal ≠ .misread
  boolVal : v.boolVal ≠ .misread
  floatVal : v.floatVal ≠ .misread
  /-- A measurement is left out: there the source lacks a `return`. -/
  doubleVal : v.type ≠ .MEASUREMENT → v.doubleVal ≠ .misread
  stringVal : v.stringVal ≠ .misread
  measurementVal : v.measurementVal ≠ .misread
  toJson : v.toJson ≠ .misread
  getRamCost : v.getRamCost ≠ .misread
  copy : v.copy ≠ .misread
  destroy : v.destroy ≠ .misread

/-- What changes a val reads only the member last written. -/
structure DisciplinedChanges (v w : UVal) : Prop where
  assign : v.assign w ≠ .misread
  assignSelf : v.assignSelf ≠ .misread
  setInt32 : ∀ i, v.setInt32 i ≠ .misread
  setDouble : ∀ d, v.setDouble d ≠ .misread
  setString : ∀ p, v.setString p ≠ .misread
  setByteArray : ∀ p, v.setByteArray p ≠ .misread
  set : ∀ key, v.set key w ≠ .misread
  setObject : ∀ key, v.setObject key (some w) ≠ .misread
  appendVal : v.appendVal w ≠ .misread

theorem InStep.disciplined {v : UVal} (h : InStep v) : Disciplined v where
  intVal := h.intVal.ne_misread
  boolVal := h.boolVal.ne_misread
  floatVal := h.floatVal.ne_misread
  doubleVal ht hd := ht (h.doubleVal_misread_iff.mp hd)
  stringVal := h.stringVal.ne_misread
  measurementVal := h.measurementVal.ne_misread
  toJson := h.toJson.ne_misread
  getRamCost := h.getRamCost.ne_misread
  copy := h.copy.ne_misread
  destroy := h.destroy.ne_misread

omit [Target] in
theorem InStep.disciplinedChanges {v w : UVal} (h : InStep v) (hw : InStep w) :
    DisciplinedChanges v w where
  assign := (h.assign hw).ne_misread
  assignSelf := h.assignSelf.ne_misread
  setInt32 i := (h.setInt32 i).ne_misread
  setDouble d := (h.setDouble d).ne_misread
  setString p := (h.setString p).ne_misread
  setByteArray p := (h.setByteArray p).ne_misread
  set key := (h.set hw key).ne_misread
  setObject key := (h.setObject (fun _ e => Option.some.inj e ▸ hw) key).ne_misread
  appendVal := (h.appendVal hw).ne_misread

/-- Every reachable val is read and changed only through the member last written,
and so is the union of every number that `parseNumber` or `parse` reads. -/
theorem union_discipline :
    (∀ v, Reach v → Disciplined v) ∧ (∀ v w, Reach v → Reach w → DisciplinedChanges v w) ∧
      (∀ {σ : Type} (r : Reader σ) (n : Nat) (s s' : σ) (v : UVal) (k : Marks),
        UVal.parseNumber Wide.sameUpToSign r n s = .done (v, s', k) → k.waived = false →
          k.broken = false) ∧
      ∀ {σ : Type} (r : Reader σ) (n : Nat) (flags : Flags) (s s' : σ) (v : UVal) (k : Marks),
        UVal.parse Wide.sameUpToSign r n flags s = .done (v, s', k) →
          k.waived = false → k.broken = false := by
  refine ⟨?_, ?_, ?_, ?_⟩
  · intro v hv
    exact hv.inStep.disciplined
  · intro v w hv hw
    exact hv.inStep.disciplinedChanges hw.inStep
  · intro σ r n s s' v k e hk
    rw [parseNumber_broken_eq e, hk]
  · intro σ r n flags s s' v k e hk
    rw [parse_broken_eq e, hk]

end Target

/-- `val::parse(str, flags)` over unions. -/
def Text.parseUnion [Target] (s : Text) (flags : Flags) (fuel : Nat) :
    Outcome (UVal × Cursor × Marks) :=
  UVal.parse Wide.sameUpToSign s.reader fuel flags Cursor.start

/-- `val::parseNumber`, where a read must be through the very member last written. -/
def Text.parseNumberStrict [Target] (s : Text) (fuel : Nat) : Outcome (UVal × Cursor × Marks) :=
  UVal.parseNumber (fun last m => last == m) s.reader fuel Cursor.start

theorem union_discipline_array :
    ∃ v c k, @Text.parseUnion .host (.whole (lit ['[', '7', ',', '8', ']']) (by decide))
        .jsonOnly 9 = .done (v, c, k) ∧ v.type = .ARRAY ∧ k.broken = false ∧
      @Disciplined .host v ∧ DisciplinedChanges v v := by
  let _ := Target.host
  have run : (Text.parseUnion (.whole (lit ['[', '7', ',', '8', ']']) (by decide)) .jsonOnly 9).bind
      (fun r => .done (r.1.type, r.2.2)) = .done (Tag.ARRAY, ⟨false, false⟩) := by decide +kernel
  obtain ⟨⟨v, c, k⟩, e, hr⟩ := Outcome.bind_eq_done run
  obtain ⟨ht, hk⟩ := Prod.mk.inj (Outcome.done.inj hr)
  have hw : k.waived = false := congrArg Marks.waived hk
  have hv := Reach.parse e hw
  obtain ⟨hread, hchange, _, hparse⟩ := union_discipline
  exact ⟨v, c, k, e, ht, hparse _ _ _ _ _ _ _ e hw, hread v hv, hchange v v hv hv⟩

/-- To the letter: an integer moved through `_f64`, a number that goes from `_u64`
to `_i64`, and the measurement that falls through to `_str`. -/
theorem union_misreads :
    @UVal.intVal .host ((UVal.ofInt32 5).moveF64 5) = .misread ∧
      (@Text.parseNumberStrict .host (.whole (lit ['7']) (by decide)) 5).bind
        (fun r => .done r.2.2) = .done (Marks.mk false true) ∧
      @Reach .host (.ofMeasurement 0 .PX) ∧
      @UVal.doubleVal .host (.ofMeasurement 0 .PX) = .misread := by
  let _ := Target.host
  refine ⟨rfl, ?_, .measurement 0 .PX, rfl⟩
  decide +kernel

end Libacorn
