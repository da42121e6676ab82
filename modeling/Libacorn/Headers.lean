import Mathlib.Data.List.Nodup
import Mathlib.Algebra.Order.BigOperators.Group.List
import Mathlib.Algebra.Order.Monoid.Canonical.Defs
import Mathlib.Algebra.GroupWithZero.Nat
import Mathlib.Tactic.Common

/-!
# The class Headers of lib/fetch.js

`Headers` keeps its values in a JavaScript `Map` from names to arrays. Arrays are
cells of a store and are shared by reference; the `Map` object also has named
properties, which are not its entries. `toLocaleLowerCase` is a parameter.
-/

namespace Libacorn

namespace Fetch

/-- The arrays of strings, by reference. -/
abbrev Arrays := List (List String)

/-- A `Headers` object: the entries of its `map` in insertion order, and the
properties that were written to the `Map` object itself. -/
structure Headers where
  map : List (String × Nat)
  props : List (String × String)

/-- `join(', ')` -/
def join : List String → String
  | [] => ""
  | [v] => v
  | v :: vs => v ++ ", " ++ join vs

/-- The properties every `Map` object inherits. -/
def mapProperties : List String :=
  ["set", "get", "has", "delete", "clear", "size", "forEach", "values", "keys", "entries",
    "constructor", "toString", "toLocaleString", "valueOf", "hasOwnProperty", "isPrototypeOf",
    "propertyIsEnumerable", "__proto__", "__defineGetter__", "__defineSetter__", "__lookupGetter__",
    "__lookupSetter__"]

namespace Headers

/-- `new Headers()` -/
def empty : Headers := ⟨[], []⟩

/-- A property of the object hides the method of that name. -/
def hides (h : Headers) (method : String) : Bool := (h.props.lookup method).isSome

variable (lower : String → String)

/-- `none` is a thrown exception. -/
def append (A : Arrays) (h : Headers) (name value : String) : Option (Arrays × Headers) :=
  let lname := lower name
  if h.hides "get" then none
  else
    match h.map.lookup lname with
    | none =>
      if h.hides "set" then none
      else some (A ++ [[value]], { h with map := h.map ++ [(lname, A.length)] })
    | some v => some (A.modify v (· ++ [value]), h)

/-- `delete` refers to a variable `map` that does not exist. -/
def delete (_ : Headers) (_ : String) : Option Headers := none

/-- `this.map[lname] = value`: `size` has no setter, and the one of `__proto__`
ignores strings. -/
def set (h : Headers) (name value : String) : Option Headers :=
  let lname := lower name
  if lname = "size" then none
  else if lname = "__proto__" then some h
  else some { h with props := (lname, value) :: h.props }

def has (h : Headers) (name : String) : Option Bool :=
  if h.hides "has" then none else some (h.map.lookup (lower name)).isSome

/-- `this.map[lname]` is a property of the `Map` object; none has a method `join`. -/
def get (h : Headers) (name : String) : Option (Option String) :=
  let lname := lower name
  if h.hides lname ∨ lname ∈ mapProperties then none else some none

/-- The pairs that iterating over `entries()` yields. -/
def entries (A : Arrays) (h : Headers) : Option (List (String × String)) :=
  if h.hides "entries" then none else some (h.map.map fun e => (e.1, join (A.getD e.2 [])))

/-- The strings that iterating over `values()` yields. -/
def values (A : Arrays) (h : Headers) : Option (List String) :=
  if h.hides "values" then none else some (h.map.map fun e => join (A.getD e.2 []))

end Headers

/-! ## The reference model -/

/-- Names with their values, in the order the names came in. -/
abbrev Multimap := List (String × List String)

namespace Multimap

/-- Change the values of a name that is there, else add it at the end. -/
def update (m : Multimap) (k : String) (f : List String → List String) : Multimap :=
  if (m.lookup k).isSome then m.map fun e => if e.1 = k then (e.1, f e.2) else e
  else m ++ [(k, f [])]

def append (m : Multimap) (k v : String) : Multimap := m.update k (· ++ [v])
def set (m : Multimap) (k v : String) : Multimap := m.update k fun _ => [v]
def delete (m : Multimap) (k : String) : Multimap := m.filter (·.1 ≠ k)
def has (m : Multimap) (k : String) : Bool := (m.lookup k).isSome
def get (m : Multimap) (k : String) : Option String := (m.lookup k).map join
def entries (m : Multimap) : List (String × String) := m.map fun e => (e.1, join e.2)
def values (m : Multimap) : List String := m.map fun e => join e.2

end Multimap

/-! ## Appending -/

/-- The names are distinct, and so are the arrays, which exist. -/
structure Headers.Ok (A : Arrays) (h : Headers) : Prop where
  names : (h.map.map Prod.fst).Nodup
  refs : (h.map.map Prod.snd).Nodup
  lt : ∀ e ∈ h.map, e.2 < A.length

/-- The arrays in place of the references. -/
def Headers.deref (A : Arrays) (h : Headers) : Multimap := h.map.map fun e => (e.1, A.getD e.2 [])

theorem lookup_map {β γ : Type} (f : String → β → γ) (m : List (String × β)) (k : String) :
    (m.map fun e => (e.1, f e.1 e.2)).lookup k = (m.lookup k).map (f k) := by
  induction m with
  | nil => rfl
  | cons e m ih =>
    rw [List.map_cons, List.lookup_cons, List.lookup_cons, ih]
    by_cases h : (k == e.1) = true
    · rw [h]
      rw [eq_of_beq h]
      rfl
    · rw [Bool.not_eq_true] at h
      rw [h]

theorem mem_of_lookup {β : Type} {m : List (String × β)} {k : String} {v : β}
    (h : m.lookup k = some v) : (k, v) ∈ m := by
  induction m with
  | nil => cases h
  | cons e m ih =>
    rw [List.lookup_cons] at h
    by_cases he : (k == e.1) = true
    · rw [he] at h
      obtain rfl := Option.some.inj h
      rw [eq_of_beq he]
      exact List.mem_cons_self ..
    · rw [Bool.not_eq_true] at he
      rw [he] at h
      exact List.mem_cons_of_mem _ (ih h)

theorem lookup_eq_none_iff {β : Type} {m : List (String × β)} {k : String} :
    m.lookup k = none ↔ k ∉ m.map Prod.fst := by
  induction m with
  | nil => simp
  | cons e m ih =>
    rw [List.lookup_cons, List.map_cons, List.mem_cons, not_or]
    by_cases he : (k == e.1) = true
    · simp [eq_of_beq he]
    · rw [Bool.not_eq_true] at he
      rw [he]
      simp only [ih]
      exact ⟨fun h => ⟨fun hk => by simp [hk] at he, h⟩, fun h => h.2⟩

section Append

variable {A : Arrays} {h : Headers}

theorem lookup_deref (k : String) : (h.deref A).lookup k = (h.map.lookup k).map (A.getD · []) :=
  lookup_map (fun _ v => A.getD v []) h.map k

/-- The array behind a name is its own. -/
theorem Headers.Ok.eq_of_ref (ho : h.Ok A) {e e' : String × Nat} (he : e ∈ h.map) (he' : e' ∈ h.map)
    (heq : e.2 = e'.2) : e = e' :=
  List.inj_on_of_nodup_map ho.refs he he' heq

theorem getD_modify (A : Arrays) (v i : Nat) (f : List String → List String) (hv : v < A.length) :
    (A.modify v f).getD i [] = if v = i then f (A.getD i []) else A.getD i [] := by
  simp only [List.getD_eq_getElem?_getD, List.getElem?_modify]
  by_cases hvi : v = i
  · subst hvi
    simp [List.getElem?_eq_getElem hv]
  · simp [hvi]

/-- A new array is behind none of the names. -/
theorem deref_push (ho : h.Ok A) (a : List String) : h.deref (A ++ [a]) = h.deref A := by
  apply List.map_congr_left
  intro e he
  simp only [List.getD_eq_getElem?_getD, List.getElem?_append_left (ho.lt e he)]

/-- A change to an array that is behind none of the names. -/
theorem deref_modify_other {v : Nat} (hv : v < A.length) (hnot : v ∉ h.map.map Prod.snd)
    (f : List String → List String) : h.deref (A.modify v f) = h.deref A := by
  apply List.map_congr_left
  intro e he
  have hne : v ≠ e.2 := by
    intro heq
    exact hnot (List.mem_map.mpr ⟨e, he, heq.symm⟩)
  rw [getD_modify A v e.2 f hv, if_neg hne]

/-- A value pushed to the array behind a name. -/
theorem deref_modify (ho : h.Ok A) {k : String} {v : Nat} (hl : h.map.lookup k = some v)
    (value : String) : h.deref (A.modify v (· ++ [value])) = (h.deref A).append k value := by
  have hmem := mem_of_lookup hl
  rw [Multimap.append, Multimap.update, lookup_deref, hl]
  simp only [Headers.deref, Option.map_some, Option.isSome_some, ↓reduceIte, List.map_map]
  apply List.map_congr_left
  intro e he
  simp only [Function.comp_apply, getD_modify A v e.2 _ (ho.lt _ hmem)]
  by_cases hk : e.1 = k
  · have : v = e.2 := by
      have := List.inj_on_of_nodup_map ho.names he hmem hk
      rw [this]
    rw [if_pos this, if_pos hk]
  · have : v ≠ e.2 := by
      intro hve
      exact hk (congrArg Prod.fst (ho.eq_of_ref he hmem hve.symm))
    rw [if_neg this, if_neg hk]

theorem Headers.Ok.mono (ho : h.Ok A) {A' : Arrays} (hlen : A.length ≤ A'.length) : h.Ok A' := by
  constructor
  · exact ho.names
  · exact ho.refs
  · intro e he
    exact Nat.lt_of_lt_of_le (ho.lt e he) hlen

/-- A new name with a new array. -/
theorem Headers.Ok.push (ho : h.Ok A) {k : String} (hl : h.map.lookup k = none) (a : List String) :
    Headers.Ok (A ++ [a]) { h with map := h.map ++ [(k, A.length)] } := by
  have hnot := lookup_eq_none_iff.mp hl
  constructor
  · simp only [List.map_append, List.map_cons, List.map_nil]
    exact List.nodup_append.mpr ⟨ho.names, List.nodup_singleton _, fun a ha b hb hab =>
      hnot (by rw [← List.mem_singleton.mp hb, ← hab]; exact ha)⟩
  · simp only [List.map_append, List.map_cons, List.map_nil]
    refine List.nodup_append.mpr ⟨ho.refs, List.nodup_singleton _, fun a ha b hb hab => ?_⟩
    obtain ⟨e, he, rfl⟩ := List.mem_map.mp ha
    have := ho.lt e he
    rw [hab, List.mem_singleton.mp hb] at this
    exact Nat.lt_irrefl _ this
  · intro e he
    rw [List.length_append, List.length_singleton]
    rcases List.mem_append.mp he with he | he
    · have := ho.lt e he
      omega
    · rw [List.mem_singleton.mp he]
      exact Nat.lt_succ_self _

/-- What `append` does when no method is hidden. -/
theorem Headers.append_cases (hp : h.props = []) (lower : String → String) (name value : String) :
    (h.map.lookup (lower name) = none ∧ h.append lower A name value =
        some (A ++ [[value]], { h with map := h.map ++ [(lower name, A.length)] })) ∨
    ∃ v, h.map.lookup (lower name) = some v ∧
      h.append lower A name value = some (A.modify v (· ++ [value]), h) := by
  have hhide : ∀ m, h.hides m = false := by
    intro m
    rw [Headers.hides, hp]
    rfl
  cases hl : h.map.lookup (lower name) with
  | none =>
    left
    constructor
    · rfl
    · simp [Headers.append, hhide, hl]
  | some v =>
    right
    refine ⟨v, rfl, ?_⟩
    simp [Headers.append, hhide, hl]

/-- With no method hidden, `append` does what the reference model does. -/
theorem Headers.append_spec (ho : h.Ok A) (hp : h.props = []) (lower : String → String)
    (name value : String) :
    ∃ A' h', h.append lower A name value = some (A', h') ∧ h'.Ok A' ∧ h'.props = [] ∧
      h'.deref A' = (h.deref A).append (lower name) value := by
  rcases Headers.append_cases hp lower name value with ⟨hl, heq⟩ | ⟨v, hl, heq⟩
  · refine ⟨_, _, heq, ho.push hl [value], hp, ?_⟩
    rw [Multimap.append, Multimap.update, lookup_deref, hl, ← deref_push ho [value]]
    simp [Headers.deref, List.getD_eq_getElem?_getD]
  · refine ⟨_, _, heq, ho.mono ?_, hp, deref_modify ho hl value⟩
    rw [List.length_modify]

end Append

/-! ## Runs -/

inductive Op where
  | append (name value : String)
  | set (name value : String)
  | delete (name : String)
deriving DecidableEq

def Op.IsAppend : Op → Prop
  | .append _ _ => True
  | _ => False

section Runs

variable (lower : String → String)

def step (s : Arrays × Headers) : Op → Option (Arrays × Headers)
  | .append name value => s.2.append lower s.1 name value
  | .set name value => (s.2.set lower name value).map fun h => (s.1, h)
  | .delete name => (s.2.delete name).map fun h => (s.1, h)

/-- The operations in order on the object `s.2`; `none` when one of them throws. -/
def runFrom (s : Arrays × Headers) : List Op → Option (Arrays × Headers)
  | [] => some s
  | op :: ops => (step lower s op).bind fun s' => runFrom s' ops

def run (ops : List Op) : Option (Arrays × Headers) := runFrom lower ([], Headers.empty) ops

def Multimap.step (m : Multimap) : Op → Multimap
  | .append name value => m.append (lower name) value
  | .set name value => m.set (lower name) value
  | .delete name => m.delete (lower name)

def Multimap.run (ops : List Op) : Multimap := ops.foldl (Multimap.step lower) []

/-- No operation throws, and what is observed for the name `n` is what the
reference model has. -/
def Agrees (ops : List Op) (n : String) : Prop :=
  ∃ s, run lower ops = some s ∧
    s.2.has lower n = some ((Multimap.run lower ops).has (lower n)) ∧
    s.2.get lower n = some ((Multimap.run lower ops).get (lower n)) ∧
    s.2.entries s.1 = some (Multimap.run lower ops).entries ∧
    s.2.values s.1 = some (Multimap.run lower ops).values

/-- Some append of the run stores under the key `k`. -/
def Appended (ops : List Op) (k : String) : Prop :=
  ∃ name value, Op.append name value ∈ ops ∧ lower name = k

end Runs

section Simulation

variable {lower : String → String}

theorem Headers.ok_empty : Headers.empty.Ok [] := by
  constructor
  · exact List.nodup_nil
  · exact List.nodup_nil
  · intro e he
    cases he

/-- A run of appends follows the reference model. -/
theorem runFrom_appends {ops : List Op} (happ : ∀ op ∈ ops, op.IsAppend) {A : Arrays} {h : Headers}
    (ho : h.Ok A) (hp : h.props = []) :
    ∃ s, runFrom lower (A, h) ops = some s ∧ s.2.props = [] ∧
      s.2.deref s.1 = ops.foldl (Multimap.step lower) (h.deref A) := by
  induction ops generalizing A h with
  | nil => exact ⟨(A, h), rfl, hp, rfl⟩
  | cons op ops ih =>
    cases op with
    | append name value =>
      obtain ⟨A', h', heq, ho', hp', hd⟩ := Headers.append_spec ho hp lower name value
      obtain ⟨s, hs, hsp, hsd⟩ := ih (fun op hop => happ op (List.mem_cons_of_mem _ hop)) ho' hp'
      refine ⟨s, ?_, hsp, ?_⟩
      · rw [runFrom, step, heq, Option.bind_some, hs]
      · rw [hsd, hd]
        rfl
    | set name value => exact (happ _ (List.mem_cons_self ..)).elim
    | delete name => exact (happ _ (List.mem_cons_self ..)).elim

theorem Multimap.lookup_update (m : Multimap) (k : String) (f : List String → List String)
    (n : String) :
    (m.update k f).lookup n = if n = k then some (f ((m.lookup k).getD [])) else m.lookup n := by
  unfold Multimap.update
  by_cases hk : (m.lookup k).isSome = true
  · have hmap : m.map (fun e => if e.1 = k then (e.1, f e.2) else e) =
        m.map fun e => (e.1, if e.1 = k then f e.2 else e.2) := by
      apply List.map_congr_left
      intro e _
      split
      · rfl
      · rfl
    rw [if_pos hk, hmap, lookup_map (fun k' v => if k' = k then f v else v)]
    by_cases hn : n = k
    · subst hn
      obtain ⟨v, hv⟩ := Option.isSome_iff_exists.mp hk
      simp [hv]
    · simp [hn]
  · rw [if_neg hk, List.lookup_append]
    rw [Bool.not_eq_true, Option.isSome_eq_false_iff, Option.isNone_iff_eq_none] at hk
    by_cases hn : n = k
    · subst hn
      simp [hk]
    · have : (n == k) = false := by simpa using hn
      simp [hn, List.lookup_cons, this]

/-- After appends a name is there if and only if it was appended. -/
theorem Multimap.has_appends {ops : List Op} (happ : ∀ op ∈ ops, op.IsAppend) (m : Multimap)
    (n : String) :
    (ops.foldl (Multimap.step lower) m).has n = true ↔ m.has n = true ∨ Appended lower ops n := by
  induction ops generalizing m with
  | nil => simp [Appended]
  | cons op ops ih =>
    cases op with
    | append name value =>
      rw [List.foldl_cons, ih (fun op hop => happ op (List.mem_cons_of_mem _ hop)), Multimap.step,
        Multimap.append, Multimap.has, Multimap.lookup_update]
      constructor
      · rintro (h | ⟨name', value', hmem, h⟩)
        · by_cases hn : n = lower name
          · exact Or.inr ⟨name, value, List.mem_cons_self .., hn.symm⟩
          · rw [if_neg hn] at h
            exact Or.inl h
        · exact Or.inr ⟨name', value', List.mem_cons_of_mem _ hmem, h⟩
      · rintro (h | ⟨name', value', hmem, h⟩)
        · left
          split
          · rfl
          · exact h
        · rcases List.mem_cons.mp hmem with heq | hmem
          · cases heq
            rw [if_pos h.symm]
            exact Or.inl rfl
          · exact Or.inr ⟨name', value', hmem, h⟩
    | set name value => exact (happ _ (List.mem_cons_self ..)).elim
    | delete name => exact (happ _ (List.mem_cons_self ..)).elim

/-- Properties of the `Map` object are never removed. -/
theorem step_hides {s s' : Arrays × Headers} {op : Op} (h : step lower s op = some s') {k : String}
    (hk : s.2.hides k = true) : s'.2.hides k = true := by
  cases op with
  | append name value =>
    simp only [step, Headers.append] at h
    split at h
    · cases h
    · split at h
      · split at h
        · cases h
        · cases h
          exact hk
      · cases h
        exact hk
  | set name value =>
    simp only [step, Headers.set] at h
    split at h
    · cases h
    · split at h
      · cases h
        exact hk
      · cases h
        simp only [Headers.hides, List.lookup_cons]
        split
        · rfl
        · exact hk
  | delete name => cases h

theorem runFrom_hides {ops : List Op} {s s' : Arrays × Headers}
    (h : runFrom lower s ops = some s') {k : String} (hk : s.2.hides k = true) :
    s'.2.hides k = true := by
  induction ops generalizing s with
  | nil =>
    cases h
    exact hk
  | cons op ops ih =>
    obtain ⟨t, ht, hrest⟩ := Option.bind_eq_some_iff.mp h
    exact ih hrest (step_hides ht hk)

/-- A `delete` throws. -/
theorem runFrom_delete {ops : List Op} {name : String} (hmem : Op.delete name ∈ ops)
    (s : Arrays × Headers) : runFrom lower s ops = none := by
  induction ops generalizing s with
  | nil => cases hmem
  | cons op ops ih =>
    rw [runFrom]
    rcases List.mem_cons.mp hmem with rfl | hmem
    · rfl
    · cases step lower s op with
      | none => rfl
      | some t => exact ih hmem t

/-- After a `set`, `get` of the same name throws. -/
theorem runFrom_set {ops : List Op} {name value : String} (hmem : Op.set name value ∈ ops)
    {s s' : Arrays × Headers} (h : runFrom lower s ops = some s') : s'.2.get lower name = none := by
  induction ops generalizing s with
  | nil => cases hmem
  | cons op ops ih =>
    obtain ⟨t, ht, hrest⟩ := Option.bind_eq_some_iff.mp h
    rcases List.mem_cons.mp hmem with rfl | hmem
    · simp only [step, Headers.set] at ht
      split at ht
      · cases ht
      · split at ht
        · rename_i hproto
          rw [Headers.get, hproto, if_pos (Or.inr (by decide))]
        · cases ht
          have hhide := runFrom_hides hrest (k := lower name) (by simp [Headers.hides])
          rw [Headers.get, if_pos (Or.inl hhide)]
    · exact ih hmem hrest

variable {ops : List Op}

/-- After appends only, no method is hidden, and the arrays are the lists of the reference model. -/
theorem run_appends (happ : ∀ op ∈ ops, op.IsAppend) :
    ∃ s, run lower ops = some s ∧ (∀ m, s.2.hides m = false) ∧
      s.2.deref s.1 = Multimap.run lower ops := by
  obtain ⟨s, hs, hp, hd⟩ := @runFrom_appends lower ops happ [] Headers.empty Headers.ok_empty rfl
  refine ⟨s, hs, fun m => ?_, hd⟩
  rw [Headers.hides, hp]
  rfl

/-- After appends only, `has`, `entries` and `values` agree with the reference model. -/
theorem appends_agree (happ : ∀ op ∈ ops, op.IsAppend) :
    ∃ s, run lower ops = some s ∧
      (∀ n, s.2.has lower n = some ((Multimap.run lower ops).has (lower n))) ∧
      s.2.entries s.1 = some (Multimap.run lower ops).entries ∧
      s.2.values s.1 = some (Multimap.run lower ops).values := by
  obtain ⟨s, hs, hhide, hm⟩ := @run_appends lower ops happ
  refine ⟨s, hs, fun n => ?_, ?_, ?_⟩
  · rw [Headers.has, if_neg (by simp [hhide]), ← hm, Multimap.has, lookup_deref, Option.isSome_map]
  · rw [Headers.entries, if_neg (by simp [hhide]), ← hm, Multimap.entries, Headers.deref,
      List.map_map]
    rfl
  · rw [Headers.values, if_neg (by simp [hhide]), ← hm, Multimap.values, Headers.deref,
      List.map_map]
    rfl

/-- `get` agrees on the names that were not appended and are no properties of a `Map`. -/
theorem get_appends_iff (happ : ∀ op ∈ ops, op.IsAppend) {s : Arrays × Headers}
    (hs : run lower ops = some s) (n : String) :
    s.2.get lower n = some ((Multimap.run lower ops).get (lower n)) ↔
      ¬Appended lower ops (lower n) ∧ lower n ∉ mapProperties := by
  obtain ⟨s', hs', hhide, -⟩ := @run_appends lower ops happ
  obtain rfl := Option.some.inj (hs.symm.trans hs')
  have happd : (Multimap.run lower ops).has (lower n) = true ↔ Appended lower ops (lower n) := by
    rw [Multimap.run, Multimap.has_appends happ]
    simp [Multimap.has]
  rw [← happd, Multimap.has, Multimap.get, Headers.get]
  by_cases hmp : lower n ∈ mapProperties
  · simp [hmp]
  · cases (Multimap.run lower ops).lookup (lower n) with
    | none => simp [hmp, hhide]
    | some vs => simp [hmp, hhide]

end Simulation

/-- After appends only, `has`, `entries` and `values` agree with the reference
model, and `get` agrees on the names that were not appended and that are not
properties of a `Map`; a `set` or `delete` makes some observation fail. -/
theorem headers_agree_iff (lower : String → String) (ops : List Op) :
    ((∀ op ∈ ops, op.IsAppend) →
      ∀ n, Agrees lower ops n ↔ ¬Appended lower ops (lower n) ∧ lower n ∉ mapProperties) ∧
    ((¬∀ op ∈ ops, op.IsAppend) → ∃ n, ¬Agrees lower ops n) := by
  constructor
  · intro happ n
    obtain ⟨s, hs, hhas, hent, hval⟩ := @appends_agree lower ops happ
    constructor
    · rintro ⟨s', hs', -, hg, -, -⟩
      exact (get_appends_iff happ hs' n).mp hg
    · intro hc
      exact ⟨s, hs, hhas n, (get_appends_iff happ hs n).mpr hc, hent, hval⟩
  · intro hnot
    push Not at hnot
    obtain ⟨op, hmem, hop⟩ := hnot
    cases op with
    | append name value => exact (hop trivial).elim
    | set name value =>
      refine ⟨name, ?_⟩
      rintro ⟨s, hs, -, hg, -, -⟩
      rw [runFrom_set hmem hs] at hg
      cases hg
    | delete name =>
      refine ⟨name, ?_⟩
      rintro ⟨s, hs, -⟩
      rw [run, runFrom_delete hmem] at hs
      cases hs

/-- One append, and a name that was not appended. -/
theorem headers_agree_other : Agrees id [.append "a" "1"] "b" :=
  (((headers_agree_iff id [.append "a" "1"]).1 (by
    intro op hop
    rw [List.mem_singleton.mp hop]
    trivial)) "b").mpr (by
      constructor
      · rintro ⟨name, value, hmem, h⟩
        simp_all
      · decide)

/-- `append("a", "1")`, then `get("a")` is null. -/
theorem get_misses_append : ¬Agrees id [.append "a" "1"] "a" := by
  rintro ⟨s, hs, -, hg, -, -⟩
  cases hs
  revert hg
  decide

end Fetch

end Libacorn
