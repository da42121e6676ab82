import Libacorn.Headers

/-!
# Copies of a Headers object

`new Headers(h)` copies the `Map` of `h` but not the arrays in it. A program with
several `Headers` objects is run here over one store of arrays.
-/

namespace Libacorn

namespace Fetch

/-- The arrays and the `Headers` objects of a program. -/
structure Program where
  arrays : Arrays
  objects : List Headers

inductive Action where
  /-- `new Headers(init)` for an array or an object with these names and values;
  `new Headers()` has none. -/
  | construct (init : List (String × String))
  /-- `new Headers(h)` for the object `h` at index `i`. -/
  | copy (i : Nat)
  | append (i : Nat) (name value : String)

section Programs

variable (lower : String → String)

namespace Program

/-- An action on an object that does not exist is no action of a program. -/
def step (S : Program) : Action → Option Program
  | .construct init =>
    (runFrom lower (S.arrays, Headers.empty) (init.map fun e => .append e.1 e.2)).map fun s =>
      ⟨s.1, S.objects ++ [s.2]⟩
  | .copy i => S.objects[i]?.map fun h => ⟨S.arrays, S.objects ++ [⟨h.map, []⟩]⟩
  | .append i name value =>
    S.objects[i]?.bind fun h => (h.append lower S.arrays name value).map fun s =>
      ⟨s.1, S.objects.set i s.2⟩

def run (S : Program) : List Action → Option Program
  | [] => some S
  | a :: as => (S.step lower a).bind fun S' => S'.run as

/-- What iterating over `entries()` of the object at index `i` yields. -/
def entries (S : Program) (i : Nat) : Option (List (String × String)) :=
  S.objects[i]?.bind fun h => h.entries S.arrays

inductive Reach : Program → Prop
  | init : Reach ⟨[], []⟩
  | step {S S' : Program} (a : Action) (hS : Reach S) (h : S.step lower a = some S') : Reach S'

end Program

/-- A later `append`: to the copy or to the original. -/
structure Call where
  toCopy : Bool
  name : String
  value : String

/-- The original is the object `i`, its copy the object `j`. -/
def Call.action (i j : Nat) (o : Call) : Action :=
  .append (if o.toCopy then j else i) o.name o.value

/-- After `c = new Headers(h)` for the object `h` at `i` and the calls `L`, each
of the two shows what it shows after its own calls alone. -/
def Independent (S : Program) (i : Nat) (L : List Call) : Prop :=
  ∃ C T T₁ T₂, S.step lower (.copy i) = some C ∧
    C.run lower (L.map (Call.action i S.objects.length)) = some T ∧
    C.run lower ((L.filter (!·.toCopy)).map (Call.action i S.objects.length)) = some T₁ ∧
    C.run lower ((L.filter (·.toCopy)).map (Call.action i S.objects.length)) = some T₂ ∧
    T.entries i = T₁.entries i ∧ T.entries S.objects.length = T₂.entries S.objects.length

end Programs

/-! ## Reachable programs -/

/-- The store has no less arrays than before, and still no empty one. -/
def Grows (A A' : Arrays) : Prop :=
  A.length ≤ A'.length ∧ ((∀ a ∈ A, a ≠ []) → ∀ a ∈ A', a ≠ [])

/-- Each object is well formed, and no array is empty. -/
structure Program.Ok (S : Program) : Prop where
  object : ∀ h ∈ S.objects, h.Ok S.arrays ∧ h.props = []
  arrays : ∀ a ∈ S.arrays, a ≠ []

section Reachable

variable {lower : String → String} {A A' : Arrays}

theorem grows_push (value : String) : Grows A (A ++ [[value]]) := by
  constructor
  · rw [List.length_append]
    exact Nat.le_add_right _ _
  · intro hA a ha
    rcases List.mem_append.mp ha with ha | ha
    · exact hA a ha
    · rw [List.mem_singleton.mp ha]
      exact List.cons_ne_nil _ _

theorem grows_modify (v : Nat) (value : String) : Grows A (A.modify v (· ++ [value])) := by
  constructor
  · rw [List.length_modify]
  · intro hA a ha
    obtain ⟨n, hn, rfl⟩ := List.mem_iff_getElem.mp ha
    rw [List.getElem_modify]
    split
    · exact List.append_ne_nil_of_right_ne_nil _ (List.cons_ne_nil _ _)
    · exact hA _ (List.getElem_mem _)

theorem append_grows {h h' : Headers} (hp : h.props = []) {name value : String}
    (heq : h.append lower A name value = some (A', h')) : Grows A A' := by
  rcases Headers.append_cases hp lower name value with ⟨-, h₁⟩ | ⟨v, -, h₁⟩
  · rw [h₁] at heq
    cases heq
    exact grows_push value
  · rw [h₁] at heq
    cases heq
    exact grows_modify v value

/-- A constructor that appends the pairs of `init`. -/
theorem construct_spec (init : List (String × String)) {h : Headers} (ho : h.Ok A)
    (hp : h.props = []) :
    ∃ s, runFrom lower (A, h) (init.map fun e => .append e.1 e.2) = some s ∧ s.2.Ok s.1 ∧
      s.2.props = [] ∧ Grows A s.1 := by
  induction init generalizing A h with
  | nil => exact ⟨(A, h), rfl, ho, hp, Nat.le_refl _, id⟩
  | cons e init ih =>
    obtain ⟨A₁, h₁, heq, ho₁, hp₁, -⟩ := Headers.append_spec ho hp lower e.1 e.2
    obtain ⟨s, hs, hso, hsp, hg⟩ := ih ho₁ hp₁
    have hg₁ := append_grows hp heq
    refine ⟨s, ?_, hso, hsp, hg₁.1.trans hg.1, hg.2 ∘ hg₁.2⟩
    rw [List.map_cons, runFrom, Fetch.step, heq, Option.bind_some, hs]

theorem Program.Ok.grow {S : Program} (hS : S.Ok) {objects : List Headers} (hg : Grows S.arrays A')
    (hnew : ∀ h ∈ objects, h ∈ S.objects ∨ (h.Ok A' ∧ h.props = [])) :
    Program.Ok ⟨A', objects⟩ := by
  constructor
  · intro h hh
    rcases hnew h hh with hold | hh
    · exact ⟨(hS.object h hold).1.mono hg.1, (hS.object h hold).2⟩
    · exact hh
  · exact hg.2 hS.arrays

theorem Program.Ok.step {S S' : Program} (hS : S.Ok) {a : Action} (h : S.step lower a = some S') :
    S'.Ok := by
  cases a with
  | construct init =>
    obtain ⟨s, hs, hso, hsp, hg⟩ := @construct_spec lower S.arrays init Headers.empty
      (Headers.ok_empty.mono (Nat.zero_le _)) rfl
    rw [Program.step, hs] at h
    cases h
    apply hS.grow hg
    intro h hh
    rcases List.mem_append.mp hh with hh | hh
    · exact Or.inl hh
    · rw [List.mem_singleton.mp hh]
      exact Or.inr ⟨hso, hsp⟩
  | copy i =>
    obtain ⟨h₀, hi, rfl⟩ := Option.map_eq_some_iff.mp h
    have h₀Ok := (hS.object h₀ (List.mem_of_getElem? hi)).1
    apply hS.grow ⟨Nat.le_refl _, id⟩
    intro h hh
    rcases List.mem_append.mp hh with hh | hh
    · exact Or.inl hh
    · rw [List.mem_singleton.mp hh]
      exact Or.inr ⟨⟨h₀Ok.names, h₀Ok.refs, h₀Ok.lt⟩, rfl⟩
  | append i name value =>
    obtain ⟨h₀, hi, h⟩ := Option.bind_eq_some_iff.mp h
    obtain ⟨h₀Ok, hp⟩ := hS.object h₀ (List.mem_of_getElem? hi)
    obtain ⟨A₁, h₁, heq, ho₁, hp₁, -⟩ := Headers.append_spec h₀Ok hp lower name value
    rw [heq] at h
    cases h
    apply hS.grow (append_grows hp heq)
    intro h hh
    rcases List.mem_or_eq_of_mem_set hh with hh | rfl
    · exact Or.inl hh
    · exact Or.inr ⟨ho₁, hp₁⟩

theorem Program.Reach.ok {S : Program} (hr : Program.Reach lower S) : S.Ok := by
  induction hr with
  | init =>
    constructor
    · intro h hh
      cases hh
    · intro a ha
      cases ha
  | step a hS h ih => exact ih.step h

end Reachable

/-! ## An object and its copy -/

/-- Two objects share the arrays of the names in `N` and no others. -/
structure Linked (A : Arrays) (N : List String) (h c : Headers) : Prop where
  ok : h.Ok A
  okCopy : c.Ok A
  props : h.props = []
  propsCopy : c.props = []
  shared : ∀ k ∈ N, ∃ v, h.map.lookup k = some v ∧ c.map.lookup k = some v
  apart : ∀ k v, k ∉ N → h.map.lookup k = some v → v ∉ c.map.map Prod.snd
  apartCopy : ∀ k v, k ∉ N → c.map.lookup k = some v → v ∉ h.map.map Prod.snd

/-- One call in the reference model. -/
def Multimap.call (lower : String → String) (m : Multimap) (o : Call) : Multimap :=
  m.append (lower o.name) o.value

/-- The calls one of the two objects sees: its own, and those for a shared name. -/
def seen (lower : String → String) (N : List String) (copy : Bool) (L : List Call) : List Call :=
  L.filter fun o => o.toCopy == copy || decide (lower o.name ∈ N)

section Linked

variable {lower : String → String} {A : Arrays} {N : List String} {h c : Headers}

theorem Linked.symm (hl : Linked A N h c) : Linked A N c h := by
  constructor
  · exact hl.okCopy
  · exact hl.ok
  · exact hl.propsCopy
  · exact hl.props
  · intro k hk
    obtain ⟨v, h₁, h₂⟩ := hl.shared k hk
    exact ⟨v, h₂, h₁⟩
  · exact hl.apartCopy
  · exact hl.apart

/-- A copy shares the arrays of all its names. -/
theorem linked_copy (ho : h.Ok A) (hp : h.props = []) :
    Linked A (h.map.map Prod.fst) h ⟨h.map, []⟩ := by
  have hnone : ∀ k v, k ∉ h.map.map Prod.fst → h.map.lookup k ≠ some v := by
    intro k v hk heq
    rw [lookup_eq_none_iff.mpr hk] at heq
    cases heq
  constructor
  · exact ho
  · exact ⟨ho.names, ho.refs, ho.lt⟩
  · exact hp
  · rfl
  · intro k hk
    cases hv : h.map.lookup k with
    | none => exact (lookup_eq_none_iff.mp hv hk).elim
    | some v => exact ⟨v, rfl, rfl⟩
  · intro k v hk heq
    exact (hnone k v hk heq).elim
  · intro k v hk heq
    exact (hnone k v hk heq).elim

/-- A new array is behind no name of a well-formed object. -/
theorem Headers.Ok.fresh (ho : h.Ok A) : A.length ∉ h.map.map Prod.snd := by
  intro hmem
  obtain ⟨e, he, heq⟩ := List.mem_map.mp hmem
  have := ho.lt e he
  omega

/-- A new name in one of the objects. -/
theorem Linked.push (hl : Linked A N h c) {k : String} (hk : h.map.lookup k = none)
    (value : String) :
    Linked (A ++ [[value]]) N { h with map := h.map ++ [(k, A.length)] } c := by
  have hkN : k ∉ N := by
    intro hmem
    obtain ⟨v, hv, -⟩ := hl.shared k hmem
    rw [hk] at hv
    cases hv
  have hlen : A.length ≤ (A ++ [[value]]).length := (grows_push value).1
  constructor
  · exact hl.ok.push hk [value]
  · exact hl.okCopy.mono hlen
  · exact hl.props
  · exact hl.propsCopy
  · intro k' hk'
    obtain ⟨v, h₁, h₂⟩ := hl.shared k' hk'
    refine ⟨v, ?_, h₂⟩
    rw [List.lookup_append, h₁]
    rfl
  · intro k' v hk' hv
    rw [List.lookup_append] at hv
    rcases Option.or_eq_some_iff.mp hv with hv | ⟨-, hv⟩
    · exact hl.apart k' v hk' hv
    · have hvA : v = A.length := (Prod.mk.inj (List.mem_singleton.mp (mem_of_lookup hv))).2
      rw [hvA]
      exact hl.okCopy.fresh
  · intro k' v hk' hv
    rw [List.map_append, List.mem_append, not_or]
    constructor
    · exact hl.apartCopy k' v hk' hv
    · intro hmem
      have hlt : v < A.length := hl.okCopy.lt _ (mem_of_lookup hv)
      rw [List.mem_singleton.mp hmem] at hlt
      exact Nat.lt_irrefl _ hlt

/-- An `append` to one object: the other sees it if and only if the name is shared. -/
theorem Linked.append (hl : Linked A N h c) (lower : String → String) (name value : String) :
    ∃ A' h', h.append lower A name value = some (A', h') ∧ Linked A' N h' c ∧
      h'.deref A' = (h.deref A).append (lower name) value ∧
      c.deref A' = if lower name ∈ N then (c.deref A).append (lower name) value
        else c.deref A := by
  obtain ⟨A', h', heq, -, -, hd⟩ := Headers.append_spec hl.ok hl.props lower name value
  refine ⟨A', h', heq, ?_⟩
  rcases Headers.append_cases hl.props lower name value with ⟨hk, h₁⟩ | ⟨v, hk, h₁⟩
  · obtain ⟨rfl, rfl⟩ := Prod.mk.inj (Option.some.inj (heq.symm.trans h₁))
    refine ⟨hl.push hk value, hd, ?_⟩
    have hkN : lower name ∉ N := by
      intro hmem
      obtain ⟨v, hv, -⟩ := hl.shared _ hmem
      rw [hk] at hv
      cases hv
    rw [if_neg hkN, deref_push hl.okCopy]
  · obtain ⟨rfl, rfl⟩ := Prod.mk.inj (Option.some.inj (heq.symm.trans h₁))
    have hlen := (grows_modify (A := A) v value).1
    refine ⟨⟨hl.ok.mono hlen, hl.okCopy.mono hlen, hl.props, hl.propsCopy, hl.shared, hl.apart,
      hl.apartCopy⟩, hd, ?_⟩
    split
    next hmem =>
      obtain ⟨w, hw, hw'⟩ := hl.shared _ hmem
      obtain rfl := Option.some.inj (hk.symm.trans hw)
      exact deref_modify hl.okCopy hw' value
    next hmem =>
      exact deref_modify_other (hl.ok.lt _ (mem_of_lookup hk)) (hl.apart _ _ hmem hk) _

/-- One call, on either object. -/
theorem Linked.call {S : Program} (hl : Linked S.arrays N h c) (lower : String → String) {i j : Nat}
    (hij : i ≠ j) (hi : S.objects[i]? = some h) (hj : S.objects[j]? = some c) (o : Call) :
    ∃ T h' c', S.step lower (o.action i j) = some T ∧ T.objects[i]? = some h' ∧
      T.objects[j]? = some c' ∧ Linked T.arrays N h' c' ∧
      h'.deref T.arrays = (seen lower N false [o]).foldl (Multimap.call lower) (h.deref S.arrays) ∧
      c'.deref T.arrays = (seen lower N true [o]).foldl (Multimap.call lower)
        (c.deref S.arrays) := by
  obtain ⟨toCopy, name, value⟩ := o
  cases toCopy with
  | false =>
    obtain ⟨A', h', heq, hl', hd, hd'⟩ := hl.append lower name value
    refine ⟨⟨A', S.objects.set i h'⟩, h', c, ?_, ?_, ?_, hl', ?_, ?_⟩
    · simp [Program.step, Call.action, hi, heq]
    · exact List.getElem?_set_self (List.getElem?_eq_some_iff.mp hi).1
    · rw [← hj]
      exact List.getElem?_set_ne hij
    · simpa [seen, Multimap.call] using hd
    · rw [hd']
      by_cases hmem : lower name ∈ N
      · simp [seen, Multimap.call, hmem]
      · simp [seen, hmem]
  | true =>
    obtain ⟨A', c', heq, hl', hd, hd'⟩ := hl.symm.append lower name value
    refine ⟨⟨A', S.objects.set j c'⟩, h, c', ?_, ?_, ?_, hl'.symm, ?_, ?_⟩
    · simp [Program.step, Call.action, hj, heq]
    · rw [← hi]
      exact List.getElem?_set_ne hij.symm
    · exact List.getElem?_set_self (List.getElem?_eq_some_iff.mp hj).1
    · rw [hd']
      by_cases hmem : lower name ∈ N
      · simp [seen, Multimap.call, hmem]
      · simp [seen, hmem]
    · simpa [seen, Multimap.call] using hd

theorem seen_cons (b : Bool) (o : Call) (L : List Call) :
    seen lower N b (o :: L) = seen lower N b [o] ++ seen lower N b L :=
  List.filter_append [o] L

/-- All calls: each object ends as the reference model does on the calls it sees. -/
theorem Linked.run {S : Program} (hl : Linked S.arrays N h c) (lower : String → String)
    (L : List Call) {i j : Nat} (hij : i ≠ j) (hi : S.objects[i]? = some h)
    (hj : S.objects[j]? = some c) :
    ∃ T, S.run lower (L.map (Call.action i j)) = some T ∧
      T.entries i =
        some ((seen lower N false L).foldl (Multimap.call lower) (h.deref S.arrays)).entries ∧
      T.entries j =
        some ((seen lower N true L).foldl (Multimap.call lower) (c.deref S.arrays)).entries := by
  induction L generalizing S h c with
  | nil =>
    refine ⟨S, rfl, ?_, ?_⟩
    · simp [Program.entries, hi, Headers.entries, Headers.hides, hl.props, seen, Multimap.entries,
        Headers.deref]
    · simp [Program.entries, hj, Headers.entries, Headers.hides, hl.propsCopy, seen,
        Multimap.entries, Headers.deref]
  | cons o L ih =>
    obtain ⟨S', h', c', hs, hi', hj', hl', hd, hd'⟩ := hl.call lower hij hi hj o
    obtain ⟨T, hT, hh, hc⟩ := ih hl' hi' hj'
    refine ⟨T, ?_, ?_, ?_⟩
    · rw [List.map_cons, Program.run, hs, Option.bind_some, hT]
    · rw [hh, hd, seen_cons false o L, List.foldl_append]
    · rw [hc, hd', seen_cons true o L, List.foldl_append]

end Linked

/-! ## Interference -/

section Interference

variable {lower : String → String}

/-- More values make a longer text. -/
theorem join_append_length {vs : List String} (hvs : vs ≠ []) (ws : List String) :
    (join (vs ++ ws)).length = (join vs).length + (ws.map (·.length + 2)).sum := by
  have hcons : ∀ (v : String) {ws : List String}, ws ≠ [] →
      (join (v :: ws)).length = v.length + 2 + (join ws).length := by
    intro v ws hws
    cases ws with
    | nil => exact (hws rfl).elim
    | cons w ws =>
      rw [join, String.length_append, String.length_append]
      · rfl
      · exact List.cons_ne_nil _ _
  induction vs with
  | nil => exact (hvs rfl).elim
  | cons v vs ih =>
    cases vs with
    | nil =>
      clear ih hvs
      show (join (v :: ws)).length = v.length + _
      induction ws generalizing v with
      | nil => rfl
      | cons w ws ih =>
        rw [hcons v (List.cons_ne_nil _ _), ih w, List.map_cons, List.sum_cons]
        omega
    | cons w vs =>
      rw [List.cons_append, hcons v (List.append_ne_nil_of_left_ne_nil (List.cons_ne_nil _ _) _),
        ih (List.cons_ne_nil _ _), hcons v (List.cons_ne_nil _ _)]
      omega

/-- The values a name gets from a list of calls. -/
def valuesOf (lower : String → String) (k : String) (L : List Call) : List String :=
  (L.filter fun o => lower o.name = k).map Call.value

theorem lookup_calls (L : List Call) {m : Multimap} {k : String} {vs : List String}
    (hk : m.lookup k = some vs) :
    (L.foldl (Multimap.call lower) m).lookup k = some (vs ++ valuesOf lower k L) := by
  induction L generalizing m vs with
  | nil => rw [List.foldl_nil, hk, valuesOf, List.filter_nil, List.map_nil, List.append_nil]
  | cons o L ih =>
    have hstep : (Multimap.call lower m o).lookup k =
        some (vs ++ valuesOf lower k [o]) := by
      rw [Multimap.call, Multimap.append, Multimap.lookup_update]
      by_cases ho : lower o.name = k
      · simp [valuesOf, ho, hk]
      · simp [valuesOf, ho, hk, Ne.symm ho]
    rw [List.foldl_cons, ih hstep, List.append_assoc, valuesOf, valuesOf, valuesOf,
      ← List.map_append, ← List.filter_append]
    rfl

/-- Fewer calls to a name give a shorter text. -/
theorem sum_filter_le (f : Call → Nat) {p q : Call → Bool} (hpq : ∀ o, q o = true → p o = true)
    (L : List Call) : ((L.filter q).map f).sum ≤ ((L.filter p).map f).sum := by
  induction L with
  | nil => exact Nat.le_refl _
  | cons o L ih =>
    simp only [List.filter_cons]
    cases hq : q o with
    | true => simpa [hpq o hq] using ih
    | false =>
      cases p o with
      | true =>
        simp
        omega
      | false => simpa using ih

theorem sum_filter_lt {f : Call → Nat} (hf : ∀ o, 0 < f o) {p q : Call → Bool}
    (hpq : ∀ o, q o = true → p o = true) {L : List Call} {o : Call} (ho : o ∈ L)
    (hp : p o = true) (hq : q o = false) :
    ((L.filter q).map f).sum < ((L.filter p).map f).sum := by
  induction L with
  | nil => cases ho
  | cons o' L ih =>
    rcases List.mem_cons.mp ho with rfl | ho
    · have hle := sum_filter_le f hpq L
      have := hf o
      simp [hp, hq]
      omega
    · have hlt := ih ho
      have hle : ((([o'] : List Call).filter q).map f).sum ≤ (([o'].filter p).map f).sum :=
        sum_filter_le f hpq [o']
      rw [← List.singleton_append, List.filter_append, List.filter_append, List.map_append,
        List.map_append, List.sum_append, List.sum_append]
      omega

/-- A call that is missing from a list shows under a name with a value. -/
theorem entries_differ {m : Multimap} {k : String} {vs : List String} (hk : m.lookup k = some vs)
    (hvs : vs ≠ []) {p q : Call → Bool} (hpq : ∀ o, q o = true → p o = true) {L : List Call}
    {o : Call} (ho : o ∈ L) (hok : lower o.name = k) (hp : p o = true) (hq : q o = false) :
    ((L.filter p).foldl (Multimap.call lower) m).entries ≠
      ((L.filter q).foldl (Multimap.call lower) m).entries := by
  intro heq
  have hlookup : ∀ r : Call → Bool,
      (((L.filter r).foldl (Multimap.call lower) m).entries.lookup k) =
      some (join (vs ++ valuesOf lower k (L.filter r))) := by
    intro r
    rw [Multimap.entries, lookup_map (fun _ v => join v), lookup_calls _ hk]
    rfl
  have hsum : ∀ r : Call → Bool, ((valuesOf lower k (L.filter r)).map (·.length + 2)).sum =
      ((L.filter fun o => decide (lower o.name = k) && r o).map fun o => o.value.length +
        2).sum := by
    intro r
    rw [valuesOf, List.filter_filter, List.map_map]
    rfl
  have hjoin := congrArg String.length (Option.some.inj ((hlookup p).symm.trans (heq ▸ hlookup q)))
  rw [join_append_length hvs, join_append_length hvs, hsum, hsum] at hjoin
  have hlt := sum_filter_lt (f := fun o => o.value.length + 2) (fun o => Nat.succ_pos _)
    (p := fun o => decide (lower o.name = k) && p o)
    (q := fun o => decide (lower o.name = k) && q o) (by
      intro o
      simp only [Bool.and_eq_true]
      exact fun h => ⟨h.1, hpq o h.2⟩) ho (by simp [hok, hp]) (by simp [hq])
  omega

/-- The calls an object sees are its own when no name is shared. -/
theorem seen_own {N : List String} {L : List Call} (h : ∀ o ∈ L, lower o.name ∉ N) (b : Bool) :
    seen lower N b L = L.filter (·.toCopy == b) := by
  apply List.filter_congr
  intro o ho
  simp [h o ho]

/-- Alone, an object sees all calls. -/
theorem seen_alone (N : List String) (L : List Call) (b : Bool) :
    seen lower N b (L.filter (·.toCopy == b)) = L.filter (·.toCopy == b) := by
  apply List.filter_eq_self.mpr
  intro o ho
  rw [(List.mem_filter.mp ho).2]
  rfl

end Interference

/-- An object and its copy are independent if and only if no later append is for
a name that the object had when it was copied. -/
theorem copies_independent_iff {lower : String → String} {S : Program}
    (hr : Program.Reach lower S) {i : Nat} {h : Headers} (hi : S.objects[i]? = some h)
    (L : List Call) :
    Independent lower S i L ↔ ∀ o ∈ L, lower o.name ∉ h.map.map Prod.fst := by
  obtain ⟨ho, hp⟩ := hr.ok.object h (List.mem_of_getElem? hi)
  have hlt : i < S.objects.length := (List.getElem?_eq_some_iff.mp hi).1
  -- the state after the copy, from which all three runs start
  have hC : S.step lower (.copy i) = some ⟨S.arrays, S.objects ++ [⟨h.map, []⟩]⟩ := by
    rw [Program.step, hi]
    rfl
  have hlink : Linked S.arrays (h.map.map Prod.fst) h ⟨h.map, []⟩ := linked_copy ho hp
  have hrun := fun L => hlink.run lower L
    (S := ⟨S.arrays, S.objects ++ [⟨h.map, []⟩]⟩) (Nat.ne_of_lt hlt)
    (by rw [List.getElem?_append_left hlt, hi]) (by rw [List.getElem?_concat_length])
  obtain ⟨T, hT, hTi, hTj⟩ := hrun L
  obtain ⟨T₁, hT₁, hT₁i, -⟩ := hrun (L.filter (·.toCopy == false))
  obtain ⟨T₂, hT₂, -, hT₂j⟩ := hrun (L.filter (·.toCopy == true))
  rw [seen_alone] at hT₁i hT₂j
  have hiff : Independent lower S i L ↔
      T.entries i = T₁.entries i ∧ T.entries S.objects.length = T₂.entries S.objects.length := by
    have hfalse : L.filter (!·.toCopy) = L.filter (·.toCopy == false) := by
      apply List.filter_congr
      intro o _
      cases o.toCopy
      · rfl
      · rfl
    have htrue : L.filter (·.toCopy) = L.filter (·.toCopy == true) := by
      apply List.filter_congr
      intro o _
      cases o.toCopy
      · rfl
      · rfl
    rw [Independent, hfalse, htrue]
    constructor
    · rintro ⟨C', T', T₁', T₂', hC', hT', hT₁', hT₂', heq⟩
      obtain rfl := Option.some.inj (hC.symm.trans hC')
      obtain rfl := Option.some.inj (hT.symm.trans hT')
      obtain rfl := Option.some.inj (hT₁.symm.trans hT₁')
      obtain rfl := Option.some.inj (hT₂.symm.trans hT₂')
      exact heq
    · intro heq
      exact ⟨_, T, T₁, T₂, hC, hT, hT₁, hT₂, heq⟩
  rw [hiff, hTi, hTj, hT₁i, hT₂j]
  constructor
  · rintro ⟨hei, hej⟩ o hmem hname
    obtain ⟨v, hv, -⟩ := hlink.shared _ hname
    have hvs : (h.deref S.arrays).lookup (lower o.name) = some (S.arrays.getD v []) := by
      rw [lookup_deref, hv]
      rfl
    have hvlt : v < S.arrays.length := ho.lt _ (mem_of_lookup hv)
    have hne : S.arrays.getD v [] ≠ [] := by
      rw [List.getD_eq_getElem?_getD, List.getElem?_eq_getElem hvlt]
      exact hr.ok.arrays _ (List.getElem_mem _)
    have hpq : ∀ (b : Bool) (o : Call), (o.toCopy == b) = true →
        (o.toCopy == b || decide (lower o.name ∈ h.map.map Prod.fst)) = true := by
      intro b o hb
      rw [hb]
      rfl
    -- the call is missing from the calls of the other object
    cases hb : o.toCopy with
    | false =>
      exact entries_differ hvs hne (hpq true) hmem rfl (by simp [hname]) (by simp [hb])
        (Option.some.inj hej)
    | true =>
      exact entries_differ hvs hne (hpq false) hmem rfl (by simp [hname]) (by simp [hb])
        (Option.some.inj hei)
  · intro hnone
    rw [seen_own hnone false, seen_own hnone true]
    exact ⟨rfl, rfl⟩

/-- One object, `new Headers([["a", "1"]])`. -/
def single : Program := ⟨[["1"]], [⟨[("a", 0)], []⟩]⟩

theorem single_reach : Program.Reach id single :=
  Program.Reach.step (.construct [("a", "1")]) Program.Reach.init rfl

/-- A name that came after the copy. -/
theorem copies_independent_new_name :
    Independent id single 0 [⟨false, "b", "2"⟩, ⟨true, "b", "3"⟩] := by
  apply (copies_independent_iff single_reach rfl _).mpr
  decide

/-- `append("a", "2")` to the original shows in the copy. -/
theorem copy_not_independent :
    Program.Reach id single ∧ ¬Independent id single 0 [⟨false, "a", "2"⟩] := by
  constructor
  · exact single_reach
  · rintro ⟨C, T, T₁, T₂, hC, hT, hT₁, hT₂, -, heq⟩
    cases hC
    cases hT
    cases hT₂
    revert heq
    decide

end Fetch

end Libacorn
