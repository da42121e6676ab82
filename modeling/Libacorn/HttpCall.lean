import Mathlib.Data.List.Forall2
import Mathlib.Data.Fintype.Card
import Libacorn.Http

/-!
# One call of js_httpreq

What the operations of lib/http.cpp do to the references (`Holds`), how deep `unwrap` goes into an
object (`unwrapValue_depth`), and when a call comes to an end (`httpreq_spec`).
-/

namespace Libacorn.Http

open Support

/-! ## References -/

/-- The objects that are referenced, each as often as it is. -/
def refsOf (vs : List JSValue) : Multiset Nat := (vs.filterMap JSValue.id? : List Nat)

/-- The counts are those of the references and of the references between objects. -/
def Holds (H : Heap) (vs : List JSValue) : Prop := H.Closed JsData.ids (refsOf vs)

/-- The counts leave room for `k` references more. -/
def Room (H : Heap) (k : Nat) : Prop := ∀ i c, H.cells i = some c → c.refs + k < 2 ^ 31

theorem mem_refsOf {vs : List JSValue} {i : Nat} : i ∈ refsOf vs ↔ .counted i ∈ vs := by
  rw [refsOf, Multiset.mem_coe, List.mem_filterMap]
  constructor
  · rintro ⟨v, hv, hi⟩
    cases v with
    | plain _ => cases hi
    | counted j =>
      cases hi
      exact hv
  · intro h
    exact ⟨_, h, rfl⟩

theorem refsOf_append (vs ws : List JSValue) : refsOf (vs ++ ws) = refsOf vs + refsOf ws := by
  rw [refsOf, refsOf, refsOf, List.filterMap_append, ← Multiset.coe_add]

section

variable {H H' : Heap} {vs ws : List JSValue} {v : JSValue} {k : Nat}

theorem usable_congr (h : ∀ i, H'.get? i = H.get? i) : usable H' v = usable H v := by
  cases v with
  | plain v => rfl
  | counted i => rw [usable, usable, h i]

theorem usable_alloc (h : usable H v) (d : JsData JSValue) : usable (H.alloc d) v := by
  cases v with
  | plain v => rfl
  | counted i =>
    rw [usable]
    by_cases hi : i = H.next
    · rw [hi, RefHeap.alloc_get?_next]
      rfl
    · rw [RefHeap.alloc_get?_of_ne H d hi]
      exact h

theorem Holds.perm (h : Holds H vs) (hp : vs.Perm ws) : Holds H ws := by
  have heq : refsOf vs = refsOf ws := Multiset.coe_eq_coe.mpr (hp.filterMap _)
  rw [Holds, ← heq]
  exact h

/-- What is referenced can be used. -/
theorem Holds.usable (h : Holds H vs) (hv : v ∈ vs) : usable H v := by
  cases v with
  | plain v => rfl
  | counted i => exact h.live (Multiset.mem_add.mpr (Or.inl (mem_refsOf.mpr hv)))

/-- What a live object refers to can be used. -/
theorem Holds.usable_value {i : Nat} {d : JsData JSValue} (h : Holds H vs) (hd : H.get? i = some d)
    (hv : v ∈ d.values) : Http.usable H v := by
  cases v with
  | plain v => rfl
  | counted j => exact h.live_kid hd (List.mem_filterMap.mpr ⟨_, hv, rfl⟩)

/-- A copy changes a count and nothing else. -/
theorem dupValue_same (h : dupValue H v = .done H') :
    H'.next = H.next ∧ ∀ i, H'.get? i = H.get? i := by
  cases v with
  | plain v =>
    cases h
    exact ⟨rfl, fun _ => rfl⟩
  | counted i =>
    rw [dupValue] at h
    split at h
    next c H₁ hc hretain =>
      split at h
      next =>
        cases h
        have hi : H.get? i = some c.data := by rw [RefHeap.get?, hc]; rfl
        obtain ⟨H₂, hretain₂, hsame⟩ := RefHeap.retain_get? hi
        cases hretain.symm.trans hretain₂
        refine ⟨?_, hsame⟩
        obtain ⟨_, -, rfl⟩ := Option.map_eq_some_iff.mp hretain
        rfl
      next => cases h
    next => cases h

theorem Holds.dup (h : Holds H vs) (hdup : dupValue H v = .done H') : Holds H' (v :: vs) := by
  cases v with
  | plain v =>
    cases hdup
    exact h
  | counted i =>
    rw [dupValue] at hdup
    split at hdup
    next c H₁ hc hretain =>
      split at hdup
      next hsmall =>
        cases hdup
        have hi := (h.owned.mem_iff i).mpr (by rw [hc]; rfl)
        have hcount := h.owned.live i c hc
        obtain ⟨H₂, hretain₂, hclosed, -⟩ := h.retain hi (by omega)
        cases hretain.symm.trans hretain₂
        exact hclosed
      next => cases hdup
    next => cases hdup

/-- The counts fit. -/
theorem Holds.room (h : Holds H vs) : Room H 0 := by
  intro i c hc
  have hsmall := h.small i
  rwa [← h.owned.live i c hc] at hsmall

theorem dup_room (hv : usable H v) (hroom : Room H (k + 1)) :
    ∃ H', dupValue H v = .done H' ∧ Room H' k := by
  cases v with
  | plain v =>
    refine ⟨H, rfl, ?_⟩
    intro i c hc
    have := hroom i c hc
    omega
  | counted i =>
    obtain ⟨d, hd⟩ := Option.isSome_iff_exists.mp hv
    obtain ⟨c, hc, -⟩ := Option.map_eq_some_iff.mp hd
    have hlt := hroom i c hc
    have hretain : H.retain i = some (H.set i (some { c with refs := (c.refs + 1) % 2 ^ 32 })) := by
      rw [RefHeap.retain, hc]
      rfl
    refine ⟨_, by simp only [dupValue, hc, hretain]; exact if_pos (by omega), ?_⟩
    intro j c' hc'
    by_cases hj : j = i
    · rw [hj, RefHeap.set_cells_self] at hc'
      cases hc'
      have := Nat.mod_le (c.refs + 1) (2 ^ 32)
      simp only
      omega
    · rw [RefHeap.set_cells_of_ne _ _ hj] at hc'
      have := hroom j c' hc'
      omega

theorem dupValues_same (h : dupValues H ws = .done H') :
    H'.next = H.next ∧ ∀ i, H'.get? i = H.get? i := by
  induction ws generalizing H with
  | nil =>
    cases h
    exact ⟨rfl, fun _ => rfl⟩
  | cons w ws ih =>
    obtain ⟨H₁, hdup, h⟩ := Outcome.bind_eq_done h
    obtain ⟨hnext, hsame⟩ := dupValue_same hdup
    obtain ⟨hnext', hsame'⟩ := ih h
    exact ⟨hnext'.trans hnext, fun i => (hsame' i).trans (hsame i)⟩

theorem Holds.dups (h : Holds H vs) (hdups : dupValues H ws = .done H') : Holds H' (ws ++ vs) := by
  induction ws generalizing H vs with
  | nil =>
    cases hdups
    exact h
  | cons w ws ih =>
    obtain ⟨H₁, hdup, hdups⟩ := Outcome.bind_eq_done hdups
    exact (ih (h.dup hdup) hdups).perm List.perm_middle

theorem dups_room (hws : ∀ w ∈ ws, usable H w) (hroom : Room H (ws.length + k)) :
    ∃ H', dupValues H ws = .done H' ∧ Room H' k := by
  induction ws generalizing H with
  | nil => exact ⟨H, rfl, by rwa [List.length_nil, Nat.zero_add] at hroom⟩
  | cons w ws ih =>
    rw [List.length_cons, Nat.add_right_comm] at hroom
    obtain ⟨H₁, hdup, hroom₁⟩ := dup_room (hws w (List.mem_cons_self ..)) hroom
    have hws₁ : ∀ u ∈ ws, usable H₁ u := by
      intro u hu
      rw [usable_congr (dupValue_same hdup).2]
      exact hws u (List.mem_cons_of_mem _ hu)
    obtain ⟨H₂, hdups, hroom₂⟩ := ih hws₁ hroom₁
    exact ⟨H₂, by rw [dupValues, hdup, Outcome.bind_done, hdups], hroom₂⟩

theorem Holds.frees (h : Holds H (ws ++ vs)) : ∃ H', freeValues H ws = .done H' ∧ Holds H' vs := by
  rw [Holds, refsOf_append] at h
  obtain ⟨H', hfree, h'⟩ := h.free (Nat.le_refl _)
  exact ⟨H', by simp only [freeValues, hfree], h'⟩

theorem Holds.free (h : Holds H (v :: vs)) : ∃ H', freeValue H v = .done H' ∧ Holds H' vs := by
  rw [← List.singleton_append] at h
  exact h.frees

theorem Holds.alloc {d : JsData JSValue} (h : Holds H (d.values ++ vs)) :
    Holds (H.alloc d) (.counted H.next :: vs) := by
  rw [Holds, refsOf_append] at h
  exact h.alloc

/-- The values that the object had come out. -/
theorem Holds.modify {i : Nat} {d old : JsData JSValue} (h : Holds H (d.values ++ vs))
    (hold : H.get? i = some old) : Holds (H.modify i d) (old.values ++ vs) := by
  rw [Holds, refsOf_append] at h ⊢
  exact h.modify hold

end

/-! ## How deep unwrap goes -/

section

variable {f g : JSValue → Outcome Unwrapped} {d : JsData JSValue} {r : Unwrapped}

theorem unwrapElements_congr {elements : List JSValue} (h : ∀ w ∈ elements, f w = g w) :
    unwrapElements f elements = unwrapElements g elements := by
  induction elements with
  | nil => rfl
  | cons w elements ih =>
    rw [unwrapElements, unwrapElements, h w (List.mem_cons_self ..),
      ih fun u hu => h u (List.mem_cons_of_mem _ hu)]

theorem unwrapFields_congr {fields : List (JsString × JSValue)} {rv : CVal}
    (h : ∀ w ∈ fields.map Prod.snd, f w = g w) :
    unwrapFields f fields rv = unwrapFields g fields rv := by
  induction fields generalizing rv with
  | nil => rfl
  | cons field fields ih =>
    have hfields (rv : CVal) : unwrapFields f fields rv = unwrapFields g fields rv :=
      ih fun u hu => h u (List.mem_cons_of_mem _ hu)
    rw [unwrapFields, unwrapFields, h field.2 (List.mem_cons_self ..)]
    simp only [hfields]

theorem unwrapObject_congr (h : ∀ w ∈ d.values, f w = g w) :
    unwrapObject f d = unwrapObject g d := by
  cases d with
  | array elements =>
    have hsame : unwrapElements f elements = unwrapElements g elements := unwrapElements_congr h
    rw [unwrapObject, unwrapObject, hsame]
  | object fields => exact unwrapFields_congr h
  | native id => rfl
  | other captured => rfl

theorem unwrapElements_done {elements : List JSValue} {rs : List JSValue × List CVal}
    (h : unwrapElements f elements = .done rs) :
    ∀ w ∈ elements, ∃ r, f w = .done r := by
  induction elements generalizing rs with
  | nil =>
    intro w hw
    cases hw
  | cons v elements ih =>
    obtain ⟨r, hr, h⟩ := Outcome.bind_eq_done h
    obtain ⟨rs, hrs, -⟩ := Outcome.bind_eq_done h
    intro w hw
    rcases List.mem_cons.mp hw with rfl | hw
    · exact ⟨r, hr⟩
    · exact ih hrs w hw

theorem unwrapFields_done {fields : List (JsString × JSValue)} {rv : CVal}
    (h : unwrapFields f fields rv = .done r) :
    ∀ w ∈ fields.map Prod.snd, ∃ r, f w = .done r := by
  induction fields generalizing rv r with
  | nil =>
    intro w hw
    cases hw
  | cons field fields ih =>
    obtain ⟨r', hr', h⟩ := Outcome.bind_eq_done h
    obtain ⟨key, -, h⟩ := Outcome.bind_eq_done h
    split at h
    next => cases h
    next rv' hset =>
      obtain ⟨rs, hrs, -⟩ := Outcome.bind_eq_done h
      intro w hw
      rcases List.mem_cons.mp hw with rfl | hw
      · exact ⟨r', hr'⟩
      · exact ih hrs w hw

theorem unwrapObject_done (h : unwrapObject f d = .done r) :
    ∀ w ∈ d.values, ∃ r, f w = .done r := by
  cases d with
  | array elements =>
    obtain ⟨rs, hrs, -⟩ := Outcome.bind_eq_done h
    exact unwrapElements_done hrs
  | object fields => exact unwrapFields_done h
  | native id =>
    intro w hw
    cases hw
  | other captured => cases h

end

section

variable {H : Heap} {v : JSValue} {r : Unwrapped} {n : Nat}

theorem unwrapValue_congr {H' : Heap} (h : ∀ i, H'.get? i = H.get? i) :
    unwrapValue H' n v = unwrapValue H n v := by
  induction n generalizing v with
  | zero => cases v <;> rfl
  | succ n ih =>
    cases v with
    | plain v => rfl
    | counted i =>
      rw [unwrapValue, unwrapValue, h i, show unwrapValue H' n = unwrapValue H n from funext
        fun _ => ih]

theorem unwrapValue_plain (m n : Nat) (v : { v : JsVal // Primitive v }) :
    unwrapValue H m (.plain v) = unwrapValue H n (.plain v) := by
  cases m <;> cases n <;> rfl

theorem unwrapValue_counted {i : Nat} (h : unwrapValue H n (.counted i) = .done r) :
    ∃ m d, n = m + 1 ∧ H.get? i = some d ∧ unwrapObject (unwrapValue H m) d = .done r := by
  cases n with
  | zero => cases h
  | succ n =>
    rw [unwrapValue] at h
    split at h
    next d hd => exact ⟨n, d, rfl, hd, h⟩
    next => cases h

theorem unwrapValue_succ (h : unwrapValue H n v = .done r) : unwrapValue H (n + 1) v = .done r := by
  induction n generalizing v r with
  | zero =>
    cases v with
    | plain v => rw [unwrapValue_plain _ 0, h]
    | counted i => cases h
  | succ n ih =>
    cases v with
    | plain v => rw [unwrapValue_plain _ (n + 1), h]
    | counted i =>
      obtain ⟨m, d, heq, hd, h⟩ := unwrapValue_counted h
      cases heq
      have hsame : ∀ w ∈ d.values, unwrapValue H n w = unwrapValue H (n + 1) w := by
        intro w hw
        obtain ⟨r', hr'⟩ := unwrapObject_done h w hw
        rw [hr', ih hr']
      simp only [unwrapValue, hd]
      rw [← h]
      exact (unwrapObject_congr hsame).symm

theorem unwrapValue_mono {m : Nat} (hle : n ≤ m) (h : unwrapValue H n v = .done r) :
    unwrapValue H m v = .done r := by
  induction hle with
  | refl => exact h
  | step _ ih => exact unwrapValue_succ ih

/-- `unwrap` of the object goes `n` deep and no deeper. -/
def Deep (H : Heap) (n i : Nat) : Prop :=
  (∃ r, unwrapValue H n (.counted i) = .done r) ∧ ∀ m, m < n →
    ∀ r, unwrapValue H m (.counted i) ≠ .done r

theorem Deep.unique {m i : Nat} (h : Deep H n i) (h' : Deep H m i) : n = m := by
  obtain ⟨⟨r, hr⟩, hmin⟩ := h
  obtain ⟨⟨r', hr'⟩, hmin'⟩ := h'
  rcases Nat.lt_trichotomy n m with hlt | heq | hlt
  · exact absurd hr (hmin' n hlt r)
  · exact heq
  · exact absurd hr' (hmin m hlt r')

theorem exists_deep {i : Nat} (h : unwrapValue H n (.counted i) = .done r) :
    ∃ m, m ≤ n ∧ Deep H m i := by
  classical
  have hex : ∃ m, ∃ r, unwrapValue H m (.counted i) = .done r := ⟨n, r, h⟩
  refine ⟨Nat.find hex, Nat.find_min' hex ⟨r, h⟩, Nat.find_spec hex, ?_⟩
  intro m hm r' hr'
  exact Nat.find_min hex hm ⟨r', hr'⟩

/-- An object that goes `n + 1` deep has one in it that goes `n` deep. -/
theorem Deep.value {i : Nat} (h : Deep H (n + 2) i) : ∃ j, Deep H (n + 1) j := by
  obtain ⟨⟨r, hr⟩, hmin⟩ := h
  obtain ⟨m, d, heq, hd, hr⟩ := unwrapValue_counted hr
  cases heq
  by_contra hnone
  -- otherwise all that it has can be unwrapped to a depth of `n`, and so can it
  have hsame : ∀ w ∈ d.values, unwrapValue H (n + 1) w = unwrapValue H n w := by
    intro w hw
    obtain ⟨r', hr'⟩ := unwrapObject_done hr w hw
    cases w with
    | plain w => exact unwrapValue_plain ..
    | counted j =>
      obtain ⟨m, hle, hdeep⟩ := exists_deep hr'
      have hm : m ≠ n + 1 := by
        rintro rfl
        exact hnone ⟨j, hdeep⟩
      obtain ⟨r'', hr''⟩ := hdeep.1
      rw [unwrapValue_mono (show m ≤ n + 1 by omega) hr'', unwrapValue_mono (show m ≤ n by omega)
        hr'']
  apply hmin (n + 1) (Nat.lt_succ_self _) r
  simp only [unwrapValue, hd]
  rw [← hr, unwrapObject_congr hsame]

theorem Deep.below {i m : Nat} (h : Deep H (n + 1) i) (hm : m ≤ n) : ∃ j, Deep H (m + 1) j := by
  induction n generalizing i with
  | zero =>
    obtain rfl := Nat.le_zero.mp hm
    exact ⟨i, h⟩
  | succ n ih =>
    by_cases heq : m = n + 1
    · exact ⟨i, heq ▸ h⟩
    · obtain ⟨j, hj⟩ := h.value
      exact ih hj (by omega)

/-- There are as many live objects as an object goes deep. -/
theorem Deep.le_next {i : Nat} (hfresh : ∀ j, (H.get? j).isSome → j < H.next) (h : Deep H n i) :
    n ≤ H.next := by
  cases n with
  | zero => exact Nat.zero_le _
  | succ n =>
    have hbelow (m : Fin (n + 1)) : ∃ j, Deep H (m + 1) j := h.below (Nat.le_of_lt_succ m.2)
    choose f hf using hbelow
    have hlt (m : Fin (n + 1)) : f m < H.next := by
      obtain ⟨⟨r, hr⟩, -⟩ := hf m
      obtain ⟨_, d, -, hd, -⟩ := unwrapValue_counted hr
      exact hfresh _ (by rw [hd]; rfl)
    have hinj : Function.Injective fun m => (⟨f m, hlt m⟩ : Fin H.next) := by
      intro m m' heq
      have hfm : f m = f m' := congrArg Fin.val heq
      have hdeep := hf m
      rw [hfm] at hdeep
      exact Fin.ext (Nat.succ.inj (hdeep.unique (hf m')))
    simpa using Fintype.card_le_of_injective _ hinj

/-- What `unwrap` returns at any depth it returns at the depth of the model. -/
theorem unwrapValue_depth (hfresh : ∀ j, (H.get? j).isSome → j < H.next)
    (h : unwrapValue H n v = .done r) : unwrapValue H H.next v = .done r := by
  cases v with
  | plain v => rw [unwrapValue_plain _ n, h]
  | counted i =>
    obtain ⟨m, hle, hdeep⟩ := exists_deep h
    obtain ⟨r', hr'⟩ := hdeep.1
    cases (unwrapValue_mono hle hr').symm.trans h
    exact unwrapValue_mono (hdeep.le_next hfresh) hr'

end

/-! ## What unwrap takes -/

section

variable {f : JSValue → Outcome Unwrapped} {P : JSValue → Prop}

theorem unwrapElements_taken {elements : List JSValue} {rs : List JSValue × List CVal}
    (h : unwrapElements f elements = .done rs) (hf : ∀ w r, f w = .done r → ∀ u ∈ r.1, P u) :
    ∀ u ∈ rs.1, P u := by
  induction elements generalizing rs with
  | nil =>
    cases h
    intro u hu
    cases hu
  | cons w elements ih =>
    obtain ⟨r, hr, h⟩ := Outcome.bind_eq_done h
    obtain ⟨rs, hrs, h⟩ := Outcome.bind_eq_done h
    cases h
    intro u hu
    rcases List.mem_append.mp hu with hu | hu
    · exact hf w r hr u hu
    · exact ih hrs u hu

theorem unwrapFields_taken {fields : List (JsString × JSValue)} {rv : CVal} {r : Unwrapped}
    (h : unwrapFields f fields rv = .done r) (hf : ∀ w r, f w = .done r → ∀ u ∈ r.1, P u)
    (hfields : ∀ w ∈ fields.map Prod.snd, P w) : ∀ u ∈ r.1, P u := by
  induction fields generalizing rv r with
  | nil =>
    cases h
    intro u hu
    cases hu
  | cons field fields ih =>
    obtain ⟨r', hr', h⟩ := Outcome.bind_eq_done h
    obtain ⟨key, -, h⟩ := Outcome.bind_eq_done h
    split at h
    next => cases h
    next rv' hset =>
      obtain ⟨rs, hrs, h⟩ := Outcome.bind_eq_done h
      cases h
      intro u hu
      simp only [List.cons_append, List.mem_cons, List.mem_append] at hu
      rcases hu with rfl | hu | hu
      · exact hfields _ (List.mem_cons_self ..)
      · exact hf _ r' hr' u hu
      · exact ih hrs (fun w hw => hfields w (List.mem_cons_of_mem _ hw)) u hu

end

/-- What `unwrap` takes are values of live objects. -/
theorem Holds.taken {H : Heap} {vs : List JSValue} {n : Nat} {v : JSValue} {r : Unwrapped}
    (h : Holds H vs) (hr : unwrapValue H n v = .done r) : ∀ u ∈ r.1, Http.usable H u := by
  induction n generalizing v r with
  | zero =>
    cases v with
    | plain v =>
      obtain ⟨o, -, hr⟩ := Outcome.bind_eq_done hr
      cases o with
      | none => cases hr
      | some c =>
        cases hr
        intro u hu
        cases hu
    | counted i => cases hr
  | succ n ih =>
    cases v with
    | plain v =>
      rw [unwrapValue_plain _ n] at hr
      exact ih hr
    | counted i =>
      obtain ⟨m, d, heq, hd, hr⟩ := unwrapValue_counted hr
      cases heq
      cases d with
      | array elements =>
        obtain ⟨rs, hrs, hr⟩ := Outcome.bind_eq_done hr
        cases hr
        exact unwrapElements_taken hrs fun w r => ih
      | object fields =>
        exact unwrapFields_taken hr (fun w r => ih) fun w hw => h.usable_value hd hw
      | native id =>
        cases hr
        intro u hu
        cases hu
      | other captured => cases hr

/-! ## What is unwrapped -/

/-- Undefined, null or a plain object. -/
def Bag (H : Heap) (v : JSValue) : Prop :=
  v = .undefined ∨ v = .null ∨ ∃ i fields, v = .counted i ∧ H.get? i = some (.object fields)

/-- Undefined, null or an object without properties. -/
def Blank (H : Heap) (v : JSValue) : Prop :=
  v = .undefined ∨ v = .null ∨ ∃ i, v = .counted i ∧ H.get? i = some (.object [])

/-- The last of the properties with a name. -/
def lastNamed (key : Bytes) (fields : List (JsString × JSValue)) : Option JSValue :=
  (fields.reverse.find? fun f => fieldKey f.1 = .done key).map Prod.snd

def property (H : Heap) (v : JSValue) (key : Bytes) : Option JSValue :=
  match v with
  | .plain _ => none
  | .counted i =>
    match H.get? i with
    | some (.object fields) => lastNamed key fields
    | _ => none

/-- A val that comes from no plain object, undefined or null. -/
def Flat (c : CVal) : Prop :=
  c ≠ .empty ∧ (∀ b, c ≠ .bytearray b) ∧ ∀ fields, c ≠ .map fields

/-- A property and the entry that is made of it. -/
def Unwraps (f : JSValue → Outcome Unwrapped) (p : JsString × JSValue) (e : Bytes × CVal) : Prop :=
  fieldKey p.1 = .done e.1 ∧ ∃ l, f p.2 = .done (l, e.2)

theorem unwrapFloat64_flat {d : Float} {c : CVal} (h : unwrapFloat64 d = .done c) :
    Flat c ∧ ∀ s, c ≠ .string s := by
  simp only [unwrapFloat64] at h
  split at h
  · split at h
    · split at h
      · split at h <;> cases h <;> exact ⟨⟨by simp, by simp, by simp⟩, by simp⟩
      · cases h
        exact ⟨⟨by simp, by simp, by simp⟩, by simp⟩
    · cases h
  · cases h
    exact ⟨⟨by simp, by simp, by simp⟩, by simp⟩

theorem unwrapVal_cases {v : JsVal} {c : CVal} (hv : Primitive v)
    (h : unwrapVal v = .done (some c)) : (v = .undefined ∨ v = .null) ∧ c = .empty ∨
      (v ≠ .undefined ∧ v ≠ .null) ∧ Flat c ∧ ((∃ s, c = .string s) ↔ ∃ s, v = .string s) := by
  cases v with
  | undefined =>
    cases h
    exact Or.inl ⟨Or.inl rfl, rfl⟩
  | null =>
    cases h
    exact Or.inl ⟨Or.inr rfl, rfl⟩
  | bool _ | int _ =>
    cases h
    exact Or.inr ⟨⟨by simp, by simp⟩, ⟨by simp, by simp, by simp⟩, by simp⟩
  | float64 bits =>
    rw [unwrapVal] at h
    obtain ⟨w, hw, h⟩ := Outcome.bind_eq_done h
    cases h
    obtain ⟨hflat, hstring⟩ := unwrapFloat64_flat hw
    exact Or.inr ⟨⟨by simp, by simp⟩, hflat, by simp [hstring]⟩
  | bigUint64 _ => cases h
  | string s =>
    rw [unwrapVal] at h
    obtain ⟨w, -, h⟩ := Outcome.bind_eq_done h
    cases h
    exact Or.inr ⟨⟨by simp, by simp⟩, ⟨by simp, by simp, by simp⟩, by simp⟩
  | array length props => exact hv.elim

theorem unwrapFields_map {f : JSValue → Outcome Unwrapped} {fields : List (JsString × JSValue)}
    {es : List (Bytes × CVal)} {r : Unwrapped} (h : unwrapFields f fields (.map es) = .done r) :
    ∃ fs, List.Forall₂ (Unwraps f) fields fs ∧ r.2 = .map (OrderedMap.assignAll es fs) := by
  induction fields generalizing es r with
  | nil =>
    cases h
    exact ⟨[], .nil, rfl⟩
  | cons field fields ih =>
    obtain ⟨⟨l, c⟩, hr', h⟩ := Outcome.bind_eq_done h
    obtain ⟨key, hkey, h⟩ := Outcome.bind_eq_done h
    obtain ⟨rs, hrs, h⟩ := Outcome.bind_eq_done h
    cases h
    obtain ⟨fs, hfs, hv⟩ := ih hrs
    exact ⟨(key, c) :: fs, .cons ⟨hkey, l, hr'⟩ hfs, hv⟩

/-- What the loop over the properties makes of them. -/
theorem unwrapFields_empty {f : JSValue → Outcome Unwrapped} {fields : List (JsString × JSValue)}
    {r : Unwrapped} (h : unwrapFields f fields .empty = .done r) : fields = [] ∧ r.2 = .empty ∨
      fields ≠ [] ∧ ∃ fs, List.Forall₂ (Unwraps f) fields fs ∧
        r.2 = .map (OrderedMap.assignAll [] fs) := by
  cases fields with
  | nil =>
    cases h
    exact Or.inl ⟨rfl, rfl⟩
  | cons field fields =>
    right
    refine ⟨List.cons_ne_nil _ _, ?_⟩
    obtain ⟨⟨l, c⟩, hr', h⟩ := Outcome.bind_eq_done h
    obtain ⟨key, hkey, h⟩ := Outcome.bind_eq_done h
    obtain ⟨rs, hrs, h⟩ := Outcome.bind_eq_done h
    cases h
    obtain ⟨fs, hfs, hv⟩ := unwrapFields_map hrs
    exact ⟨(key, c) :: fs, .cons ⟨hkey, l, hr'⟩ hfs, hv⟩

section

variable {H : Heap} {n : Nat} {v : JSValue} {l : List JSValue} {c : CVal}

/-- Only what is blank becomes EMPTY, and only plain objects become maps. -/
theorem unwrapValue_cases (h : unwrapValue H n v = .done (l, c)) : Blank H v ∧ c = .empty ∨
    (¬Blank H v ∧ ∃ i fields fs m, v = .counted i ∧ H.get? i = some (.object fields) ∧
      List.Forall₂ (Unwraps (unwrapValue H m)) fields fs ∧ c = .map (OrderedMap.assignAll [] fs)) ∨
    ¬Bag H v ∧ Flat c ∧ ((∃ s, c = .string s) ↔ ∃ s, v = .string s) := by
  cases v with
  | plain v =>
    rw [unwrapValue_plain _ 0] at h
    obtain ⟨o, ho, h⟩ := Outcome.bind_eq_done h
    cases o with
    | none => cases h
    | some c' =>
      cases h
      obtain ⟨v, hv⟩ := v
      obtain ⟨rfl | rfl, hc⟩ | ⟨⟨hu, hn⟩, hflat, hstring⟩ := unwrapVal_cases hv ho
      · exact Or.inl ⟨Or.inl rfl, hc⟩
      · exact Or.inl ⟨Or.inr (Or.inl rfl), hc⟩
      · right
        right
        refine ⟨?_, hflat, ?_⟩
        · rintro (heq | heq | ⟨i, fields, heq, -⟩)
          · cases heq
            exact hu rfl
          · cases heq
            exact hn rfl
          · cases heq
        · rw [hstring]
          constructor
          · rintro ⟨s, rfl⟩
            exact ⟨s, rfl⟩
          · rintro ⟨s, heq⟩
            cases heq
            exact ⟨s, rfl⟩
  | counted i =>
    obtain ⟨m, d, -, hd, h⟩ := unwrapValue_counted h
    have hplain : ¬Bag H (.counted i) ∨ ∃ fields, d = .object fields := by
      by_cases hobject : ∃ fields, d = .object fields
      · exact Or.inr hobject
      · left
        rintro (heq | heq | ⟨j, fields, heq, hfields⟩)
        · cases heq
        · cases heq
        · cases heq
          rw [hd] at hfields
          exact hobject ⟨fields, Option.some.inj hfields⟩
    cases d with
    | array elements =>
      obtain ⟨rs, -, h⟩ := Outcome.bind_eq_done h
      cases h
      exact Or.inr (Or.inr ⟨hplain.resolve_right (by simp), ⟨by simp, by simp, by simp⟩,
        by simp [JSValue.string]⟩)
    | object fields =>
      obtain ⟨rfl, hc⟩ | ⟨hne, fs, hfs, hc⟩ := unwrapFields_empty h
      · exact Or.inl ⟨Or.inr (Or.inr ⟨i, rfl, hd⟩), hc⟩
      · right
        left
        refine ⟨?_, i, fields, fs, m, rfl, hd, hfs, hc⟩
        rintro (heq | heq | ⟨j, heq, hj⟩)
        · cases heq
        · cases heq
        · cases heq
          rw [hd] at hj
          cases hj
          exact hne rfl
    | native id =>
      cases h
      exact Or.inr (Or.inr ⟨hplain.resolve_right (by simp), ⟨by simp, by simp, by simp⟩,
        by simp [JSValue.string]⟩)
    | other captured => cases h

theorem unwrapValue_empty_iff (h : unwrapValue H n v = .done (l, c)) : c = .empty ↔ Blank H v := by
  obtain ⟨hblank, hc⟩ | ⟨hblank, _, _, _, _, -, -, -, hc⟩ | ⟨hbag, hflat, -⟩ := unwrapValue_cases h
  · exact iff_of_true hc hblank
  · refine iff_of_false ?_ hblank
    rw [hc]
    intro heq
    cases heq
  · refine iff_of_false hflat.1 ?_
    rintro (heq | heq | ⟨i, heq, hi⟩)
    · exact hbag (Or.inl heq)
    · exact hbag (Or.inr (Or.inl heq))
    · exact hbag (Or.inr (Or.inr ⟨i, [], heq, hi⟩))

theorem unwrapValue_string_iff (h : unwrapValue H n v = .done (l, c)) :
    (∃ s, c = .string s) ↔ ∃ s, v = .string s := by
  obtain ⟨hblank, hc⟩ | ⟨-, i, _, _, _, hv, -, -, hc⟩ | ⟨-, -, hstring⟩ := unwrapValue_cases h
  · rw [hc]
    refine iff_of_false (by simp) ?_
    rintro ⟨s, rfl⟩
    rcases hblank with heq | heq | ⟨i, heq, -⟩ <;> cases heq
  · rw [hc, hv]
    simp [JSValue.string]
  · exact hstring

theorem unwrapValue_ne_bytearray (h : unwrapValue H n v = .done (l, c)) (b : Bytes) :
    c ≠ .bytearray b := by
  obtain ⟨-, hc⟩ | ⟨-, _, _, _, _, -, -, -, hc⟩ | ⟨-, hflat, -⟩ := unwrapValue_cases h
  · rw [hc]
    simp
  · rw [hc]
    simp
  · exact hflat.2.1 b

/-- The last property with a name gives the entry of the map. -/
theorem lookup_lastNamed {f : JSValue → Outcome Unwrapped} {fields : List (JsString × JSValue)}
    {fs : List (Bytes × CVal)} (h : List.Forall₂ (Unwraps f) fields fs) (key : Bytes) :
    lastNamed key fields = none ∧ OrderedMap.lookup key (OrderedMap.assignAll [] fs) = none ∨
      ∃ w l c, lastNamed key fields = some w ∧
        OrderedMap.lookup key (OrderedMap.assignAll [] fs) = some c ∧ f w = .done (l, c) := by
  rw [OrderedMap.lookup_assignAll, lastNamed]
  have hrev : List.Forall₂ (Unwraps f) fields.reverse fs.reverse := List.forall₂_reverse_iff.mpr h
  generalize fields.reverse = fields at hrev
  generalize fs.reverse = fs at hrev
  induction hrev with
  | nil => exact Or.inl ⟨rfl, rfl⟩
  | cons hf _ ih =>
    rename_i p e fields fs _
    rw [OrderedMap.lookup_cons]
    by_cases he : e.1 = key
    · have hkey : fieldKey p.1 = .done key := by rw [hf.1, he]
      rw [if_pos he, List.find?_cons_of_pos (by simpa using hkey)]
      obtain ⟨l, hl⟩ := hf.2
      exact Or.inr ⟨p.2, l, e.2, rfl, rfl, hl⟩
    · have hkey : ¬fieldKey p.1 = .done key := by
        rw [hf.1]
        intro hk
        exact he (Outcome.done.inj hk)
      rw [if_neg he, List.find?_cons_of_neg (by simpa using hkey)]
      exact ih

end

/-! ## When a call comes to an end -/

/-- `unwrap` goes through, at some depth. -/
def Converts (H : Heap) (v : JSValue) : Prop := ∃ n r, unwrapValue H n v = .done r

/-- The options have a string as their method. -/
def HasMethod (H : Heap) (v : JSValue) : Prop := ∃ s, property H v methodKey = some (.string s)

/-- The options have a body. -/
def SendsBody (H : Heap) (v : JSValue) : Prop := ∃ w, property H v bodyKey = some w ∧ ¬Blank H w

def Called.values : Called → List JSValue
  | .started r => [r.thisVal, r.resolve, r.reject]
  | .refused v resolve reject _ => [v, resolve, reject]

theorem keys_ne : methodKey ≠ headersKey ∧ methodKey ≠ bodyKey ∧ headersKey ≠ bodyKey := by decide

/-- The keys that are added for the other two do not hide the body. -/
theorem lookup_body (fields : List (Bytes × CVal)) :
    OrderedMap.lookup bodyKey
        (OrderedMap.insert headersKey .empty (OrderedMap.insert methodKey .empty fields)) =
      OrderedMap.lookup bodyKey fields := by
  rw [OrderedMap.lookup_insert_of_ne keys_ne.2.2, OrderedMap.lookup_insert_of_ne keys_ne.2.1]

theorem index_map (fields : List (Bytes × CVal)) (key : Bytes) : Val.index (.map fields) key =
    some (.map (OrderedMap.insert key .empty fields), (OrderedMap.lookup key fields).getD .empty) :=
  rfl

theorem stringRef_iff {c : CVal} : c.stringRef ≠ none ↔ ∃ s, c = .string s := by
  cases c <;> simp [Val.stringRef]

theorem Holds.fresh {H : Heap} {vs : List JSValue} (h : Holds H vs) (i : Nat)
    (hi : (H.get? i).isSome) : i < H.next := by
  obtain ⟨d, hd⟩ := Option.isSome_iff_exists.mp hi
  exact h.lt_next (h.owned.mem_of_get? hd)

section

variable [Foundation]

/-- The request cannot be built: the url has no encoding, the method is NULL, or there is a body. -/
def Fails (H : Heap) (url options : JSValue) : Prop :=
  ∃ s, url = .string s ∧ Bag H options ∧
    (¬Foundation.decodes (cString (toCStringLen s)) ∨ ¬HasMethod H options ∨ SendsBody H options)

/-- A call that does not come to an end. -/
def Aborts (H : Heap) (argv : List JSValue) : Prop :=
  argv.length ≠ 4 ∨ ∃ url options resolve reject, argv = [url, options, resolve, reject] ∧
    (¬Converts H options ∨ Fails H url options)

theorem buildRequest_map (fields : List (Bytes × CVal)) : buildRequest (.map fields) =
    (str2ns ((OrderedMap.lookup methodKey fields).getD .empty).stringRef).bind fun method =>
      match (OrderedMap.lookup bodyKey fields).getD .empty with
      | .empty => .done (method, none)
      | .bytearray b => .done (method, some b)
      | _ => .fault := by
  simp only [buildRequest, index_map, lookup_body]
  cases (OrderedMap.lookup bodyKey fields).getD .empty <;> rfl

theorem str2ns_iff {s : Option Bytes} : (∃ r, str2ns s = .done r) ↔ s ≠ none := by
  cases s with
  | none => exact iff_of_false (by rintro ⟨r, h⟩; cases h) fun h => h rfl
  | some s => exact iff_of_true ⟨_, rfl⟩ (by simp)

/-- A request is built from options with a method and without a body. -/
theorem buildRequest_iff {H : Heap} {n : Nat} {i : Nat} {fields : List (JsString × JSValue)}
    {fs : List (Bytes × CVal)} (hi : H.get? i = some (.object fields))
    (hfs : List.Forall₂ (Unwraps (unwrapValue H n)) fields fs) (options : JSValue)
    (hoptions : options = .counted i) :
    ((∃ r, buildRequest (.map (OrderedMap.assignAll [] fs)) = .done r) ↔
        HasMethod H options ∧ ¬SendsBody H options) ∧
      ∀ r, buildRequest (.map (OrderedMap.assignAll [] fs)) = .done r → r.2 = none := by
  have hproperty (key : Bytes) : property H options key = lastNamed key fields := by
    simp only [property, hoptions, hi]
  have hmethod : (∃ r, str2ns ((OrderedMap.lookup methodKey
      (OrderedMap.assignAll [] fs)).getD .empty).stringRef = .done r) ↔ HasMethod H options := by
    rw [str2ns_iff, stringRef_iff, HasMethod, hproperty]
    obtain ⟨hlast, hlookup⟩ | ⟨w, l, c, hlast, hlookup, hw⟩ := lookup_lastNamed hfs methodKey
    · simp [hlast, hlookup]
    · simp only [hlast, hlookup, Option.getD_some, Option.some.injEq]
      exact unwrapValue_string_iff hw
  have hbody : (OrderedMap.lookup bodyKey (OrderedMap.assignAll [] fs)).getD .empty = .empty ↔
      ¬SendsBody H options := by
    simp only [SendsBody, hproperty]
    obtain ⟨hlast, hlookup⟩ | ⟨w, l, c, hlast, hlookup, hw⟩ := lookup_lastNamed hfs bodyKey
    · simp [hlast, hlookup]
    · simp [hlast, hlookup, unwrapValue_empty_iff hw]
  have hbytes (b : Bytes) :
      (OrderedMap.lookup bodyKey (OrderedMap.assignAll [] fs)).getD .empty ≠ .bytearray b := by
    obtain ⟨-, hlookup⟩ | ⟨w, l, c, -, hlookup, hw⟩ := lookup_lastNamed hfs bodyKey
    · simp [hlookup]
    · rw [hlookup]
      exact unwrapValue_ne_bytearray hw b
  rw [buildRequest_map, ← hmethod, ← hbody]
  generalize str2ns _ = m
  generalize (OrderedMap.lookup bodyKey (OrderedMap.assignAll [] fs)).getD .empty = body at hbytes
  cases m with
  | done m =>
    cases body with
    | empty => simp
    | bytearray b => exact absurd rfl (hbytes b)
    | _ => simp
  | fault => simp
  | timeout => simp

theorem urlWithString_iff (s : JsString) :
    (∃ u, urlWithString s = .done u) ↔ Foundation.decodes (cString (toCStringLen s)) := by
  rw [urlWithString]
  split
  next hdec => exact iff_of_true ⟨_, rfl⟩ hdec
  next hdec => exact iff_of_false (by rintro ⟨u, hu⟩; cases hu) hdec

theorem fails_string_iff {H : Heap} {s : JsString} {options : JSValue} :
    Fails H (.string s) options ↔ Bag H options ∧
      (¬Foundation.decodes (cString (toCStringLen s)) ∨ ¬HasMethod H options ∨
        SendsBody H options) := by
  constructor
  · rintro ⟨s', heq, hbag, hor⟩
    cases heq
    exact ⟨hbag, hor⟩
  · rintro ⟨hbag, hor⟩
    exact ⟨s, rfl, hbag, hor⟩

section StartTask

variable {H : Heap} {n : Nat} {options thisVal resolve reject url : JSValue} {s : JsString}
  {c : CVal}

/-- A call that comes to an end just where its request can be built, and without a body. -/
def Checked (H : Heap) (thisVal resolve reject url options : JSValue) (c : CVal) : Prop :=
  ((∃ r, startTask thisVal resolve reject url c = .done r) ↔ ¬Fails H url options) ∧
    ∀ r, startTask thisVal resolve reject url c = .done r →
      r.values = [thisVal, resolve, reject] ∧ ∀ q, r = .started q → q.body = none

theorem checked_of_refused (message : String)
    (h : startTask thisVal resolve reject url c = .done (.refused thisVal resolve reject message))
    (hf : ¬Fails H url options) : Checked H thisVal resolve reject url options c := by
  rw [Checked, h]
  refine ⟨iff_of_true ⟨_, rfl⟩ hf, ?_⟩
  intro r hr
  cases hr
  exact ⟨rfl, fun q hq => by cases hq⟩

theorem checked_not_string (hurl : ¬∃ s, url = .string s) :
    Checked H thisVal resolve reject url options c := by
  apply checked_of_refused "Only string urls supported"
  · rw [startTask]
    intro s hs heq
    exact hurl ⟨s, heq⟩
  · rintro ⟨s, hs, -⟩
    exact hurl ⟨s, hs⟩

theorem checked_flat (hbag : ¬Bag H options) (hflat : Flat c) :
    Checked H thisVal resolve reject (.string s) options c := by
  apply checked_of_refused "Options param should be a plain object"
  · cases c with
    | empty => exact absurd rfl hflat.1
    | map fields => exact absurd rfl (hflat.2.2 fields)
    | _ => rfl
  · exact fun hf => hbag (fails_string_iff.mp hf).1

/-- Without options there is no method. -/
theorem checked_blank (hblank : Blank H options) :
    Checked H thisVal resolve reject (.string s) options .empty := by
  have hbag : Bag H options := by
    rcases hblank with heq | heq | ⟨i, heq, hi⟩
    · exact Or.inl heq
    · exact Or.inr (Or.inl heq)
    · exact Or.inr (Or.inr ⟨i, [], heq, hi⟩)
  have hmethod : ¬HasMethod H options := by
    rintro ⟨s', hs'⟩
    rcases hblank with rfl | rfl | ⟨i, rfl, hi⟩
    · cases hs'
    · cases hs'
    · simp only [property, hi] at hs'
      cases hs'
  have hfault (r : Called) : startTask thisVal resolve reject (.string s) .empty ≠ .done r := by
    intro hr
    obtain ⟨_, -, hr⟩ := Outcome.bind_eq_done hr
    obtain ⟨_, hr, -⟩ := Outcome.bind_eq_done hr
    cases hr
  refine ⟨iff_of_false (fun ⟨r, hr⟩ => hfault r hr) fun hn => ?_, fun r hr => absurd hr (hfault r)⟩
  exact hn (fails_string_iff.mpr ⟨hbag, Or.inr (Or.inl hmethod)⟩)

theorem checked_map {i : Nat} {fields : List (JsString × JSValue)} {fs : List (Bytes × CVal)}
    (hoptions : options = .counted i) (hi : H.get? i = some (.object fields))
    (hfs : List.Forall₂ (Unwraps (unwrapValue H n)) fields fs) :
    Checked H thisVal resolve reject (.string s) options
      (.map (OrderedMap.assignAll [] fs)) := by
  have hbag : Bag H options := Or.inr (Or.inr ⟨i, fields, hoptions, hi⟩)
  obtain ⟨hiff, hnone⟩ := buildRequest_iff hi hfs options hoptions
  rw [Checked, fails_string_iff]
  constructor
  · constructor
    · rintro ⟨r, hr⟩ ⟨-, hor⟩
      obtain ⟨u, hu, hr⟩ := Outcome.bind_eq_done hr
      obtain ⟨q, hq, -⟩ := Outcome.bind_eq_done hr
      obtain ⟨hmethod, hbody⟩ := hiff.mp ⟨q, hq⟩
      rcases hor with hor | hor | hor
      · exact hor ((urlWithString_iff s).mp ⟨u, hu⟩)
      · exact hor hmethod
      · exact hbody hor
    · intro hn
      simp only [hbag, true_and, not_or, not_not] at hn
      obtain ⟨u, hu⟩ := (urlWithString_iff s).mpr hn.1
      obtain ⟨q, hq⟩ := hiff.mpr hn.2
      refine ⟨.started ⟨thisVal, resolve, reject, u, q.1, q.2⟩, ?_⟩
      simp only [startTask, JSValue.string, hu, hq, Outcome.bind_done]
  · intro r hr
    obtain ⟨u, hu, hr⟩ := Outcome.bind_eq_done hr
    obtain ⟨q, hq, hr⟩ := Outcome.bind_eq_done hr
    cases hr
    refine ⟨rfl, ?_⟩
    intro q' heq
    cases heq
    exact hnone q hq

/-- The checks of a call, once its options are unwrapped. -/
theorem startTask_iff {l : List JSValue} (h : unwrapValue H n options = .done (l, c))
    (thisVal resolve reject url : JSValue) : Checked H thisVal resolve reject url options c := by
  by_cases hurl : ∃ s, url = .string s
  · obtain ⟨s, rfl⟩ := hurl
    obtain ⟨hblank, rfl⟩ | ⟨-, i, fields, fs, m, hi, hd, hfs, rfl⟩ | ⟨hbag, hflat, -⟩ :=
      unwrapValue_cases h
    · exact checked_blank hblank
    · exact checked_map hi hd hfs
    · exact checked_flat hbag hflat
  · exact checked_not_string hurl

end StartTask

variable {H : Heap} {vs : List JSValue} {thisVal : JSValue} {argv : List JSValue}

/-- What a call that comes to an end has taken. -/
structure Returned (vs : List JSValue) (H' : Heap) (taken : List JSValue) (c : Called) : Prop where
  holds : Holds H' (c.values ++ (taken ++ vs))
  body : ∀ r, c = .started r → r.body = none

theorem aborts_four {url options resolve reject : JSValue} :
    Aborts H [url, options, resolve, reject] ↔ ¬Converts H options ∨ Fails H url options := by
  constructor
  · rintro (hne | ⟨_, _, _, _, heq, hor⟩)
    · exact absurd rfl hne
    · cases heq
      exact hor
  · intro hor
    exact Or.inr ⟨url, options, resolve, reject, rfl, hor⟩

theorem httpreq_done {H' : Heap} {taken : List JSValue} {c : Called} (h : Holds H vs)
    (hr : httpreq H thisVal argv = .done (H', taken, c)) :
    ¬Aborts H argv ∧ Returned vs H' taken c := by
  rw [httpreq.eq_def] at hr
  split at hr
  next url options resolve reject =>
    obtain ⟨H₁, hdup₁, hr⟩ := Outcome.bind_eq_done hr
    obtain ⟨⟨l, o⟩, hunwrap, hr⟩ := Outcome.bind_eq_done hr
    obtain ⟨H₂, hdup₂, hr⟩ := Outcome.bind_eq_done hr
    obtain ⟨H₃, hdup₃, hr⟩ := Outcome.bind_eq_done hr
    obtain ⟨H₄, hdup₄, hr⟩ := Outcome.bind_eq_done hr
    obtain ⟨c', hstart, hr⟩ := Outcome.bind_eq_done hr
    cases hr
    have hunwrap' : unwrapValue H H₁.next options = .done (l, o) := by
      rw [← unwrapValue_congr (dupValue_same hdup₁).2]
      exact hunwrap
    obtain ⟨hiff, hvalues⟩ := startTask_iff hunwrap' thisVal resolve reject url
    obtain ⟨hvalues, hbody⟩ := hvalues c hstart
    refine ⟨?_, ?_, hbody⟩
    · rw [aborts_four]
      rintro (hn | hf)
      · exact hn ⟨_, _, hunwrap'⟩
      · exact hiff.mp ⟨c, hstart⟩ hf
    · rw [hvalues]
      have h₄ : Holds H' (reject :: resolve :: (l ++ (thisVal :: vs))) :=
        (((h.dup hdup₁).dups hdup₂).dup hdup₃).dup hdup₄
      apply h₄.perm
      have hthis : (l ++ (thisVal :: vs)).Perm (thisVal :: (l ++ vs)) := List.perm_middle
      exact ((hthis.cons resolve).cons reject).trans
        ((List.reverse_perm [thisVal, resolve, reject]).append_right (l ++ vs))
  next => cases hr

/-- The references that `unwrap` takes in a call. -/
def taken (H : Heap) : List JSValue → List JSValue
  | [_, options, _, _] =>
    match unwrapValue H H.next options with
    | .done r => r.1
    | _ => []
  | _ => []

theorem httpreq_exists (h : Holds H vs) (hthis : usable H thisVal) (hargv : ∀ v ∈ argv, usable H v)
    (hroom : Room H ((taken H argv).length + 3)) (haborts : ¬Aborts H argv) :
    ∃ r, httpreq H thisVal argv = .done r := by
  have hfour : argv.length = 4 := by
    by_contra hne
    exact haborts (Or.inl hne)
  obtain ⟨url, options, resolve, reject, rfl⟩ := List.length_eq_four.mp hfour
  simp only [aborts_four, not_or, not_not] at haborts
  obtain ⟨⟨n, ⟨l, o⟩, hunwrap⟩, hfails⟩ := haborts
  have hunwrap' := unwrapValue_depth h.fresh hunwrap
  obtain ⟨c, hstart⟩ := (startTask_iff hunwrap thisVal resolve reject url).1.mpr hfails
  rw [taken, hunwrap'] at hroom
  obtain ⟨H₁, hdup₁, hroom₁⟩ := dup_room hthis hroom
  obtain ⟨hnext₁, hsame₁⟩ := dupValue_same hdup₁
  have hunwrap₁ : unwrapValue H₁ H₁.next options = .done (l, o) := by
    rw [unwrapValue_congr hsame₁, hnext₁]
    exact hunwrap'
  have htaken : ∀ w ∈ l, usable H₁ w := by
    intro w hw
    rw [usable_congr hsame₁]
    exact h.taken hunwrap w hw
  obtain ⟨H₂, hdup₂, hroom₂⟩ := dups_room htaken hroom₁
  have hsame₂ := (dupValues_same hdup₂).2
  obtain ⟨H₃, hdup₃, hroom₃⟩ := dup_room (v := resolve) (by
    rw [usable_congr hsame₂, usable_congr hsame₁]
    exact hargv resolve (by simp)) hroom₂
  obtain ⟨H₄, hdup₄, -⟩ := dup_room (v := reject) (k := 0) (by
    rw [usable_congr (dupValue_same hdup₃).2, usable_congr hsame₂, usable_congr hsame₁]
    exact hargv reject (by simp)) hroom₃
  exact ⟨(H₄, l, c), by
    simp only [httpreq, hdup₁, hunwrap₁, hdup₂, hdup₃, hdup₄, hstart, Outcome.bind_done]⟩

end

end Libacorn.Http
