import Libacorn.BytearrayHeap

/-!
# Programs over arrays

Any program over any number of arrays behaves as if every array held its bytes itself, and whenever
it is defined each block has one owner and none is lost (`arrays_refine`). It is defined if and
only if each of its calls is safe (`arrays_defined_iff`).
-/

namespace Libacorn.Bytearray

open Support

/-! ## All arrays -/

/-- The sizes in a slot are not larger than the blocks. -/
def Slot.Fits (H : Memory) : Slot Obj → Prop
  | .gone => True
  | .array a => Bytearray.Fits H a
  | .held a => Bytearray.Fits H a

structure Inv (S : State) : Prop where
  sound : Sound S.mem (owners S.slots)
  fits : ∀ (j : Nat) (s : Slot Obj), S.slots[j]? = some s → s.Fits S.mem

/-- The arrays by the bytes they hold. -/
def State.values (S : State) : List (Slot Bytearray) := S.slots.map (Slot.map (view S.mem))

/-- Both are undefined, or the arrays hold the bytes they should. -/
inductive Agrees : Outcome State → Outcome (List (Slot Bytearray)) → Prop
  | fault : Agrees .fault .fault
  | done {S : State} {vs : List (Slot Bytearray)} (inv : Inv S) (hvs : S.values = vs) :
    Agrees (.done S) (.done vs)

section Slots

variable {slots : List (Slot Obj)} {s t : Slot Obj} {H H' : Memory} {j k : Nat}

theorem owners_set (hk : k < slots.length) (s : Slot Obj) :
    owners (slots.set k s) = s.owned + owners (slots.set k .gone) := by
  induction slots generalizing k with
  | nil => exact (Nat.not_lt_zero k hk).elim
  | cons t slots ih =>
    cases k with
    | zero =>
      simp only [owners, List.set_cons_zero, List.map_cons, List.sum_cons, Slot.owned, zero_add]
    | succ k =>
      have hrest := ih (Nat.lt_of_succ_lt_succ hk)
      simp only [owners, List.set_cons_succ, List.map_cons, List.sum_cons] at hrest ⊢
      rw [hrest, ← add_assoc, ← add_assoc, add_comm t.owned]

theorem owners_eq (hk : slots[k]? = some s) :
    owners slots = s.owned + owners (slots.set k .gone) := by
  obtain ⟨hlt, rfl⟩ := List.getElem?_eq_some_iff.mp hk
  rw [← owners_set hlt, List.set_getElem_self]

theorem owned_le (hk : slots[k]? = some s) : s.owned ≤ owners slots := by
  rw [owners_eq hk]
  exact Multiset.le_add_right _ _

/-- A slot is as it was where the blocks it may own are. -/
theorem Same.slot (h : Same H H' s.owned) :
    s.map (view H') = s.map (view H) ∧ (s.Fits H → s.Fits H') := by
  cases s with
  | gone => exact ⟨rfl, id⟩
  | array a =>
    have hb := h.blockAt (p := a.p) (le_refl _)
    refine ⟨?_, ?_⟩
    · rw [Slot.map, Slot.map, view, hb, view]
    · intro hf
      rwa [Slot.Fits, Bytearray.Fits, hb]
  | held a =>
    have hb := h.blockAt (p := a.p) (le_refl _)
    refine ⟨?_, ?_⟩
    · rw [Slot.map, Slot.map, view, hb, view]
    · intro hf
      rwa [Slot.Fits, Bytearray.Fits, hb]

theorem Same.mono {M N : Multiset Nat} (h : Same H H' M) (hN : N ≤ M) : Same H H' N :=
  fun i hi => h i (Multiset.mem_of_le hN hi)

theorem owned_le_set (hj : slots[j]? = some t) (hne : k ≠ j) :
    t.owned ≤ owners (slots.set k .gone) :=
  owned_le (k := j) (by rw [List.getElem?_set_ne hne, hj])

/-- One slot changes, and the blocks of the others do not. -/
theorem values_set (h : Same H H' (owners (slots.set k .gone))) (s : Slot Obj) :
    (slots.set k s).map (Slot.map (view H')) =
      (slots.map (Slot.map (view H))).set k (s.map (view H')) := by
  rw [List.map_set]
  apply List.ext_getElem?
  intro j
  by_cases hjk : k = j
  · subst hjk
    rw [List.getElem?_set_self', List.getElem?_set_self', List.getElem?_map, List.getElem?_map]
    cases slots[k]? with
    | none => rfl
    | some t => rfl
  · rw [List.getElem?_set_ne hjk, List.getElem?_set_ne hjk, List.getElem?_map, List.getElem?_map]
    cases hj : slots[j]? with
    | none => rfl
    | some t => exact congrArg some (h.mono (owned_le_set hj hjk)).slot.1

theorem fits_set (hf : ∀ (j : Nat) (t : Slot Obj), slots[j]? = some t → t.Fits H)
    (h : Same H H' (owners (slots.set k .gone))) (hs : s.Fits H')
    (ht : (slots.set k s)[j]? = some t) :
    t.Fits H' := by
  by_cases hjk : k = j
  · subst hjk
    obtain ⟨hlt, -⟩ := List.getElem?_eq_some_iff.mp ht
    rw [List.length_set] at hlt
    rw [List.getElem?_set_self hlt] at ht
    obtain rfl := Option.some.inj ht
    exact hs
  · rw [List.getElem?_set_ne hjk] at ht
    exact (h.mono (owned_le_set ht hjk)).slot.2 (hf j t ht)

end Slots

section Steps

variable {S : State} {a b : Obj} {j k : Nat}

/-- The array under an index and the array that holds its bytes. -/
theorem array_cases (S : State) (k : Nat) :
    (array S.slots k = .fault ∧ array S.values k = .fault) ∨
      ∃ a, S.slots[k]? = some (.array a) ∧ array S.slots k = .done a ∧
        array S.values k = .done (view S.mem a) := by
  rw [array, array, State.values, List.getElem?_map]
  cases hk : S.slots[k]? with
  | none => exact Or.inl ⟨rfl, rfl⟩
  | some s =>
    cases s with
    | gone => exact Or.inl ⟨rfl, rfl⟩
    | array a => exact Or.inr ⟨a, rfl, rfl, rfl⟩
    | held a => exact Or.inl ⟨rfl, rfl⟩

theorem held_cases (S : State) (j : Nat) :
    (held S.slots j = .fault ∧ held S.values j = .fault) ∨
      ∃ a, S.slots[j]? = some (.held a) ∧ held S.slots j = .done a ∧
        held S.values j = .done (view S.mem a) := by
  rw [held, held, State.values, List.getElem?_map]
  cases hj : S.slots[j]? with
  | none => exact Or.inl ⟨rfl, rfl⟩
  | some s =>
    cases s with
    | gone => exact Or.inl ⟨rfl, rfl⟩
    | array a => exact Or.inl ⟨rfl, rfl⟩
    | held a => exact Or.inr ⟨a, rfl, rfl, rfl⟩

section Agrees

variable {F : Obj → Outcome State} {G : Bytearray → Outcome (List (Slot Bytearray))}

theorem agrees_array (h : ∀ {a}, S.slots[k]? = some (.array a) → Agrees (F a) (G (view S.mem a))) :
    Agrees ((array S.slots k).bind F) ((array S.values k).bind G) := by
  rcases array_cases S k with ⟨harr, hval⟩ | ⟨a, hk, harr, hval⟩
  · rw [harr, hval]
    exact .fault
  · rw [harr, hval]
    exact h hk

theorem agrees_held (h : ∀ {a}, S.slots[j]? = some (.held a) → Agrees (F a) (G (view S.mem a))) :
    Agrees ((held S.slots j).bind F) ((held S.values j).bind G) := by
  rcases held_cases S j with ⟨hheld, hval⟩ | ⟨a, hj, hheld, hval⟩
  · rw [hheld, hval]
    exact .fault
  · rw [hheld, hval]
    exact h hj

theorem agrees_size {n : Nat} {F : Nat → Outcome State} {G : Nat → Outcome (List (Slot Bytearray))}
    (h : Agrees (F n) (G n)) : Agrees ((size n).bind F) ((size n).bind G) := by
  rcases size_cases n with ⟨hn, -⟩ | ⟨hn, -⟩
  · rw [hn]
    exact h
  · rw [hn]
    exact .fault

end Agrees

/-- A call on one array. -/
theorem Inv.put (hS : Inv S) (hk : S.slots[k]? = some (.array a)) {r : Outcome (Memory × Obj)}
    {w : Outcome Bytearray} (h : Becomes S.mem (owners (S.slots.set k .gone)) r w) :
    Agrees (r.bind fun r => .done (S.put k r))
      (w.bind fun b => .done (S.values.set k (.array b))) := by
  have hlt := (List.getElem?_eq_some_iff.mp hk).1
  cases h with
  | fault => exact .fault
  | @done H' a' v sound same fits hv =>
    refine .done ⟨?_, fun j t => fits_set hS.fits same fits⟩ ?_
    · rw [State.put, owners_set hlt]
      exact sound
    · rw [State.values, State.put, values_set same, State.values, Slot.map, hv]

/-- A call that makes an array. -/
theorem Inv.push (hS : Inv S) {r : Outcome (Memory × Obj)} {w : Outcome Bytearray}
    (h : Becomes S.mem (owners S.slots) r w) :
    Agrees (r.bind fun r => .done (S.push r)) (w.bind fun b => .done (S.values ++ [.array b])) := by
  cases h with
  | fault => exact .fault
  | @done H' a' v sound same fits hv =>
    have hslot : ∀ (j : Nat) (t : Slot Obj), S.slots[j]? = some t → Same S.mem H' t.owned :=
      fun j t ht => same.mono (owned_le ht)
    refine .done ⟨?_, ?_⟩ ?_
    · have howners : owners (S.slots ++ [.array a']) = own a'.p + owners S.slots := by
        rw [owners, List.map_append, List.sum_append, List.map_singleton, List.sum_singleton,
          add_comm]
        rfl
      rw [State.push, howners]
      exact sound
    · intro j t ht
      rcases List.mem_append.mp (List.mem_of_getElem? ht) with hmem | hmem
      · obtain ⟨i, hi⟩ := List.getElem?_of_mem hmem
        exact (hslot i t hi).slot.2 (hS.fits i t hi)
      · obtain rfl := List.mem_singleton.mp hmem
        exact fits
    · rw [State.values, State.push, List.map_append, List.map_singleton, State.values]
      congr 1
      · apply List.map_congr_left
        intro t ht
        obtain ⟨j, hj⟩ := List.getElem?_of_mem ht
        exact (hslot j t hj).slot.1
      · rw [Slot.map, hv]

/-- A slot is left, and its block freed. -/
theorem Inv.release (hS : Inv S) {s : Slot Obj} (hk : S.slots[k]? = some s)
    (hs : s.owned = own a.p) :
    ∃ H, free S.mem a.p = .done H ∧ Same S.mem H (owners (S.slots.set k .gone)) ∧
      Inv ⟨H, S.slots.set k .gone⟩ ∧
      State.values ⟨H, S.slots.set k .gone⟩ = S.values.set k .gone := by
  have hsound := hS.sound
  rw [owners_eq hk, hs] at hsound
  obtain ⟨H, hrun, hH, hsame, -⟩ := hsound.free
  exact ⟨H, hrun, hsame, ⟨hH, fun j t => fits_set hS.fits hsame trivial⟩, values_set hsame .gone⟩

theorem Inv.sound_array (hS : Inv S) (hk : S.slots[k]? = some (.array a)) :
    Sound S.mem (own a.p + owners (S.slots.set k .gone)) := by
  have hsound := hS.sound
  rwa [owners_eq hk] at hsound

theorem Inv.fits_array (hS : Inv S) (hk : S.slots[k]? = some (.array a)) : Fits S.mem a :=
  hS.fits k _ hk

/-- A block changes its slot. -/
theorem Inv.relabel (hS : Inv S) {slots : List (Slot Obj)} (ho : owners slots = owners S.slots)
    (hf : ∀ s ∈ slots, s.Fits S.mem) : Inv ⟨S.mem, slots⟩ where
  sound := by
    rw [ho]
    exact hS.sound
  fits _ s hs := hf s (List.mem_of_getElem? hs)

theorem Inv.fits_mem (hS : Inv S) {s : Slot Obj} (hs : s ∈ S.slots) : s.Fits S.mem := by
  obtain ⟨j, hj⟩ := List.getElem?_of_mem hs
  exact hS.fits j s hj

theorem owners_append (l r : List (Slot Obj)) : owners (l ++ r) = owners l + owners r := by
  rw [owners, List.map_append, List.sum_append]
  rfl

theorem owners_singleton (s : Slot Obj) : owners [s] = s.owned := List.sum_singleton

/-- What `move` and `detach` do: the array is empty, and a new slot has its block. -/
theorem Inv.steal (hS : Inv S) (hk : S.slots[k]? = some (.array a)) {s : Slot Obj}
    (hs : s.owned = own a.p) (hf : s.Fits S.mem) {w : Slot Bytearray}
    (hw : s.map (view S.mem) = w) :
    Agrees (.done ⟨S.mem, S.slots.set k (.array .null) ++ [s]⟩)
      (.done (S.values.set k (.array empty) ++ [w])) := by
  have hlt := (List.getElem?_eq_some_iff.mp hk).1
  refine .done (hS.relabel ?_ ?_) ?_
  · rw [owners_append, owners_set hlt, owners_singleton, owners_eq hk, hs, add_comm]
    exact congrArg (own a.p + ·) (zero_add _)
  · intro t ht
    rcases List.mem_append.mp ht with ht | ht
    · rcases List.mem_or_eq_of_mem_set ht with ht | rfl
      · exact hS.fits_mem ht
      · exact Nat.le_refl 0
    · obtain rfl := List.mem_singleton.mp ht
      exact hf
  · rw [State.values, List.map_append, List.map_set, List.map_singleton, hw]
    rfl

theorem set_twice {α : Type} (l : List α) (hne : k ≠ j) (x y z : α) :
    ((l.set k x).set j y).set k z = (l.set j y).set k z := by
  rw [List.set_comm _ _ hne, List.set_set]

/-- What `assignNoCopy` does: the block of the array is freed, and it has the other one. -/
theorem Inv.adopt (hS : Inv S) (hk : S.slots[k]? = some (.array a))
    (hj : S.slots[j]? = some (.held b)) :
    Agrees ((free S.mem a.p).bind fun H => .done ⟨H, (S.slots.set j .gone).set k (.array b)⟩)
      (.done ((S.values.set j .gone).set k (.array (view S.mem b)))) := by
  have hne : k ≠ j := by
    rintro rfl
    rw [hk] at hj
    injection hj with hj
    injection hj
  obtain ⟨H, hrun, hsame, hinv, hvs⟩ := hS.release hk rfl
  obtain ⟨slots, hslots⟩ : ∃ slots, S.slots.set k .gone = slots := ⟨_, rfl⟩
  have hlt : k < slots.length := by
    rw [← hslots, List.length_set]
    exact (List.getElem?_eq_some_iff.mp hk).1
  have hheld : slots[j]? = some (.held b) := by
    rw [← hslots, List.getElem?_set_ne hne, hj]
  have hview : view H b = view S.mem b := by
    rw [view, hsame.blockAt (owned_le_set hj hne), view]
  rw [hrun, Outcome.bind_done, ← set_twice S.slots hne .gone, ← set_twice S.values hne .gone, ← hvs,
    ← hview]
  rw [hslots] at hinv ⊢
  refine .done (hinv.relabel ?_ ?_) ?_
  · have hgone : (slots.set j .gone)[k]? = some .gone := by
      rw [List.getElem?_set_ne hne.symm, ← hslots,
        List.getElem?_set_self (by rwa [← hslots, List.length_set] at hlt)]
    rw [owners_set (by rwa [List.length_set]), owners_eq hheld, owners_eq hgone]
    exact congrArg (own b.p + ·) (zero_add _).symm
  · intro t ht
    rcases List.mem_or_eq_of_mem_set ht with ht | rfl
    · rcases List.mem_or_eq_of_mem_set ht with ht | rfl
      · exact hinv.fits_mem ht
      · trivial
    · exact (hinv.fits j _ hheld : Bytearray.Fits H b)
  · rw [State.values, List.map_set, List.map_set]
    rfl

/-- What is passed under an index is as in the arrays that hold their bytes. -/
theorem Inv.passed_cases (hS : Inv S) (hk : S.slots[k]? = some (.array a)) (src : Arg) :
    (S.passed src = .fault ∧ source S.values k src = .fault) ∨
      ∃ x v, S.passed src = .done x ∧ source S.values k src = .done v ∧
        Given S.mem (owners (S.slots.set k .gone)) a x v := by
  cases src with
  | bytes b =>
    rw [State.passed, source]
    rcases size_cases b.length with ⟨hn, -⟩ | ⟨hn, -⟩
    · rw [hn]
      exact Or.inr ⟨_, _, rfl, rfl, .bytes b⟩
    · rw [hn]
      exact Or.inl ⟨rfl, rfl⟩
  | array l =>
    rcases array_cases S l with ⟨h, hv⟩ | ⟨b, hl, h, hv⟩
    · left
      rw [State.passed, source, h, hv]
      exact ⟨rfl, rfl⟩
    · right
      rw [State.passed, source, h, hv]
      by_cases hkl : k = l
      · subst hkl
        obtain rfl : a = b := by
          rw [hk] at hl
          injection hl with hl
          injection hl
        exact ⟨_, _, rfl, congrArg Outcome.done (if_pos rfl), .self⟩
      · exact ⟨_, _, rfl, congrArg Outcome.done (if_neg hkl), .other (owned_le_set hl hkl)
          (hS.fits_array hl)⟩

/-- A call on one array. -/
theorem Inv.on (hS : Inv S) {f : Obj → Outcome (Memory × Obj)} {g : Bytearray → Outcome Bytearray}
    (h : ∀ {a}, S.slots[k]? = some (.array a) → Becomes S.mem (owners (S.slots.set k .gone)) (f a)
      (g (view S.mem a))) :
    Agrees (S.on k f) (onValue S.values k g) :=
  agrees_array fun hk => hS.put hk (h hk)

/-- The same, when something is passed. -/
theorem Inv.onPassed (hS : Inv S) (src : Arg) {f : Obj → Passed → Outcome (Memory × Obj)}
    {g : Bytearray → Source → Outcome Bytearray}
    (h : ∀ {a x v}, Sound S.mem (own a.p + owners (S.slots.set k .gone)) → Fits S.mem a →
      Given S.mem (owners (S.slots.set k .gone)) a x v →
        Becomes S.mem (owners (S.slots.set k .gone)) (f a x) (g (view S.mem a) v)) :
    Agrees (S.on k fun a => (S.passed src).bind (f a))
      (onValue S.values k fun a => (source S.values k src).bind (g a)) := by
  apply hS.on
  intro a hk
  rcases hS.passed_cases hk src with ⟨hp, hq⟩ | ⟨x, v, hp, hq, hg⟩
  · rw [hp, hq]
    exact .fault
  · rw [hp, hq]
    exact h (hS.sound_array hk) (hS.fits_array hk) hg

section Runs

variable [Uninit]

/-- The copy of an array, for a new one. -/
theorem Inv.becomes_copyOf (hS : Inv S) (hk : S.slots[k]? = some (.array a)) :
    Becomes S.mem (owners S.slots) (Obj.null.assign S.mem (.members a))
      (empty.assign (view S.mem a).content) :=
  becomes_assign hS.sound.null (Nat.le_refl 0)
    (.other (owned_le hk) (hS.fits_array hk))

/-- `operator+`: a copy of the one array, and then the bytes of the other. -/
theorem Inv.becomes_concat {l : Nat} (hS : Inv S) (hk : S.slots[k]? = some (.array a))
    (hl : S.slots[l]? = some (.array b)) :
    Becomes S.mem (owners S.slots)
      ((Obj.null.assign S.mem (.members a)).bind fun r => r.2.append r.1 (.members b))
      ((empty.assign (view S.mem a).content).bind fun r => append (.other (view S.mem b).content)
        r) := by
  have hcopy := hS.becomes_copyOf hk
  generalize Obj.null.assign S.mem (.members a) = r at hcopy
  generalize empty.assign (view S.mem a).content = w at hcopy
  cases hcopy with
  | fault => exact .fault
  | @done H' r v sound same fits hv =>
    have hblock : blockAt H' b.p = blockAt S.mem b.p := same.blockAt (owned_le hl)
    have hview : view H' b = view S.mem b := by
      rw [view, hblock, view]
    have hgiven : Given H' (owners S.slots) r (.members b) (.other (view S.mem b).content) := by
      rw [← hview]
      apply Given.other (owned_le hl)
      rw [Fits, hblock]
      exact hS.fits_array hl
    have happend := becomes_append sound fits hgiven
    rw [hv] at happend
    exact happend.weaken same

theorem Inv.push_malloc (hS : Inv S) (cb : Nat) :
    Agrees (.done (S.push ((malloc S.mem cb).1, ⟨(malloc S.mem cb).2, cb⟩)))
      (.done (S.values ++ [.array ⟨Uninit.block cb, cb⟩])) := by
  obtain ⟨hs, hblock, hsame⟩ := hS.sound.malloc cb
  apply hS.push (r := .done _) (w := .done ⟨Uninit.block cb, cb⟩)
  refine .done hs hsame ?_ ?_
  · rw [Fits, hblock, Uninit.length_block]
  · rw [view, hblock]

theorem Inv.push_ofBytes (hS : Inv S) (b : Bytes) :
    Agrees (S.step (.ofBytes b)) (stepValues S.values (.ofBytes b)) := by
  rw [State.step, stepValues, State.passed, Outcome.bind_assoc]
  exact agrees_size (hS.push (becomes_assign hS.sound.null (Nat.le_refl 0) (.bytes b)))

theorem Inv.push_concat {l : Nat} (hS : Inv S) (hk : S.slots[k]? = some (.array a))
    (hl : S.slots[l]? = some (.array b)) :
    Agrees
      ((Obj.null.assign S.mem (.members a)).bind fun r =>
        (r.2.append r.1 (.members b)).bind fun r => .done (S.push r))
      ((empty.assign (view S.mem a).content).bind fun r =>
        (append (.other (view S.mem b).content) r).bind fun r =>
          .done (S.values ++ [.array r])) := by
  rw [← Outcome.bind_assoc, ← Outcome.bind_assoc]
  exact hS.push (hS.becomes_concat hk hl)

theorem Inv.step (hS : Inv S) (c : Call) : Agrees (S.step c) (stepValues S.values c) := by
  cases c with
  | empty => exact hS.push (becomes_null hS.sound)
  | sized cb => exact agrees_size (hS.push_malloc cb)
  | ofBytes b => exact hS.push_ofBytes b
  | copy k => exact agrees_array fun hk => hS.push (hS.becomes_copyOf hk)
  | move k =>
    exact agrees_array fun {a} hk => hS.steal (s := .array a) hk rfl (hS.fits_array hk) rfl
  | plus k l => exact agrees_array fun hk => agrees_array fun hl => hS.push_concat hk hl
  | assign k src => exact hS.onPassed src becomes_assign
  | append k src => exact hS.onPassed src becomes_append
  | insert k offset src => exact hS.onPassed src becomes_insert
  | erase k offset cb => exact hS.on fun hk => becomes_erase (hS.sound_array hk)
  | resize k newSize => exact hS.on fun hk => becomes_resize (hS.sound_array hk) newSize
  | clear k => exact hS.on fun hk => becomes_clear (hS.sound_array hk) (hS.fits_array hk)
  | detach k =>
    exact agrees_array fun {a} hk => hS.steal (s := .held a) hk rfl (hS.fits_array hk) rfl
  | assignNoCopy k j => exact agrees_array fun hk => agrees_held fun hj => hS.adopt hk hj
  | free j =>
    refine agrees_held fun hj => ?_
    obtain ⟨H, hrun, -, hinv, hvs⟩ := hS.release hj rfl
    rw [hrun]
    exact .done hinv hvs
  | destroy k =>
    refine agrees_array fun hk => ?_
    obtain ⟨H, hrun, -, hinv, hvs⟩ := hS.release hk rfl
    rw [hrun]
    exact .done hinv hvs

theorem Inv.run (hS : Inv S) (calls : List Call) :
    Agrees (S.run calls) (runValues S.values calls) := by
  induction calls generalizing S with
  | nil => exact .done hS rfl
  | cons c calls ih =>
    have hstep := hS.step c
    rw [State.run, runValues]
    generalize S.step c = r at hstep
    generalize stepValues S.values c = w at hstep
    cases hstep with
    | fault => exact .fault
    | done inv hvs =>
      subst hvs
      exact ih inv

omit [Uninit] in
theorem Inv.init : Inv .init where
  sound := ⟨RefHeap.Owned.empty, Multiset.nodup_zero⟩
  fits _ _ hs := by cases hs

/-- A program over many arrays in one memory is undefined exactly when it is for arrays that hold
their bytes themselves, and otherwise its arrays hold the same bytes; then a block is live if and
only if an array or the caller has it, and none has two owners. -/
theorem arrays_refine (calls : List Call) :
    (State.init.run calls = .fault ∧ runValues [] calls = .fault) ∨
      ∃ S, State.init.run calls = .done S ∧ runValues [] calls = .done S.values ∧
        (owners S.slots).Nodup ∧ ∀ i, (S.mem.get? i).isSome ↔ i ∈ owners S.slots := by
  have hrun : Agrees (State.init.run calls) (runValues [] calls) := Inv.init.run calls
  generalize State.init.run calls = r at hrun
  generalize runValues [] calls = w at hrun
  cases hrun with
  | fault => exact Or.inl ⟨rfl, rfl⟩
  | @done S _ inv hvs =>
    refine Or.inr ⟨S, rfl, by rw [hvs], inv.sound.nodup, ?_⟩
    intro i
    rw [inv.sound.owned.mem_iff, RefHeap.get?, Option.isSome_map]

end Runs

end Steps

/-- An array that is assigned to itself copies bytes that were freed. -/
example : @State.run zeroMemory .init [.ofBytes [0x61], .assign 0 (.array 0)] = .fault := rfl

/-! ## Which programs are defined -/

/-- The size of what is passed to the array `k`, and whether it is the array itself. -/
def given (vs : List (Slot Bytearray)) (k : Nat) : Arg → Outcome (Nat × Bool)
  | .bytes b => (size b.length).bind fun n => .done (n, false)
  | .array l => (array vs l).bind fun a => .done (a.cb, decide (k = l))

/-- There is an array with this property. -/
def HasArray (vs : List (Slot Bytearray)) (k : Nat) (P : Bytearray → Prop) : Prop :=
  ∃ a, array vs k = .done a ∧ P a

/-- There are an array and something to pass to it. -/
def HasBoth (vs : List (Slot Bytearray)) (k : Nat) (src : Arg) (P : Bytearray → Nat → Bool → Prop) :
    Prop :=
  HasArray vs k fun a => ∃ n self, given vs k src = .done (n, self) ∧ P a n self

/-- No array copies its own bytes when they are gone, the sizes are `int32_t`s, and the ranges lie
in the arrays; `erase` writes behind the offset as many bytes as it keeps. -/
def Safe (vs : List (Slot Bytearray)) : Call → Prop
  | .empty => True
  | .sized n => n < 2 ^ 31
  | .ofBytes b => b.length < 2 ^ 31
  | .copy k | .move k | .clear k | .detach k | .destroy k => HasArray vs k fun _ => True
  | .resize k n => HasArray vs k fun _ => n < 2 ^ 31
  | .plus k l => HasArray vs k fun a => HasArray vs l fun b => b.cb = 0 ∨ a.cb + b.cb + 1 < 2 ^ 31
  | .assign k src => HasBoth vs k src fun _ n self => self = true → n = 0
  | .append k src => HasBoth vs k src fun a n self => n = 0 ∨ (self = false ∧ a.cb + n + 1 < 2 ^ 31)
  | .insert k offset src => HasBoth vs k src fun a n self =>
      n = 0 ∨ (self = false ∧ a.cb + n < 2 ^ 31 ∧ offset ≤ a.cb)
  | .erase k offset cb => HasArray vs k fun a => cb ≤ a.cb ∧ offset + (a.cb - cb) ≤ a.block.length
  | .assignNoCopy k j => (HasArray vs k fun _ => True) ∧ ∃ b, held vs j = .done b
  | .free j => ∃ b, held vs j = .done b

def AllSafe [Uninit] (vs : List (Slot Bytearray)) : List Call → Prop
  | [] => True
  | c :: calls => Safe vs c ∧ ∀ vs', stepValues vs c = .done vs' → AllSafe vs' calls

section Safe

variable {vs : List (Slot Bytearray)} {a : Bytearray} {bytes : Bytes} {k offset cb n : Nat}

theorem other_ne_self (b : Bytes) : Source.other b ≠ .self := by
  intro h
  cases h

theorem self_iff_other (b : Bytes) : false = true ↔ Source.other b = .self := by
  constructor
  · intro h
    cases h
  · intro h
    cases h

/-- The arrays are not larger than their blocks. -/
def AllFit (vs : List (Slot Bytearray)) : Prop :=
  ∀ k a, array vs k = .done a → a.cb ≤ a.block.length

theorem Inv.allFit {S : State} (hS : Inv S) : AllFit S.values := by
  intro k a ha
  rcases array_cases S k with ⟨-, hval⟩ | ⟨b, hk, -, hval⟩
  · rw [hval] at ha
    cases ha
  · rw [hval] at ha
    obtain rfl := Outcome.done.inj ha
    exact hS.fits_array hk

theorem bind_done_iff {α β : Type} {x : Outcome α} {f : α → Outcome β} :
    (∃ b, x.bind f = .done b) ↔ ∃ a, x = .done a ∧ ∃ b, f a = .done b := by
  constructor
  · rintro ⟨b, hb⟩
    obtain ⟨a, ha, hf⟩ := Outcome.bind_eq_done hb
    exact ⟨a, ha, b, hf⟩
  · rintro ⟨a, rfl, b, hb⟩
    exact ⟨b, hb⟩

theorem onValue_iff {f : Bytearray → Outcome Bytearray} :
    (∃ vs', onValue vs k f = .done vs') ↔ HasArray vs k fun a => ∃ b, f a = .done b := by
  rw [onValue, bind_done_iff]
  apply exists_congr
  intro a
  rw [bind_done_iff]
  exact and_congr_right fun _ => ⟨fun ⟨b, hb, _⟩ => ⟨b, hb⟩, fun ⟨b, hb⟩ => ⟨b, hb, _, rfl⟩⟩

variable [Uninit]

theorem append_iff (src : Source) (a : Bytearray) : (∃ b, append src a = .done b) ↔
    (src.bytes a).length = 0 ∨ (src ≠ .self ∧ a.cb + (src.bytes a).length + 1 < 2 ^ 31) := by
  by_cases h0 : (src.bytes a).length = 0
  · exact ⟨fun _ => Or.inl h0, fun _ => ⟨a, append_nothing h0⟩⟩
  · cases src with
    | self =>
      rw [append_self h0]
      constructor
      · rintro ⟨b, hb⟩
        cases hb
      · rintro (h | ⟨h, -⟩)
        · exact (h0 h).elim
        · exact (h rfl).elim
    | other bytes =>
      have hroom : a.cb + bytes.length ≤ (realloc a.block (a.cb + bytes.length + 1)).length := by
        rw [length_realloc]
        exact Nat.le_succ _
      constructor
      · rintro ⟨b, hb⟩
        by_contra hnot
        simp only [append, if_neg h0, if_neg fun hlt =>
          hnot (Or.inr ⟨other_ne_self bytes, hlt⟩)] at hb
        cases hb
      · rintro (h | ⟨-, hlt⟩)
        · exact (h0 h).elim
        · have hn : bytes.length ≠ 0 := h0
          have hsize : a.cb + bytes.length + 1 < 2 ^ 31 := hlt
          simp only [append, Source.bytes, Source.afterRealloc, hn, hsize, hroom, ↓reduceIte,
            Outcome.bind_done, memcpy]
          exact ⟨_, rfl⟩

theorem insert_iff (src : Source) (hoff : offset ≤ a.cb) : (∃ b, insert offset src a = .done b) ↔
    (src.bytes a).length = 0 ∨ (src ≠ .self ∧ a.cb + (src.bytes a).length < 2 ^ 31) := by
  by_cases h0 : (src.bytes a).length = 0
  · exact ⟨fun _ => Or.inl h0, fun _ => ⟨a, insert_nothing h0⟩⟩
  · cases src with
    | self =>
      rw [insert_self h0]
      constructor
      · rintro ⟨b, hb⟩
        cases hb
      · rintro (h | ⟨h, -⟩)
        · exact (h0 h).elim
        · exact (h rfl).elim
    | other bytes =>
      constructor
      · rintro ⟨b, hb⟩
        by_contra hnot
        simp only [insert, if_neg h0, if_neg fun hlt =>
          hnot (Or.inr ⟨other_ne_self bytes, hlt⟩)] at hb
        cases hb
      · rintro (h | ⟨-, hlt⟩)
        · exact (h0 h).elim
        · have hlen : (realloc a.block (a.cb + bytes.length)).length = a.cb + bytes.length :=
            length_realloc
          have htail : (((realloc a.block (a.cb + bytes.length)).drop offset).take
              (a.cb - offset)).length =
              a.cb - offset := by
            rw [List.length_take, List.length_drop, hlen]
            omega
          have hmove : memmove (realloc a.block (a.cb + bytes.length)) (offset + bytes.length)
              offset (a.cb - offset) =
              .done (overwrite (realloc a.block (a.cb + bytes.length)) (offset + bytes.length)
                (((realloc a.block (a.cb + bytes.length)).drop offset).take (a.cb - offset))) :=
            if_pos (by omega)
          have hroom : offset + bytes.length ≤
              (overwrite (realloc a.block (a.cb + bytes.length)) (offset + bytes.length)
              (((realloc a.block (a.cb + bytes.length)).drop offset).take
                (a.cb - offset))).length := by
            rw [length_overwrite (by omega), hlen]
            omega
          have hn : bytes.length ≠ 0 := h0
          have hsize : a.cb + bytes.length < 2 ^ 31 := hlt
          simp only [insert, Source.bytes, Source.afterRealloc, hn, hsize, hmove, hroom, ↓reduceIte,
            Outcome.bind_done, memcpy]
          exact ⟨_, rfl⟩

omit [Uninit] in
/-- What is passed, by its size and by whether it is the array itself. -/
theorem source_given (hfit : AllFit vs) (ha : array vs k = .done a) (src : Arg) :
    (source vs k src = .fault ∧ given vs k src = .fault) ∨
      ∃ v n self, source vs k src = .done v ∧ given vs k src = .done (n, self) ∧
        (self = true ↔ v = .self) ∧
        (v.bytes a).length = n := by
  have hcontent : ∀ l b, array vs l = .done b → b.content.length = b.cb := by
    intro l b hb
    rw [content, List.length_take, Nat.min_eq_left (hfit l b hb)]
  cases src with
  | bytes b =>
    rw [source, given]
    rcases size_cases b.length with ⟨hn, -⟩ | ⟨hn, -⟩
    · rw [hn]
      exact Or.inr ⟨_, _, _, rfl, rfl, self_iff_other b, rfl⟩
    · rw [hn]
      exact Or.inl ⟨rfl, rfl⟩
  | array l =>
    cases hl : array vs l with
    | timeout =>
      rw [array] at hl
      split at hl
      · cases hl
      · cases hl
    | fault =>
      rw [source, given, hl]
      exact Or.inl ⟨rfl, rfl⟩
    | done b =>
      rw [source, given, hl]
      by_cases hkl : k = l
      · subst hkl
        obtain rfl := Outcome.done.inj (ha.symm.trans hl)
        exact Or.inr ⟨.self, _, true, congrArg Outcome.done (if_pos rfl),
          congrArg (fun s => Outcome.done (_, s)) (decide_eq_true rfl),
          ⟨fun _ => rfl, fun _ => rfl⟩, hcontent k a ha⟩
      · exact Or.inr ⟨.other b.content, _, false, congrArg Outcome.done (if_neg hkl),
          congrArg (fun s => Outcome.done (_, s)) (decide_eq_false hkl), self_iff_other b.content,
          hcontent l b hl⟩

omit [Uninit] in
/-- A call with something passed to it. -/
theorem onPassed_iff (hfit : AllFit vs) (src : Arg) {g : Bytearray → Source → Outcome Bytearray}
    {P : Bytearray → Nat → Bool → Prop}

    (h : ∀ {a v self}, a.content.length = a.cb → (self = true ↔ v = .self) →
      ((∃ b, g a v = .done b) ↔ P a (v.bytes a).length self)) :
    (∃ vs', onValue vs k (fun a => (source vs k src).bind (g a)) = .done vs') ↔
      HasBoth vs k src P := by
  rw [onValue_iff]
  apply exists_congr
  intro a
  apply and_congr_right
  intro ha
  rcases source_given hfit ha src with ⟨hs, hg⟩ | ⟨v, n, self, hs, hg, hself, rfl⟩
  · rw [hs, hg]
    constructor
    · rintro ⟨b, hb⟩
      cases hb
    · rintro ⟨n, self, hn, -⟩
      cases hn
  · have hcontent : a.content.length = a.cb := by
      rw [content, List.length_take, Nat.min_eq_left (hfit k a ha)]
    dsimp only
    rw [hs, hg, Outcome.bind_done, h hcontent hself]
    constructor
    · intro hP
      exact ⟨_, _, rfl, hP⟩
    · rintro ⟨n, self', hn, hP⟩
      cases hn
      exact hP

omit [Uninit] in
theorem not_done (α : Type) : ¬∃ a, (Outcome.fault : Outcome α) = .done a := by
  rintro ⟨a, h⟩
  cases h

omit [Uninit] in
/-- A call that succeeds on every array. -/
theorem onArray_iff {f : Bytearray → Outcome (List (Slot Bytearray))}
    (h : ∀ a, ∃ vs', f a = .done vs') :
    (∃ vs', (array vs k).bind f = .done vs') ↔ HasArray vs k fun _ => True := by
  rw [bind_done_iff]
  exact exists_congr fun a => and_congr_right fun _ => ⟨fun _ => trivial, fun _ => h a⟩

omit [Uninit] in
theorem size_done_iff {α : Type} {f : Nat → Outcome α} (h : ∀ m, ∃ b, f m = .done b) :
    (∃ b, (size n).bind f = .done b) ↔ n < 2 ^ 31 := by
  rcases size_cases n with ⟨hn, hlt⟩ | ⟨hn, hlt⟩
  · rw [hn]
    exact ⟨fun _ => hlt, fun _ => h n⟩
  · rw [hn]
    exact iff_of_false (not_done α) hlt

theorem plus_iff (hfit : AllFit vs) (k l : Nat) :
    (∃ vs', stepValues vs (.plus k l) = .done vs') ↔ Safe vs (.plus k l) := by
  rw [stepValues, bind_done_iff]
  apply exists_congr
  intro a
  apply and_congr_right
  intro ha
  rw [bind_done_iff]
  apply exists_congr
  intro b
  apply and_congr_right
  intro hb
  have hla : a.content.length = a.cb := by
    rw [content, List.length_take, Nat.min_eq_left (hfit k a ha)]
  have hlb : b.content.length = b.cb := by
    rw [content, List.length_take, Nat.min_eq_left (hfit l b hb)]
  rw [assign, Outcome.bind_done, bind_done_iff]
  have happend := append_iff (.other b.content) ⟨a.content, a.content.length⟩
  rw [Source.bytes, hla, hlb] at happend
  rw [hla]
  constructor
  · rintro ⟨r, hr, -⟩
    exact (happend.mp ⟨r, hr⟩).imp_right And.right
  · intro h
    obtain ⟨r, hr⟩ := happend.mpr (h.imp_right fun h => ⟨other_ne_self _, h⟩)
    exact ⟨r, hr, _, rfl⟩

omit [Uninit] in
theorem reassign_iff {v : Source} {self : Bool} (hcontent : a.content.length = a.cb)
    (hself : self = true ↔ v = .self) :
    (∃ b, reassign v a = .done b) ↔ (self = true → (v.bytes a).length = 0) := by
  cases v with
  | other bytes =>
    constructor
    · intro _ h
      cases hself.mp h
    · intro _
      exact ⟨_, rfl⟩
  | self =>
    rw [reassign, Source.bytes, hcontent, hself]
    split
    next h0 => exact ⟨fun _ _ => h0, fun _ => ⟨_, rfl⟩⟩
    next h0 => exact iff_of_false (not_done _) fun h => h0 (h rfl)

theorem erase_iff :
    (∃ b, (if cb ≤ a.cb then a.erase offset cb else .fault) = .done b) ↔
      cb ≤ a.cb ∧ offset + (a.cb - cb) ≤ a.block.length := by
  by_cases hcb : cb ≤ a.cb
  · rw [if_pos hcb, and_iff_right hcb]
    by_cases hroom : offset + (a.cb - cb) ≤ a.block.length
    · rw [erase, memmove, if_pos (by omega)]
      exact ⟨fun _ => hroom, fun _ => ⟨_, rfl⟩⟩
    · rw [erase_outside hroom]
      exact iff_of_false (not_done _) hroom
  · rw [if_neg hcb]
    exact iff_of_false (not_done _) fun h => hcb h.1

theorem insertInside_iff (v : Source) :
    (∃ b, (if (v.bytes a).length = 0 then .done a
      else if offset ≤ a.cb then insert offset v a else .fault) = .done b) ↔
      (v.bytes a).length = 0 ∨
        (v ≠ .self ∧ a.cb + (v.bytes a).length < 2 ^ 31 ∧ offset ≤ a.cb) := by
  by_cases h0 : (v.bytes a).length = 0
  · rw [if_pos h0]
    exact ⟨fun _ => Or.inl h0, fun _ => ⟨_, rfl⟩⟩
  · rw [if_neg h0]
    by_cases hoff : offset ≤ a.cb
    · rw [if_pos hoff, insert_iff v hoff, and_iff_left hoff]
    · rw [if_neg hoff]
      refine iff_of_false (not_done _) ?_
      rintro (h | ⟨-, -, h⟩)
      · exact h0 h
      · exact hoff h

theorem step_iff (hfit : AllFit vs) (c : Call) :
    (∃ vs', stepValues vs c = .done vs') ↔ Safe vs c := by
  have hnot : ∀ {self : Bool} {v : Source}, (self = true ↔ v = .self) →
      (v ≠ .self ↔ self = false) := by
    intro self v h
    rw [Ne, ← h, Bool.not_eq_true]
  cases c with
  | empty => exact ⟨fun _ => trivial, fun _ => ⟨_, rfl⟩⟩
  | sized cb => exact size_done_iff fun _ => ⟨_, rfl⟩
  | ofBytes b => exact size_done_iff fun _ => ⟨_, rfl⟩
  | copy k => exact onArray_iff fun _ => ⟨_, rfl⟩
  | move k => exact onArray_iff fun _ => ⟨_, rfl⟩
  | plus k l => exact plus_iff hfit k l
  | assign k src => exact onPassed_iff hfit src reassign_iff
  | append k src =>
    apply onPassed_iff hfit src
    intro a v self _ hself
    rw [append_iff, hnot hself]
  | insert k offset src =>
    apply onPassed_iff hfit src
    intro a v self _ hself
    rw [insertInside_iff, hnot hself]
  | erase k offset cb =>
    rw [stepValues, onValue_iff]
    exact exists_congr fun a => and_congr_right fun _ => erase_iff
  | resize k newSize =>
    rw [stepValues, onValue_iff]
    exact exists_congr fun a => and_congr_right fun _ => size_done_iff fun _ => ⟨_, rfl⟩
  | clear k =>
    rw [stepValues, onValue_iff]
    exact exists_congr fun a => and_congr_right fun _ => ⟨fun _ => trivial, fun _ => ⟨_, rfl⟩⟩
  | detach k => exact onArray_iff fun _ => ⟨_, rfl⟩
  | assignNoCopy k j =>
    rw [stepValues, bind_done_iff]
    constructor
    · rintro ⟨a, ha, vs', hvs⟩
      obtain ⟨b, hb, -⟩ := Outcome.bind_eq_done hvs
      exact ⟨⟨a, ha, trivial⟩, b, hb⟩
    · rintro ⟨⟨a, ha, -⟩, b, hb⟩
      rw [hb]
      exact ⟨a, ha, _, rfl⟩
  | free j =>
    rw [stepValues, bind_done_iff]
    exact exists_congr fun b => ⟨fun h => h.1, fun h => ⟨h, _, rfl⟩⟩
  | destroy k => exact onArray_iff fun _ => ⟨_, rfl⟩

theorem Inv.run_iff {S : State} (hS : Inv S) (calls : List Call) :
    (∃ S', S.run calls = .done S') ↔ AllSafe S.values calls := by
  induction calls generalizing S with
  | nil => exact ⟨fun _ => trivial, fun _ => ⟨S, rfl⟩⟩
  | cons c calls ih =>
    have hstep := hS.step c
    have hsafe := step_iff hS.allFit c
    rw [State.run, AllSafe, ← hsafe]
    generalize S.step c = r at hstep
    generalize stepValues S.values c = w at hstep
    cases hstep with
    | fault =>
      constructor
      · rintro ⟨S', h⟩
        cases h
      · rintro ⟨⟨vs', h⟩, -⟩
        cases h
    | @done S' vs' inv hvs =>
      subst hvs
      rw [Outcome.bind_done, ih inv]
      constructor
      · intro h
        refine ⟨⟨_, rfl⟩, ?_⟩
        rintro _ ⟨⟩
        exact h
      · intro h
        exact h.2 _ rfl

/-- A program over many arrays is defined if and only if each of its calls is safe. -/
theorem arrays_defined_iff (calls : List Call) :
    (∃ S, State.init.run calls = .done S) ↔ AllSafe [] calls :=
  Inv.init.run_iff calls

end Safe

end Libacorn.Bytearray
