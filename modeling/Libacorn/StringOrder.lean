import Libacorn.StringSplit

/-!
# The order of strings: base/string.cpp, and of the keys of a map: base/val.cpp

`compare` on handles is `compare` on what they hold, so that `operator<` is a
strict total order of the contents, and a `std::map` that is ordered by it is an
ordered map of the contents (`string_order`).
-/

namespace Libacorn

open Support

namespace StringHeap

/-! ## The source -/

/-- `string::compare(const string&)`. The shorter length is an `int`, and a `size_t` for
`memcmp`. -/
def Handle.compare (H : Heap) (s str : Handle) : Except Fault Int := do
  let cb := toI32 (min s.cb str.cb)
  let own ← read H s.buf s.offset (toSize cb)
  let other ← read H str.buf str.offset (toSize cb)
  let r := memcmp own other
  if r ≠ 0 then return r
  else if s.cb < str.cb then return -1
  else if s.cb > str.cb then return 1
  else return 0

/-- `operator<` -/
def Handle.less (H : Heap) (s rhs : Handle) : Except Fault Bool := do
  let r ← s.compare H rhs
  return r < 0

/-- `operator==` -/
def Handle.equal (H : Heap) (s rhs : Handle) : Except Fault Bool := do
  let r ← s.compare H rhs
  return r = 0

section Map

variable {ν : Type}

/-- `lower_bound(key)` of a `std::map<string, ν>`: the entries before it and those from it on. -/
def lowerBound (H : Heap) (key : Handle) :
    List (Handle × ν) → Except Fault (List (Handle × ν) × List (Handle × ν))
  | [] => .ok ([], [])
  | e :: m => do
    if ← e.1.less H key then
      let (before, it) ← lowerBound H key m
      return (e :: before, it)
    else return ([], e :: m)

/-- No entry from `lower_bound(key)` on has an equivalent key. -/
def isAbsent (H : Heap) (key : Handle) : List (Handle × ν) → Except Fault Bool
  | [] => .ok true
  | e :: _ => key.less H e.1

/-- `_map->find(key)` -/
def mapFind (H : Heap) (m : List (Handle × ν)) (key : Handle) : Except Fault (Option ν) := do
  let (_, it) ← lowerBound H key m
  if ← isAbsent H key it then return none
  else return it.head?.map Prod.snd

/-- `_map->emplace(key, val)`: the entries before the iterator and those from it on, and whether its
entry is new. -/
def mapEmplace (H : Heap) (m : List (Handle × ν)) (key : Handle) (val : ν) :
    Except Fault (Heap × (List (Handle × ν) × List (Handle × ν)) × Bool) := do
  let (before, it) ← lowerBound H key m
  if ← isAbsent H key it then
    let (H, k) ← copyOf H key
    return (H, (before, (k, val) :: it), true)
  else return (H, (before, it), false)

/-- `val::get(key)`, `none` for `s_emptyVar`. The val is EMPTY or a map. -/
def mapGet (H : Heap) (m : Option (List (Handle × ν))) (key : Handle) : Except Fault (Option ν) :=
  match m with
  | none => .ok none
  | some m => mapFind H m key

/-- `val::set(key, val)`; an EMPTY val becomes a map. -/
def mapSet (H : Heap) (m : Option (List (Handle × ν))) (key : Handle) (val : ν) :
    Except Fault (Heap × List (Handle × ν)) := do
  let (H, (before, it), isNew) ← mapEmplace H (m.getD []) key val
  if isNew then return (H, before ++ it)
  else return (H, before ++ it.modifyHead fun e => (e.1, val))

/-- Calls of `set` one after the other. -/
def mapSetAll : List (Handle × ν) → Heap → Option (List (Handle × ν)) →
    Except Fault (Heap × Option (List (Handle × ν)))
  | [], H, m => .ok (H, m)
  | f :: fs, H, m => do
    let (H, m) ← mapSet H m f.1 f.2
    mapSetAll fs H (some m)

end Map

/-! ## The order of contents -/

/-- What comparing three strings says. -/
structure OrderLaws (H : Heap) (a b c : Handle) : Prop where
  sign : ∃ r, a.compare H b = .ok r ∧ (r < 0 ↔ content H a < content H b) ∧
    (r = 0 ↔ content H a = content H b) ∧
    (0 < r ↔ content H b < content H a)
  irrefl : a.less H a = .ok false
  trans : a.less H b = .ok true → b.less H c = .ok true → a.less H c = .ok true
  total : content H a ≠ content H b → a.less H b = .ok true ∨ b.less H a = .ok true
  equal : a.equal H b = .ok (decide (content H a = content H b))

section Compare

variable {H : Heap} {h a b c : Handle} {n : Nat}

theorem WF.read_take (hw : WF H h) (hle : n ≤ h.cb) :
    read H h.buf h.offset n = .ok ((content H h).take n) := by
  have hpart := hw.read_part (o := 0) (n := n) (by omega)
  rwa [Nat.add_zero, List.drop_zero] at hpart

/-- The representation does not matter. -/
theorem compare_eq (ha : WF H a) (hb : WF H b) (ha31 : a.cb < 2 ^ 31) :
    a.compare H b = .ok (Libacorn.compare (content H a) (content H b)) := by
  have halen := ha.length_content
  have hblen := hb.length_content
  have hsize : toSize (toI32 (min a.cb b.cb)) = min a.cb b.cb := by
    rw [toI32_of_lt (by omega), toSize, Int.emod_eq_of_lt (by omega) (by omega), Int.toNat_natCast]
  rw [Handle.compare, hsize, ha.read_take (Nat.min_le_left ..), hb.read_take (Nat.min_le_right ..),
    ok_bind, ok_bind, Libacorn.compare, halen, hblen]
  generalize memcmp _ _ = r
  simp only
  by_cases hr : r ≠ 0
  · rw [if_pos hr, if_pos hr]
    rfl
  · rw [if_neg hr, if_neg hr]
    split_ifs
    · rfl
    · rfl
    · rfl

theorem less_eq (ha : WF H a) (hb : WF H b) (ha31 : a.cb < 2 ^ 31) :
    a.less H b = .ok (decide (content H a < content H b)) := by
  rw [Handle.less, compare_eq ha hb ha31, ok_bind]
  exact congrArg Except.ok (decide_eq_decide.mpr (compare_neg_iff _ _))

theorem equal_eq (ha : WF H a) (hb : WF H b) (ha31 : a.cb < 2 ^ 31) :
    a.equal H b = .ok (decide (content H a = content H b)) := by
  rw [Handle.equal, compare_eq ha hb ha31, ok_bind]
  exact congrArg Except.ok (decide_eq_decide.mpr (compare_eq_zero_iff _ _))

theorem less_eq_true (ha : WF H a) (hb : WF H b) (ha31 : a.cb < 2 ^ 31) :
    a.less H b = .ok true ↔ content H a < content H b := by
  rw [less_eq ha hb ha31, Except.ok.injEq, decide_eq_true_iff]

theorem orderLaws (ha : WF H a) (hb : WF H b) (hc : WF H c) (ha31 : a.cb < 2 ^ 31)
    (hb31 : b.cb < 2 ^ 31) :
    OrderLaws H a b c where
  sign := ⟨_, compare_eq ha hb ha31, compare_neg_iff _ _, compare_eq_zero_iff _ _,
    compare_pos_iff _ _⟩
  irrefl := by
    rw [less_eq ha ha ha31, decide_eq_false (lt_irrefl _)]
  trans := by
    rw [less_eq_true ha hb ha31, less_eq_true hb hc hb31, less_eq_true ha hc ha31]
    exact lt_trans
  total := by
    rw [less_eq_true ha hb ha31, less_eq_true hb ha hb31]
    exact lt_or_gt_of_ne
  equal := equal_eq ha hb ha31

end Compare

/-! ## The keys of a map -/

section Entries

variable {ν : Type} {H H' : Heap} {m before it : List (Handle × ν)} {o : Option (List (Handle × ν))}
  {key : Handle}

/-- The entries by the content of their keys. -/
def entries (H : Heap) (m : List (Handle × ν)) : List (Bytes × ν) :=
  m.map fun e => (content H e.1, e.2)

/-- A string with fewer than `2^31` bytes. -/
structure Key (H : Heap) (key : Handle) : Prop where
  wf : WF H key
  lt : key.cb < 2 ^ 31

/-- One entry for each content of a key, the contents increasing. -/
structure KeyMap (H : Heap) (m : List (Handle × ν)) : Prop where
  keys : ∀ e ∈ m, Key H e.1
  sorted : OrderedMap.Sorted (entries H m)

/-- After any calls of `set` there is one entry for each content, and `get` gives the value that was
set last for the content of its key. -/
def MapKeepsOne (H : Heap) (o : Option (List (Handle × ν))) (fs : List (Handle × ν)) : Prop :=
  ∃ H' o', mapSetAll fs H o = .ok (H', o') ∧ KeyMap H' (o'.getD []) ∧ ∀ key, Key H key →
    mapGet H' o' key = .ok ((OrderedMap.lookup (content H key) (entries H fs).reverse).or
      (OrderedMap.lookup (content H key) (entries H (o.getD []))))

theorem entries_append (H : Heap) (m m' : List (Handle × ν)) :
    entries H (m ++ m') = entries H m ++ entries H m' :=
  List.map_append

theorem entries_cons (H : Heap) (e : Handle × ν) (m : List (Handle × ν)) :
    entries H (e :: m) = (content H e.1, e.2) :: entries H m := rfl

theorem Key.less_eq {key' : Handle} (h : Key H key) (h' : Key H key') :
    key.less H key' = .ok (decide (content H key < content H key')) :=
      StringHeap.less_eq h.wf h'.wf h.lt

theorem SameData.entries (hs : SameData H H') (m : List (Handle × ν)) :
    entries H' m = entries H m :=
  List.map_congr_left fun e _ => by rw [hs.content]

theorem SameData.toKey (hs : SameData H H') (h : Key H key) : Key H' key := ⟨hs.wf h.wf, h.lt⟩

theorem SameData.keyMap (hs : SameData H H') (h : KeyMap H m) : KeyMap H' m where
  keys e he := hs.toKey (h.keys e he)
  sorted := by
    rw [hs.entries]
    exact h.sorted

theorem SameData.symm (hs : SameData H H') : SameData H' H :=
  ⟨fun i => (hs.get i).symm, hs.next.symm⟩

/-- A copy of a string has its members, and the buffers keep their bytes. -/
theorem copyOf_sameData (hw : WF H key) : ∃ H', copyOf H key = .ok (H', key) ∧ SameData H H' := by
  by_cases hc : key.counted = true
  · obtain ⟨i, b, hb, -, hget, -⟩ := hw.of_counted hc
    obtain ⟨H', hret, hsame⟩ := RefHeap.retain_get? hget
    have hbuf : bufRetain H key.buf = .ok H' := by
      rw [hb, bufRetain, hret]
    refine ⟨H', ?_, hsame, bufRetain_next hbuf⟩
    rw [copyOf, retainOwn, if_pos hc, hbuf]
    rfl
  · refine ⟨H, ?_, SameData.refl H⟩
    rw [copyOf, retainOwn, if_neg hc]
    rfl

/-- The entries before `lower_bound(key)` and from it on, and whether an entry for the content is
missing there. -/
inductive Located (H : Heap) (key : Handle) (before it : List (Handle × ν)) : Bool → Prop
  | absent (hbefore : ∀ e ∈ before, content H e.1 < content H key)
    (hit : ∀ e ∈ it, content H key < content H e.1) :
    Located H key before it true
  | found {e : Handle × ν} {after : List (Handle × ν)} (hbefore : ∀ e ∈ before,
    content H e.1 < content H key)
      (hit : it = e :: after) (he : content H e.1 = content H key) : Located H key before it false

theorem lowerBound_eq (hm : ∀ e ∈ m, Key H e.1) (hk : Key H key) :
    ∃ before it, lowerBound H key m = .ok (before, it) ∧ m = before ++ it ∧
      (∀ e ∈ before, content H e.1 < content H key) ∧ ∀ e ∈ it.head?,
        ¬content H e.1 < content H key := by
  induction m with
  | nil => exact ⟨[], [], rfl, rfl, nofun, nofun⟩
  | cons e m ih =>
    obtain ⟨he, hrest⟩ := List.forall_mem_cons.mp hm
    rw [lowerBound, he.less_eq hk, ok_bind]
    by_cases hlt : content H e.1 < content H key
    · obtain ⟨before, it, hrun, hsplit, hbefore, hit⟩ := ih hrest
      refine ⟨e :: before, it,
        ?_, by rw [hsplit, List.cons_append], List.forall_mem_cons.mpr ⟨hlt, hbefore⟩, hit⟩
      rw [if_pos (decide_eq_true hlt), hrun]
      rfl
    · refine ⟨[], e :: m, ?_, rfl, nofun, ?_⟩
      · rw [if_neg (by simpa using hlt)]
        rfl
      · rintro _ ⟨⟩
        exact hlt

/-- The two comparisons of a search tell whether the content has an entry. -/
theorem KeyMap.locate (hm : KeyMap H m) (hk : Key H key) :
    ∃ before it isNew, lowerBound H key m = .ok (before, it) ∧ isAbsent H key it = .ok isNew ∧
      m = before ++ it ∧
      Located H key before it isNew := by
  obtain ⟨before, it, hrun, rfl, hbefore, hhead⟩ := lowerBound_eq hm.keys hk
  cases it with
  | nil => exact ⟨before, [], true, hrun, rfl, rfl, .absent hbefore nofun⟩
  | cons e after =>
    have he := hm.keys e (List.mem_append_right before (List.mem_cons_self ..))
    refine ⟨before, e :: after, decide (content H key < content H e.1), hrun, hk.less_eq he, rfl,
      ?_⟩
    by_cases hlt : content H key < content H e.1
    · rw [decide_eq_true hlt]
      refine .absent hbefore (List.forall_mem_cons.mpr ⟨hlt, ?_⟩)
      intro e' he'
      -- the contents increase behind the first entry
      have hsorted := hm.sorted
      rw [OrderedMap.Sorted, entries_append, List.pairwise_append] at hsorted
      have hfirst := (List.pairwise_cons.mp hsorted.2.1).1
      exact lt_trans hlt (hfirst _ (List.mem_map_of_mem he'))
    · rw [decide_eq_false hlt]
      have hge := hhead e rfl
      exact .found hbefore rfl (le_antisymm (le_of_not_gt hlt) (le_of_not_gt hge))

theorem lookup_entries_of_ne {k : Bytes} (h : ∀ e ∈ m, content H e.1 ≠ k) :
    OrderedMap.lookup k (entries H m) = none := by
  apply OrderedMap.lookup_eq_none
  intro e he
  obtain ⟨e', he', rfl⟩ := List.mem_map.mp he
  exact h e' he'

/-- `find` gives the entry of the content. -/
theorem KeyMap.mapFind_eq (hm : KeyMap H m) (hk : Key H key) :
    mapFind H m key = .ok (OrderedMap.lookup (content H key) (entries H m)) := by
  obtain ⟨before, it, isNew, hrun, hnew, rfl, hloc⟩ := hm.locate hk
  have hnone : (∀ e ∈ before, content H e.1 < content H key) →
      OrderedMap.lookup (content H key) (entries H before) = none :=
    fun hbefore => lookup_entries_of_ne fun e he => ne_of_lt (hbefore e he)
  simp only [mapFind, hrun, ok_bind, hnew]
  rw [entries_append, OrderedMap.lookup_append]
  cases hloc with
  | absent hbefore hit =>
    rw [hnone hbefore, lookup_entries_of_ne fun e he => ne_of_gt (hit e he)]
    rfl
  | @found e after hbefore hit he =>
    rw [hnone hbefore, hit, entries_cons, OrderedMap.lookup_cons, if_pos he]
    rfl

/-- `set` assigns the value to the content. -/
theorem KeyMap.mapSet_eq (hm : KeyMap H (o.getD [])) (hk : Key H key) (val : ν) :
    ∃ H' m', mapSet H o key val = .ok (H', m') ∧ SameData H H' ∧ KeyMap H m' ∧
      entries H m' = OrderedMap.assign (content H key) val (entries H (o.getD [])) := by
  obtain ⟨before, it, isNew, hrun, hnew, hsplit, hloc⟩ := hm.locate hk
  have hkeys := hm.keys
  have hassigned := OrderedMap.assign_sorted (content H key) val _ hm.sorted
  rw [hsplit] at hkeys hassigned
  have hentries : (∀ e ∈ before, content H e.1 < content H key) →
      OrderedMap.assign (content H key) val (entries H (before ++ it)) =
        entries H before ++ OrderedMap.assign (content H key) val (entries H it) := by
    intro hbefore
    rw [entries_append, OrderedMap.assign_append_of_forall_lt]
    intro e he
    obtain ⟨e', he', rfl⟩ := List.mem_map.mp he
    exact hbefore e' he'
  have hbeforeKeys : ∀ e ∈ before, Key H e.1 := fun e he => hkeys e (List.mem_append_left it he)
  have hitKeys : ∀ e ∈ it, Key H e.1 := fun e he => hkeys e (List.mem_append_right before he)
  rw [hsplit]
  cases hloc with
  | absent hbefore hit =>
    obtain ⟨H', hcopy, hsame⟩ := copyOf_sameData hk.wf
    have hassign : entries H (before ++ (key, val) :: it) =
        OrderedMap.assign (content H key) val (entries H (before ++ it)) := by
      rw [hentries hbefore, entries_append, entries_cons]
      cases it with
      | nil => rfl
      | cons e after => rw [entries_cons, OrderedMap.assign, if_pos (hit e (List.mem_cons_self ..))]
    refine ⟨H', before ++ (key, val) :: it, ?_, hsame, ⟨?_, by rwa [hassign]⟩, hassign⟩
    · simp only [mapSet, mapEmplace, hrun, ok_bind, hnew, ↓reduceIte, hcopy]
      rfl
    · intro e he
      rcases List.mem_append.mp he with hin | hin
      · exact hbeforeKeys e hin
      · rcases List.mem_cons.mp hin with rfl | hin
        · exact hk
        · exact hitKeys e hin
  | @found e after hbefore hit he =>
    subst hit
    have hassign : entries H (before ++ (e.1, val) :: after) =
        OrderedMap.assign (content H key) val (entries H (before ++ e :: after)) := by
      rw [hentries hbefore, entries_append, entries_cons, entries_cons, OrderedMap.assign,
        if_neg (not_lt_of_ge (le_of_eq he)), if_pos he.symm, he]
    refine ⟨H, before ++ (e.1, val) :: after, ?_, SameData.refl H, ⟨?_, by rwa [hassign]⟩, hassign⟩
    · simp only [mapSet, mapEmplace, hrun, ok_bind, hnew]
      rfl
    · intro e' he'
      rcases List.mem_append.mp he' with hin | hin
      · exact hbeforeKeys e' hin
      · rcases List.mem_cons.mp hin with rfl | hin
        · exact hitKeys e (List.mem_cons_self ..)
        · exact hitKeys e' (List.mem_cons_of_mem e hin)

/-- A run of `set`. -/
theorem KeyMap.mapSetAll_eq {fs : List (Handle × ν)} (hm : KeyMap H (o.getD []))
    (hfs : ∀ f ∈ fs, Key H f.1) :
    ∃ H' o', mapSetAll fs H o = .ok (H', o') ∧ SameData H H' ∧ KeyMap H (o'.getD []) ∧
      entries H (o'.getD []) = OrderedMap.assignAll (entries H (o.getD [])) (entries H fs) := by
  induction fs generalizing H o with
  | nil => exact ⟨H, o, rfl, SameData.refl H, hm, rfl⟩
  | cons f fs ih =>
    obtain ⟨hf, hrest⟩ := List.forall_mem_cons.mp hfs
    obtain ⟨H₁, m₁, hset, hsame₁, hm₁, hentries₁⟩ := hm.mapSet_eq hf f.2
    obtain ⟨H', o', hrun, hsame, hm', hentries⟩ :=
      ih (show KeyMap H₁ ((some m₁).getD []) from hsame₁.keyMap hm₁) fun f hf =>
        hsame₁.toKey (hrest f hf)
    refine ⟨H', o', ?_, hsame₁.trans hsame, ?_, ?_⟩
    · rw [mapSetAll, hset]
      exact hrun
    · exact ⟨fun e he => ⟨(hsame₁.symm).wf (hm'.keys e he).wf, (hm'.keys e he).lt⟩, by
        rw [← hsame₁.entries]
        exact hm'.sorted⟩
    · rw [hsame₁.entries, hsame₁.entries, hsame₁.entries] at hentries
      rw [hentries]
      exact congrArg (OrderedMap.assignAll · _) hentries₁

/-- The map stays one of distinct contents, and `get` agrees with what was set. -/
theorem KeyMap.mapKeepsOne {fs : List (Handle × ν)} (hm : KeyMap H (o.getD []))
    (hfs : ∀ f ∈ fs, Key H f.1) :
    MapKeepsOne H o fs := by
  obtain ⟨H', o', hrun, hsame, hm', hentries⟩ := hm.mapSetAll_eq hfs
  have hm'' := hsame.keyMap hm'
  refine ⟨H', o', hrun, hm'', ?_⟩
  intro key hk
  have hget : mapGet H' o' key =
      .ok (OrderedMap.lookup (content H' key) (entries H' (o'.getD []))) := by
    cases o' with
    | none => rfl
    | some m' => exact hm''.mapFind_eq (hsame.toKey hk)
  rw [hget, hsame.content, hsame.entries, hentries, OrderedMap.lookup_assignAll]

/-- No entries. -/
theorem KeyMap.empty (H : Heap) : KeyMap H ([] : List (Handle × ν)) := ⟨nofun, List.Pairwise.nil⟩

/-- Strings are in the order of their contents, and so are the keys of a map. -/
theorem string_order {a b c : Handle} {fs : List (Handle × ν)} (ha : WF H a) (hb : WF H b)
    (hc : WF H c) (ha31 : a.cb < 2 ^ 31) (hb31 : b.cb < 2 ^ 31) (hm : KeyMap H (o.getD []))
    (hfs : ∀ f ∈ fs, Key H f.1) :
    OrderLaws H a b c ∧ MapKeepsOne H o fs := ⟨orderLaws ha hb hc ha31 hb31, hm.mapKeepsOne hfs⟩

end Entries

/-- A default string, a literal, and a slice with the content of the literal. -/
theorem string_order_slice :
    letI := zeroMemory
    ∃ S a b c, run .init [.bytes (some [0x78, 0x61, 0x62]), .empty, .literal [0x61, 0x62],
    .substr 0 1 3] = .ok S ∧
      S.handle? 1 = some a ∧ S.handle? 2 = some b ∧ S.handle? 3 = some c ∧
      OrderLaws S.heap a b c ∧ MapKeepsOne S.heap none [(b, 1), (a, 2), (c, 3)] := by
  let _ := zeroMemory
  have hS₁ := Reach.bytes [0x78, 0x61, 0x62] (by decide) rfl
  have hS₂ := Reach.step .empty hS₁ trivial ⟨by decide, trivial⟩ trivial rfl
  have hS₃ := Reach.step (.literal [0x61, 0x62]) hS₂ trivial ⟨by decide, by decide⟩ trivial rfl
  have hS₄ := Reach.step (.substr 0 1 3) hS₃ trivial ⟨by decide, _, rfl, nofun⟩ trivial rfl
  have hI := hS₄.inv.1
  refine ⟨_, _, _, _, rfl, rfl, rfl, rfl, ?_⟩
  have ha := hI.wf 1 _ rfl
  have hb := hI.wf 2 _ rfl
  have hc := hI.wf 3 _ rfl
  apply string_order ha hb hc (by decide) (by decide) (KeyMap.empty _)
  intro f hf
  simp only [List.mem_cons, List.not_mem_nil, or_false] at hf
  rcases hf with rfl | rfl | rfl
  · exact ⟨hb, by decide⟩
  · exact ⟨ha, by decide⟩
  · exact ⟨hc, by decide⟩

end StringHeap

end Libacorn
