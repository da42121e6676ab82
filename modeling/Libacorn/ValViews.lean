import Libacorn.ValOwnership

/-!
# What a val shows

The view of a val depends on the blocks it owns and on the objects it points at
(`viewWith_congr`), a copy has the view of its source (`copyMember_view`), and vals with
the same view have the same views at the same paths (`viewWith_walk`).
-/

namespace Libacorn.ValHeap

open Support

/-- Every OBJECT inside has a `sp`. -/
def Alive (H : Heap) (s : Slot) : Prop :=
  ∀ t, layout.Inside H s t → t.type = .OBJECT → t.word ≠ 0 ∧ ∃ obj, H.blocks t.word = some (.sp obj)

/-- No OBJECT inside. -/
def NoObject (H : Heap) (s : Slot) : Prop := ∀ t, layout.Inside H s t → t.type ≠ .OBJECT

theorem inside_leaf {H : Heap} {s t : Slot} (hs : layout.ptr s = none) (h : layout.Inside H s t) :
    t = s := by
  cases h with
  | self => rfl
  | child hp _ _ _ =>
    rw [hs] at hp
    cases hp

/-! ## One level -/

theorem viewWith_plain {s : Slot} (h : s.type.owns = false) (f f' : Nat → Option CVal) (H H' : Heap)
    (n : Nat) : viewWith f H n s = viewWith f' H' n s := by
  cases n with
  | zero => rfl
  | succ n =>
    obtain ⟨type, word⟩ := s
    cases type <;> first | rfl | cases h

theorem viewWith_object {s : Slot} (h : s.type = .OBJECT) (f : Nat → Option CVal) (H : Heap)
    (n : Nat) :
    viewWith f H (n + 1) s = f s.word := by
  obtain ⟨type, word⟩ := s
  cases h
  rfl

theorem viewWith_block {s : Slot} {p : Nat} (hp : layout.ptr s = some p) {H : Heap} {b : Block}
    (hb : H.blocks p = some b) (f : Nat → Option CVal) (n : Nat) :
    viewWith f H (n + 1) s =
      if b.type = s.type then (viewAll (viewWith f H n) b.children).map b.value else none := by
  obtain ⟨rfl, ho, hne⟩ := ptr_eq_word hp
  obtain ⟨type, word⟩ := s
  cases type with
  | STRING => simp only [viewWith, hb]
  | BYTEARRAY => simp only [viewWith, hb]
  | ARRAY => simp only [viewWith, hb]
  | MAP => simp only [viewWith, hb]
  | ERROR => simp only [viewWith, hb]
  | OBJECT => exact (hne rfl).elim
  | _ => cases ho

theorem viewAll_congr {g g' : Slot → Option CVal} {l : List Slot} (h : ∀ c ∈ l, g c = g' c) :
    viewAll g l = viewAll g' l := by
  induction l with
  | nil => rfl
  | cons c l ih =>
    rw [viewAll, viewAll, h c (List.mem_cons_self ..), ih fun d hd =>
      h d (List.mem_cons_of_mem c hd)]

theorem viewAll_eq_none {g : Slot → Option CVal} {l : List Slot} {c : Slot} (hc : c ∈ l)
    (h : g c = none) : viewAll g l = none := by
  induction l with
  | nil => cases hc
  | cons d l ih =>
    rw [viewAll]
    rcases List.mem_cons.mp hc with rfl | hc
    · rw [h]
      rfl
    · rw [ih hc]
      cases g d <;> rfl

theorem viewAll_isSome {g : Slot → Option CVal} {l : List Slot} (h : ∀ c ∈ l, (g c).isSome = true) :
    (viewAll g l).isSome = true := by
  induction l with
  | nil => rfl
  | cons c l ih =>
    obtain ⟨v, hv⟩ := Option.isSome_iff_exists.mp (h c (List.mem_cons_self ..))
    obtain ⟨vs, hvs⟩ := Option.isSome_iff_exists.mp (ih fun d hd => h d (List.mem_cons_of_mem c hd))
    rw [viewAll, hv, hvs]
    rfl

/-! ## Dependence -/

/-- A view depends on the blocks that the val owns and on the objects inside. -/
theorem viewWith_congr {H H' : Heap} {s : Slot} (ht : layout.Tree H s)
    (hm : ∀ q, layout.Owns H s q → H'.blocks q = H.blocks q) {f f' : Nat → Option CVal}
    (hf : ∀ t, layout.Inside H s t → t.type = .OBJECT → f' t.word = f t.word) (n : Nat) :
    viewWith f' H' n s = viewWith f H n s := by
  induction n generalizing s with
  | zero => rfl
  | succ n ih =>
    cases ht with
    | leaf hp =>
      by_cases ho : s.type.owns = true
      · have hobj : s.type = .OBJECT := by
          by_contra hne
          rw [ptr_of_owns ho hne] at hp
          cases hp
        rw [viewWith_object hobj, viewWith_object hobj]
        exact hf s (.self s) hobj
      · exact viewWith_plain (Bool.eq_false_iff.mpr ho) f' f H' H (n + 1)
    | @node _ p b hp hb _ hc _ _ =>
      rw [viewWith_block hp hb, viewWith_block hp ((hm p (.here hp)).trans hb)]
      have hall : viewAll (viewWith f' H' n) b.children = viewAll (viewWith f H n) b.children := by
        apply viewAll_congr
        intro c hc'
        apply ih (hc c hc')
        · intro q hq
          exact hm q (.inside hp hb hc' hq)
        · intro t hti
          exact hf t (.child hp hb hc' hti)
      rw [hall]

/-- A val whose object is gone cannot be looked at. -/
theorem viewWith_eq_none {H : Heap} {s t : Slot} (hin : layout.Inside H s t) (ht : t.type = .OBJECT)
    {f : Nat → Option CVal} (hf : f t.word = none) (n : Nat) : viewWith f H n s = none := by
  induction hin generalizing n with
  | self s =>
    cases n with
    | zero => rfl
    | succ n =>
      rw [viewWith_object ht]
      exact hf
  | @child s c t p b hp hb hc _ ih =>
    cases n with
    | zero => rfl
    | succ n =>
      have hnone : viewAll (viewWith f H n) b.children = none := viewAll_eq_none hc (ih ht hf n)
      rw [viewWith_block hp hb, hnone]
      split <;> rfl

theorem viewWith_isSome {H : Heap} {s : Slot} (ht : layout.Tree H s) {f : Nat → Option CVal}
    (hf : ∀ t, layout.Inside H s t → t.type = .OBJECT → (f t.word).isSome = true) {n : Nat}
    (hn : layout.Low H n s) : (viewWith f H n s).isSome = true := by
  induction n generalizing s with
  | zero => exact hn.elim
  | succ n ih =>
    cases ht with
    | leaf hp =>
      by_cases ho : s.type.owns = true
      · have hobj : s.type = .OBJECT := by
          by_contra hne
          rw [ptr_of_owns ho hne] at hp
          cases hp
        rw [viewWith_object hobj]
        exact hf s (.self s) hobj
      · obtain ⟨type, word⟩ := s
        cases type <;> first | rfl | exact (ho rfl).elim
    | @node _ p b hp hb hfits hc _ _ =>
      rw [viewWith_block hp hb, if_pos hfits.1, Option.isSome_map]
      apply viewAll_isSome
      intro c hc'
      apply ih (hc c hc') _ (hn p b hp hb c hc')
      intro t hti
      exact hf t (.child hp hb hc' hti)

theorem objectVal_of_sp {H : Heap} {p obj : Nat} (h : H.blocks p = some (.sp obj)) (hp : p ≠ 0) :
    objectVal H p = some (.object obj) := by
  rw [objectVal, if_neg hp, h]

/-- With enough fuel a val that is alive can be looked at. -/
theorem Alive.view_isSome {H : Heap} {s : Slot} (ht : layout.Tree H s) (ha : Alive H s) :
    ∃ N, ∀ n ≥ N, (view n H s).isSome = true := by
  obtain ⟨N, hN⟩ := ht.exists_low
  refine ⟨N, ?_⟩
  intro n hn
  apply viewWith_isSome ht _ (hN.mono hn)
  intro t hti htobj
  obtain ⟨hne, obj, hobj⟩ := ha t hti htobj
  rw [objectVal_of_sp hobj hne]
  rfl

/-! ## Copies -/

theorem value_withChildren (b : Block) {l : List Slot} (hl : l.length = b.children.length) :
    (b.withChildren l).value = b.value := by
  cases b with
  | map fields =>
    funext vs
    have hkeys : ((fields.map Prod.fst).zip l).map Prod.fst = fields.map Prod.fst := by
      apply List.map_fst_zip
      rw [hl, List.length_map]
      exact Nat.le_of_eq (List.length_map ..).symm
    show Val.map _ = Val.map _
    rw [hkeys]
  | _ => rfl

theorem ofNat_setLow {w k : Nat} (h : 256 ^ k = 2 ^ w) (word new : Nat) :
    BitVec.ofNat w (setLow k word new) = BitVec.ofNat w new := by
  apply BitVec.eq_of_toNat_eq
  rw [BitVec.toNat_ofNat, BitVec.toNat_ofNat, setLow, h, Nat.mul_add_mod_self_right, Nat.mod_mod]

/-- A payload without a pointer, given by its value `g`. -/
theorem viewWith_number {type : Tag} {g : Nat → CVal}
    (hg : ∀ f H n w, viewWith f H (n + 1) ⟨type, w⟩ = some (g w)) {w w' : Nat} (h : g w = g w')
    (f : Nat → Option CVal) (H : Heap) (n : Nat) :
    viewWith f H n ⟨type, w⟩ = viewWith f H n ⟨type, w'⟩ := by
  cases n with
  | zero => rfl
  | succ n => rw [hg, hg, h]

theorem measurement_setLow (word new : Nat) :
    (Val.measurement (BitVec.ofNat 32 (setLow 8 word new))
        (.ofBits (BitVec.ofNat 32 (setLow 8 word new / 2 ^ 32))) : CVal) =
      .measurement (BitVec.ofNat 32 new) (.ofBits (BitVec.ofNat 32 (new / 2 ^ 32))) := by
  have hlow : BitVec.ofNat 32 (setLow 8 word new) = BitVec.ofNat 32 new := by
    apply BitVec.eq_of_toNat_eq
    rw [BitVec.toNat_ofNat, BitVec.toNat_ofNat, setLow]
    omega
  have hhigh : BitVec.ofNat 32 (setLow 8 word new / 2 ^ 32) = BitVec.ofNat 32 (new / 2 ^ 32) := by
    apply BitVec.eq_of_toNat_eq
    rw [BitVec.toNat_ofNat, BitVec.toNat_ofNat, setLow]
    omega
  rw [hlow, hhigh]

/-- The elements of a container, copied one after the other. -/
theorem copyAll_view {copy : Slot → Heap → Outcome (Slot × Heap)}
    (hturns : ∀ {s : Slot} {H : Heap} {r : Slot × Heap}, H.Bounded → copy s H = .done r →
      layout.Turns H r.2 [] [r.1])
    (hview : ∀ {s : Slot} {H : Heap} {r : Slot × Heap}, H.Bounded → layout.Tree H s →
      copy s H = .done r → ∀ f k, viewWith f r.2 k r.1 = viewWith f H k s)
    {l : List Slot} {H : Heap} {r : List Slot × Heap} (hH : H.Bounded) (hl : layout.Forest H l)
    (hrun : copyAll copy l H = .done r) (f : Nat → Option CVal) (k : Nat) :
    viewAll (viewWith f r.2 k) r.1 = viewAll (viewWith f H k) l := by
  induction l generalizing H r with
  | nil =>
    cases hrun
    rfl
  | cons c l ih =>
    obtain ⟨x, hx, hrun⟩ := Outcome.bind_eq_done hrun
    obtain ⟨xs, hxs, hrun⟩ := Outcome.bind_eq_done hrun
    cases hrun
    have hhead := hturns hH hx
    have hrest : layout.Forest H ([] ++ l) := ⟨fun d hd => hl.tree d (List.mem_cons_of_mem c hd),
      (List.pairwise_cons.mp hl.separate).2⟩
    obtain ⟨htail, -⟩ := copyAll_turns hturns hhead.bounded hxs
    -- the first copy is not touched by the others, nor the others' sources by it
    have hfirst : viewWith f xs.2 k x.1 = viewWith f H k c := by
      obtain ⟨-, -, hm⟩ := htail.others hhead.forest (List.mem_singleton_self x.1)
      rw [viewWith_congr (Layout.forest_singleton.mp hhead.forest) hm (fun _ _ _ => rfl)]
      exact hview hH (hl.tree c (List.mem_cons_self ..)) hx f k
    have hothers : viewAll (viewWith f x.2 k) l = viewAll (viewWith f H k) l := by
      apply viewAll_congr
      intro d hd
      obtain ⟨-, -, hm⟩ := hhead.others hrest hd
      exact viewWith_congr (hl.tree d (List.mem_cons_of_mem c hd)) hm (fun _ _ _ => rfl) k
    have hforest : layout.Forest x.2 l := (hhead.context hrest).forest.right
    rw [viewAll, viewAll, hfirst, ih hhead.bounded hforest hxs, hothers]

theorem copyBlock_view {copy : Slot → Heap → Outcome (Slot × Heap)}
    (hturns : ∀ {s : Slot} {H : Heap} {r : Slot × Heap}, H.Bounded → copy s H = .done r →
      layout.Turns H r.2 [] [r.1])
    (hview : ∀ {s : Slot} {H : Heap} {r : Slot × Heap}, H.Bounded → layout.Tree H s →
      copy s H = .done r → ∀ f k, viewWith f r.2 k r.1 = viewWith f H k s)
    {src : Slot} {H : Heap} {r : Slot × Heap} (hH : H.Bounded) (ht : layout.Tree H src)
    (ho : src.type.owns = true) (hne : src.type ≠ .OBJECT) (hrun : copyBlock copy src H = .done r)
    (f : Nat → Option CVal) (k : Nat) : viewWith f r.2 k r.1 = viewWith f H k src := by
  rw [copyBlock] at hrun
  split at hrun
  next b hb =>
    split at hrun
    next hty =>
      obtain ⟨x, hx, hrun⟩ := Outcome.bind_eq_done hrun
      cases hrun
      cases k with
      | zero => rfl
      | succ k =>
        have hp : layout.ptr src = some src.word := ptr_of_owns ho hne
        obtain ⟨-, hforest, -⟩ := ht.children hp hb
        obtain ⟨hturn, hlen⟩ := copyAll_turns hturns hH hx
        have hp' : layout.ptr ⟨src.type, x.2.next⟩ = some x.2.next := ptr_of_owns ho hne
        have hb' : (x.2.alloc (b.withChildren x.1)).blocks x.2.next = some (b.withChildren x.1) :=
          Function.update_self ..
        have halloc : viewAll (viewWith f (x.2.alloc (b.withChildren x.1)) k) x.1 =
            viewAll (viewWith f x.2 k) x.1 := by
          apply viewAll_congr
          intro c hc
          apply viewWith_congr (hturn.forest.tree c hc) _ (fun _ _ _ => rfl)
          intro q hq
          exact Function.update_of_ne (Nat.ne_of_lt ((hturn.forest.tree c hc).lt hturn.bounded hq))
            _ _
        rw [viewWith_block hp' hb', viewWith_block hp hb, type_withChildren,
          children_withChildren b hlen, value_withChildren b hlen, halloc,
          copyAll_view hturns hview hH hforest hx]
        rfl
    next => cases hrun
  next => cases hrun

/-- A copy looks like its source. -/
theorem copyMember_view {n : Nat} {src : Slot} {word : Nat} {H : Heap} {r : Slot × Heap}
    (hH : H.Bounded) (ht : layout.Tree H src) (hrun : copyMember n src word H = .done r)
    (f : Nat → Option CVal) (k : Nat) : viewWith f r.2 k r.1 = viewWith f H k src := by
  induction n generalizing src word H r f k with
  | zero => cases hrun
  | succ n ih =>
    have hblock : src.type.owns = true → src.type ≠ .OBJECT →
        copyBlock (fun c => copyMember n c c.type.code) src H = .done r →
        viewWith f r.2 k r.1 = viewWith f H k src := by
      intro ho hne hrun
      exact copyBlock_view copyMember_turns ih hH ht ho hne hrun f k
    obtain ⟨type, p⟩ := src
    cases type with
    | STRING => exact hblock rfl nofun hrun
    | BYTEARRAY => exact hblock rfl nofun hrun
    | ARRAY => exact hblock rfl nofun hrun
    | MAP => exact hblock rfl nofun hrun
    | ERROR => exact hblock rfl nofun hrun
    | OBJECT =>
      cases hrun
      rfl
    | EMPTY =>
      cases hrun
      exact viewWith_number (g := fun _ => .empty) (fun _ _ _ _ => rfl) rfl f H k
    | INT32 =>
      cases hrun
      exact viewWith_number (fun _ _ _ _ => rfl) (congrArg Val.int32 (ofNat_setLow rfl word p)) f H
        k
    | INT64 =>
      cases hrun
      exact viewWith_number (fun _ _ _ _ => rfl) (congrArg Val.int64 (ofNat_setLow rfl word p)) f H
        k
    | UINT32 =>
      cases hrun
      exact viewWith_number (fun _ _ _ _ => rfl) (congrArg Val.uint32 (ofNat_setLow rfl word p)) f H
        k
    | UINT64 =>
      cases hrun
      exact viewWith_number (fun _ _ _ _ => rfl) (congrArg Val.uint64 (ofNat_setLow rfl word p)) f H
        k
    | FLOAT32 =>
      cases hrun
      exact viewWith_number (fun _ _ _ _ => rfl) (congrArg Val.float32 (ofNat_setLow rfl word p)) f
        H k
    | FLOAT64 =>
      cases hrun
      exact viewWith_number (fun _ _ _ _ => rfl) (congrArg Val.float64 (ofNat_setLow rfl word p)) f
        H k
    | MEASUREMENT =>
      cases hrun
      exact viewWith_number (fun _ _ _ _ => rfl) (measurement_setLow word p) f H k

/-! ## Views along a path -/

theorem viewAll_getElem {g : Slot → Option CVal} {l : List Slot} {vs : List CVal}
    (h : viewAll g l = some vs) :
    vs.length = l.length ∧ ∀ {k : Nat} {c : Slot}, l[k]? = some c → g c = vs[k]? := by
  induction l generalizing vs with
  | nil =>
    cases h
    exact ⟨rfl, nofun⟩
  | cons d l ih =>
    obtain ⟨v, hv, h⟩ := Option.bind_eq_some_iff.mp h
    obtain ⟨vs', hvs, rfl⟩ := Option.map_eq_some_iff.mp h
    obtain ⟨hlen, hget⟩ := ih hvs
    refine ⟨congrArg (· + 1) hlen, ?_⟩
    intro k c hk
    cases k with
    | zero =>
      cases hk
      exact hv
    | succ k => exact hget hk

theorem value_inj {b b' : Block} {vs vs' : List CVal} (hlen : vs.length = b.children.length)
    (hlen' : vs'.length = b'.children.length) (h : b.value vs = b'.value vs') : vs = vs' := by
  have hnil : ∀ {ws : List CVal}, ws.length = 0 → ws = [] := fun h => List.length_eq_zero_iff.mp h
  cases b with
  | vector vec =>
    cases b' with
    | vector vec' => exact Val.array.inj h
    | _ => cases h
  | map fields =>
    cases b' with
    | map fields' =>
      have hzip := congrArg (List.map Prod.snd) (Val.map.inj h)
      rw [List.map_snd_zip, List.map_snd_zip] at hzip
      · exact hzip
      · rw [hlen', List.length_map]
        exact Nat.le_of_eq (List.length_map ..)
      · rw [hlen, List.length_map]
        exact Nat.le_of_eq (List.length_map ..)
    | _ => cases h
  | string s =>
    cases b' with
    | string s' => rw [hnil hlen, hnil hlen']
    | _ => cases h
  | bytearray s =>
    cases b' with
    | bytearray s' => rw [hnil hlen, hnil hlen']
    | _ => cases h
  | sp obj =>
    cases b' with
    | sp obj' => rw [hnil hlen, hnil hlen']
    | _ => cases h
  | error code msg =>
    cases b' with
    | error code' msg' => rw [hnil hlen, hnil hlen']
    | _ => cases h

theorem viewWith_block_some {s : Slot} {p : Nat} (hp : layout.ptr s = some p) {H : Heap} {b : Block}
    (hb : H.blocks p = some b) {f : Nat → Option CVal} {n : Nat} {v : CVal}
    (h : viewWith f H (n + 1) s = some v) :
    ∃ vs, viewAll (viewWith f H n) b.children = some vs ∧ b.value vs = v := by
  rw [viewWith_block hp hb] at h
  split at h
  next => exact Option.map_eq_some_iff.mp h
  next => cases h

/-- Vals with the same value have the same values at the same paths. -/
theorem viewWith_walk {H H' : Heap} {f f' : Nat → Option CVal} {path : List Nat}
    {x y x' y' : Option (Nat × Nat)} {s t s' t' : Slot}
    (hw : layout.walk H x s path = some (y, t)) (hw' : layout.walk H' x' s' path = some (y', t'))
    {n : Nat} {v : CVal} (hv : viewWith f H (n + path.length) s = some v)
    (hv' : viewWith f' H' (n + path.length) s' = some v) :
    ∃ u, viewWith f H n t = some u ∧ viewWith f' H' n t' = some u := by
  induction path generalizing x x' s s' v with
  | nil =>
    cases hw
    cases hw'
    exact ⟨v, hv, hv'⟩
  | cons k path ih =>
    obtain ⟨p, b, c, hp, hb, hc, hw⟩ := Layout.walk_cons hw
    obtain ⟨p', b', c', hp', hb', hc', hw'⟩ := Layout.walk_cons hw'
    obtain ⟨vs, hvs, hval⟩ := viewWith_block_some hp hb hv
    obtain ⟨vs', hvs', hval'⟩ := viewWith_block_some hp' hb' hv'
    obtain ⟨hlen, hget⟩ := viewAll_getElem hvs
    obtain ⟨hlen', hget'⟩ := viewAll_getElem hvs'
    obtain rfl := value_inj hlen hlen' (hval.trans hval'.symm)
    have hk : k < vs.length := by
      rw [hlen]
      exact (List.getElem?_eq_some_iff.mp hc).1
    have hsome := List.getElem?_eq_getElem hk
    exact ih hw hw' ((hget hc).trans hsome) ((hget' hc').trans hsome)

theorem viewWith_empty {s : Slot} (h : s.type = .EMPTY) (f : Nat → Option CVal) (H : Heap)
    (n : Nat) :
    viewWith f H (n + 1) s = some .empty := by
  obtain ⟨type, word⟩ := s
  cases h
  rfl

/-- Only an EMPTY val shows nothing. -/
theorem view_ne_empty {s : Slot} (h : s.type ≠ .EMPTY) (H : Heap) (n : Nat) :
    view n H s ≠ some .empty := by
  have hvalue : ∀ (b : Block) (vs : List CVal), b.value vs ≠ .empty := by
    intro b vs hval
    cases b <;> cases hval
  have hobject : objectVal H s.word ≠ some .empty := by
    intro hview
    rw [objectVal] at hview
    split at hview
    next => cases hview
    next => split at hview <;> cases hview
  intro hview
  cases n with
  | zero => cases hview
  | succ n =>
    rw [view, viewWith] at hview
    split at hview
    case h_1 hty => exact h hty
    case h_9 => exact hobject hview
    case h_10 =>
      -- a block shows a value of its own type
      split at hview
      next b hb =>
        split at hview
        next =>
          obtain ⟨vs, -, hval⟩ := Option.map_eq_some_iff.mp hview
          exact hvalue b vs hval
        next => cases hview
      next => cases hview
    all_goals cases hview

/-- Vals that look alike show the same objects. -/
theorem objects_of_view {H : Heap} {s t : Slot} (hs : layout.Tree H s) (ha : Alive H s)
    {f : Nat → Option CVal} (hview : ∀ k, viewWith f H k s = view k H s)
    (hti : layout.Inside H s t) (ht : t.type = .OBJECT) : f t.word = objectVal H t.word := by
  obtain ⟨N, hN⟩ := ha.view_isSome hs
  obtain ⟨path, y, hpath⟩ := hti.exists_walk none
  obtain ⟨v, hv⟩ := Option.isSome_iff_exists.mp (hN (N + 1 + path.length) (by omega))
  obtain ⟨u, hu, hu'⟩ := viewWith_walk hpath hpath ((hview _).trans hv) hv
  rw [viewWith_object ht] at hu hu'
  exact hu.trans hu'.symm

end Libacorn.ValHeap
