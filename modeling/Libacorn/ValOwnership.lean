import Libacorn.ValHeap

/-!
# What the operations of a val own

Every member that is a pointer owns its block, except `_obj`: its `sp` is shared by
the copies of a val. `Op.step_turns` says that an operation on a variable turns what
this variable owns into what it owns afterwards, and so leaves the blocks of all
other variables alone.
-/

namespace Libacorn.ValHeap

open Support

/-- The members that own their block. -/
def layout : Layout Slot Block where
  ptr s := if s.type.owns = true ∧ s.type ≠ .OBJECT then some s.word else none
  fits s b := b.type = s.type ∧ s.type ≠ .OBJECT ∧ s.word ≠ 0
  children := Block.children
  shared b := b.type = .OBJECT
  not_shared h hs := h.2.1 (h.1.symm.trans hs)

theorem ptr_of_owns {s : Slot} (h : s.type.owns = true) (hne : s.type ≠ .OBJECT) :
    layout.ptr s = some s.word := if_pos ⟨h, hne⟩

theorem ptr_of_type {s : Slot} {type : Tag} (hty : s.type = type) (h : type.owns = true)
    (hne : type ≠ .OBJECT) :
    layout.ptr s = some s.word := by
  subst hty
  exact ptr_of_owns h hne

theorem ptr_eq_word {s : Slot} {p : Nat} (h : layout.ptr s = some p) :
    p = s.word ∧ s.type.owns = true ∧ s.type ≠ .OBJECT := by
  by_cases hs : s.type.owns = true ∧ s.type ≠ .OBJECT
  · rw [show layout.ptr s = some s.word from if_pos hs] at h
    exact ⟨(Option.some.inj h).symm, hs⟩
  · rw [show layout.ptr s = none from if_neg hs] at h
    cases h

theorem ptr_object {s : Slot} (h : s.type = .OBJECT) : layout.ptr s = none :=
  if_neg fun hs => hs.2 h

theorem ptr_plain {s : Slot} (h : s.type.owns = false) : layout.ptr s = none :=
  if_neg fun hs => by
    rw [h] at hs
    exact Bool.false_ne_true hs.1

/-! ## Blocks -/

theorem type_withChildren (b : Block) (l : List Slot) : (b.withChildren l).type = b.type := by
  cases b <;> rfl

theorem children_withChildren (b : Block) {l : List Slot} (hl : l.length = b.children.length) :
    (b.withChildren l).children = l := by
  cases b with
  | vector vec => rfl
  | map fields =>
    apply List.map_snd_zip
    rw [hl, List.length_map]
    exact Nat.le_of_eq (List.length_map ..)
  | _ => exact (List.length_eq_zero_iff.mp hl).symm

/-! ## ~val -/

theorem destroyAll_turns {destroy : Slot → Heap → Outcome Heap}
    (h : ∀ {s : Slot} {H H' : Heap}, H.Bounded → layout.Tree H s → destroy s H = .done H' →
      layout.Turns H H' [s] [])
    {l : List Slot} {H H' : Heap} (hH : H.Bounded) (hf : layout.Forest H l)
    (hrun : destroyAll destroy l H = .done H') : layout.Turns H H' l [] := by
  induction l generalizing H with
  | nil =>
    cases hrun
    exact .refl hH hf
  | cons c l ih =>
    obtain ⟨H₁, hc, hrun⟩ := Outcome.bind_eq_done hrun
    have hturn := (h hH (hf.tree c (List.mem_cons_self ..)) hc).context (r := l) hf
    exact hturn.trans (ih hturn.bounded hturn.forest hrun)

theorem deleteMember_turns {destroy : Slot → Heap → Outcome Heap}
    (h : ∀ {s : Slot} {H H' : Heap}, H.Bounded → layout.Tree H s → destroy s H = .done H' →
      layout.Turns H H' [s] [])
    {s : Slot} {H H' : Heap} (hH : H.Bounded) (ht : layout.Tree H s) (ho : s.type.owns = true)
    (hne : s.type ≠ .OBJECT) (hrun : deleteMember destroy s H = .done H') :
    layout.Turns H H' [s] [] := by
  rw [deleteMember] at hrun
  split at hrun
  next hzero =>
    obtain ⟨b, hb, -⟩ := ht.live (.here (ptr_of_owns ho hne))
    exact ((ht.children (ptr_of_owns ho hne) hb).1.2.2 hzero).elim
  next =>
    split at hrun
    next b hb =>
      split at hrun
      next hty =>
        have hunwrap := Layout.Turns.unwrap hH ht (ptr_of_owns ho hne) hb
        exact hunwrap.trans (destroyAll_turns h hunwrap.bounded hunwrap.forest hrun)
      next => cases hrun
    next => cases hrun

theorem reset_turns {s : Slot} {H H' : Heap} (hH : H.Bounded) (hrun : reset s H = .done H') :
    layout.Turns H H' [] [] := by
  rw [reset] at hrun
  split at hrun
  next obj hb =>
    cases hrun
    apply Layout.Turns.ofShared hH hb rfl
    intro b' hb'
    cases hb'
    rfl
  next => cases hrun

theorem destroy_turns {n : Nat} {s : Slot} {H H' : Heap} (hH : H.Bounded) (ht : layout.Tree H s)
    (hrun : destroy n s H = .done H') : layout.Turns H H' [s] [] := by
  induction n generalizing s H H' with
  | zero => cases hrun
  | succ n ih =>
    obtain ⟨type, word⟩ := s
    cases type with
    | STRING => exact deleteMember_turns ih hH ht rfl nofun hrun
    | BYTEARRAY => exact deleteMember_turns ih hH ht rfl nofun hrun
    | ARRAY => exact deleteMember_turns ih hH ht rfl nofun hrun
    | MAP => exact deleteMember_turns ih hH ht rfl nofun hrun
    | ERROR => exact deleteMember_turns ih hH ht rfl nofun hrun
    | OBJECT => exact (reset_turns hH hrun).drop (ptr_object rfl)
    | _ =>
      cases hrun
      exact (Layout.Turns.refl hH (Layout.forest_nil _)).drop (ptr_plain rfl)

/-! ## setType -/

theorem deleteObj_turns {s : Slot} {H H' : Heap} (hH : H.Bounded)
    (hrun : deleteObj s H = .done H') :
    layout.Turns H H' [] [] := by
  rw [deleteObj] at hrun
  split at hrun
  next =>
    cases hrun
    exact .refl hH (Layout.forest_nil H)
  next =>
    split at hrun
    next obj hb =>
      cases hrun
      exact Layout.Turns.ofShared hH hb rfl nofun
    next => cases hrun

theorem release_turns {n : Nat} {s : Slot} {H : Heap} {r : Nat × Heap} (hH : H.Bounded)
    (ht : layout.Tree H s) (hrun : release n s H = .done r) : layout.Turns H r.2 [s] [] := by
  have hdelete : s.type.owns = true → s.type ≠ .OBJECT →
      ((deleteMember (destroy n) s H).bind fun H => .done (0, H)) = .done r →
      layout.Turns H r.2 [s] [] := by
    intro ho hne hrun
    obtain ⟨H₁, hd, hrun⟩ := Outcome.bind_eq_done hrun
    cases hrun
    exact deleteMember_turns destroy_turns hH ht ho hne hd
  obtain ⟨type, word⟩ := s
  cases type with
  | STRING => exact hdelete rfl nofun hrun
  | BYTEARRAY => exact hdelete rfl nofun hrun
  | ARRAY => exact hdelete rfl nofun hrun
  | MAP => exact hdelete rfl nofun hrun
  | ERROR => exact hdelete rfl nofun hrun
  | OBJECT =>
    obtain ⟨H₁, hd, hrun⟩ := Outcome.bind_eq_done hrun
    cases hrun
    exact (deleteObj_turns hH hd).drop (ptr_object rfl)
  | _ =>
    cases hrun
    exact (Layout.Turns.refl hH (Layout.forest_nil _)).drop (ptr_plain rfl)

/-- A new member with nothing in it. -/
theorem newMember_turns {b : Block} (hb : b.children = []) (ho : b.type.owns = true)
    (hne : b.type ≠ .OBJECT) {H : Heap} (hH : H.Bounded) :
    layout.Turns H (H.alloc b) [] [⟨b.type, H.next⟩] := by
  have hf : layout.Forest H (layout.children b) := by
    rw [show layout.children b = [] from hb]
    exact Layout.forest_nil H
  have hturn := Layout.Turns.wrap hH hf (s := ⟨b.type, H.next⟩) (ptr_of_owns ho hne)
    ⟨rfl, hne, Nat.ne_of_gt hH.pos⟩
  rw [show layout.children b = [] from hb] at hturn
  exact hturn

theorem acquire_turns (newType : Tag) (word : Nat) {H : Heap} (hH : H.Bounded) :
    layout.Turns H (acquire newType word H).2 [] [(acquire newType word H).1] := by
  cases newType with
  | STRING => exact newMember_turns (b := .string []) rfl rfl nofun hH
  | BYTEARRAY => exact newMember_turns (b := .bytearray []) rfl rfl nofun hH
  | ARRAY => exact newMember_turns (b := .vector []) rfl rfl nofun hH
  | MAP => exact newMember_turns (b := .map []) rfl rfl nofun hH
  | ERROR => exact newMember_turns (b := .error 0 []) rfl rfl nofun hH
  | OBJECT => exact Layout.Turns.leaf hH (ptr_object rfl)
  | _ => exact Layout.Turns.leaf hH (ptr_plain rfl)

theorem setType_turns {n : Nat} {newType : Tag} {s : Slot} {H : Heap} {r : Slot × Heap}
    (hH : H.Bounded) (ht : layout.Tree H s) (hrun : setType n newType s H = .done r) :
    layout.Turns H r.2 [s] [r.1] := by
  rw [setType] at hrun
  split at hrun
  next =>
    cases hrun
    exact .refl hH (Layout.forest_singleton.mpr ht)
  next =>
    obtain ⟨x, hx, hrun⟩ := Outcome.bind_eq_done hrun
    cases hrun
    have hrelease := release_turns hH ht hx
    exact hrelease.trans (acquire_turns newType x.1 hrelease.bounded)

theorem acquire_type (newType : Tag) (word : Nat) (H : Heap) :
    (acquire newType word H).1.type = newType := by
  cases newType <;> rfl

theorem setType_type {n : Nat} {newType : Tag} {s : Slot} {H : Heap} {r : Slot × Heap}
    (hrun : setType n newType s H = .done r) : r.1.type = newType := by
  rw [setType] at hrun
  split at hrun
  next hty =>
    cases hrun
    exact hty
  next =>
    obtain ⟨x, -, hrun⟩ := Outcome.bind_eq_done hrun
    cases hrun
    exact acquire_type newType x.1 x.2

theorem ptr_setType_empty {n : Nat} {s : Slot} {H : Heap} {r : Slot × Heap}
    (hrun : setType n .EMPTY s H = .done r) : layout.ptr r.1 = none := by
  apply ptr_plain
  rw [setType_type hrun]
  rfl

/-! ## Copies -/

theorem copyAll_turns {copy : Slot → Heap → Outcome (Slot × Heap)}
    (h : ∀ {s : Slot} {H : Heap} {r : Slot × Heap}, H.Bounded → copy s H = .done r →
      layout.Turns H r.2 [] [r.1])
    {l : List Slot} {H : Heap} {r : List Slot × Heap} (hH : H.Bounded)
    (hrun : copyAll copy l H = .done r) : layout.Turns H r.2 [] r.1 ∧ r.1.length = l.length := by
  induction l generalizing H r with
  | nil =>
    cases hrun
    exact ⟨.refl hH (Layout.forest_nil H), rfl⟩
  | cons c l ih =>
    obtain ⟨x, hx, hrun⟩ := Outcome.bind_eq_done hrun
    obtain ⟨xs, hxs, hrun⟩ := Outcome.bind_eq_done hrun
    cases hrun
    have hhead := h hH hx
    obtain ⟨htail, hlen⟩ := ih hhead.bounded hxs
    refine ⟨hhead.trans ?_, congrArg (· + 1) hlen⟩
    have hctx := htail.context (r := [x.1]) hhead.forest
    exact hctx.perm List.perm_append_comm

theorem copyBlock_turns {copy : Slot → Heap → Outcome (Slot × Heap)}
    (h : ∀ {s : Slot} {H : Heap} {r : Slot × Heap}, H.Bounded → copy s H = .done r →
      layout.Turns H r.2 [] [r.1])
    {src : Slot} {H : Heap} {r : Slot × Heap} (hH : H.Bounded) (ho : src.type.owns = true)
    (hne : src.type ≠ .OBJECT) (hrun : copyBlock copy src H = .done r) :
    layout.Turns H r.2 [] [r.1] := by
  rw [copyBlock] at hrun
  split at hrun
  next b hb =>
    split at hrun
    next hty =>
      obtain ⟨x, hx, hrun⟩ := Outcome.bind_eq_done hrun
      cases hrun
      obtain ⟨hturn, hlen⟩ := copyAll_turns h hH hx
      have hchildren := children_withChildren b hlen
      have hf : layout.Forest x.2 (b.withChildren x.1).children := by
        rw [hchildren]
        exact hturn.forest
      have hfits : layout.fits ⟨src.type, x.2.next⟩ (b.withChildren x.1) :=
        ⟨(type_withChildren b x.1).trans hty, hne, Nat.ne_of_gt hturn.bounded.pos⟩
      have hptr : layout.ptr ⟨src.type, x.2.next⟩ = some x.2.next := ptr_of_owns ho hne
      have hwrap := Layout.Turns.wrap hturn.bounded hf hptr hfits
      rw [show layout.children (b.withChildren x.1) = x.1 from hchildren] at hwrap
      exact hturn.trans hwrap
    next => cases hrun
  next => cases hrun

theorem copyMember_turns {n : Nat} {src : Slot} {word : Nat} {H : Heap} {r : Slot × Heap}
    (hH : H.Bounded) (hrun : copyMember n src word H = .done r) :
    layout.Turns H r.2 [] [r.1] := by
  induction n generalizing src word H r with
  | zero => cases hrun
  | succ n ih =>
    have hblock : src.type.owns = true → src.type ≠ .OBJECT →
        copyBlock (fun c => copyMember n c c.type.code) src H = .done r →
        layout.Turns H r.2 [] [r.1] := copyBlock_turns ih hH
    obtain ⟨type, p⟩ := src
    cases type with
    | STRING => exact hblock rfl nofun hrun
    | BYTEARRAY => exact hblock rfl nofun hrun
    | ARRAY => exact hblock rfl nofun hrun
    | MAP => exact hblock rfl nofun hrun
    | ERROR => exact hblock rfl nofun hrun
    | OBJECT =>
      cases hrun
      exact Layout.Turns.leaf hH (ptr_object rfl)
    | _ =>
      cases hrun
      exact Layout.Turns.leaf hH (ptr_plain rfl)

theorem copyMember_type {n word : Nat} {s : Slot} {H : Heap} {r : Slot × Heap}
    (hrun : copyMember n s word H = .done r) : r.1.type = s.type := by
  cases n with
  | zero => cases hrun
  | succ n =>
    have hblock : copyBlock (fun c => copyMember n c c.type.code) s H = .done r →
        r.1.type = s.type := by
      intro hrun
      rw [copyBlock] at hrun
      split at hrun
      next =>
        split at hrun
        next =>
          obtain ⟨x, -, hrun⟩ := Outcome.bind_eq_done hrun
          cases hrun
          rfl
        next => cases hrun
      next => cases hrun
    obtain ⟨type, p⟩ := s
    cases type with
    | STRING => exact hblock hrun
    | BYTEARRAY => exact hblock hrun
    | ARRAY => exact hblock hrun
    | MAP => exact hblock hrun
    | ERROR => exact hblock hrun
    | _ =>
      cases hrun
      rfl

theorem copyAll_extends {copy : Slot → Heap → Outcome (Slot × Heap)}
    (h : ∀ {s : Slot} {H : Heap} {r : Slot × Heap}, copy s H = .done r → H.Extends r.2)
    {l : List Slot} {H : Heap} {r : List Slot × Heap} (hrun : copyAll copy l H = .done r) :
    H.Extends r.2 := by
  induction l generalizing H r with
  | nil =>
    cases hrun
    exact .refl H
  | cons c l ih =>
    obtain ⟨x, hx, hrun⟩ := Outcome.bind_eq_done hrun
    obtain ⟨xs, hxs, hrun⟩ := Outcome.bind_eq_done hrun
    cases hrun
    have htail : x.2.Extends xs.2 := ih hxs
    exact (h hx).trans htail

theorem copyBlock_extends {copy : Slot → Heap → Outcome (Slot × Heap)}
    (h : ∀ {s : Slot} {H : Heap} {r : Slot × Heap}, copy s H = .done r → H.Extends r.2)
    {src : Slot} {H : Heap} {r : Slot × Heap} (hrun : copyBlock copy src H = .done r) :
    H.Extends r.2 := by
  rw [copyBlock] at hrun
  split at hrun
  next b hb =>
    split at hrun
    next =>
      obtain ⟨x, hx, hrun⟩ := Outcome.bind_eq_done hrun
      cases hrun
      exact (copyAll_extends h hx).trans (.alloc x.2 _)
    next => cases hrun
  next => cases hrun

/-- A copy changes no block that is there. -/
theorem copyMember_extends {n : Nat} {src : Slot} {word : Nat} {H : Heap} {r : Slot × Heap}
    (hrun : copyMember n src word H = .done r) : H.Extends r.2 := by
  induction n generalizing src word H r with
  | zero => cases hrun
  | succ n ih =>
    have hblock : copyBlock (fun c => copyMember n c c.type.code) src H = .done r →
        H.Extends r.2 := copyBlock_extends ih
    obtain ⟨type, p⟩ := src
    cases type with
    | STRING => exact hblock hrun
    | BYTEARRAY => exact hblock hrun
    | ARRAY => exact hblock hrun
    | MAP => exact hblock hrun
    | ERROR => exact hblock hrun
    | _ =>
      cases hrun
      exact .refl H

theorem copyAll_total {n : Nat}
    (h : ∀ {s : Slot} (word : Nat) {H : Heap}, H.Bounded → layout.Tree H s → layout.Low H n s →
      ∃ r, copyMember n s word H = .done r)
    {l : List Slot} {H : Heap} (hH : H.Bounded) (hl : ∀ c ∈ l, layout.Tree H c ∧ layout.Low H n c) :
    ∃ r, copyAll (fun c => copyMember n c c.type.code) l H = .done r := by
  induction l generalizing H with
  | nil => exact ⟨([], H), rfl⟩
  | cons c l ih =>
    obtain ⟨ht, hlow⟩ := hl c (List.mem_cons_self ..)
    obtain ⟨x, hx⟩ := h c.type.code hH ht hlow
    have hext := copyMember_extends hx
    obtain ⟨xs, hxs⟩ := ih (copyMember_turns hH hx).bounded (by
      intro d hd
      obtain ⟨hdt, hdlow⟩ := hl d (List.mem_cons_of_mem c hd)
      have hm : ∀ q, layout.Owns H d q → x.2.blocks q = H.blocks q :=
        fun q hq => hext.blocks_eq q (hdt.lt hH hq)
      exact ⟨(hdt.congr hm).1, hdt.low_of_agree hm hdlow⟩)
    refine ⟨(x.1 :: xs.1, xs.2), ?_⟩
    rw [copyAll, hx, Outcome.bind_done, hxs, Outcome.bind_done]

/-- With enough fuel a copy is made. -/
theorem copyMember_total {n : Nat} {src : Slot} (word : Nat) {H : Heap} (hH : H.Bounded)
    (ht : layout.Tree H src) (hn : layout.Low H n src) :
    ∃ r, copyMember n src word H = .done r := by
  induction n generalizing src word H with
  | zero => exact hn.elim
  | succ n ih =>
    have hblock : src.type.owns = true → src.type ≠ .OBJECT →
        ∃ r, copyBlock (fun c => copyMember n c c.type.code) src H = .done r := by
      intro ho hne
      have hp : layout.ptr src = some src.word := ptr_of_owns ho hne
      obtain ⟨b, hb, -⟩ := ht.live (.here hp)
      obtain ⟨hfits, hforest, -⟩ := ht.children hp hb
      obtain ⟨r, hr⟩ := copyAll_total ih hH fun c hc => ⟨hforest.tree c hc, hn _ b hp hb c hc⟩
      refine ⟨(⟨src.type, r.2.next⟩, r.2.alloc (b.withChildren r.1)), ?_⟩
      rw [copyBlock]
      simp only [hb, if_pos hfits.1]
      rw [show copyAll (fun c => copyMember n c c.type.code) b.children H = .done r from hr]
      rfl
    obtain ⟨type, p⟩ := src
    cases type with
    | STRING => exact hblock rfl nofun
    | BYTEARRAY => exact hblock rfl nofun
    | ARRAY => exact hblock rfl nofun
    | MAP => exact hblock rfl nofun
    | ERROR => exact hblock rfl nofun
    | _ => exact ⟨_, rfl⟩

/-! ## Variables -/

/-- What the variables own are separate trees. -/
structure State.Good (S : State) : Prop where
  bounded : S.heap.Bounded
  tree : ∀ {i s}, S.vars i = some s → layout.Tree S.heap s
  separate : ∀ {i j s t}, i ≠ j → S.vars i = some s → S.vars j = some t →
    layout.Separate S.heap s t

/-- Only the variable `i` and what it owns have changed. -/
structure Changes (i : Nat) (S S' : State) : Prop where
  turns : layout.Turns S.heap S'.heap (S.vars i).toList (S'.vars i).toList
  others : ∀ j, j ≠ i → S'.vars j = S.vars j

theorem Changes.trans {i : Nat} {S S₁ S₂ : State} (h : Changes i S S₁) (h' : Changes i S₁ S₂) :
    Changes i S S₂ where
  turns := h.turns.trans h'.turns
  others j hj := (h'.others j hj).trans (h.others j hj)

theorem Changes.refl {S : State} (hS : S.Good) (i : Nat) : Changes i S S where
  turns := by
    apply Layout.Turns.refl hS.bounded
    cases hi : S.vars i with
    | none => exact Layout.forest_nil _
    | some a => exact Layout.forest_singleton.mpr (hS.tree hi)
  others _ _ := rfl

/-- The blocks of another variable are not touched. -/
theorem Changes.keeps {i : Nat} {S S' : State} (hS : S.Good) (h : Changes i S S') {j : Nat}
    (hj : j ≠ i) {s : Slot} (hs : S.vars j = some s) :
    layout.Tree S'.heap s ∧ (∀ q, layout.Owns S'.heap s q ↔ layout.Owns S.heap s q) ∧
      ∀ q, layout.Owns S.heap s q → S'.heap.blocks q = S.heap.blocks q := by
  apply h.turns.others (r := [s]) ?_ (List.mem_singleton_self s)
  cases hi : S.vars i with
  | none => exact Layout.forest_singleton.mpr (hS.tree hs)
  | some a =>
    constructor
    · intro c hc
      rcases List.mem_cons.mp hc with rfl | hc
      · exact hS.tree hi
      · rw [List.mem_singleton.mp hc]
        exact hS.tree hs
    · exact List.pairwise_pair.mpr (hS.separate (Ne.symm hj) hi hs)

theorem Changes.good {i : Nat} {S S' : State} (hS : S.Good) (h : Changes i S S') : S'.Good := by
  have hown : ∀ {j s}, j ≠ i → S'.vars j = some s → S.vars j = some s := by
    intro j s hj hs
    rw [← h.others j hj]
    exact hs
  -- what the variable owns now it owned before, or it is new
  have hnew : ∀ {a j s}, S'.vars i = some a → j ≠ i → S'.vars j = some s →
      layout.Separate S'.heap a s := by
    intro a j s ha hj hs q hq hq'
    have hs' := hown hj hs
    have hq' := ((h.keeps hS hj hs').2.1 q).mp hq'
    rcases h.turns.owned a (by rw [ha]; exact List.mem_singleton_self a) q
      hq with ⟨d, hd, hdq⟩ | hle
    · exact hS.separate (Ne.symm hj) (Option.mem_toList.mp hd) hs' q hdq hq'
    · exact Nat.not_lt.mpr hle ((hS.tree hs').lt hS.bounded hq')
  refine ⟨h.turns.bounded, ?_, ?_⟩
  · intro j s hs
    by_cases hj : j = i
    · subst hj
      exact h.turns.forest.tree s (by rw [hs]; exact List.mem_singleton_self s)
    · exact (h.keeps hS hj (hown hj hs)).1
  · intro j k s t hjk hs ht
    by_cases hj : j = i
    · subst hj
      exact hnew hs (Ne.symm hjk) ht
    · by_cases hk : k = i
      · subst hk
        exact (hnew ht hj hs).symm
      · intro q hq hq'
        exact hS.separate hjk (hown hj hs) (hown hk ht) q
          (((h.keeps hS hj (hown hj hs)).2.1 q).mp hq)
          (((h.keeps hS hk (hown hk ht)).2.1 q).mp hq')

theorem Changes.ofVar {i : Nat} {S : State} {v w : Slot} {H : Heap} (hv : S.vars i = some v)
    (h : layout.Turns S.heap H [v] [w]) : Changes i S ((S.withHeap H).store (.var i) w) where
  turns := by
    have hw : ((S.withHeap H).store (.var i) w).vars i = some w := Function.update_self ..
    rw [hv, hw]
    exact h
  others j hj := Function.update_of_ne hj _ _

theorem Changes.ofHeap {i : Nat} {S : State} {a : Slot} {H : Heap} (ha : S.vars i = some a)
    (h : layout.Turns S.heap H [a] [a]) : Changes i S (S.withHeap H) where
  turns := by
    have ha' : (S.withHeap H).vars i = some a := ha
    rw [ha, ha']
    exact h
  others _ _ := rfl

end Libacorn.ValHeap
