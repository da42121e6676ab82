import Libacorn.ValViews

/-!
# What is released with a val

`~val` and `setType` of a val whose objects are alive end. `setType` deletes the `sp` of
an OBJECT; the objects further down are reset by `~val`, and all others are kept
(`Resets`).
-/

namespace Libacorn.ValHeap

open Support

/-! ## Destruction ends -/

/-- No `sp` is freed. -/
def KeepsSp (H H' : Heap) : Prop :=
  ∀ w obj, H.blocks w = some (.sp obj) → ∃ obj', H'.blocks w = some (.sp obj')

theorem KeepsSp.refl (H : Heap) : KeepsSp H H := fun _ obj h => ⟨obj, h⟩

theorem KeepsSp.trans {H H₁ H₂ : Heap} (h : KeepsSp H H₁) (h' : KeepsSp H₁ H₂) : KeepsSp H H₂ := by
  intro w obj hw
  obtain ⟨obj₁, hw₁⟩ := h w obj hw
  exact h' w obj₁ hw₁

theorem keepsSp_free {H : Heap} {p : Nat} {b : Block} (hb : H.blocks p = some b)
    (hne : b.type ≠ .OBJECT) : KeepsSp H (H.free p) := by
  intro w obj hw
  refine ⟨obj, (Function.update_of_ne ?_ _ _).trans hw⟩
  rintro rfl
  rw [hw] at hb
  cases hb
  exact hne rfl

theorem Alive.congr {H H' : Heap} {s : Slot} (h : Alive H s) (ht : layout.Tree H s)
    (hm : ∀ q, layout.Owns H s q → H'.blocks q = H.blocks q) (hsp : KeepsSp H H') : Alive H' s := by
  intro t hti htobj
  obtain ⟨hne, obj, hobj⟩ := h t ((ht.inside_iff hm t).mp hti) htobj
  exact ⟨hne, hsp t.word obj hobj⟩

theorem destroyAll_keepsSp {destroy : Slot → Heap → Outcome Heap}
    (h : ∀ {s : Slot} {H H' : Heap}, destroy s H = .done H' → KeepsSp H H') {l : List Slot}
    {H H' : Heap} (hrun : destroyAll destroy l H = .done H') : KeepsSp H H' := by
  induction l generalizing H with
  | nil =>
    cases hrun
    exact .refl _
  | cons c l ih =>
    obtain ⟨H₁, hc, hrun⟩ := Outcome.bind_eq_done hrun
    exact (h hc).trans (ih hrun)

theorem deleteMember_keepsSp {destroy : Slot → Heap → Outcome Heap}
    (h : ∀ {s : Slot} {H H' : Heap}, destroy s H = .done H' → KeepsSp H H') {s : Slot}
    (hne : s.type ≠ .OBJECT) {H H' : Heap} (hrun : deleteMember destroy s H = .done H') :
    KeepsSp H H' := by
  rw [deleteMember] at hrun
  split at hrun
  next =>
    cases hrun
    exact .refl H
  next =>
    split at hrun
    next b hb =>
      split at hrun
      next hty => exact (keepsSp_free hb (hty ▸ hne)).trans (destroyAll_keepsSp h hrun)
      next => cases hrun
    next => cases hrun

theorem destroy_keepsSp {n : Nat} {s : Slot} {H H' : Heap} (hrun : destroy n s H = .done H') :
    KeepsSp H H' := by
  induction n generalizing s H H' with
  | zero => cases hrun
  | succ n ih =>
    obtain ⟨type, word⟩ := s
    cases type with
    | STRING => exact deleteMember_keepsSp ih (s := ⟨.STRING, word⟩) nofun hrun
    | BYTEARRAY => exact deleteMember_keepsSp ih (s := ⟨.BYTEARRAY, word⟩) nofun hrun
    | ARRAY => exact deleteMember_keepsSp ih (s := ⟨.ARRAY, word⟩) nofun hrun
    | MAP => exact deleteMember_keepsSp ih (s := ⟨.MAP, word⟩) nofun hrun
    | ERROR => exact deleteMember_keepsSp ih (s := ⟨.ERROR, word⟩) nofun hrun
    | OBJECT =>
      have hreset : reset ⟨.OBJECT, word⟩ H = .done H' := hrun
      rw [reset] at hreset
      split at hreset
      next obj hb =>
        cases hreset
        intro w obj' hw
        by_cases hww : w = word
        · exact ⟨0, by rw [hww]; exact Function.update_self ..⟩
        · exact ⟨obj', (Function.update_of_ne hww _ _).trans hw⟩
      next => cases hreset
    | _ =>
      cases hrun
      exact .refl H

theorem destroyAll_total {n : Nat}
    (h : ∀ {s : Slot} {H : Heap}, H.Bounded → layout.Tree H s → layout.Low H n s → Alive H s →
      ∃ H', destroy n s H = .done H')
    {l : List Slot} {H : Heap} (hH : H.Bounded) (hf : layout.Forest H l)
    (hl : ∀ c ∈ l, layout.Low H n c ∧ Alive H c) : ∃ H', destroyAll (destroy n) l H = .done H' := by
  induction l generalizing H with
  | nil => exact ⟨H, rfl⟩
  | cons c l ih =>
    have hc := List.mem_cons_self (a := c) (l := l)
    have htree := hf.tree c hc
    obtain ⟨H₁, h₁⟩ := h hH htree (hl c hc).1 (hl c hc).2
    have hturn := destroy_turns hH htree h₁
    have hctx := hturn.context (r := l) hf
    obtain ⟨H', h'⟩ := ih hctx.bounded hctx.forest (by
      intro d hd
      have hdt := hf.tree d (List.mem_cons_of_mem c hd)
      obtain ⟨-, -, hm⟩ := hturn.others (r := l) hf hd
      obtain ⟨hlow, halive⟩ := hl d (List.mem_cons_of_mem c hd)
      exact ⟨hdt.low_of_agree hm hlow, halive.congr hdt hm (destroy_keepsSp h₁)⟩)
    refine ⟨H', ?_⟩
    rw [destroyAll, h₁]
    exact h'

theorem deleteMember_total {n : Nat}
    (h : ∀ {s : Slot} {H : Heap}, H.Bounded → layout.Tree H s → layout.Low H n s → Alive H s →
      ∃ H', destroy n s H = .done H')
    {s : Slot} {H : Heap} (hH : H.Bounded) (ht : layout.Tree H s) (hn : layout.Low H (n + 1) s)
    (ha : Alive H s) (ho : s.type.owns = true) (hne : s.type ≠ .OBJECT) :
    ∃ H', deleteMember (destroy n) s H = .done H' := by
  have hp : layout.ptr s = some s.word := ptr_of_owns ho hne
  rw [deleteMember]
  split
  next => exact ⟨H, rfl⟩
  next =>
    obtain ⟨b, hb, -⟩ := ht.live (.here hp)
    obtain ⟨hfits, hf, hout⟩ := ht.children hp hb
    have hunwrap := Layout.Turns.unwrap hH ht hp hb
    simp only [hb, if_pos hfits.1]
    apply destroyAll_total h hunwrap.bounded hunwrap.forest
    intro c hc
    have hm : ∀ q, layout.Owns H c q → (H.free s.word).blocks q = H.blocks q := by
      intro q hq
      apply Function.update_of_ne
      rintro rfl
      exact hout c hc hq
    have halive : Alive H c := by
      intro t hti
      exact ha t (.child hp hb hc hti)
    exact ⟨(hf.tree c hc).low_of_agree hm (hn _ _ hp hb c hc),
      halive.congr (hf.tree c hc) hm (keepsSp_free hb (hfits.1 ▸ hne))⟩

/-- `~val` of a val that is alive ends. -/
theorem destroy_total {n : Nat} {s : Slot} {H : Heap} (hH : H.Bounded) (ht : layout.Tree H s)
    (hn : layout.Low H n s) (ha : Alive H s) : ∃ H', destroy n s H = .done H' := by
  induction n generalizing s H with
  | zero => exact hn.elim
  | succ n ih =>
    have hdelete := deleteMember_total ih hH ht hn ha
    obtain ⟨type, word⟩ := s
    cases type with
    | STRING => exact hdelete rfl nofun
    | BYTEARRAY => exact hdelete rfl nofun
    | ARRAY => exact hdelete rfl nofun
    | MAP => exact hdelete rfl nofun
    | ERROR => exact hdelete rfl nofun
    | OBJECT =>
      obtain ⟨-, obj, hobj⟩ := ha _ (.self _) rfl
      have hblock : H.blocks word = some (.sp obj) := hobj
      refine ⟨H.put word (.sp 0), ?_⟩
      show reset ⟨.OBJECT, word⟩ H = _
      rw [reset]
      simp only [hblock]
    | _ => exact ⟨H, rfl⟩

/-- `setType(EMPTY)` of a val that is alive and no OBJECT ends, and frees no `sp`. -/
theorem setType_empty_total {n : Nat} {s : Slot} {H : Heap} (hH : H.Bounded) (ht : layout.Tree H s)
    (hn : layout.Low H (n + 1) s) (ha : Alive H s) (hne : s.type ≠ .OBJECT) :
    ∃ w H', setType n .EMPTY s H = .done (⟨.EMPTY, w⟩, H') ∧ KeepsSp H H' := by
  have hdelete : s.type.owns = true →
      ∃ H', deleteMember (destroy n) s H = .done H' ∧ KeepsSp H H' := by
    intro ho
    obtain ⟨H', h'⟩ := deleteMember_total destroy_total hH ht hn ha ho hne
    exact ⟨H', h', deleteMember_keepsSp destroy_keepsSp hne h'⟩
  by_cases hempty : s.type = .EMPTY
  · refine ⟨s.word, H, ?_, .refl H⟩
    rw [setType, if_pos hempty]
    obtain ⟨type, word⟩ := s
    cases hempty
    rfl
  · rw [setType, if_neg hempty]
    obtain ⟨type, word⟩ := s
    cases type with
    | STRING =>
      obtain ⟨H', h', hsp⟩ := hdelete rfl
      exact ⟨0, H', by rw [release, h']; rfl, hsp⟩
    | BYTEARRAY =>
      obtain ⟨H', h', hsp⟩ := hdelete rfl
      exact ⟨0, H', by rw [release, h']; rfl, hsp⟩
    | ARRAY =>
      obtain ⟨H', h', hsp⟩ := hdelete rfl
      exact ⟨0, H', by rw [release, h']; rfl, hsp⟩
    | MAP =>
      obtain ⟨H', h', hsp⟩ := hdelete rfl
      exact ⟨0, H', by rw [release, h']; rfl, hsp⟩
    | ERROR =>
      obtain ⟨H', h', hsp⟩ := hdelete rfl
      exact ⟨0, H', by rw [release, h']; rfl, hsp⟩
    | OBJECT => exact (hne rfl).elim
    | _ => exact ⟨word, H, rfl, .refl H⟩

theorem setType_empty_object {w obj : Nat} {H : Heap} (hw : w ≠ 0)
    (hobj : H.blocks w = some (.sp obj)) (n : Nat) :
    setType n .EMPTY ⟨.OBJECT, w⟩ H = .done (⟨.EMPTY, 0⟩, H.free w) := by
  have hdelete : deleteObj ⟨.OBJECT, w⟩ H = .done (H.free w) := by
    rw [deleteObj, if_neg hw]
    simp only [hobj]
  rw [setType, if_neg (by rintro ⟨⟩), release, hdelete]
  rfl

/-! ## Objects that are released -/

/-- An OBJECT inside one of the vals points at this address. -/
def Points (H : Heap) (l : List Slot) (w : Nat) : Prop :=
  ∃ s ∈ l, ∃ t, layout.Inside H s t ∧ t.type = .OBJECT ∧ t.word = w

/-- Every `sp` that `l` points at was reset, and all others were kept. -/
structure Resets (H H' : Heap) (l : List Slot) : Prop where
  reset : ∀ {w}, Points H l w → H'.blocks w = some (.sp 0)
  kept : ∀ {w obj}, H.blocks w = some (.sp obj) → ¬Points H l w → H'.blocks w = some (.sp obj)

theorem points_congr {H H' : Heap} {l : List Slot}
    (h : ∀ s ∈ l, ∀ t, layout.Inside H' s t ↔ layout.Inside H s t) (w : Nat) :
    Points H' l w ↔ Points H l w := by
  constructor
  · rintro ⟨s, hs, t, hti, ht⟩
    exact ⟨s, hs, t, (h s hs t).mp hti, ht⟩
  · rintro ⟨s, hs, t, hti, ht⟩
    exact ⟨s, hs, t, (h s hs t).mpr hti, ht⟩

theorem points_cons {H : Heap} {c : Slot} {l : List Slot} {w : Nat} :
    Points H (c :: l) w ↔ Points H [c] w ∨ Points H l w := by
  constructor
  · rintro ⟨s, hs, ht⟩
    rcases List.mem_cons.mp hs with rfl | hs
    · exact Or.inl ⟨s, List.mem_singleton_self s, ht⟩
    · exact Or.inr ⟨s, hs, ht⟩
  · rintro (⟨s, hs, ht⟩ | ⟨s, hs, ht⟩)
    · rw [List.mem_singleton.mp hs] at ht
      exact ⟨c, List.mem_cons_self .., ht⟩
    · exact ⟨s, List.mem_cons_of_mem c hs, ht⟩

/-- A val with a block points at what the vals in it point at. -/
theorem points_block {H : Heap} {s : Slot} {p : Nat} {b : Block} (hp : layout.ptr s = some p)
    (hb : H.blocks p = some b) (w : Nat) : Points H [s] w ↔ Points H b.children w := by
  constructor
  · rintro ⟨s', hs', t, hti, htobj, rfl⟩
    rw [List.mem_singleton.mp hs'] at hti
    cases hti with
    | self => exact ((ptr_eq_word hp).2.2 htobj).elim
    | child hp' hb' hc hti =>
      cases hp.symm.trans hp'
      cases hb.symm.trans hb'
      exact ⟨_, hc, t, hti, htobj, rfl⟩
  · rintro ⟨c, hc, t, hti, ht⟩
    exact ⟨s, List.mem_singleton_self s, t, .child hp hb hc hti, ht⟩

theorem points_plain {H : Heap} {s : Slot} (hs : s.type.owns = false) (w : Nat) :
    ¬Points H [s] w := by
  rintro ⟨s', hs', t, hti, htobj, -⟩
  rw [List.mem_singleton.mp hs'] at hti
  rw [inside_leaf (ptr_plain hs) hti] at htobj
  rw [htobj] at hs
  cases hs

theorem Resets.none {H : Heap} {l : List Slot} (h : ∀ w, ¬Points H l w) : Resets H H l where
  reset hw := (h _ hw).elim
  kept hw _ := hw

theorem destroyAll_resets {destroy : Slot → Heap → Outcome Heap}
    (hturns : ∀ {s : Slot} {H H' : Heap}, H.Bounded → layout.Tree H s → destroy s H = .done H' →
      layout.Turns H H' [s] [])
    (h : ∀ {s : Slot} {H H' : Heap}, H.Bounded → layout.Tree H s → destroy s H = .done H' →
      Resets H H' [s])
    {l : List Slot} {H H' : Heap} (hH : H.Bounded) (hf : layout.Forest H l)
    (hrun : destroyAll destroy l H = .done H') : Resets H H' l := by
  induction l generalizing H with
  | nil =>
    cases hrun
    exact .none fun w hw => by
      obtain ⟨s, hs, -⟩ := hw
      cases hs
  | cons c l ih =>
    obtain ⟨H₁, hc, hrun⟩ := Outcome.bind_eq_done hrun
    have htree := hf.tree c (List.mem_cons_self ..)
    have hturn := hturns hH htree hc
    have hhead := h hH htree hc
    have hctx := hturn.context (r := l) hf
    have htail := ih hctx.bounded hctx.forest hrun
    have hpoints : ∀ w, Points H₁ l w ↔ Points H l w := by
      apply points_congr
      intro d hd
      obtain ⟨-, -, hm⟩ := hturn.others (r := l) hf hd
      exact (hf.tree d (List.mem_cons_of_mem c hd)).inside_iff hm
    constructor
    · intro w hw
      by_cases hl : Points H l w
      · exact htail.reset ((hpoints w).mpr hl)
      · have hcw := (points_cons.mp hw).resolve_right hl
        exact htail.kept (hhead.reset hcw) (fun h' => hl ((hpoints w).mp h'))
    · intro w obj hw hnot
      have hcw : ¬Points H [c] w := fun h' => hnot (points_cons.mpr (Or.inl h'))
      have hlw : ¬Points H l w := fun h' => hnot (points_cons.mpr (Or.inr h'))
      exact htail.kept (hhead.kept hw hcw) (fun h' => hlw ((hpoints w).mp h'))

theorem deleteMember_resets {destroy : Slot → Heap → Outcome Heap}
    (hturns : ∀ {s : Slot} {H H' : Heap}, H.Bounded → layout.Tree H s → destroy s H = .done H' →
      layout.Turns H H' [s] [])
    (h : ∀ {s : Slot} {H H' : Heap}, H.Bounded → layout.Tree H s → destroy s H = .done H' →
      Resets H H' [s])
    {s : Slot} {H H' : Heap} (hH : H.Bounded) (ht : layout.Tree H s) (ho : s.type.owns = true)
    (hne : s.type ≠ .OBJECT) (hrun : deleteMember destroy s H = .done H') : Resets H H' [s] := by
  have hp : layout.ptr s = some s.word := ptr_of_owns ho hne
  obtain ⟨b, hb, hns⟩ := ht.live (.here hp)
  obtain ⟨hfits, hforest, hout⟩ := ht.children hp hb
  have hunwrap := Layout.Turns.unwrap hH ht hp hb
  rw [deleteMember, if_neg hfits.2.2] at hrun
  simp only [hb, if_pos hfits.1] at hrun
  have hall := destroyAll_resets hturns h hunwrap.bounded hunwrap.forest hrun
  have hpoints : ∀ w, Points (H.free s.word) b.children w ↔ Points H [s] w := by
    intro w
    rw [points_block hp hb]
    apply points_congr
    intro c hc
    apply (hforest.tree c hc).inside_iff
    intro q hq
    apply Function.update_of_ne
    rintro rfl
    exact hout c hc hq
  constructor
  · intro w hw
    exact hall.reset ((hpoints w).mpr hw)
  · intro w obj hw hnot
    refine hall.kept ((Function.update_of_ne ?_ _ _).trans hw) (fun h' => hnot ((hpoints w).mp h'))
    rintro rfl
    cases hb.symm.trans hw
    exact hns rfl

/-- `~val` resets the objects inside and keeps the others. -/
theorem destroy_resets {n : Nat} {s : Slot} {H H' : Heap} (hH : H.Bounded) (ht : layout.Tree H s)
    (hrun : destroy n s H = .done H') : Resets H H' [s] := by
  induction n generalizing s H H' with
  | zero => cases hrun
  | succ n ih =>
    have hdelete : s.type.owns = true → s.type ≠ .OBJECT → deleteMember (destroy n) s H = .done H' →
        Resets H H' [s] := deleteMember_resets destroy_turns ih hH ht
    obtain ⟨type, word⟩ := s
    cases type with
    | STRING => exact hdelete rfl nofun hrun
    | BYTEARRAY => exact hdelete rfl nofun hrun
    | ARRAY => exact hdelete rfl nofun hrun
    | MAP => exact hdelete rfl nofun hrun
    | ERROR => exact hdelete rfl nofun hrun
    | OBJECT =>
      have hreset : reset ⟨.OBJECT, word⟩ H = .done H' := hrun
      rw [reset] at hreset
      split at hreset
      next obj hb =>
        cases hreset
        constructor
        · rintro w ⟨s', hs', t, hti, -, rfl⟩
          rw [List.mem_singleton.mp hs'] at hti
          rw [inside_leaf (ptr_object rfl) hti]
          exact Function.update_self ..
        · intro w obj' hw hnot
          refine (Function.update_of_ne ?_ _ _).trans hw
          rintro rfl
          exact hnot ⟨_, List.mem_singleton_self _, _, .self _, rfl, rfl⟩
      next => cases hreset
    | _ =>
      cases hrun
      exact .none (points_plain rfl)

/-- With enough fuel `setType(EMPTY)` ends. -/
theorem setType_empty_done {v : Slot} {H : Heap} (hH : H.Bounded) (ht : layout.Tree H v)
    (ha : Alive H v) : ∃ N, ∀ n ≥ N, ∃ r, setType n .EMPTY v H = .done r := by
  obtain ⟨N, hN⟩ := ht.exists_low
  refine ⟨N, ?_⟩
  intro n hn
  by_cases hobj : v.type = .OBJECT
  · obtain ⟨hne, obj, hsp⟩ := ha v (.self v) hobj
    obtain ⟨type, word⟩ := v
    cases hobj
    exact ⟨_, setType_empty_object hne hsp n⟩
  · have hlow : layout.Low H (n + 1) v := hN.mono (by omega)
    obtain ⟨w, H', hset, -⟩ := setType_empty_total hH ht hlow ha hobj
    exact ⟨_, hset⟩

theorem setType_empty_resets {n : Nat} {v : Slot} {H : Heap} {r : Slot × Heap} (hH : H.Bounded)
    (ht : layout.Tree H v) (hne : v.type ≠ .OBJECT) (hrun : setType n .EMPTY v H = .done r) :
    Resets H r.2 [v] := by
  rw [setType] at hrun
  split at hrun
  next hempty =>
    cases hrun
    exact .none (points_plain (by rw [hempty]; rfl))
  next =>
    obtain ⟨x, hx, hrun⟩ := Outcome.bind_eq_done hrun
    cases hrun
    show Resets H x.2 [v]
    have hdelete : v.type.owns = true →
        ((deleteMember (destroy n) v H).bind fun H => .done (0, H)) = .done x →
          Resets H x.2 [v] := by
      intro ho hrun
      obtain ⟨H₁, hd, hrun⟩ := Outcome.bind_eq_done hrun
      cases hrun
      exact deleteMember_resets destroy_turns destroy_resets hH ht ho hne hd
    obtain ⟨type, word⟩ := v
    cases type with
    | STRING => exact hdelete rfl hx
    | BYTEARRAY => exact hdelete rfl hx
    | ARRAY => exact hdelete rfl hx
    | MAP => exact hdelete rfl hx
    | ERROR => exact hdelete rfl hx
    | OBJECT => exact (hne rfl).elim
    | _ =>
      cases hx
      exact .none (points_plain rfl)

/-- What happens to an object when a val becomes EMPTY. -/
theorem setType_empty_objectVal {n : Nat} {v : Slot} {H : Heap} {r : Slot × Heap} (hH : H.Bounded)
    (ht : layout.Tree H v) (ha : Alive H v) (hrun : setType n .EMPTY v H = .done r) {w obj : Nat}
    (hw : w ≠ 0) (hobj : H.blocks w = some (.sp obj)) :
    objectVal r.2 w = objectVal H w ↔ (Points H [v] w → v.type ≠ .OBJECT ∧ obj = 0) := by
  rw [objectVal_of_sp hobj hw]
  by_cases hv : v.type = .OBJECT
  · -- the `sp` of the destination is deleted
    obtain ⟨hne, obj', hsp⟩ := ha v (.self v) hv
    have hpoints : Points H [v] w ↔ v.word = w := by
      constructor
      · rintro ⟨s, hs, t, hti, -, rfl⟩
        rw [List.mem_singleton.mp hs] at hti
        rw [inside_leaf (ptr_object hv) hti]
      · intro hvw
        exact ⟨v, List.mem_singleton_self v, v, .self v, hv, hvw⟩
    have hfree : r.2 = H.free v.word := by
      obtain ⟨type, word⟩ := v
      cases hv
      cases (setType_empty_object hne hsp n).symm.trans hrun
      rfl
    rw [hfree, hpoints]
    by_cases hvw : v.word = w
    · have hgone : objectVal (H.free v.word) w = none := by
        have hnone : (H.free v.word).blocks w = none := by
          rw [hvw]
          exact Function.update_self ..
        rw [objectVal, if_neg hw]
        simp only [hnone]
      rw [hgone]
      exact iff_of_false (by rintro ⟨⟩) (fun h => (h hvw).1 hv)
    · have hkept : (H.free v.word).blocks w = some (.sp obj) :=
        (Function.update_of_ne (Ne.symm hvw) _ _).trans hobj
      exact iff_of_true (objectVal_of_sp hkept hw) (fun h => (hvw h).elim)
  · have hresets := setType_empty_resets hH ht hv hrun
    by_cases hpoints : Points H [v] w
    · rw [objectVal_of_sp (hresets.reset hpoints) hw]
      constructor
      · intro h _
        cases h
        exact ⟨hv, rfl⟩
      · intro h
        rw [(h hpoints).2]
    · exact iff_of_true (objectVal_of_sp (hresets.kept hobj hpoints) hw) (fun h => (hpoints h).elim)

end Libacorn.ValHeap
