import Libacorn.StreamTruncation

/-!
# Which truncations are detected

`write<val>` produces the encoding whenever it ends and its bytes can be taken
out of the stream. A cut of it is detected unless the val ends in an ERROR, is a
long STRING or BYTEARRAY, or holds one of these two inside.
-/

namespace Libacorn

open Support

namespace Bytestream

/-! ## What the writer produces -/

/-- `_cb` is the size of the allocation as an `int32_t`; the size may be above its
range. -/
structure Sized (s : Bytestream) : Prop where
  cb_eq : s.cb = int32 s.mem.length
  write_le : s.offsetWrite ≤ s.mem.length
  lt : s.mem.length < 2 ^ 32

def sized : Output Bytestream where
  ready := Sized
  written := written
  room := 2 ^ 32

theorem copyIn_appends {s t : Bytestream} {b : Bytes} (hs : s.Sized)
    (h : copyIn b s = .done ((), t)) : t.Sized ∧ t.written = s.written ++ b := by
  by_cases hfit : s.offsetWrite + b.length ≤ s.mem.length
  · obtain ⟨u, hu, hcb, hlen, hoff, hw⟩ := copyIn_eq hfit
    obtain rfl : u = t := (Prod.mk.inj (Outcome.done.inj (hu.symm.trans h))).2
    refine ⟨⟨by rw [hcb, hs.cb_eq, hlen], by omega, by rw [hlen]; exact hs.lt⟩, hw⟩
  · rw [copyIn, if_neg hfit] at h
    cases h

section Write
variable [Uninit]

theorem writeBytes_appends {b : Bytes} (hb : b.length < 2 ^ 32) :
    sized.Appends (writeBytes b) b := by
  intro s r t hs h
  have hcb := hs.cb_eq
  have hw := hs.write_le
  have hlt := hs.lt
  -- with or without a new allocation, the copy is the last step
  have hcopy : ∀ u, u.Sized → u.written = s.written →
      (copyIn b >>= fun _ => pure true) u = .done (r, t) →
      r = true ∧ t.Sized ∧ t.written = s.written ++ b := by
    intro u hu huw hrun
    obtain ⟨a, x, hx, hrun⟩ := Scan.bind_eq_done hrun
    cases hrun
    obtain ⟨ht, htw⟩ := copyIn_appends hu hx
    exact ⟨rfl, ht, by rw [htw, huw]⟩
  by_cases hsmall : s.mem.length < 2 ^ 31
  · have hopen : s.Open := ⟨by rw [hcb, int32_of_lt hsmall], hw, hsmall⟩
    rw [writeBytes_step hopen (by omega)] at h
    by_cases hgrow : b.length > s.mem.length - s.offsetWrite
    · simp only [hgrow, ↓reduceIte] at h
      obtain ⟨a, u, hu, h⟩ := Scan.bind_eq_done h
      have hblock : blockSize (s.offsetWrite + b.length) < 2 ^ 32 := by
        unfold blockSize
        omega
      by_cases hle : s.mem.length ≤ blockSize (s.offsetWrite + b.length)
      · obtain ⟨x, hx, hxcb, hxlen, hxo, hxw⟩ := grow_eq hopen hle
        obtain rfl : x = u := (Prod.mk.inj (Outcome.done.inj (hx.symm.trans hu))).2
        exact hcopy x ⟨by rw [hxcb, hxlen], by omega, by omega⟩ hxw h
      · have hsize : sizeT s.cb = s.mem.length := by
          rw [hopen.cb_eq, sizeT_of_nonneg (by omega) (by omega)]
          rfl
        rw [grow, if_neg (by omega)] at hu
        cases hu
    · simp only [hgrow, ↓reduceIte] at h
      exact hcopy s hs rfl h
  · -- the free size is a large `size_t`
    have hneg : int32 s.mem.length = (s.mem.length : Int) - 2 ^ 32 := by
      unfold int32
      omega
    have hfree : ¬b.length > sizeT (s.cb - s.offsetWrite) := by
      have : (s.cb - s.offsetWrite) % 2 ^ 64 = s.cb - s.offsetWrite + 2 ^ 64 := by omega
      rw [sizeT, this]
      omega
    have hrun : writeBytes b s = (copyIn b >>= fun _ => pure true) s := by
      simp only [writeBytes, hfree, ↓reduceIte, Scan.bind_apply, Scan.pure_apply]
    rw [hrun] at h
    exact hcopy s hs rfl h

theorem writeString_appends {b : Bytes} (hb : b.length < 2 ^ 32) :
    sized.Appends (writeString b) (leBytes 4 b.length ++ b) :=
  (writeBytes_appends (by simp)).bind (writeBytes_appends hb)

theorem writeTyped_appends {v : CVal} (h : sized.Appends (writePayload v) v.payload) :
    sized.Appends (writeTyped v.type (writePayload v)) v.encode :=
  (writeBytes_appends (by simp)).bind h

theorem writeElements_appends {vec : List CVal}
    (h : ∀ v ∈ vec, sized.Appends (writePayload v) v.payload) :
    sized.Appends (writeElements vec) (Val.encodeElements vec) := by
  induction vec with
  | nil =>
    rw [writeElements, Val.encodeElements]
    exact Output.Appends.pure
  | cons v vec ih =>
    rw [writeElements, Val.encodeElements]
    apply (writeTyped_appends (h v (List.mem_cons_self ..))).bind
    exact ih fun v hv => h v (List.mem_cons_of_mem _ hv)

theorem writeFields_appends {fields : List (Bytes × CVal)}
    (hk : ∀ f ∈ fields, f.1.length < 2 ^ 32)
    (h : ∀ f ∈ fields, sized.Appends (writePayload f.2) f.2.payload) :
    sized.Appends (writeFields fields) (Val.encodeFields fields) := by
  induction fields with
  | nil =>
    rw [writeFields, Val.encodeFields]
    exact Output.Appends.pure
  | cons f fields ih =>
    rw [writeFields, Val.encodeFields]
    apply (writeString_appends (hk f (List.mem_cons_self ..))).bind
    apply (writeTyped_appends (h f (List.mem_cons_self ..))).bind
    exact ih (fun f hf => hk f (List.mem_cons_of_mem _ hf))
      fun f hf => h f (List.mem_cons_of_mem _ hf)

theorem writePayload_appends {v : CVal} (h : NoObject v) :
    sized.Appends (writePayload v) v.payload := by
  induction h with
  | @scalar v h =>
    cases v with
    | empty => exact Output.Appends.pure
    | int32 i => exact writeBytes_appends (by simp)
    | int64 i => exact writeBytes_appends (by simp)
    | uint32 u => exact writeBytes_appends (by simp)
    | uint64 u => exact writeBytes_appends (by simp)
    | float32 f => exact writeBytes_appends (by simp)
    | float64 f => exact writeBytes_appends (by simp)
    | _ => exact h.elim
  | measurement unitVal unit =>
    rw [writePayload, Val.payload]
    exact (writeBytes_appends (by simp)).bind (writeBytes_appends (by simp))
  | string h =>
    rw [writePayload, Val.payload]
    exact writeString_appends h
  | bytearray h =>
    rw [writePayload, Val.payload]
    exact writeString_appends (h.trans (by decide))
  | error code h =>
    rw [writePayload, Val.payload]
    apply (writeBytes_appends (by simp)).bind
    have hpure := (writeString_appends h).bind (f := fun _ => pure true) Output.Appends.pure
    rwa [List.append_nil] at hpure
  | array _ ih =>
    rw [writePayload, Val.payload]
    exact (writeBytes_appends (by simp)).bind (writeElements_appends ih)
  | map hk _ ih =>
    rw [writePayload, Val.payload]
    exact (writeBytes_appends (by simp)).bind (writeFields_appends hk ih)

/-- What can be taken out of the stream after `write<val>` is the encoding. -/
theorem written_eq_encode {v : CVal} (h : NoObject v) {r : Bool} {s : Bytestream}
    (hw : writeVal v fresh = .done (r, s)) {w : Bytes} (hg : s.getWrittenBytes = some w) :
    w = v.encode ∧ w.length < 2 ^ 31 := by
  have hfresh : fresh.Sized := ⟨(int32_of_lt (by decide)).symm, Nat.le_refl 0, by decide⟩
  obtain ⟨-, hs, hwritten⟩ := writeTyped_appends (writePayload_appends h) fresh r s hfresh hw
  refine ⟨?_, length_of_getWrittenBytes hg⟩
  have hs' : s.Sized := hs
  have hlt := hs'.lt
  have hle := hs'.write_le
  simp only [getWrittenBytes] at hg
  split at hg
  next hfit =>
    have hint : int32 s.offsetWrite = s.offsetWrite := by
      unfold int32 at hfit ⊢
      omega
    rw [hint, Int.toNat_natCast] at hg
    rw [← Option.some.inj hg]
    exact hwritten
  next => cases hg

end Write

/-! ## Cuts that go unnoticed -/

theorem encodeElements_append (vec vec' : List CVal) :
    Val.encodeElements (vec ++ vec') = Val.encodeElements vec ++ Val.encodeElements vec' := by
  induction vec with
  | nil => rfl
  | cons v vec ih =>
    rw [List.cons_append, Val.encodeElements, Val.encodeElements, ih]
    simp only [List.append_assoc]

theorem encodeFields_append (fields fields' : List (Bytes × CVal)) :
    Val.encodeFields (fields ++ fields') = Val.encodeFields fields ++ Val.encodeFields fields' := by
  induction fields with
  | nil => rfl
  | cons f fields ih =>
    rw [List.cons_append, Val.encodeFields, Val.encodeFields, ih]
    simp only [List.append_assoc]

/-- A cut of an element is a cut of the array, after the elements before it. -/
theorem cut_array {pre post : List CVal} {v : CVal} {q : Bytes} (hq : Cut q v.encode) :
    Cut (leBytes 4 Tag.ARRAY.code ++ (leBytes 4 (pre ++ v :: post).length ++
      (Val.encodeElements pre ++ q))) (Val.encode (.array (pre ++ v :: post))) := by
  rw [encode_of_tag .ARRAY rfl, Val.payload, encodeElements_append]
  exact (((hq.append_right (Val.encodeElements post)).append_left _).append_left _).append_left _

theorem cut_map {pre post : List (Bytes × CVal)} {f : Bytes × CVal} {q : Bytes}
    (hq : Cut q f.2.encode) :
    Cut (leBytes 4 Tag.MAP.code ++ (leBytes 4 (pre ++ f :: post).length ++
      (Val.encodeFields pre ++ (leBytes 4 f.1.length ++ f.1 ++ q))))
      (Val.encode (.map (pre ++ f :: post))) := by
  have henc : Val.encodeFields (f :: post) =
      leBytes 4 f.1.length ++ f.1 ++ (f.2.encode ++ Val.encodeFields post) := rfl
  rw [encode_of_tag .MAP rfl, Val.payload, encodeFields_append, henc]
  exact ((((hq.append_right _).append_left _).append_left _).append_left _).append_left _

/-- The first member of a list without the property. -/
theorem exists_first {α : Type} {P : α → Prop} {l : List α} (h : ¬∀ a ∈ l, P a) :
    ∃ pre x post, l = pre ++ x :: post ∧ (∀ a ∈ pre, P a) ∧ ¬P x := by
  induction l with
  | nil => exact (h (List.forall_mem_nil P)).elim
  | cons a l ih =>
    by_cases ha : P a
    · obtain ⟨pre, x, post, rfl, hpre, hx⟩ := ih fun hl => h (List.forall_mem_cons.mpr ⟨ha, hl⟩)
      exact ⟨a :: pre, x, post, rfl, List.forall_mem_cons.mpr ⟨ha, hpre⟩, hx⟩
    · exact ⟨[], a, l, rfl, List.forall_mem_nil P, ha⟩

/-- The element that is made of `q` cannot be copied or destroyed. -/
def Poisons (elem : Scan Bytes (Bool × CVal)) (q : Bytes) : Prop :=
  elem q = .fault ∨ ∃ r rest, elem q = .done (r, rest) ∧ r.2.destructs = false

theorem Poisons.readElements {elem : Scan Bytes (Bool × CVal)} {q : Bytes} (h : Poisons elem q)
    (num : Nat) (acc : List CVal) : readElements elem (num + 1) acc q = .fault := by
  rw [Bytestream.readElements, Scan.bind_apply]
  rcases h with h | ⟨r, rest, h, hd⟩
  · rw [h]
    rfl
  · rw [h, Outcome.bind_done, if_neg (by simp [hd])]
    rfl

/-- A STRING or BYTEARRAY with this content. -/
def IsText (v : CVal) (b : Bytes) : Prop := v = .string b ∨ v = .bytearray b

theorem IsText.encode {v : CVal} {b : Bytes} (h : IsText v b) :
    ∃ tag, (tag = Tag.STRING ∨ tag = Tag.BYTEARRAY) ∧
      v.encode = leBytes 4 tag.code ++ (leBytes 4 b.length ++ b) := by
  rcases h with rfl | rfl
  · exact ⟨.STRING, Or.inl rfl, by rw [encode_of_tag .STRING rfl, Val.payload]⟩
  · exact ⟨.BYTEARRAY, Or.inr rfl, by rw [encode_of_tag .BYTEARRAY rfl, Val.payload]⟩

section Read
variable [Uninit]

/-- Up to one of its elements, an array is read element by element. -/
theorem decode_array {n : Nat} {pre : List CVal} (v : CVal) (post : List CVal) (q : Bytes)
    (hnum : (pre ++ v :: post).length < 2 ^ 32)
    (ht : ∀ v ∈ pre, Takes (readInto false n .empty) v.encode) :
    ∃ ws : List CVal, (∀ w ∈ ws, w.destructs = true) ∧
      decode (n + 1) .empty (leBytes 4 Tag.ARRAY.code ++ (leBytes 4 (pre ++ v :: post).length ++
        (Val.encodeElements pre ++ q))) =
      (readElements (readInto false n .empty) (post.length + 1) ws q).bind
        fun r => .done ((r.1.1, .array r.1.2), r.2) := by
  obtain ⟨ws, hws, hrun⟩ := readElements_takes ht
  refine ⟨ws, hws, ?_⟩
  rw [decode_tag, readPayload_array _ hnum, List.length_append, List.length_cons, hrun]
  rfl

/-- Up to the value of one of its fields, a map is read field by field. -/
theorem decode_map {n : Nat} {pre : List (Bytes × CVal)} (f : Bytes × CVal)
    (post : List (Bytes × CVal)) (q : Bytes) (hnum : (pre ++ f :: post).length < 2 ^ 32)
    (hk : ∀ g ∈ pre ++ f :: post, g.1.length < 2 ^ 32)
    (ht : ∀ g ∈ pre, Takes (readInto false n .empty) g.2.encode) :
    ∃ ws : List (Bytes × CVal), (∀ w ∈ ws, w.2.destructs = true) ∧
      decode (n + 1) .empty (leBytes 4 Tag.MAP.code ++ (leBytes 4 (pre ++ f :: post).length ++
        (Val.encodeFields pre ++ (leBytes 4 f.1.length ++ f.1 ++ q)))) =
      (readFields (readInto false n .empty) (post.length + 1) ws
        (leBytes 4 f.1.length ++ f.1 ++ q)).bind
        fun r => .done ((r.1.1, .map r.1.2), r.2) := by
  obtain ⟨ws, hws, hrun⟩ := readFields_takes
    (fun g hg => hk g (List.mem_append_left _ hg)) ht
  refine ⟨OrderedMap.insertAll [] ws, destructs_insertAll (List.forall_mem_nil _) hws, ?_⟩
  rw [decode_tag, readPayload_map _ hnum, List.length_append, List.length_cons, hrun]

/-- A val that ends in an ERROR: the cut after the tag of the ERROR. -/
theorem endsInError_unnoticed {v : CVal} (h : EndsInError v) (hp : Plain v)
    (hl : v.encode.length < 2 ^ 31) :
    ∃ q, Cut q v.encode ∧ ∃ N, ∀ n ≥ N, ∃ w rest, Val.destructs w = true ∧
      decode n .empty q = .done ((true, w), rest) := by
  induction h with
  | error code msg =>
    refine ⟨leBytes 4 Tag.ERROR.code, ?_, 1, ?_⟩
    · rw [encode_of_tag .ERROR rfl]
      exact cut_prefix (by simp [Val.payload, leBytes])
    · intro n hn
      obtain ⟨n, rfl⟩ : ∃ m, n = m + 1 := ⟨n - 1, by omega⟩
      refine ⟨.error (BitVec.ofNat 32 (patch 0 [])) [], [], rfl, ?_⟩
      rw [← List.append_nil (leBytes 4 _), decode_tag]
      rfl
  | @array vec v hv h ih =>
    cases hp with
    | scalar h => exact h.elim
    | array hvec =>
      obtain ⟨pre, rfl⟩ := List.getLast?_eq_some_iff.mp hv
      rw [length_encode, Val.payload, List.length_append] at hl
      have hnum := length_le_encodeElements (pre ++ [v])
      have hsize : ∀ u ∈ pre ++ [v], u.encode.length < 2 ^ 31 := by
        intro u hu
        have := encode_le_encodeElements hu
        omega
      have hmem : v ∈ pre ++ [v] := List.mem_append_right _ (List.mem_singleton_self v)
      obtain ⟨q, hq, M, hM⟩ := ih (hvec v hmem) (hsize v hmem)
      obtain ⟨N, hN⟩ := exists_fuel fun u (hu : u ∈ pre) =>
        readInto_takes (hvec u (List.mem_append_left _ hu)) (hsize u (List.mem_append_left _ hu))
      refine ⟨_, cut_array hq, max N M + 1, ?_⟩
      intro n hn
      obtain ⟨n, rfl⟩ : ∃ m, n = m + 1 := ⟨n - 1, by omega⟩
      obtain ⟨ws, hws, hrun⟩ := decode_array v [] q (by omega) (hN n (by omega))
      obtain ⟨w, rest, hw, hread⟩ := hM n (by omega)
      have hread' : (readInto false n .empty : Scan Bytes (Bool × CVal)) q =
          .done ((true, w), rest) := hread
      refine ⟨.array (ws ++ [w]), rest, ?_, ?_⟩
      · apply destructsElements_iff.mpr
        intro u hu
        rcases List.mem_append.mp hu with hu | hu
        · exact hws u hu
        · rw [List.mem_singleton.mp hu]
          exact hw
      · rw [hrun, readElements, Scan.bind_apply, hread', Outcome.bind_done, if_pos hw]
        rfl
  | @map fields f hf h ih =>
    cases hp with
    | scalar h => exact h.elim
    | map hfields =>
      obtain ⟨pre, rfl⟩ := List.getLast?_eq_some_iff.mp hf
      rw [length_encode, Val.payload, List.length_append] at hl
      have hnum := length_le_encodeFields (pre ++ [f])
      have hsize : ∀ g ∈ pre ++ [f], g.1.length < 2 ^ 32 ∧ g.2.encode.length < 2 ^ 31 := by
        intro g hg
        have := encode_le_encodeFields hg
        omega
      have hmem : f ∈ pre ++ [f] := List.mem_append_right _ (List.mem_singleton_self f)
      obtain ⟨q, hq, M, hM⟩ := ih (hfields f hmem) (hsize f hmem).2
      obtain ⟨N, hN⟩ := exists_fuel fun g (hg : g ∈ pre) =>
        readInto_takes (hfields g (List.mem_append_left _ hg))
          (hsize g (List.mem_append_left _ hg)).2
      refine ⟨_, cut_map hq, max N M + 1, ?_⟩
      intro n hn
      obtain ⟨n, rfl⟩ : ∃ m, n = m + 1 := ⟨n - 1, by omega⟩
      obtain ⟨ws, hws, hrun⟩ := decode_map f [] q (by omega)
        (fun g hg => (hsize g hg).1) (hN n (by omega))
      obtain ⟨w, rest, hw, hread⟩ := hM n (by omega)
      have hread' : (readInto false n .empty : Scan Bytes (Bool × CVal)) q =
          .done ((true, w), rest) := hread
      refine ⟨.map (OrderedMap.insert f.1 w ws), rest, ?_, ?_⟩
      · apply destructsFields_iff.mpr
        intro u hu
        rcases OrderedMap.mem_insert hu with rfl | hu
        · exact hw
        · exact hws u hu
      · rw [hrun, readFields, Scan.bind_apply, readString_append (hsize f hmem).1,
          Outcome.bind_done, if_neg (by simp), Scan.bind_apply, hread', Outcome.bind_done,
          if_pos hw]
        rfl

/-! ## Strings inside -/

theorem Poisons.readFields {value : Scan Bytes (Bool × CVal)} {q : Bytes} (h : Poisons value q)
    (num : Nat) {key : Bytes} (hk : key.length < 2 ^ 32) (acc : List (Bytes × CVal)) :
    readFields value (num + 1) acc (leBytes 4 key.length ++ key ++ q) = .fault := by
  rw [Bytestream.readFields, Scan.bind_apply, readString_append hk, Outcome.bind_done,
    if_neg (by simp), Scan.bind_apply]
  rcases h with h | ⟨r, rest, h, hd⟩
  · rw [h]
    rfl
  · rw [h, Outcome.bind_done, if_neg (by simp [hd])]
    rfl

/-- A STRING or BYTEARRAY: up to eight bytes go into the pointer. -/
theorem decode_pointer {tag : Tag} (ht : tag = .STRING ∨ tag = .BYTEARRAY) (n : Nat) (bs : Bytes) :
    ∃ u, decode (n + 1) .empty (leBytes 4 tag.code ++ bs) =
        .done ((decide (8 ≤ bs.length), u), bs.drop 8) ∧
      (u.destructs = true ↔ bs = []) := by
  have hrun : ∀ v : CVal,
      (readPayload false (readInto false n .empty) v tag : Scan Bytes (Bool × CVal)) bs =
      .done ((decide (8 ≤ bs.length), if bs.take 8 = [] then v
        else .raw (BitVec.ofNat 32 tag.code) (BitVec.ofNat 64 (ofLe (bs.take 8)))), bs.drop 8) := by
    intro v
    have hlen : ((bs.take 8).length = 8) = (8 ≤ bs.length) := by
      rw [List.length_take]
      exact propext (by omega)
    rcases ht with rfl | rfl
    · simp only [readPayload, readPointer, Scan.bind_apply, readBytes_list, Outcome.bind_done,
        Scan.pure_apply, hlen]
    · simp only [readPayload, readPointer, Scan.bind_apply, readBytes_list, Outcome.bind_done,
        Scan.pure_apply, hlen]
  refine ⟨_, (decode_tag n tag bs).trans (hrun _), ?_⟩
  cases bs with
  | nil => rcases ht with rfl | rfl <;> exact ⟨fun _ => rfl, fun _ => rfl⟩
  | cons b bs =>
    constructor
    · intro h
      rcases ht with rfl | rfl <;> cases h
    · intro h
      cases h

/-- The cut after the first byte of a string. -/
theorem IsText.poisons {v : CVal} {b : Bytes} (h : IsText v b) :
    ∃ q, Cut q v.encode ∧ ∀ n, Poisons (readInto false (n + 1) .empty) q := by
  obtain ⟨tag, ht, henc⟩ := h.encode
  refine ⟨leBytes 4 tag.code ++ (leBytes 4 b.length ++ b).take 1, ?_, ?_⟩
  · rw [henc]
    apply Cut.append_left
    constructor
    · exact List.take_prefix _ _
    · intro heq
      have := congrArg List.length heq
      simp at this
      omega
  · intro n
    obtain ⟨u, hu, hd⟩ := decode_pointer ht n ((leBytes 4 b.length ++ b).take 1)
    refine Or.inr ⟨_, _, hu, ?_⟩
    rw [← Bool.not_eq_true, hd]
    exact List.cons_ne_nil _ _

/-- A string inside a val: some cut makes the reader follow its pointer. -/
theorem not_plain_poisons {v : CVal} (h : NoObject v) (hl : v.encode.length < 2 ^ 31)
    (hp : ¬Plain v) :
    ∃ q, Cut q v.encode ∧ ∃ N, ∀ n ≥ N, Poisons (readInto false n .empty) q ∧
      ((¬∃ b, IsText v b) → decode n .empty q = .fault) := by
  have htext : ∀ {v : CVal} {b : Bytes}, IsText v b → ∃ q, Cut q v.encode ∧ ∃ N, ∀ n ≥ N,
      Poisons (readInto false n .empty) q ∧ ((¬∃ b, IsText v b) → decode n .empty q = .fault) := by
    intro v b hv
    obtain ⟨q, hq, hrun⟩ := hv.poisons
    refine ⟨q, hq, 1, ?_⟩
    intro n hn
    obtain ⟨n, rfl⟩ : ∃ m, n = m + 1 := ⟨n - 1, by omega⟩
    exact ⟨hrun n, fun hnot => (hnot ⟨b, hv⟩).elim⟩
  induction h with
  | scalar h => exact (hp (.scalar h)).elim
  | measurement unitVal unit => exact (hp (.measurement unitVal unit)).elim
  | error code _ => exact (hp (.error code _)).elim
  | string _ => exact htext (Or.inl rfl)
  | bytearray _ => exact htext (Or.inr rfl)
  | @array vec hvec ih =>
    obtain ⟨pre, x, post, rfl, hpre, hx⟩ := exists_first fun h => hp (.array h)
    rw [length_encode, Val.payload, List.length_append] at hl
    have hnum := length_le_encodeElements (pre ++ x :: post)
    have hsize : ∀ u ∈ pre ++ x :: post, u.encode.length < 2 ^ 31 := by
      intro u hu
      have := encode_le_encodeElements hu
      omega
    have hmem : x ∈ pre ++ x :: post := List.mem_append_right _ (List.mem_cons_self ..)
    obtain ⟨q, hq, M, hM⟩ := ih x hmem (hsize x hmem) hx
    obtain ⟨N, hN⟩ := exists_fuel fun u (hu : u ∈ pre) =>
      readInto_takes (hpre u hu) (hsize u (List.mem_append_left _ hu))
    refine ⟨_, cut_array hq, max N M + 1, ?_⟩
    intro n hn
    obtain ⟨n, rfl⟩ : ∃ m, n = m + 1 := ⟨n - 1, by omega⟩
    obtain ⟨ws, -, hrun⟩ := decode_array x post q (by omega) (hN n (by omega))
    rw [(hM n (by omega)).1.readElements] at hrun
    exact ⟨Or.inl hrun, fun _ => hrun⟩
  | @map fields hk hfields ih =>
    obtain ⟨pre, f, post, rfl, hpre, hf⟩ := exists_first fun h => hp (.map h)
    rw [length_encode, Val.payload, List.length_append] at hl
    have hnum := length_le_encodeFields (pre ++ f :: post)
    have hsize : ∀ g ∈ pre ++ f :: post, g.2.encode.length < 2 ^ 31 := by
      intro g hg
      have := encode_le_encodeFields hg
      omega
    have hmem : f ∈ pre ++ f :: post := List.mem_append_right _ (List.mem_cons_self ..)
    obtain ⟨q, hq, M, hM⟩ := ih f hmem (hsize f hmem) hf
    obtain ⟨N, hN⟩ := exists_fuel fun g (hg : g ∈ pre) =>
      readInto_takes (hpre g hg) (hsize g (List.mem_append_left _ hg))
    refine ⟨_, cut_map hq, max N M + 1, ?_⟩
    intro n hn
    obtain ⟨n, rfl⟩ : ∃ m, n = m + 1 := ⟨n - 1, by omega⟩
    obtain ⟨ws, -, hrun⟩ := decode_map f post q (by omega) hk (hN n (by omega))
    rw [(hM n (by omega)).1.readFields _ (hk f hmem)] at hrun
    exact ⟨Or.inl hrun, fun _ => hrun⟩

/-! ## Detection -/

/-- `read<val>` returns false on every proper prefix. -/
def Detects (w : Bytes) : Prop :=
  ∀ p, Cut p w → ∃ N, ∀ n ≥ N, ∃ t, readVal n (ofBytearray p) = .done (none, t)

/-- A short STRING or BYTEARRAY; or a val without these two inside that does not
end in an ERROR. -/
def Detectable (v : CVal) : Prop :=
  (∃ b, IsText v b ∧ b.length ≤ 4) ∨ Plain v ∧ ¬EndsInError v

/-- `readVal` from a stream, by what `decode` does with its bytes. -/
theorem readVal_of_decode {p rest : Bytes} (hl : p.length < 2 ^ 31) {n : Nat} {r : Bool × CVal}
    (h : decode n .empty p = .done (r, rest)) :
    ∃ t, readVal n (ofBytearray p) = .done (if r.1 then some r.2 else none, t) := by
  obtain ⟨t, ht, -⟩ := (decode_sim p n .empty).done_of_done
    (ahead_ofBytearray hl) h
  refine ⟨t, ?_⟩
  rw [readVal, Scan.bind_apply, ht]
  rfl

theorem readVal_of_fault {p : Bytes} (hl : p.length < 2 ^ 31) {n : Nat}
    (h : decode n .empty p = .fault) : readVal n (ofBytearray p) = .fault := by
  have hr := ((decode_sim p n .empty).fault_iff (ahead_ofBytearray hl)).mpr h
  rw [readVal, Scan.bind_apply, hr]
  rfl

theorem not_detects_of_true {w q : Bytes} (hl : w.length < 2 ^ 31) (hq : Cut q w) {N : Nat}
    (h : ∀ n ≥ N, ∃ u rest, decode n .empty q = .done ((true, u), rest)) : ¬Detects w := by
  intro hd
  obtain ⟨M, hM⟩ := hd q hq
  obtain ⟨t, ht⟩ := hM (max N M) (Nat.le_max_right N M)
  obtain ⟨u, rest, hu⟩ := h (max N M) (Nat.le_max_left N M)
  obtain ⟨t', ht'⟩ := readVal_of_decode (hq.length_lt.trans hl) hu
  rw [ht] at ht'
  cases ht'

theorem not_detects_of_fault {w q : Bytes} (hl : w.length < 2 ^ 31) (hq : Cut q w) {N : Nat}
    (h : ∀ n ≥ N, decode n .empty q = .fault) : ¬Detects w := by
  intro hd
  obtain ⟨M, hM⟩ := hd q hq
  obtain ⟨t, ht⟩ := hM (max N M) (Nat.le_max_right N M)
  rw [readVal_of_fault (hq.length_lt.trans hl) (h (max N M) (Nat.le_max_left N M))] at ht
  cases ht

/-- A STRING or BYTEARRAY on its own. -/
theorem IsText.detects_iff {v : CVal} {b : Bytes} (h : IsText v b) (hl : v.encode.length < 2 ^ 31) :
    Detects v.encode ↔ b.length ≤ 4 := by
  obtain ⟨tag, ht, henc⟩ := h.encode
  rw [henc] at hl ⊢
  constructor
  · intro hd
    by_contra hlong
    -- the cut after eight bytes fills the pointer
    have hq : Cut (leBytes 4 tag.code ++ (leBytes 4 b.length ++ b).take 8)
        (leBytes 4 tag.code ++ (leBytes 4 b.length ++ b)) := by
      apply Cut.append_left
      constructor
      · exact List.take_prefix _ _
      · intro heq
        have := congrArg List.length heq
        simp at this
        omega
    refine not_detects_of_true hl hq (N := 1) ?_ hd
    intro n hn
    obtain ⟨n, rfl⟩ : ∃ m, n = m + 1 := ⟨n - 1, by omega⟩
    obtain ⟨u, hu, -⟩ := decode_pointer ht n ((leBytes 4 b.length ++ b).take 8)
    have h8 : 8 ≤ ((leBytes 4 b.length ++ b).take 8).length := by
      simp
      omega
    rw [decide_eq_true h8] at hu
    exact ⟨u, _, hu⟩
  · intro hshort p hp
    refine ⟨1, ?_⟩
    intro n hn
    obtain ⟨n, rfl⟩ : ∃ m, n = m + 1 := ⟨n - 1, by omega⟩
    have hpl := hp.length_lt.trans hl
    rcases hp.append with hcut | ⟨q, rfl, hcut⟩
    · exact readVal_of_decode hpl (decode_short n .empty (by simpa using hcut.length_lt))
    · obtain ⟨u, hu, -⟩ := decode_pointer ht n q
      have h8 : ¬8 ≤ q.length := by
        have := hcut.length_lt
        rw [List.length_append, length_leBytes] at this
        omega
      rw [decide_eq_false h8] at hu
      exact readVal_of_decode hpl hu

/-- Every truncation of what `write<val>` produces is detected if and only if the
val is detectable. -/
theorem truncation_detected_iff {v : CVal} (h : NoObject v) {s : Bytestream}
    (hw : writeVal v fresh = .done (true, s)) {w : Bytes} (hg : s.getWrittenBytes = some w) :
    Detects w ↔ Detectable v := by
  obtain ⟨rfl, hl⟩ := written_eq_encode h hw hg
  by_cases htext : ∃ b, IsText v b
  · obtain ⟨b, hb⟩ := htext
    rw [hb.detects_iff hl]
    constructor
    · intro hshort
      exact Or.inl ⟨b, hb, hshort⟩
    · rintro (⟨c, hc, hshort⟩ | ⟨hp, -⟩)
      · obtain rfl : c = b := by
          rcases hb with rfl | rfl <;> rcases hc with hc | hc <;> cases hc <;> rfl
        exact hshort
      · rcases hb with rfl | rfl <;> cases hp with | scalar h => exact h.elim
  by_cases hp : Plain v
  · by_cases he : EndsInError v
    · obtain ⟨q, hq, N, hN⟩ := endsInError_unnoticed he hp hl
      have hnot : ¬Detects v.encode := by
        apply not_detects_of_true hl hq
        intro n hn
        obtain ⟨u, rest, -, hu⟩ := hN n hn
        exact ⟨u, rest, hu⟩
      constructor
      · intro hd
        exact (hnot hd).elim
      · rintro (⟨b, hb, -⟩ | ⟨-, hne⟩)
        · exact (htext ⟨b, hb⟩).elim
        · exact (hne he).elim
    · refine iff_of_true ?_ (Or.inr ⟨hp, he⟩)
      intro p hcut
      obtain ⟨N, hN⟩ := readInto_stops hp hl
      refine ⟨N, ?_⟩
      intro n hn
      obtain ⟨⟨r, u⟩, rest, hr, -, hres⟩ := hN n hn p hcut
      obtain rfl : r = false := by
        rcases hres with hres | ⟨he', -⟩
        · exact hres
        · exact (he he').elim
      exact readVal_of_decode (hcut.length_lt.trans hl) hr
  · obtain ⟨q, hq, N, hN⟩ := not_plain_poisons h hl hp
    have hnot : ¬Detects v.encode := not_detects_of_fault hl hq fun n hn => (hN n hn).2 htext
    constructor
    · intro hd
      exact (hnot hd).elim
    · rintro (⟨b, hb, -⟩ | ⟨hp', -⟩)
      · exact (htext ⟨b, hb⟩).elim
      · exact (hp hp').elim

end Read

/-- An array of one number: every truncation is detected. -/
theorem truncation_detected_array :
    letI := zeroMemory
    ∃ s w, writeVal (.array [.int32 7]) fresh = .done (true, s) ∧
      s.getWrittenBytes = some w ∧ Detects w := by
  let _ := zeroMemory
  have hall : ∀ v ∈ [(.int32 7 : CVal)], v.IsScalar := by
    intro v hv
    rw [List.mem_singleton.mp hv]
    trivial
  have hstruct : Structured (.array [.int32 7]) := .array fun v hv => .scalar (hall v hv)
  obtain ⟨s, w, hs, hw, -⟩ := RoundTrips.of_writes (writePayload_structured hstruct) (by decide)
    (readVal_structured hstruct (by decide))
  refine ⟨s, w, hs, hw, ?_⟩
  apply (truncation_detected_iff (.array fun v hv => .scalar (hall v hv)) hs hw).mpr
  right
  refine ⟨.array fun v hv => .scalar (hall v hv), ?_⟩
  intro he
  cases he with
  | array hv h =>
    cases hv
    cases h

/-- The ERROR 5 with an empty message, cut after its tag. -/
theorem error_truncation_undetected :
    letI := zeroMemory
    NoObject (.error 5 []) ∧ ∃ s w, writeVal (.error 5 []) fresh = .done (true, s) ∧
      s.getWrittenBytes = some w ∧ ¬Detects w := by
  let _ := zeroMemory
  have hno : NoObject (.error 5 []) := .error 5 (by decide)
  obtain ⟨s, w, hs, hw, -⟩ :=
    (error_roundTrips_iff 5 (show ([] : Bytes).length < 2 ^ 32 by decide)).mpr (by decide)
  obtain ⟨rfl, hl⟩ := written_eq_encode hno hs hw
  obtain ⟨q, hq, N, hN⟩ := endsInError_unnoticed (.error 5 []) (.error 5 []) hl
  refine ⟨hno, s, _, hs, hw, ?_⟩
  apply not_detects_of_true hl hq
  intro n hn
  obtain ⟨u, rest, -, hu⟩ := hN n hn
  exact ⟨u, rest, hu⟩

end Bytestream

end Libacorn
