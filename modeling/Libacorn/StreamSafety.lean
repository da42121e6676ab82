import Libacorn.StreamDestination

/-!
# Reading arbitrary bytes

The tag goes from the stream into `setType` before anything looks at it.
`skipVal` follows the format without making a val. It faults where `read<val>`
would take stream bytes for a pointer or reach its `assert`, and marks the vals
that keep bytes nobody wrote. `decoding_safe_iff` says for which bytes the read is
safe.
-/

namespace Libacorn

open Support

namespace Bytestream

/-! ## Following the format -/

/-- A member of `k` bytes: the result, and whether all its bytes are there. -/
def skipBytes (k : Nat) : Scan Bytes (Bool × Bool) := fun bs =>
  .done ((decide (k ≤ bs.length), decide (k ≤ bs.length)), bs.drop k)

/-- The two high bytes of the unit are never written. -/
def skipMeasurement : Scan Bytes (Bool × Bool) := fun bs =>
  .done ((decide (6 ≤ bs.length), false), bs.drop 6)

/-- Whatever comes after a STRING or BYTEARRAY tag would go into its pointer. -/
def skipText : Scan Bytes (Bool × Bool) := fun bs =>
  if bs = [] then .done ((false, true), []) else .fault

/-- The key of an entry, if it is complete. -/
def skipKey : Scan Bytes (Option Bytes) := do
  match ← readLe 4 with
  | none => pure none
  | some cb => fun bs => .done (if cb ≤ bs.length then some (bs.take cb) else none, bs.drop cb)

/-- A message is empty when its size is cut off, and otherwise keeps what its new
buffer held behind the bytes that are there. -/
def skipMessage : Scan Bytes Bool := do
  match ← readLe 4 with
  | none => pure true
  | some cb => fun bs => .done (decide (cb ≤ bs.length), bs.drop cb)

def skipElements (elem : Scan Bytes (Bool × Bool)) :
    Nat → List Bool → Scan Bytes (Bool × List Bool)
  | 0, marks => pure (true, marks)
  | num + 1, marks => do
    let r ← elem
    if r.1 then skipElements elem num (marks ++ [r.2]) else pure (false, marks)

/-- The value of a key that is there is dropped. -/
def skipFields (value : Scan Bytes (Bool × Bool)) :
    Nat → List (Bytes × Bool) → Scan Bytes (Bool × List (Bytes × Bool))
  | 0, marks => pure (true, marks)
  | num + 1, marks => do
    match ← skipKey with
    | none => pure (false, marks)
    | some key =>
      let r ← value
      if r.1 then skipFields value num (OrderedMap.insert key r.2 marks) else pure (false, marks)

def skipPayload (value : Scan Bytes (Bool × Bool)) : Tag → Scan Bytes (Bool × Bool)
  | .STRING => skipText
  | .BYTEARRAY => skipText
  | .MEASUREMENT => skipMeasurement
  | .ARRAY => do
    match ← readLe 4 with
    | none => pure (false, true)
    | some num =>
      let r ← skipElements value num []
      pure (r.1, r.2.all id)
  | .MAP => do
    match ← readLe 4 with
    | none => pure (false, true)
    | some num =>
      let r ← skipFields value num []
      pure (r.1, r.2.all Prod.snd)
  | .OBJECT => Scan.fault
  | .ERROR => do
    let _ ← skipBytes 4
    let whole ← skipMessage
    pure (true, whole)
  | tag => skipBytes (((number tag).map Prod.fst).getD 0)

/-- What `read<val>` returns, and whether every byte of the val was written. -/
def skipVal : Nat → Scan Bytes (Bool × Bool)
  | 0 => Scan.timeout
  | n + 1 => do
    match ← readLe 4 with
    | none => pure (false, true)
    | some type =>
      match Tag.ofCode type with
      | none => pure (false, false)
      | some tag => skipPayload (skipVal n) tag

/-! ### It ends -/

/-- With less than `n` bytes ahead, `m` ends and leaves no more than there were. -/
def Shrinks {α : Type} (n : Nat) (m : Scan Bytes α) : Prop :=
  ∀ bs : Bytes, bs.length < n →
    m bs = .fault ∨ ∃ a rest, m bs = .done (a, rest) ∧ rest.length ≤ bs.length

section Shrinks
variable {α β : Type} {n : Nat}

theorem Shrinks.pure (a : α) : Shrinks n (Pure.pure a : Scan Bytes α) := by
  intro bs _
  exact Or.inr ⟨a, bs, rfl, Nat.le_refl _⟩

theorem Shrinks.bind {m : Scan Bytes α} {f : α → Scan Bytes β} (h : Shrinks n m)
    (hf : ∀ a, Shrinks n (f a)) : Shrinks n (m >>= f) := by
  intro bs hbs
  rw [Scan.bind_apply]
  rcases h bs hbs with hm | ⟨a, rest, hm, hle⟩
  · rw [hm]
    exact Or.inl rfl
  · rw [hm, Outcome.bind_done]
    rcases hf a rest (by omega) with h' | ⟨b, rest', h', hle'⟩
    · exact Or.inl h'
    · exact Or.inr ⟨b, rest', h', by omega⟩

theorem Shrinks.ite {c : Prop} [Decidable c] {m m' : Scan Bytes α} (h : Shrinks n m)
    (h' : Shrinks n m') : Shrinks n (if c then m else m') := by
  split
  · exact h
  · exact h'

/-- A scan that drops some bytes. -/
theorem Shrinks.drop {m : Scan Bytes α} {k : Nat} {f : Bytes → α}
    (h : ∀ bs, m bs = .done (f bs, bs.drop k)) : Shrinks n m := by
  intro bs _
  refine Or.inr ⟨_, _, h bs, ?_⟩
  rw [List.length_drop]
  omega

theorem readLe_shrinks (k : Nat) : Shrinks n (readLe k : Scan Bytes (Option Nat)) :=
  Shrinks.drop (k := k) fun _ => rfl

theorem skipElements_shrinks {elem : Scan Bytes (Bool × Bool)} (h : Shrinks n elem) (num : Nat)
    (marks : List Bool) : Shrinks n (skipElements elem num marks) := by
  induction num generalizing marks with
  | zero => exact Shrinks.pure _
  | succ num ih =>
    apply h.bind
    intro r
    exact (ih _).ite (Shrinks.pure _)

theorem skipKey_shrinks : Shrinks n skipKey := by
  apply (readLe_shrinks 4).bind
  intro cb
  cases cb with
  | none => exact Shrinks.pure _
  | some cb => exact Shrinks.drop fun _ => rfl

theorem skipFields_shrinks {value : Scan Bytes (Bool × Bool)} (h : Shrinks n value) (num : Nat)
    (marks : List (Bytes × Bool)) : Shrinks n (skipFields value num marks) := by
  induction num generalizing marks with
  | zero => exact Shrinks.pure _
  | succ num ih =>
    apply skipKey_shrinks.bind
    intro key
    cases key with
    | none => exact Shrinks.pure _
    | some key =>
      apply h.bind
      intro r
      exact (ih _).ite (Shrinks.pure _)

theorem skipPayload_shrinks {value : Scan Bytes (Bool × Bool)} (h : Shrinks n value) (tag : Tag) :
    Shrinks n (skipPayload value tag) := by
  have htext : Shrinks n skipText := by
    intro bs _
    rw [skipText]
    split
    · exact Or.inr ⟨_, _, rfl, Nat.zero_le _⟩
    · exact Or.inl rfl
  cases tag with
  | STRING => exact htext
  | BYTEARRAY => exact htext
  | OBJECT =>
    intro bs _
    exact Or.inl rfl
  | ARRAY =>
    apply (readLe_shrinks 4).bind
    intro num
    cases num with
    | none => exact Shrinks.pure _
    | some num => exact (skipElements_shrinks h num []).bind fun _ => Shrinks.pure _
  | MAP =>
    apply (readLe_shrinks 4).bind
    intro num
    cases num with
    | none => exact Shrinks.pure _
    | some num => exact (skipFields_shrinks h num []).bind fun _ => Shrinks.pure _
  | ERROR =>
    have hmsg : Shrinks n skipMessage := by
      apply (readLe_shrinks 4).bind
      intro cb
      cases cb with
      | none => exact Shrinks.pure _
      | some cb => exact Shrinks.drop fun _ => rfl
    have hcode : Shrinks n (skipBytes 4) := Shrinks.drop fun _ => rfl
    exact hcode.bind fun _ => hmsg.bind fun _ => Shrinks.pure _
  | _ => exact Shrinks.drop fun _ => rfl

/-- Every val takes at least the four bytes of its tag. -/
theorem skipVal_shrinks (n : Nat) : Shrinks n (skipVal n) := by
  induction n with
  | zero =>
    intro bs hbs
    exact (Nat.not_lt_zero _ hbs).elim
  | succ n ih =>
    intro bs hbs
    rw [skipVal, Scan.bind_apply]
    by_cases hl : bs.length < 4
    · rw [readLe_short hl]
      exact Or.inr ⟨_, _, rfl, Nat.zero_le _⟩
    · rw [readLe_long (by omega)]
      simp only [Outcome.bind_done]
      have hdrop : (bs.drop 4).length < n := by
        rw [List.length_drop]
        omega
      have hle : (bs.drop 4).length ≤ bs.length := by
        rw [List.length_drop]
        omega
      cases Tag.ofCode (ofLe (bs.take 4)) with
      | none => exact Or.inr ⟨_, _, rfl, hle⟩
      | some tag =>
        rcases skipPayload_shrinks ih tag _ hdrop with h | ⟨r, rest, h, hle'⟩
        · exact Or.inl h
        · exact Or.inr ⟨r, rest, h, by omega⟩

end Shrinks

/-! ### It follows the reader -/

/-- With its size ahead a string has the bytes that follow, and then what the new
buffer held. -/
theorem readString_long [Uninit] {bs : Bytes} (h : 4 ≤ bs.length) :
    (readString false : Scan Bytes (Bytes × Bool)) bs =
      .done (((bs.drop 4).take (ofLe (bs.take 4)) ++
          Uninit.block (ofLe (bs.take 4) - (bs.drop 4).length),
        decide (ofLe (bs.take 4) ≤ (bs.drop 4).length)), (bs.drop 4).drop (ofLe (bs.take 4))) := by
  rw [readString_new, Scan.bind_apply, readLe_long h]
  generalize ofLe (bs.take 4) = cb
  have hsub : cb - ((bs.drop 4).take cb).length = cb - (bs.drop 4).length := by
    rw [List.length_take]
    omega
  have hlen : decide (((bs.drop 4).take cb).length = cb) = decide (cb ≤ (bs.drop 4).length) := by
    apply decide_eq_decide.mpr
    rw [List.length_take]
    omega
  simp only [Outcome.bind_done, Scan.bind_apply, readBytes_list, hsub, hlen]
  rfl

/-- A key that is cut off, or the same key in every memory. -/
theorem readString_skip (bs : Bytes) :
    (∃ rest, skipKey bs = .done (none, rest) ∧ ∀ m : Uninit, ∃ c,
      (@readString Bytes _ m false) bs = .done ((c, false), rest)) ∨
    ∃ key rest, skipKey bs = .done (some key, rest) ∧ ∀ m : Uninit,
      (@readString Bytes _ m false) bs = .done ((key, true), rest) := by
  rw [skipKey, Scan.bind_apply]
  by_cases hl : bs.length < 4
  · left
    rw [readLe_short hl]
    exact ⟨[], rfl, fun m => ⟨[], readString_short false hl⟩⟩
  · rw [readLe_long (by omega), Outcome.bind_done]
    have hread := fun m : Uninit => @readString_long m bs (by omega)
    generalize ofLe (bs.take 4) = cb at hread
    by_cases hcb : cb ≤ (bs.drop 4).length
    · right
      refine ⟨(bs.drop 4).take cb, (bs.drop 4).drop cb, ?_, ?_⟩
      · show Outcome.done (if cb ≤ (bs.drop 4).length then _ else _, _) = _
        rw [if_pos hcb]
      · intro m
        have hnil : m.block (cb - (bs.drop 4).length) = [] := by
          rw [Nat.sub_eq_zero_of_le hcb]
          exact List.length_eq_zero_iff.mp (m.length_block 0)
        rw [hread m, hnil, List.append_nil, decide_eq_true hcb]
    · left
      refine ⟨(bs.drop 4).drop cb, ?_, ?_⟩
      · show Outcome.done (if cb ≤ (bs.drop 4).length then _ else _, _) = _
        rw [if_neg hcb]
      · intro m
        rw [hread m, decide_eq_false hcb]
        exact ⟨_, rfl⟩

/-- The types here and inside are declared ones other than OBJECT, and the union
members were built. -/
inductive Initialised : CVal → Prop
  | scalar {v : CVal} (h : v.IsScalar) : Initialised v
  | measurement (unitVal : BitVec 32) (unit : MeasureUnit) : Initialised (.measurement unitVal unit)
  | string (s : Bytes) : Initialised (.string s)
  | bytearray (b : Bytes) : Initialised (.bytearray b)
  | error (code : BitVec 32) (msg : Bytes) : Initialised (.error code msg)
  | array {vec : List CVal} (h : ∀ v ∈ vec, Initialised v) : Initialised (.array vec)
  | map {fields : List (Bytes × CVal)} (h : ∀ f ∈ fields, Initialised f.2) :
      Initialised (.map fields)

/-- The val that an element or value is read into can be copied and destroyed. -/
def Copyable (v : CVal) : Prop := v.destructs = true

theorem Initialised.copyable {v : CVal} (h : Initialised v) : Copyable v := by
  induction h with
  | @scalar v h =>
    cases v with
    | raw tag bits => exact h.elim
    | array vec => exact h.elim
    | map fields => exact h.elim
    | _ => rfl
  | array _ ih => exact destructsElements_iff.mpr ih
  | map _ ih => exact destructsFields_iff.mpr ih
  | _ => rfl

/-- One val, whatever uninitialised memory holds. -/
def Known (f : Uninit → CVal) : Prop := ∃ v, Initialised v ∧ ∀ m, f m = v

/-- A val as a function of uninitialised memory, and its mark. -/
structure Cell where
  val : Uninit → CVal
  mark : Bool
  copyable : ∀ m, Copyable (val m)
  mark_iff : mark = true ↔ Known val

/-- A val that no memory changes. -/
def Cell.known {v : CVal} (h : Initialised v) : Cell where
  val _ := v
  mark := true
  copyable _ := h.copyable
  mark_iff := iff_of_true rfl ⟨v, h, fun _ => rfl⟩

/-- A val that some memory changes, or that has no union member. -/
def Cell.unknown {f : Uninit → CVal} (hc : ∀ m, Copyable (f m)) (h : ¬Known f) : Cell where
  val := f
  mark := false
  copyable := hc
  mark_iff := iff_of_false Bool.false_ne_true h

/-- The runs `p` over all memories end as `q` says: with related results, or with a
fault or a val that is not `ok`. -/
def Follows {β γ : Type} (R : (Uninit → β) → γ → Prop) (ok : β → Prop)
    (p : Uninit → Outcome ((Bool × β) × Bytes)) : Outcome ((Bool × γ) × Bytes) → Prop
  | .done ((r, g), rest) => ∃ b, R b g ∧ ∀ m, p m = .done ((r, b m), rest)
  | .timeout => ∀ m, p m = .timeout
  | .fault => ∀ m, p m = .fault ∨ ∃ r b rest, ¬ok b ∧ p m = .done ((r, b), rest)

/-- The val is the one of a cell. -/
def OfCell (f : Uninit → CVal) (mark : Bool) : Prop := ∃ c : Cell, f = c.val ∧ mark = c.mark

def OfCells (f : Uninit → List CVal) (marks : List Bool) : Prop :=
  ∃ cells : List Cell, (f = fun m => cells.map fun c => c.val m) ∧ marks = cells.map Cell.mark

def OfFields (f : Uninit → List (Bytes × CVal)) (marks : List (Bytes × Bool)) : Prop :=
  ∃ cells : List (Bytes × Cell), (f = fun m => cells.map fun e => (e.1, e.2.val m)) ∧
    marks = cells.map fun e => (e.1, e.2.mark)

/-- A new element, and the rest of the loop. -/
theorem Follows.step {β γ : Type} {R : (Uninit → β) → γ → Prop}
    {p : Uninit → Outcome ((Bool × CVal) × Bytes)} {q : Outcome ((Bool × Bool) × Bytes)}
    (h : Follows OfCell Copyable p q) (f : Uninit → CVal → Scan Bytes (Bool × β))
    (f' : Bool → Scan Bytes (Bool × γ)) {acc : Uninit → β} {acc' : γ} (hacc : R acc acc')
    (hf : ∀ (c : Cell) rest,
      Follows R (fun _ => True) (fun m => f m (c.val m) rest) (f' c.mark rest)) :
    Follows R (fun _ => True)
      (fun m => (p m).bind fun r => (if r.1.2.destructs then
        if r.1.1 then f m r.1.2 else pure (false, acc m) else Scan.fault :
          Scan Bytes (Bool × β)) r.2)
      (q.bind fun r =>
        (if r.1.1 then f' r.1.2 else pure (false, acc') : Scan Bytes (Bool × γ)) r.2) := by
  cases q with
  | timeout =>
    intro m
    have hm : p m = .timeout := h m
    show (p m).bind _ = _
    rw [hm]
    rfl
  | fault =>
    intro m
    left
    show (p m).bind _ = _
    rcases h m with hm | ⟨r, v, rest, hv, hm⟩
    · rw [hm]
      rfl
    · have hd : ¬v.destructs = true := hv
      simp only [hm, Outcome.bind_done, if_neg hd]
      rfl
  | done x =>
    obtain ⟨⟨r, mark⟩, rest⟩ := x
    obtain ⟨v, ⟨c, rfl, rfl⟩, hm⟩ := h
    have hd : ∀ m, (c.val m).destructs = true := c.copyable
    simp only [hm, Outcome.bind_done, if_pos (hd _)]
    cases r with
    | false => exact ⟨acc, hacc, fun _ => rfl⟩
    | true => exact hf c rest

theorem readElements_follows {elem : Uninit → Scan Bytes (Bool × CVal)}
    {elem' : Scan Bytes (Bool × Bool)}
    (he : ∀ bs, Follows OfCell Copyable (fun m => elem m bs) (elem' bs)) (num : Nat)
    (cells : List Cell) (bs : Bytes) :
    Follows OfCells (fun _ => True)
      (fun m => readElements (elem m) num (cells.map fun c => c.val m) bs)
      (skipElements elem' num (cells.map Cell.mark) bs) := by
  induction num generalizing cells bs with
  | zero => exact ⟨_, ⟨cells, rfl, rfl⟩, fun _ => rfl⟩
  | succ num ih =>
    have hacc : OfCells (fun m => cells.map fun c => c.val m) (cells.map Cell.mark) :=
      ⟨cells, rfl, rfl⟩
    apply (he bs).step
      (fun m v => readElements (elem m) num (cells.map (fun c => c.val m) ++ [v]))
      (fun mark => skipElements elem' num (cells.map Cell.mark ++ [mark])) hacc
    intro c rest
    have hstep := ih (cells ++ [c]) rest
    simp only [List.map_append, List.map_cons, List.map_nil] at hstep
    exact hstep

theorem readFields_follows {value : Uninit → Scan Bytes (Bool × CVal)}
    {value' : Scan Bytes (Bool × Bool)}
    (he : ∀ bs, Follows OfCell Copyable (fun m => value m bs) (value' bs)) (num : Nat)
    (cells : List (Bytes × Cell)) (bs : Bytes) :
    Follows OfFields (fun _ => True)
      (fun m => @readFields Bytes _ m (value m) num (cells.map fun e => (e.1, e.2.val m)) bs)
      (skipFields value' num (cells.map fun e => (e.1, e.2.mark)) bs) := by
  induction num generalizing cells bs with
  | zero => exact ⟨_, ⟨cells, rfl, rfl⟩, fun _ => rfl⟩
  | succ num ih =>
    rw [skipFields, Scan.bind_apply]
    rcases readString_skip bs with ⟨rest, hskip, hread⟩ | ⟨key, rest, hskip, hread⟩
    · rw [hskip]
      refine ⟨_, ⟨cells, rfl, rfl⟩, ?_⟩
      intro m
      obtain ⟨c, hc⟩ := hread m
      show @readFields Bytes _ m (value m) (num + 1) _ bs = _
      rw [readFields, Scan.bind_apply, hc]
      rfl
    · have hrun : ∀ m, @readFields Bytes _ m (value m) (num + 1)
          (cells.map fun e => (e.1, e.2.val m)) bs = (value m rest).bind fun r =>
            (if r.1.2.destructs then
              if r.1.1 then @readFields Bytes _ m (value m) num
                (OrderedMap.insert key r.1.2 (cells.map fun e => (e.1, e.2.val m)))
              else pure (false, cells.map fun e => (e.1, e.2.val m))
            else Scan.fault : Scan Bytes (Bool × List (Bytes × CVal))) r.2 := by
        intro m
        rw [readFields, Scan.bind_apply, hread m]
        rfl
      simp only [hrun, hskip, Outcome.bind_done]
      have hacc : OfFields (fun m => cells.map fun e => (e.1, e.2.val m))
          (cells.map fun e => (e.1, e.2.mark)) := ⟨cells, rfl, rfl⟩
      apply (he rest).step
        (fun m v => @readFields Bytes _ m (value m) num
          (OrderedMap.insert key v (cells.map fun e => (e.1, e.2.val m))))
        (fun mark => skipFields value' num
          (OrderedMap.insert key mark (cells.map fun e => (e.1, e.2.mark)))) hacc
      intro c rest'
      have hval := fun m => OrderedMap.insert_map (fun c : Cell => c.val m) key c cells
      have hmark := OrderedMap.insert_map Cell.mark key c cells
      simp only [hval, hmark]
      exact ih (OrderedMap.insert key c cells) rest'

/-! ### The switch -/

theorem not_initialised_raw {tag : BitVec 32} {bits : BitVec 64} :
    ¬Initialised (.raw tag bits) := by
  intro h
  cases h with
  | scalar h => exact h

theorem known_iff {f : Uninit → CVal} :
    Known f ↔ Initialised (f zeroMemory) ∧ ∀ m, f m = f zeroMemory := by
  constructor
  · rintro ⟨v, hv, hf⟩
    rw [hf zeroMemory]
    exact ⟨hv, hf⟩
  · rintro ⟨hv, hf⟩
    exact ⟨_, hv, hf⟩

def Cell.array (cells : List Cell) : Cell where
  val m := .array (cells.map fun c => c.val m)
  mark := (cells.map Cell.mark).all id
  copyable m := by
    apply destructsElements_iff.mpr
    rintro v hv
    obtain ⟨c, -, rfl⟩ := List.mem_map.mp hv
    exact c.copyable m
  mark_iff := by
    rw [List.all_map, List.all_eq_true, known_iff]
    simp only [Function.comp_apply, id_eq, Cell.mark_iff, known_iff, Val.array.injEq,
      List.map_inj_left]
    constructor
    · intro h
      refine ⟨.array ?_, fun m c hc => (h c hc).2 m⟩
      exact List.forall_mem_map.mpr fun c hc => (h c hc).1
    · rintro ⟨hi, hm⟩ c hc
      cases hi with
      | scalar h => exact h.elim
      | array h => exact ⟨h _ (List.mem_map_of_mem hc), fun m => hm m c hc⟩

def Cell.map (cells : List (Bytes × Cell)) : Cell where
  val m := .map (cells.map fun e => (e.1, e.2.val m))
  mark := (cells.map fun e => (e.1, e.2.mark)).all Prod.snd
  copyable m := by
    apply destructsFields_iff.mpr
    rintro f hf
    obtain ⟨e, -, rfl⟩ := List.mem_map.mp hf
    exact e.2.copyable m
  mark_iff := by
    rw [List.all_map, List.all_eq_true, known_iff]
    simp only [Function.comp_apply, Cell.mark_iff, known_iff, Val.map.injEq, List.map_inj_left,
      Prod.mk.injEq, true_and]
    constructor
    · intro h
      refine ⟨.map ?_, fun m e he => (h e he).2 m⟩
      exact List.forall_mem_map.mpr fun e he => (h e he).1
    · rintro ⟨hi, hm⟩ e he
      cases hi with
      | scalar h => exact h.elim
      | map h => exact ⟨h _ (List.mem_map_of_mem he), fun m => hm m e he⟩

theorem Follows.map {β γ : Type} {R : (Uninit → β) → γ → Prop}
    {p : Uninit → Outcome ((Bool × β) × Bytes)} {q : Outcome ((Bool × γ) × Bytes)}
    (h : Follows R (fun _ => True) p q) (f : β → CVal) (g : γ → Bool)
    (hfg : ∀ b c, R b c → OfCell (fun m => f (b m)) (g c)) :
    Follows OfCell Copyable (fun m => (p m).bind fun r => .done ((r.1.1, f r.1.2), r.2))
      (q.bind fun r => .done ((r.1.1, g r.1.2), r.2)) := by
  cases q with
  | done x =>
    obtain ⟨⟨r, c⟩, rest⟩ := x
    obtain ⟨b, hb, hp⟩ := h
    refine ⟨_, hfg b c hb, ?_⟩
    intro m
    show (p m).bind _ = _
    rw [hp m]
    rfl
  | timeout =>
    intro m
    have hm : p m = .timeout := h m
    show (p m).bind _ = _
    rw [hm]
    rfl
  | fault =>
    intro m
    show (p m).bind _ = _ ∨ _
    rcases h m with hm | ⟨r, b, rest, hb, -⟩
    · rw [hm]
      exact Or.inl rfl
    · exact (hb trivial).elim

/-- A run without a fault or timeout. -/
theorem Follows.cell {p : Uninit → Outcome ((Bool × CVal) × Bytes)} {r : Bool} {rest : Bytes}
    (c : Cell) (h : ∀ m, p m = .done ((r, c.val m), rest)) :
    Follows OfCell Copyable p (.done ((r, c.mark), rest)) :=
  ⟨c.val, ⟨c, rfl, rfl⟩, h⟩

/-- The bytes of a number, into a union without a value. -/
theorem readMember_follows {tag : Tag} {k : Nat} {member : Nat → CVal}
    (hn : number tag = some (k, member)) (bs : Bytes) :
    Follows OfCell Copyable (fun m =>
      (readMember k member (@Val.ofType m (BitVec.ofNat 32 tag.code)) :
        Scan Bytes (Bool × CVal)) bs) (skipBytes k bs) := by
  have hmember : ∀ x, Initialised (member x) := by
    intro x
    cases tag <;> cases hn <;> exact .scalar trivial
  rw [skipBytes]
  by_cases hl : k ≤ bs.length
  · rw [decide_eq_true hl]
    apply Follows.cell (.known (hmember (ofLe (bs.take k))))
    intro m
    rw [readMember, Scan.bind_apply, readBytes_list, Outcome.bind_done,
      if_pos (by rw [List.length_take]; omega)]
    rfl
  · have hraw : ∀ m, ∃ bits, (readMember k member (@Val.ofType m (BitVec.ofNat 32 tag.code)) :
        Scan Bytes (Bool × CVal)) bs = .done ((false, .raw (BitVec.ofNat 32 tag.code) bits),
        []) := by
      intro m
      obtain ⟨⟨bits, hbits⟩, -, -⟩ := @ofType_number m tag k member hn
      rw [hbits]
      exact readMember_short (Nat.lt_of_not_le hl) member _ bits
    choose bits hbits using hraw
    have hcopy : ∀ m, Copyable (.raw (BitVec.ofNat 32 tag.code) (bits m)) :=
      fun m => (@ofType_number m tag k member hn).2.1 (bits m)
    have hunknown : ¬Known fun m => .raw (BitVec.ofNat 32 tag.code) (bits m) :=
      fun h => not_initialised_raw (known_iff.mp h).1
    rw [decide_eq_false hl, List.drop_of_length_le (by omega)]
    exact Follows.cell (.unknown hcopy hunknown) hbits

/-- Uninitialised memory that happens to be one. -/
@[reducible] def oneMemory : Uninit where
  block n := List.replicate n 1
  length_block _ := List.length_replicate
  unit := 0x10000

/-- The high bytes of the unit show. -/
theorem unit_unknown (unitVal : BitVec 32) (x : Nat) :
    ¬Known fun m => .measurement unitVal
      (.ofBits (BitVec.ofNat 32 (x + m.unit.toNat / 2 ^ 16 * 2 ^ 16))) := by
  rintro ⟨v, -, hv⟩
  have hu := (Val.measurement.inj ((hv zeroMemory).trans (hv oneMemory).symm)).2
  have hbits := congrArg MeasureUnit.toBits hu
  rw [MeasureUnit.toBits_ofBits, MeasureUnit.toBits_ofBits] at hbits
  have hnat := congrArg BitVec.toNat hbits
  rw [BitVec.toNat_ofNat, BitVec.toNat_ofNat] at hnat
  have hzero : zeroMemory.unit.toNat = 0 := rfl
  have hone : oneMemory.unit.toNat = 2 ^ 16 := rfl
  rw [hzero, hone] at hnat
  omega

theorem readMeasurement_follows (bs : Bytes) :
    Follows OfCell Copyable (fun m =>
      (@readMeasurement Bytes _ m (@Val.ofType m (BitVec.ofNat 32 Tag.MEASUREMENT.code)) bs))
      (skipMeasurement bs) := by
  rw [skipMeasurement]
  by_cases hl : 6 ≤ bs.length
  · rw [decide_eq_true hl]
    have hunknown := unit_unknown (BitVec.ofNat 32 (ofLe (bs.take 4))) (ofLe ((bs.drop 4).take 2))
    have hcopy : ∀ m : Uninit, Copyable (.measurement (BitVec.ofNat 32 (ofLe (bs.take 4)))
        (.ofBits (BitVec.ofNat 32 (ofLe ((bs.drop 4).take 2) + m.unit.toNat / 2 ^ 16 * 2 ^ 16)))) :=
      fun _ => rfl
    apply Follows.cell (.unknown hcopy hunknown)
    intro m
    exact @readMeasurement_long m _ bs hl
  · rw [decide_eq_false hl, List.drop_of_length_le (by omega)]
    have hcopy : ∀ m : Uninit,
        Copyable (@Val.ofType m (BitVec.ofNat 32 Tag.MEASUREMENT.code)) := fun _ => rfl
    have hunknown : ¬Known fun m => @Val.ofType m (BitVec.ofNat 32 Tag.MEASUREMENT.code) :=
      fun h => not_initialised_raw (known_iff.mp h).1
    apply Follows.cell (.unknown hcopy hunknown)
    intro m
    rw [readMeasurement, Scan.bind_apply]
    by_cases h4 : bs.length < 4
    · rw [readLe_short h4]
      rfl
    · have htake : ¬((bs.drop 4).take 2).length = 2 := by
        rw [List.length_take, List.length_drop]
        omega
      rw [readLe_long (by omega)]
      simp only [Outcome.bind_done, Scan.bind_apply, readBytes_list, if_neg htake, List.drop_drop]
      rw [List.drop_of_length_le (by omega)]
      rfl

theorem readPointer_follows {tag : Tag} (ht : tag = .STRING ∨ tag = .BYTEARRAY) (bs : Bytes) :
    Follows OfCell Copyable (fun m =>
      (readPointer tag (@Val.ofType m (BitVec.ofNat 32 tag.code)) : Scan Bytes (Bool × CVal)) bs)
      (skipText bs) := by
  rw [skipText]
  cases bs with
  | nil =>
    rw [if_pos rfl]
    rcases ht with rfl | rfl
    · exact Follows.cell (.known (.string [])) fun _ => rfl
    · exact Follows.cell (.known (.bytearray [])) fun _ => rfl
  | cons b bs =>
    rw [if_neg (List.cons_ne_nil b bs)]
    intro m
    right
    refine ⟨_, _, _, ?_, rfl⟩
    rcases ht with rfl | rfl <;> exact Bool.false_ne_true

/-- The bytes behind a message that is cut off show. -/
theorem message_unknown (code : BitVec 32) (b : Bytes) {k : Nat} (hk : 0 < k) :
    ¬Known fun m => .error code (b ++ m.block k) := by
  rintro ⟨v, -, hv⟩
  have hmsg := (Val.error.inj ((hv zeroMemory).trans (hv oneMemory).symm)).2
  have hblock : List.replicate k (0 : UInt8) = List.replicate k 1 := List.append_cancel_left hmsg
  obtain ⟨k, rfl⟩ := Nat.exists_eq_add_of_le' hk
  cases hblock

theorem readError_follows (bs : Bytes) :
    Follows OfCell Copyable (fun m => @readError Bytes _ m false 0 bs)
      (skipPayload (pure (true, true)) .ERROR bs) := by
  have hrun : skipPayload (pure (true, true)) .ERROR bs =
      (skipMessage (bs.drop 4)).bind fun r => .done ((true, r.1), r.2) := rfl
  have herr := fun m : Uninit => @readError_eq m false 0 bs
  rw [hrun, skipMessage, Scan.bind_apply]
  generalize BitVec.ofNat 32 (patch (0 : BitVec 32).toNat (bs.take 4)) = code at herr
  generalize bs.drop 4 = bs at herr
  by_cases hl : bs.length < 4
  · rw [readLe_short hl]
    apply Follows.cell (.known (.error code []))
    intro m
    rw [herr m, readString_short false hl]
    rfl
  · have hread := fun m : Uninit => @readString_long m bs (by omega)
    rw [readLe_long (by omega)]
    generalize ofLe (bs.take 4) = cb at hread
    by_cases hcb : cb ≤ (bs.drop 4).length
    · have hmark : decide (cb ≤ (bs.drop 4).length) = true := decide_eq_true hcb
      show Follows _ _ _ (.done ((true, decide _), _))
      rw [hmark]
      apply Follows.cell (.known (.error code ((bs.drop 4).take cb)))
      intro m
      have hnil : m.block (cb - (bs.drop 4).length) = [] := by
        rw [Nat.sub_eq_zero_of_le hcb]
        exact List.length_eq_zero_iff.mp (m.length_block 0)
      rw [herr m, hread m, hnil, List.append_nil]
      rfl
    · have hmark : decide (cb ≤ (bs.drop 4).length) = false := decide_eq_false hcb
      show Follows _ _ _ (.done ((true, decide _), _))
      rw [hmark]
      have hunknown := message_unknown code ((bs.drop 4).take cb)
        (Nat.sub_pos_of_lt (Nat.lt_of_not_le hcb))
      have hcopy : ∀ m : Uninit, Copyable (.error code
          ((bs.drop 4).take cb ++ m.block (cb - (bs.drop 4).length))) := fun _ => rfl
      apply Follows.cell (.unknown hcopy hunknown)
      intro m
      rw [herr m, hread m]
      rfl

theorem readPayload_follows {value : Uninit → Scan Bytes (Bool × CVal)}
    {value' : Scan Bytes (Bool × Bool)}
    (he : ∀ bs, Follows OfCell Copyable (fun m => value m bs) (value' bs)) (tag : Tag)
    (bs : Bytes) :
    Follows OfCell Copyable (fun m => @readPayload Bytes _ m false (value m)
      (@Val.ofType m (BitVec.ofNat 32 tag.code)) tag bs) (skipPayload value' tag bs) := by
  have hnum : ∀ {k : Nat} {member : Nat → CVal}, number tag = some (k, member) →
      Follows OfCell Copyable (fun m => @readPayload Bytes _ m false (value m)
        (@Val.ofType m (BitVec.ofNat 32 tag.code)) tag bs) (skipBytes k bs) := by
    intro k member hn
    simp only [fun m : Uninit => @readPayload_number m Bytes _ tag k member hn]
    exact readMember_follows hn bs
  cases tag with
  | EMPTY =>
    have hrun : skipPayload value' .EMPTY bs = .done ((true, true), bs) := rfl
    rw [hrun]
    have hempty : Initialised .empty := .scalar trivial
    exact Follows.cell (.known hempty) fun _ => rfl
  | INT32 => exact hnum rfl
  | INT64 => exact hnum rfl
  | UINT32 => exact hnum rfl
  | UINT64 => exact hnum rfl
  | FLOAT32 => exact hnum rfl
  | FLOAT64 => exact hnum rfl
  | STRING => exact readPointer_follows (Or.inl rfl) bs
  | BYTEARRAY => exact readPointer_follows (Or.inr rfl) bs
  | OBJECT => exact fun _ => Or.inl rfl
  | MEASUREMENT => exact readMeasurement_follows bs
  | ARRAY =>
    rw [skipPayload, Scan.bind_apply]
    by_cases hl : bs.length < 4
    · rw [readLe_short hl]
      have hnil : Initialised (.array []) := .array (List.forall_mem_nil _)
      apply Follows.cell (.known hnil)
      intro m
      rw [readPayload, Scan.bind_apply, readLe_short hl]
      rfl
    · have hrun : ∀ m, @readPayload Bytes _ m false (value m)
          (@Val.ofType m (BitVec.ofNat 32 Tag.ARRAY.code)) .ARRAY bs =
            (readElements (value m) (ofLe (bs.take 4)) [] (bs.drop 4)).bind fun r =>
              .done ((r.1.1, .array r.1.2), r.2) := by
        intro m
        rw [readPayload, Scan.bind_apply, readLe_long (by omega)]
        rfl
      rw [readLe_long (by omega)]
      simp only [hrun]
      apply (readElements_follows he (ofLe (bs.take 4)) [] (bs.drop 4)).map .array fun marks =>
        marks.all id
      rintro vec marks ⟨cells, rfl, rfl⟩
      exact ⟨.array cells, rfl, rfl⟩
  | MAP =>
    rw [skipPayload, Scan.bind_apply]
    by_cases hl : bs.length < 4
    · rw [readLe_short hl]
      have hnil : Initialised (.map []) := .map (List.forall_mem_nil _)
      apply Follows.cell (.known hnil)
      intro m
      rw [readPayload, Scan.bind_apply, readLe_short hl]
      rfl
    · have hrun : ∀ m, @readPayload Bytes _ m false (value m)
          (@Val.ofType m (BitVec.ofNat 32 Tag.MAP.code)) .MAP bs =
            (@readFields Bytes _ m (value m) (ofLe (bs.take 4)) [] (bs.drop 4)).bind fun r =>
              .done ((r.1.1, .map r.1.2), r.2) := by
        intro m
        rw [readPayload, Scan.bind_apply, readLe_long (by omega)]
        rfl
      rw [readLe_long (by omega)]
      simp only [hrun]
      apply (readFields_follows he (ofLe (bs.take 4)) [] (bs.drop 4)).map .map fun marks =>
        marks.all Prod.snd
      rintro fields marks ⟨cells, rfl, rfl⟩
      exact ⟨.map cells, rfl, rfl⟩
  | ERROR => exact readError_follows bs

/-- `setType` takes a tag that is not declared, and no branch of the switch is for it. -/
theorem decode_undeclared (n : Nat) {bs : Bytes} (hl : 4 ≤ bs.length) (ht : tagAhead bs = none)
    (m : Uninit) :
    @decode m (n + 1) .empty bs =
      .done ((false, @Val.ofType m (BitVec.ofNat 32 (ofLe (bs.take 4)))),
        bs.drop 4) ∧
      @Val.ofType m (BitVec.ofNat 32 (ofLe (bs.take 4))) =
        .raw (BitVec.ofNat 32 (ofLe (bs.take 4))) (BitVec.ofNat 64 (ofLe (m.block 8))) ∧
      Copyable (@Val.ofType m (BitVec.ofNat 32 (ofLe (bs.take 4)))) := by
  have hcode : Tag.ofCode (ofLe (bs.take 4)) = none := ht
  have hlt : ofLe (bs.take 4) < 2 ^ 32 := by
    have h := ofLe_lt (bs.take 4)
    rw [List.length_take, Nat.min_eq_left hl] at h
    exact h
  have hnat : (BitVec.ofNat 32 (ofLe (bs.take 4))).toNat = ofLe (bs.take 4) := by
    rw [BitVec.toNat_ofNat, Nat.mod_eq_of_lt hlt]
  have htype : @Val.ofType m (BitVec.ofNat 32 (ofLe (bs.take 4))) =
      .raw (BitVec.ofNat 32 (ofLe (bs.take 4))) (BitVec.ofNat 64 (ofLe (m.block 8))) := by
    rw [Val.ofType, hnat, hcode]
  have hne : Val.type (.empty : CVal) ≠ BitVec.ofNat 32 (ofLe (bs.take 4)) := by
    intro h
    rw [← hnat, ← h] at hcode
    cases hcode
  have hset : Val.setType (BitVec.ofNat 32 (ofLe (bs.take 4))) .empty =
      .done (Val.ofType (BitVec.ofNat 32 (ofLe (bs.take 4)))) := by
    rw [Val.setType, if_neg hne]
    rfl
  refine ⟨?_, htype, ?_⟩
  · rw [decode, readInto, Scan.bind_apply, readLe_long hl]
    simp only [Outcome.bind_done, hset, Scan.ofOutcome_done, hcode]
    rfl
  · rw [htype, Copyable, Val.destructs, hnat, hcode]
    rfl

theorem reset_empty [Uninit] (tag : Tag) :
    reset .empty tag = Val.ofType (BitVec.ofNat 32 tag.code) := by
  cases tag <;> rfl

/-- The scan stops where the reader stops, or at what makes the read unsafe. -/
theorem readInto_follows (n : Nat) (bs : Bytes) :
    Follows OfCell Copyable (fun m => @decode m n .empty bs) (skipVal n bs) := by
  induction n generalizing bs with
  | zero => exact fun _ => rfl
  | succ n ih =>
    rw [skipVal, Scan.bind_apply]
    by_cases hl : bs.length < 4
    · rw [readLe_short hl]
      have hempty : Initialised .empty := .scalar trivial
      exact Follows.cell (.known hempty) fun m => @decode_short m n .empty bs hl
    · rw [readLe_long (by omega)]
      simp only [Outcome.bind_done]
      cases ht : tagAhead bs with
      | some tag =>
        have hcode : Tag.ofCode (ofLe (bs.take 4)) = some tag := ht
        have hrun : ∀ m, @decode m (n + 1) .empty bs = @readPayload Bytes _ m false
            (@decode m n .empty) (@Val.ofType m (BitVec.ofNat 32 tag.code)) tag (bs.drop 4) := by
          intro m
          rw [← reset_empty]
          exact @decode_into m .empty built_empty bs tag (by omega) ht n
        simp only [hcode, hrun]
        exact readPayload_follows ih tag (bs.drop 4)
      | none =>
        have hcode : Tag.ofCode (ofLe (bs.take 4)) = none := ht
        have hrun := decode_undeclared n (Nat.le_of_not_lt hl) ht
        have hunknown : ¬Known fun m => @Val.ofType m (BitVec.ofNat 32 (ofLe (bs.take 4))) := by
          intro h
          have hinit := (known_iff.mp h).1
          rw [(hrun zeroMemory).2.1] at hinit
          exact not_initialised_raw hinit
        simp only [hcode]
        exact Follows.cell (.unknown (fun m => (hrun m).2.2) hunknown) fun m => (hrun m).1

/-! ## Safety -/

/-- The stream over `src`, read up to `offset`. -/
def streamAt (src : Bytes) (offset : Nat) : Bytestream :=
  { ofBytearray src with offsetRead := offset }

/-- `read<val>` into a new val ends inside the stream, and whether it returned true
or false the val has a declared type other than OBJECT and is the same for all
that uninitialised memory may hold. -/
def SafeRead (src : Bytes) (offset : Nat) : Prop :=
  ∃ r v, Initialised v ∧ ∀ m : Uninit, ∃ N, ∀ n ≥ N, ∃ t,
    (@readInto Bytestream _ m false n .empty) (streamAt src offset) = .done ((r, v), t) ∧
      t.offsetRead ≤ src.length

/-- The format can be followed, and every byte of the val is written. -/
def Harmless (bs : Bytes) : Prop :=
  ∃ r rest, skipVal (bs.length + 1) bs = .done ((r, true), rest)

/-- Reading a val is safe if and only if the bytes ahead are harmless. -/
theorem decoding_safe_iff {src : Bytes} (hsrc : src.length < 2 ^ 31) {offset : Nat}
    (hoff : offset ≤ src.length) : SafeRead src offset ↔ Harmless (src.drop offset) := by
  have hahead : Ahead src (streamAt src offset) (src.drop offset) :=
    ⟨⟨rfl, int32_of_lt hsrc, hoff, hsrc⟩, rfl⟩
  generalize src.drop offset = bs at hahead
  have hfollows := readInto_follows (bs.length + 1) bs
  have hsim := fun (m : Uninit) n => @decode_sim m src n .empty
  constructor
  · rintro ⟨r, v, hv, hsafe⟩
    -- what ends with the fuel of the scan ends with `v`
    have hrun : ∀ m x, @decode m (bs.length + 1) .empty bs = .done x → x.1 = (r, v) := by
      intro m x hx
      obtain ⟨N, hN⟩ := hsafe m
      obtain ⟨t, ht, -⟩ := hN (max N (bs.length + 1)) (Nat.le_max_left ..)
      obtain ⟨rest, hdec, -⟩ := (hsim m _).done_of_done_left hahead ht
      have hle := (@decode_le m _ _ (Nat.le_max_right N (bs.length + 1)) .empty bs).eq_of_done hx
      cases hle.symm.trans hdec
      rfl
    have hnofault : ∀ m, @decode m (bs.length + 1) .empty bs ≠ .fault := by
      intro m hx
      obtain ⟨N, hN⟩ := hsafe m
      obtain ⟨t, ht, -⟩ := hN (max N (bs.length + 1)) (Nat.le_max_left ..)
      obtain ⟨rest, hdec, -⟩ := (hsim m _).done_of_done_left hahead ht
      have hle := @decode_le m _ _ (Nat.le_max_right N (bs.length + 1)) .empty bs
      rw [hx] at hle
      rcases hle with hle | hle
      · cases hle
      · cases hle.trans hdec
    rcases skipVal_shrinks (bs.length + 1) bs (Nat.lt_succ_self _) with h | ⟨x, rest, h, -⟩
    · rw [h] at hfollows
      rcases hfollows zeroMemory with hx | ⟨r', v', rest', hv', hx⟩
      · exact (hnofault zeroMemory hx).elim
      · cases hrun zeroMemory _ hx
        exact (hv' hv.copyable).elim
    · rw [h] at hfollows
      obtain ⟨r', mark⟩ := x
      obtain ⟨f, ⟨c, rfl, rfl⟩, hdec⟩ := hfollows
      have hknown : Known c.val := ⟨v, hv, fun m => (Prod.mk.inj (hrun m _ (hdec m))).2⟩
      rw [c.mark_iff.mpr hknown] at h
      exact ⟨r', rest, h⟩
  · rintro ⟨r, rest, hskip⟩
    rw [hskip] at hfollows
    obtain ⟨f, ⟨c, rfl, hmark⟩, hdec⟩ := hfollows
    obtain ⟨v, hv, hf⟩ := c.mark_iff.mp hmark.symm
    refine ⟨r, v, hv, ?_⟩
    intro m
    refine ⟨bs.length + 1, ?_⟩
    intro n hn
    have hdec' := (@decode_le m _ _ hn .empty bs).eq_of_done (hdec m)
    obtain ⟨t, ht, hat⟩ := (hsim m n).done_of_done hahead hdec'
    rw [hf m] at ht
    exact ⟨t, ht, hat.1.read_le⟩

/-- An ARRAY of two INT32 of which the first is cut off after its tag, from the
second byte of the stream on. -/
theorem decoding_safe_cut : SafeRead [7, 10, 0, 0, 0, 2, 0, 0, 0, 1, 0, 0, 0, 5] 1 := by
  apply (decoding_safe_iff (by decide) (by decide)).mpr
  exact ⟨false, [], by decide⟩

/-- The tag OBJECT on its own. -/
theorem decoding_object_unsafe : ¬SafeRead [12, 0, 0, 0] 0 := by
  rintro ⟨r, v, -, hsafe⟩
  obtain ⟨N, hN⟩ := hsafe zeroMemory
  obtain ⟨t, hrun, -⟩ := hN (N + 1) (Nat.le_succ N)
  have hahead : Ahead [12, 0, 0, 0] (streamAt [12, 0, 0, 0] 0) [12, 0, 0, 0] :=
    ahead_ofBytearray (by decide)
  have hfault : @decode zeroMemory (N + 1) .empty [12, 0, 0, 0] = .fault :=
    @decode_tag zeroMemory N .OBJECT []
  rw [((@decode_sim zeroMemory _ (N + 1) .empty).fault_iff hahead).mpr hfault] at hrun
  cases hrun

end Bytestream

end Libacorn
