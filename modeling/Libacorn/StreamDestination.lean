import Libacorn.StreamTruncation

/-!
# The old value of the destination

`read<val>` relies on `setType` to reset the val it reads into, and `setType`
does nothing when the type stays the same. An ERROR keeps its old message until
`alloc` releases it, and for a literal that is no buffer. A new buffer may hold
what the old message left behind, so the two runs of `DestinationIrrelevant` have
their own heap. `destination_irrelevant_iff` says for which streams the old value
does not show in the result.
-/

namespace Libacorn

open Support

namespace Bytestream

/-- A val that was built: no union member was overwritten or left without a
value. -/
def Built (v : CVal) : Prop := v.destructs = true ∧ ∀ tag bits, v ≠ .raw tag bits

theorem built_empty : Built .empty := ⟨rfl, nofun⟩

theorem Built.eq_empty {v : CVal} (h : Built v) (ht : v.type = BitVec.ofNat 32 Tag.EMPTY.code) :
    v = .empty := by
  cases v with
  | empty => rfl
  | raw tag bits => exact (h.2 tag bits rfl).elim
  | _ => cases ht

theorem Built.eq_error {v : CVal} (h : Built v) (ht : v.type = BitVec.ofNat 32 Tag.ERROR.code) :
    ∃ code msg, v = .error code msg := by
  cases v with
  | error code msg => exact ⟨code, msg, rfl⟩
  | raw tag bits => exact (h.2 tag bits rfl).elim
  | _ => cases ht

/-- The type that stands ahead. -/
def tagAhead (bs : Bytes) : Option Tag := Tag.ofCode (ofLe (bs.take 4))

/-- The bytes make a val that is not an ARRAY or a MAP, and an ERROR only when its
code is there and the size of its message is not. -/
def Resets (bs : Bytes) : Prop :=
  tagAhead bs ≠ some .ARRAY ∧ tagAhead bs ≠ some .MAP ∧
    (tagAhead bs = some .ERROR → 8 ≤ bs.length ∧ bs.length < 12)

/-- A val to read into, and whether it is an ERROR whose message is a string
literal. -/
structure Destination where
  val : CVal
  literal : Bool
  built : Built val

/-! ## Steps that need no memory -/

theorem readMember_reset {k : Nat} {member : Nat → CVal} {u w : CVal} {bs rest : Bytes}
    (h : (readMember k member u : Scan Bytes (Bool × CVal)) bs = .done ((true, w), rest))
    (u' : CVal) :
    (readMember k member u' : Scan Bytes (Bool × CVal)) bs = .done ((true, w), rest) := by
  rw [readMember, Scan.bind_apply, readBytes_list, Outcome.bind_done] at h ⊢
  by_cases hk : (bs.take k).length = k
  · rw [if_pos hk] at h ⊢
    exact h
  · rw [if_neg hk] at h
    cases h

theorem readPointer_reset {tag : Tag} {u w : CVal} {bs rest : Bytes}
    (h : (readPointer tag u : Scan Bytes (Bool × CVal)) bs = .done ((true, w), rest)) (u' : CVal) :
    (readPointer tag u' : Scan Bytes (Bool × CVal)) bs = .done ((true, w), rest) := by
  rw [readPointer, Scan.bind_apply, readBytes_list, Outcome.bind_done] at h ⊢
  by_cases hne : bs.take 8 = []
  · rw [hne] at h
    cases h
  · rw [if_neg hne] at h ⊢
    exact h

theorem readElements_keeps {elem : Scan Bytes (Bool × CVal)} {num : Nat} {vec vec' : List CVal}
    {r : Bool} {bs rest : Bytes}
    (h : readElements elem num vec bs = .done ((r, vec'), rest)) (pre : List CVal) :
    readElements elem num (pre ++ vec) bs = .done ((r, pre ++ vec'), rest) := by
  induction num generalizing vec bs with
  | zero =>
    cases h
    rfl
  | succ num ih =>
    rw [readElements] at h ⊢
    obtain ⟨x, bs', hx, h⟩ := Scan.bind_eq_done h
    rw [Scan.bind_apply, hx, Outcome.bind_done]
    by_cases hd : x.2.destructs = true
    · rw [if_pos hd] at h ⊢
      cases hr : x.1 with
      | true =>
        rw [hr, if_pos rfl] at h
        rw [if_pos rfl, List.append_assoc]
        exact ih h
      | false =>
        rw [hr] at h
        cases h
        rfl
    · rw [if_neg hd] at h
      cases h

/-- The top byte of a code survives a read of less than four bytes. -/
theorem patch_ne {b : Bytes} (hb : b.length < 4) :
    BitVec.ofNat 32 (patch (0 : BitVec 32).toNat b) ≠
      BitVec.ofNat 32 (patch (0xFF000000 : BitVec 32).toNat b) := by
  intro h
  have hlt := ofLe_lt b
  have h' := congrArg BitVec.toNat h
  have hzero : (0 : BitVec 32).toNat = 0 := rfl
  have htop : (0xFF000000 : BitVec 32).toNat = 0xFF000000 := rfl
  rw [hzero, htop, BitVec.toNat_ofNat, BitVec.toNat_ofNat, patch, patch] at h'
  obtain hk | hk | hk | hk : b.length = 0 ∨ b.length = 1 ∨ b.length = 2 ∨ b.length = 3 := by omega
  all_goals
    rw [hk] at hlt h'
    norm_num at hlt h'
    omega

/-- Reading into any two vals gives the same val and the same offset, whatever the
heap holds in either run. -/
def DestinationIrrelevant (s : Bytestream) : Prop :=
  ∀ (d₁ d₂ : Destination) (m₁ m₂ : Uninit), m₁.unit = m₂.unit → ∃ N, ∀ n ≥ N, ∃ w t₁ t₂,
    (@readInto Bytestream _ m₁ d₁.literal n d₁.val) s = .done ((true, w), t₁) ∧
    (@readInto Bytestream _ m₂ d₂.literal n d₂.val) s = .done ((true, w), t₂) ∧
    t₁.offsetRead = t₂.offsetRead

section Read
variable [Uninit]

/-! ## The switch -/

/-- A val of type `tag` as `setType` leaves it. -/
def reset (v : CVal) (tag : Tag) : CVal :=
  if v.type = BitVec.ofNat 32 tag.code then v else Val.ofType (BitVec.ofNat 32 tag.code)

theorem readInto_tag {v : CVal} (hv : Built v) {bs : Bytes} {tag : Tag} (hl : 4 ≤ bs.length)
    (ht : tagAhead bs = some tag) (literal : Bool) (n : Nat) :
    (readInto literal (n + 1) v : Scan Bytes (Bool × CVal)) bs =
      readPayload (literal && decide (v.type = BitVec.ofNat 32 tag.code))
        (readInto false n .empty : Scan Bytes (Bool × CVal)) (reset v tag) tag (bs.drop 4) := by
  have hcode : ofLe (bs.take 4) = tag.code := Tag.code_of_ofCode ht
  have hset : v.setType (BitVec.ofNat 32 tag.code) = .done (reset v tag) := by
    rw [Val.setType, reset]
    split
    · rfl
    · rw [if_pos hv.1]
  rw [readInto, Scan.bind_apply, readLe_long hl]
  simp only [Outcome.bind_done, hcode, hset, Scan.ofOutcome_done, Tag.ofCode_code]
  rfl

theorem decode_into {v : CVal} (hv : Built v) {bs : Bytes} {tag : Tag} (hl : 4 ≤ bs.length)
    (ht : tagAhead bs = some tag) (n : Nat) :
    decode (n + 1) v bs = readPayload false (readInto false n .empty : Scan Bytes (Bool × CVal))
      (reset v tag) tag (bs.drop 4) :=
  readInto_tag hv hl ht false n

/-- A read that returned true had a declared tag. -/
theorem tagAhead_of_true {n : Nat} {v w : CVal} {bs rest : Bytes}
    (h : decode n v bs = .done ((true, w), rest)) :
    4 ≤ bs.length ∧ ∃ tag, tagAhead bs = some tag := by
  cases n with
  | zero => cases h
  | succ n =>
    by_cases hl : bs.length < 4
    · rw [decode_short n v hl] at h
      cases h
    · refine ⟨by omega, ?_⟩
      cases ht : tagAhead bs with
      | some tag => exact ⟨tag, rfl⟩
      | none =>
        rw [decode, readInto, Scan.bind_apply, readLe_long (by omega)] at h
        obtain ⟨u, bs', -, h⟩ := Scan.bind_eq_done h
        rw [show Tag.ofCode (ofLe (bs.take 4)) = none from ht] at h
        cases h

/-! ## Types that overwrite all of the old value -/

/-- With six bytes ahead the old val is gone. -/
theorem readMeasurement_done {u w : CVal} {bs rest : Bytes}
    (h : (readMeasurement u : Scan Bytes (Bool × CVal)) bs = .done ((true, w), rest)) :
    6 ≤ bs.length ∧ rest = bs.drop 6 := by
  rw [readMeasurement, Scan.bind_apply] at h
  by_cases hl : bs.length < 4
  · rw [readLe_short hl] at h
    cases h
  · rw [readLe_long (by omega)] at h
    simp only [Outcome.bind_done, Scan.bind_apply, readBytes_list, List.drop_drop] at h
    by_cases hk : ((bs.drop 4).take 2).length = 2
    · rw [if_pos hk] at h
      cases h
      rw [List.length_take, List.length_drop] at hk
      exact ⟨by omega, rfl⟩
    · rw [if_neg hk] at h
      cases h

theorem readMeasurement_long (u : CVal) {bs : Bytes} (h : 6 ≤ bs.length) :
    (readMeasurement u : Scan Bytes (Bool × CVal)) bs =
      .done ((true, .measurement (BitVec.ofNat 32 (ofLe (bs.take 4))) (.ofBits (BitVec.ofNat 32
        (ofLe ((bs.drop 4).take 2) + Uninit.unit.toNat / 2 ^ 16 * 2 ^ 16)))), bs.drop 6) := by
  have hk : ((bs.drop 4).take 2).length = 2 := by
    rw [List.length_take, List.length_drop]
    omega
  rw [readMeasurement, Scan.bind_apply, readLe_long (by omega)]
  simp only [Outcome.bind_done, Scan.bind_apply, readBytes_list, if_pos hk, List.drop_drop]
  rfl

theorem readString_short (literal : Bool) {bs : Bytes} (h : bs.length < 4) :
    (readString literal : Scan Bytes (Bytes × Bool)) bs = .done (([], false), []) := by
  rw [readString, Scan.bind_apply, readLe_short h]
  rfl

/-- `alloc` releases the literal. -/
theorem readString_literal {bs : Bytes} (h : 4 ≤ bs.length) :
    (readString true : Scan Bytes (Bytes × Bool)) bs = .fault := by
  rw [readString, Scan.bind_apply, readLe_long h]
  rfl

theorem readError_eq (literal : Bool) (code : BitVec 32) (bs : Bytes) :
    (readError literal code : Scan Bytes (Bool × CVal)) bs =
      (readString literal (bs.drop 4)).bind fun r =>
        .done ((true, .error (BitVec.ofNat 32 (patch code.toNat (bs.take 4))) r.1.1), r.2) := rfl

/-- With four bytes ahead the old code of an ERROR is gone, and without the size of
a message so is the old message. -/
theorem readError_code (literal : Bool) (code : BitVec 32) {bs : Bytes} (hl : 4 ≤ bs.length)
    (hm : bs.length < 8) :
    (readError literal code : Scan Bytes (Bool × CVal)) bs =
      .done ((true, .error (BitVec.ofNat 32 (ofLe (bs.take 4))) []), []) := by
  have hpatch : patch code.toNat (bs.take 4) = ofLe (bs.take 4) := by
    have hlen : (bs.take 4).length = 4 := by
      rw [List.length_take]
      omega
    have hc : code.toNat / 256 ^ 4 = 0 := Nat.div_eq_of_lt code.isLt
    rw [patch, hlen, hc, Nat.zero_mul, Nat.add_zero]
  rw [readError_eq, readString_short literal (by rw [List.length_drop]; omega), hpatch]
  rfl

theorem reset_empty_eq {v : CVal} (hv : Built v) : reset v .EMPTY = .empty := by
  rw [reset]
  split
  next ht => exact hv.eq_empty ht
  next => rfl

theorem reset_error {v : CVal} (hv : Built v) : ∃ code msg, reset v .ERROR = .error code msg := by
  rw [reset]
  split
  next ht => exact hv.eq_error ht
  next => exact ⟨0, [], rfl⟩

/-- What the switch makes of the bytes, up to what the stack held. -/
theorem readPayload_resets {value : Scan Bytes (Bool × CVal)} {tag : Tag} {bs rest : Bytes}
    {v w : CVal} {literal : Bool} (hv : Built v) (ha : tag ≠ .ARRAY) (hm : tag ≠ .MAP)
    (he : tag = .ERROR → 4 ≤ bs.length ∧ bs.length < 8)
    (h : readPayload literal value (reset v tag) tag bs = .done ((true, w), rest))
    (unit : BitVec 32) :
    ∃ u, ∀ (m : Uninit) (value' : Scan Bytes (Bool × CVal)) (literal' : Bool) (v' : CVal),
      m.unit = unit → Built v' →
        (@readPayload Bytes _ m literal' value' (@reset m v' tag) tag) bs =
          .done ((true, u), rest) := by
  have hnum : ∀ {k : Nat} {member : Nat → CVal}, number tag = some (k, member) →
      ∃ u, ∀ (m : Uninit) (value' : Scan Bytes (Bool × CVal)) (literal' : Bool) (v' : CVal),
        m.unit = unit → Built v' →
          (@readPayload Bytes _ m literal' value' (@reset m v' tag) tag) bs =
            .done ((true, u), rest) := by
    intro k member hn
    rw [readPayload_number hn] at h
    refine ⟨w, ?_⟩
    intro m value' literal' v' _ _
    rw [readPayload_number hn]
    exact readMember_reset h _
  have hptr : ∀ {tag' : Tag},
      (readPointer tag' (reset v tag) : Scan Bytes (Bool × CVal)) bs = .done ((true, w), rest) →
        ∃ u, ∀ (m : Uninit) (v' : CVal), m.unit = unit → Built v' →
          (readPointer tag' (@reset m v' tag) : Scan Bytes (Bool × CVal)) bs =
            .done ((true, u), rest) := by
    intro tag' h
    exact ⟨w, fun m v' _ _ => readPointer_reset h _⟩
  cases tag with
  | EMPTY =>
    cases h
    refine ⟨.empty, ?_⟩
    intro m value' literal' v' _ hv'
    rw [@reset_empty_eq m v' hv']
    rfl
  | INT32 => exact hnum rfl
  | INT64 => exact hnum rfl
  | UINT32 => exact hnum rfl
  | UINT64 => exact hnum rfl
  | FLOAT32 => exact hnum rfl
  | FLOAT64 => exact hnum rfl
  | STRING =>
    obtain ⟨u, hu⟩ := hptr h
    exact ⟨u, fun m _ _ v' => hu m v'⟩
  | BYTEARRAY =>
    obtain ⟨u, hu⟩ := hptr h
    exact ⟨u, fun m _ _ v' => hu m v'⟩
  | MEASUREMENT =>
    obtain ⟨hl, rfl⟩ := readMeasurement_done h
    refine ⟨.measurement (BitVec.ofNat 32 (ofLe (bs.take 4))) (.ofBits (BitVec.ofNat 32
      (ofLe ((bs.drop 4).take 2) + unit.toNat / 2 ^ 16 * 2 ^ 16))), ?_⟩
    rintro m value' literal' v' rfl -
    exact @readMeasurement_long m (@reset m v' .MEASUREMENT) bs hl
  | ARRAY => exact (ha rfl).elim
  | MAP => exact (hm rfl).elim
  | OBJECT => cases h
  | ERROR =>
    obtain ⟨hl, hlt⟩ := he rfl
    obtain ⟨code, msg, hr⟩ := reset_error hv
    have hrun : (readError literal code : Scan Bytes (Bool × CVal)) bs =
        .done ((true, w), rest) := by
      rw [← h, hr]
      rfl
    rw [readError_code literal code hl hlt] at hrun
    cases hrun
    refine ⟨.error (BitVec.ofNat 32 (ofLe (bs.take 4))) [], ?_⟩
    intro m value' literal' v' _ hv'
    obtain ⟨code', msg', hr'⟩ := @reset_error m v' hv'
    rw [hr']
    exact @readError_code m literal' code' bs hl hlt

/-! ## Types that keep some of it -/

/-- An entry with the empty key stays the first. -/
theorem readFields_keeps {value : Scan Bytes (Bool × CVal)} {num : Nat} {x : CVal}
    {m fields : List (Bytes × CVal)} {r : Bool} {bs rest : Bytes}
    (h : readFields value num (([], x) :: m) bs = .done ((r, fields), rest)) :
    ∃ m', fields = ([], x) :: m' := by
  induction num generalizing m bs with
  | zero =>
    cases h
    exact ⟨m, rfl⟩
  | succ num ih =>
    rw [readFields] at h
    obtain ⟨key, bs', -, h⟩ := Scan.bind_eq_done h
    by_cases hk : key.2 = false
    · rw [if_pos hk] at h
      cases h
      exact ⟨m, rfl⟩
    · rw [if_neg hk] at h
      obtain ⟨y, bs'', -, h⟩ := Scan.bind_eq_done h
      by_cases hd : y.2.destructs = true
      · rw [if_pos hd] at h
        cases hr : y.1 with
        | true =>
          rw [hr, if_pos rfl] at h
          have hins : ∃ m', OrderedMap.insert key.1 y.2 (([], x) :: m) = ([], x) :: m' := by
            rw [OrderedMap.insert, if_neg (List.not_lt_nil _)]
            split
            · exact ⟨m, rfl⟩
            · exact ⟨_, rfl⟩
          obtain ⟨m', hm'⟩ := hins
          rw [hm'] at h
          exact ih h
        | false =>
          rw [hr] at h
          cases h
          exact ⟨m, rfl⟩
      · rw [if_neg hd] at h
        cases h

theorem decode_array_inv {n : Nat} {pre : List CVal} {bs rest : Bytes} {w : CVal}
    (ht : tagAhead bs = some .ARRAY) (hl : 4 ≤ bs.length) (hpre : Built (.array pre))
    (h : decode (n + 1) (.array pre) bs = .done ((true, w), rest)) :
    ∃ vec, readElements (readInto false n .empty) (ofLe ((bs.drop 4).take 4)) pre
      ((bs.drop 4).drop 4) =
      .done ((true, vec), rest) ∧ w = .array vec := by
  have hreset : reset (.array pre) .ARRAY = .array pre := if_pos rfl
  rw [decode_into hpre hl ht, hreset, readPayload, Scan.bind_apply] at h
  by_cases hshort : (bs.drop 4).length < 4
  · rw [readLe_short hshort] at h
    cases h
  · rw [readLe_long (by omega), Outcome.bind_done] at h
    obtain ⟨⟨r, vec⟩, bs', hx, h⟩ := Scan.bind_eq_done h
    cases h
    exact ⟨vec, hx, rfl⟩

theorem decode_map_inv {n : Nat} {pre : List (Bytes × CVal)} {bs rest : Bytes} {w : CVal}
    (ht : tagAhead bs = some .MAP) (hl : 4 ≤ bs.length) (hpre : Built (.map pre))
    (h : decode (n + 1) (.map pre) bs = .done ((true, w), rest)) :
    ∃ fields, readFields (readInto false n .empty) (ofLe ((bs.drop 4).take 4)) pre
      ((bs.drop 4).drop 4) = .done ((true, fields), rest) ∧ w = .map fields := by
  have hreset : reset (.map pre) .MAP = .map pre := if_pos rfl
  rw [decode_into hpre hl ht, hreset, readPayload, Scan.bind_apply] at h
  by_cases hshort : (bs.drop 4).length < 4
  · rw [readLe_short hshort] at h
    cases h
  · rw [readLe_long (by omega), Outcome.bind_done] at h
    obtain ⟨⟨r, fields⟩, bs', hx, h⟩ := Scan.bind_eq_done h
    cases h
    exact ⟨fields, hx, rfl⟩

theorem decode_error_inv {n : Nat} {code : BitVec 32} {bs rest : Bytes} {w : CVal}
    (ht : tagAhead bs = some .ERROR) (hl : 4 ≤ bs.length)
    (h : decode (n + 1) (.error code []) bs = .done ((true, w), rest)) :
    ∃ msg, w = .error (BitVec.ofNat 32 (patch code.toNat ((bs.drop 4).take 4))) msg := by
  have hreset : reset (.error code []) .ERROR = .error code [] := if_pos rfl
  have hbuilt : Built (.error code []) := ⟨rfl, by simp⟩
  rw [decode_into hbuilt hl ht, hreset] at h
  have hrun : (readError false code : Scan Bytes (Bool × CVal)) (bs.drop 4) =
      .done ((true, w), rest) := h
  rw [readError_eq] at hrun
  cases hmsg : (readString false : Scan Bytes (Bytes × Bool)) ((bs.drop 4).drop 4) with
  | done x =>
    rw [hmsg] at hrun
    cases hrun
    exact ⟨x.1.1, rfl⟩
  | timeout =>
    rw [hmsg] at hrun
    cases hrun
  | fault =>
    rw [hmsg] at hrun
    cases hrun

/-- The size of a message ahead, and a literal to release. -/
theorem readInto_literal {n : Nat} {code : BitVec 32} {bs : Bytes}
    (ht : tagAhead bs = some .ERROR) (hl : 12 ≤ bs.length) :
    (readInto true (n + 1) (.error code []) : Scan Bytes (Bool × CVal)) bs = .fault := by
  have hbuilt : Built (.error code []) := ⟨rfl, by simp⟩
  have hreset : reset (.error code []) .ERROR = .error code [] := if_pos rfl
  rw [readInto_tag hbuilt (by omega) ht, hreset]
  show (readError true code : Scan Bytes (Bool × CVal)) (bs.drop 4) = .fault
  rw [readError_eq, readString_literal (by rw [List.length_drop, List.length_drop]; omega)]
  rfl

/-! ## The destination -/

/-- Both destinations take the same val from the bytes. -/
def TakenAlike (bs : Bytes) : Prop :=
  ∀ d₁ d₂ : Destination, ∃ n w r₁ r₂,
    (readInto d₁.literal (n + 1) d₁.val : Scan Bytes (Bool × CVal)) bs = .done ((true, w), r₁) ∧
    (readInto d₂.literal (n + 1) d₂.val : Scan Bytes (Bool × CVal)) bs = .done ((true, w), r₂)

theorem DestinationIrrelevant.takenAlike {src bs : Bytes} {s : Bytestream}
    (h : DestinationIrrelevant s) (hs : Ahead src s bs) : TakenAlike bs := by
  intro d₁ d₂
  obtain ⟨N, hN⟩ := h d₁ d₂ _ _ rfl
  obtain ⟨w, t₁, t₂, hr₁, hr₂, -⟩ := hN (N + 1) (by omega)
  have hsim := readInto_sim (readBytes_sim src)
  obtain ⟨r₁, hd₁, -⟩ := (hsim d₁.literal (N + 1) d₁.val).done_of_done_left hs hr₁
  obtain ⟨r₂, hd₂, -⟩ := (hsim d₂.literal (N + 1) d₂.val).done_of_done_left hs hr₂
  exact ⟨N, w, r₁, r₂, hd₁, hd₂⟩

/-- The elements of the old ARRAY stay in front. -/
theorem TakenAlike.not_array {bs : Bytes} (h : TakenAlike bs) (hl : 4 ≤ bs.length) :
    tagAhead bs ≠ some .ARRAY := by
  intro harr
  obtain ⟨n, w, r₁, r₂, h₁, h₂⟩ := h ⟨.array [], false, rfl, nofun⟩
    ⟨.array [.empty], false, rfl, nofun⟩
  obtain ⟨vec, hvec, rfl⟩ := decode_array_inv harr hl ⟨rfl, nofun⟩ h₁
  obtain ⟨vec', hvec', heq⟩ := decode_array_inv harr hl ⟨rfl, nofun⟩ h₂
  have hkeep := readElements_keeps hvec [.empty]
  rw [List.append_nil, hvec'] at hkeep
  have hvv : vec' = [.empty] ++ vec :=
    (Prod.mk.inj (Prod.mk.inj (Outcome.done.inj hkeep)).1).2
  have hlen := congrArg List.length (Val.array.inj heq)
  rw [hvv, List.length_append, List.length_singleton] at hlen
  omega

/-- An entry of the old MAP keeps its value. -/
theorem TakenAlike.not_map {bs : Bytes} (h : TakenAlike bs) (hl : 4 ≤ bs.length) :
    tagAhead bs ≠ some .MAP := by
  intro hmap
  obtain ⟨n, w, r₁, r₂, h₁, h₂⟩ := h ⟨.map [([], .int32 0)], false, rfl, nofun⟩
    ⟨.map [([], .int32 1)], false, rfl, nofun⟩
  obtain ⟨fields, hf, rfl⟩ := decode_map_inv hmap hl ⟨rfl, nofun⟩ h₁
  obtain ⟨fields', hf', heq⟩ := decode_map_inv hmap hl ⟨rfl, nofun⟩ h₂
  obtain ⟨m, rfl⟩ := readFields_keeps hf
  obtain ⟨m', rfl⟩ := readFields_keeps hf'
  cases heq

/-- A code that is cut off keeps bytes of the old one, and the size of a message releases the
literal. -/
theorem TakenAlike.error_length {bs : Bytes} (h : TakenAlike bs) (hl : 4 ≤ bs.length)
    (herr : tagAhead bs = some .ERROR) : 8 ≤ bs.length ∧ bs.length < 12 := by
  constructor
  · by_contra hshort
    obtain ⟨n, w, r₁, r₂, h₁, h₂⟩ := h ⟨.error 0 [], false, rfl, nofun⟩
      ⟨.error 0xFF000000 [], false, rfl, nofun⟩
    obtain ⟨msg, rfl⟩ := decode_error_inv herr hl h₁
    obtain ⟨msg', heq⟩ := decode_error_inv herr hl h₂
    apply patch_ne _ (Val.error.inj heq).1
    rw [List.length_take, List.length_drop]
    omega
  · by_contra hlong
    obtain ⟨n, w, r₁, r₂, h₁, -⟩ := h ⟨.error 0 [], true, rfl, nofun⟩
      ⟨.error 0 [], false, rfl, nofun⟩
    rw [readInto_literal herr (by omega)] at h₁
    cases h₁

/-- Bytes that reset the destination give one val, whatever it was and whatever its heap holds. -/
theorem Resets.destinationIrrelevant {src bs rest : Bytes} {s : Bytestream} {n₀ : Nat} {w : CVal}
    (h : Resets bs) (hs : Ahead src s bs) (hdec : decode n₀ .empty bs = .done ((true, w), rest)) :
    DestinationIrrelevant s := by
  obtain ⟨harr, hmap, herr⟩ := h
  obtain ⟨hl, tag, ht⟩ := tagAhead_of_true hdec
  cases n₀ with
  | zero => cases hdec
  | succ n₀ =>
    have hpay := (readInto_tag built_empty hl ht false n₀).symm.trans hdec
    rw [ht] at harr hmap herr
    have hcode : tag = .ERROR → 4 ≤ (bs.drop 4).length ∧ (bs.drop 4).length < 8 := by
      intro he
      have := herr (by rw [he])
      rw [List.length_drop]
      omega
    have hresets := readPayload_resets built_empty (fun h => harr (by rw [h]))
      (fun h => hmap (by rw [h])) hcode hpay
    intro d₁ d₂ m₁ m₂ hunit
    obtain ⟨u, hu⟩ := hresets m₁.unit
    have hinto : ∀ (m : Uninit) (d : Destination) n, 1 ≤ n → m.unit = m₁.unit →
        ∃ t, (@readInto Bytestream _ m d.literal n d.val) s = .done ((true, u), t) ∧
          Ahead src t rest := by
      intro m d n hn hm
      obtain ⟨n, rfl⟩ := Nat.exists_eq_add_of_le' hn
      apply (@readInto_sim Bytestream Bytes _ _ (Ahead src) m (readBytes_sim src) d.literal (n + 1)
        d.val).done_of_done hs
      rw [@readInto_tag m d.val d.built bs tag hl ht]
      exact hu m _ _ d.val hm d.built
    refine ⟨1, ?_⟩
    intro n hn
    obtain ⟨t₁, h₁, ha₁⟩ := hinto m₁ d₁ n hn rfl
    obtain ⟨t₂, h₂, ha₂⟩ := hinto m₂ d₂ n hn hunit.symm
    refine ⟨u, t₁, t₂, h₁, h₂, ?_⟩
    have e₁ := ha₁.1.offsetRead_add ha₁.2
    have e₂ := ha₂.1.offsetRead_add ha₂.2
    omega

/-- For a stream that `read<val>` accepts, the old value of the destination does
not matter if and only if the bytes reset it. -/
theorem destination_irrelevant_iff {src : Bytes} {s : Bytestream} (hs : Over src s)
    (hret : ∃ n w t, readInto false n .empty s = .done ((true, w), t)) :
    DestinationIrrelevant s ↔ Resets (src.drop s.offsetRead) := by
  have hahead : Ahead src s (src.drop s.offsetRead) := ⟨hs, rfl⟩
  obtain ⟨n₀, w, t, hrun⟩ := hret
  obtain ⟨rest, hdec, -⟩ :=
    (readInto_sim (readBytes_sim src) false n₀ .empty).done_of_done_left hahead hrun
  obtain ⟨hl, -⟩ := tagAhead_of_true hdec
  constructor
  · intro h
    have halike := h.takenAlike hahead
    exact ⟨halike.not_array hl, halike.not_map hl, halike.error_length hl⟩
  · intro h
    exact h.destinationIrrelevant hahead hdec

end Read

/-- The encoding of EMPTY. -/
theorem destination_irrelevant_empty : DestinationIrrelevant (ofBytearray [0, 0, 0, 0]) := by
  have hs : Over [0, 0, 0, 0] (ofBytearray [0, 0, 0, 0]) := Over.ofBytearray (by decide)
  apply (@destination_irrelevant_iff zeroMemory _ _ hs ⟨1, .empty, _, rfl⟩).mpr
  exact ⟨by decide, by decide, by decide⟩

/-- The encoding of an empty array, read into an empty array and into an array of
one element. -/
theorem array_keeps_leftover :
    (∃ n w t, (@readInto Bytestream _ zeroMemory false n .empty)
      (ofBytearray [10, 0, 0, 0, 0, 0, 0, 0]) = .done ((true, w), t)) ∧
      ¬DestinationIrrelevant (ofBytearray [10, 0, 0, 0, 0, 0, 0, 0]) := by
  constructor
  · exact ⟨1, .array [], _, rfl⟩
  · intro h
    obtain ⟨N, hN⟩ := h ⟨.array [], false, rfl, nofun⟩ ⟨.array [.empty], false, rfl, nofun⟩
      zeroMemory zeroMemory rfl
    obtain ⟨w, t₁, t₂, h₁, h₂, -⟩ := hN (N + 1) (by omega)
    obtain rfl := (Prod.mk.inj (Prod.mk.inj (Outcome.done.inj h₁)).1).2
    cases (Prod.mk.inj (Prod.mk.inj (Outcome.done.inj h₂)).1).2

end Bytestream

end Libacorn
