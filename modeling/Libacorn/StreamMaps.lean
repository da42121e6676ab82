import Libacorn.StreamTruncation

/-!
# base/bytestream.h: maps

The templates `read` and `write` for `map<K,V>`, over any types that have their own. When
those of the keys and of the values are lawful (a written value is read back, and no cut of
its bytes is read at all), so are those of the map (`Lawful.map`); maps of maps are then
lawful too.
-/

namespace Libacorn.Bytestream

open Support

/-! ## bytestream.h -/

/-- `write(const T&)`, and `read(T&)` into a new value. -/
structure Stored (T : Type) where
  write : T → Scan Bytestream Bool
  read : Scan Bytestream (Bool × T)

section Templates

variable [Uninit]

/-- The template for a type of `k` bytes; a value that was not read keeps its old bytes. -/
def plain (k : Nat) : Stored Nat where
  write x := writeBytes (leBytes k x)
  read := do
    let bytes ← readBytes k
    pure (decide (bytes.length = k), patch 0 bytes)

/-- The functions for strings. -/
def stored : Stored Bytes where
  write := writeString
  read := do
    let r ← readString false
    pure (r.2, r.1)

/-- The functions for bytearrays. A size that no `int32_t` holds leaves no block to read into. -/
def storedArray : Stored Bytes where
  write := writeString
  read := do
    match ← readLe 4 with
    | none => pure (false, [])
    | some cb =>
      if cb < 2 ^ 31 then
        let bytes ← readBytes cb
        pure (decide (bytes.length = cb), bytes ++ Uninit.block (cb - bytes.length))
      else Scan.fault

variable {K V : Type} [LinearOrder K]

/-- The loop of `read(map<K,V>&)`, from `i` on: `i` is an `int`. -/
def readEntries (k : Stored K) (v : Stored V) :
    Nat → Nat → List (K × V) → Scan Bytestream (Bool × List (K × V))
  | _, 0, val => pure (true, val)
  | i, c + 1, val => do
    let first ← k.read
    if first.1 then
      let second ← v.read
      if second.1 then
        if i + 1 < 2 ^ 31 then readEntries k v (i + 1) c (OrderedMap.insert first.2 second.2 val)
        else Scan.fault
      else pure (false, val)
    else pure (false, val)

/-- `read(map<K,V>& val)` -/
def readMap (k : Stored K) (v : Stored V) (val : List (K × V)) :
    Scan Bytestream (Bool × List (K × V)) := do
  match ← readLe 8 with
  | none => pure (false, val)
  | some c => readEntries k v 0 c val

def writeEntries (k : Stored K) (v : Stored V) : List (K × V) → Scan Bytestream Bool
  | [] => pure true
  | e :: val => do
    if ← k.write e.1 then
      if ← v.write e.2 then writeEntries k v val else pure false
    else pure false

/-- `write(const map<K,V>& val)` -/
def writeMap (k : Stored K) (v : Stored V) (val : List (K × V)) : Scan Bytestream Bool := do
  if ← writeBytes (leBytes 8 val.length) then writeEntries k v val else pure false

/-- `map<K,V>` -/
def mapOf (k : Stored K) (v : Stored V) : Stored (List (K × V)) where
  write := writeMap k v
  read := readMap k v []

end Templates

/-! ## Lawful types -/

/-- On a cut of `b` the scanner ends with a bad answer. -/
def Cuts {α : Type} (p : Scan Bytestream α) (bad : α → Prop) (b : Bytes) : Prop :=
  ∀ src s q, (input src).ready s → (input src).ahead s = q → Cut q b → ∃ a t, p s = .done (a, t) ∧
    bad a

theorem Cuts.nil {α : Type} (p : Scan Bytestream α) (bad : α → Prop) : Cuts p bad [] := by
  intro src s q hs ha hcut
  exact (Nat.not_lt_zero _ hcut.length_lt).elim

theorem Cuts.mono {α : Type} {p : Scan Bytestream α} {bad bad' : α → Prop} {b : Bytes}
    (h : Cuts p bad b) (hbad : ∀ a, bad a → bad' a) : Cuts p bad' b := by
  intro src s q hs ha hcut
  obtain ⟨a, t, ht, hba⟩ := h src s q hs ha hcut
  exact ⟨a, t, ht, hbad a hba⟩

/-- What follows ends with a bad answer as well. -/
theorem Cuts.map {α β : Type} {p : Scan Bytestream α} {f : α → Scan Bytestream β} {bad : α → Prop}
    {bad' : β → Prop} {b : Bytes} (hp : Cuts p bad b)
    (hstop : ∀ y, bad y → ∃ z, bad' z ∧ f y = pure z) : Cuts (p >>= f) bad' b := by
  intro src s q hs ha hcut
  obtain ⟨y, t, hy, hbad⟩ := hp src s q hs ha hcut
  obtain ⟨z, hz, hfy⟩ := hstop y hbad
  refine ⟨z, t, ?_, hz⟩
  rw [Scan.bind_apply, hy, Outcome.bind_done]
  show f y t = _
  rw [hfy, Scan.pure_apply]

/-- A cut of two parts cuts the first one, or leaves it whole and cuts the second. -/
theorem Cuts.bind {α β : Type} {p : Scan Bytestream α} {f : α → Scan Bytestream β} {bad : α → Prop}
    {bad' : β → Prop} {b c : Bytes} {a : α} (hp : Cuts p bad b)
    (hstop : ∀ y, bad y → ∃ z, bad' z ∧ f y = pure z) (hr : ∀ src, (input src).Reads p b a)
    (hf : Cuts (f a) bad' c) : Cuts (p >>= f) bad' (b ++ c) := by
  intro src s q hs ha hcut
  rcases hcut.append with hfirst | ⟨q, rfl, hsecond⟩
  · exact hp.map hstop src s q hs ha hfirst
  · obtain ⟨t, ht, htr, hta⟩ := hr src s q hs ha
    obtain ⟨z, u, hu, hz⟩ := hf src t q htr hta hsecond
    refine ⟨z, u, ?_, hz⟩
    rw [Scan.bind_apply, ht]
    exact hu

/-- The reader returned false. -/
def Refused {T : Type} (r : Bool × T) : Prop := r.1 = false

/-- A value in `ok` is written as `enc`, and read back from it and from no part of it. -/
structure Lawful {T : Type} [Uninit] (c : Stored T) (ok : T → Prop) (enc : T → Bytes) : Prop where
  writes : ∀ x, ok x → output.Writes (c.write x) (enc x)
  reads : ∀ src x, ok x → (input src).Reads c.read (enc x) (true, x)
  cuts : ∀ x, ok x → Cuts c.read Refused (enc x)

/-- All that is left, when it is less than what is asked for. -/
theorem readBytes_short {src : Bytes} {s : Bytestream} {q : Bytes} {k : Nat}
    (hs : (input src).ready s) (ha : (input src).ahead s = q) (hk : q.length < k) :
    ∃ t, readBytes k s = .done (q, t) := by
  have hlen := hs.offsetRead_add ha
  have hsm := hs.small
  have havail : sizeT (s.cb - s.offsetRead) = src.length - s.offsetRead := by
    rw [hs.cb_eq, sizeT_of_nonneg (by omega) (by omega)]
    omega
  have hmin : min k (src.length - s.offsetRead) = q.length := by omega
  have htake : (src.drop s.offsetRead).take q.length = q := by
    have ha' : src.drop s.offsetRead = q := ha
    rw [ha', List.take_length]
  refine ⟨{ s with offsetRead := s.offsetRead + q.length }, ?_⟩
  simp only [readBytes, havail, hmin, hs.mem_eq, htake]
  exact if_pos (by omega)

theorem readBytes_cuts (b : Bytes) :
    Cuts (readBytes b.length) (fun r => r.length < b.length) b := by
  intro src s q hs ha hcut
  obtain ⟨t, ht⟩ := readBytes_short hs ha hcut.length_lt
  exact ⟨q, t, ht, hcut.length_lt⟩

theorem readLe_cuts (k x : Nat) :
    Cuts (readLe k : Scan Bytestream (Option Nat)) (· = none) (leBytes k x) := by
  intro src s q hs ha hcut
  have hlt := hcut.length_lt
  rw [length_leBytes] at hlt
  obtain ⟨t, ht⟩ := readBytes_short hs ha hlt
  refine ⟨none, t, ?_, rfl⟩
  rw [readLe, Scan.bind_apply]
  show (readBytes k s).bind _ = _
  rw [ht, Outcome.bind_done, Scan.pure_apply, if_neg (Nat.ne_of_lt hlt)]

/-! ## Maps of lawful types -/

section Map

variable {K V : Type} [LinearOrder K] {okK : K → Prop} {okV : V → Prop}

/-- A `map` whose keys and values are in `okK` and `okV`, and whose size an `int` can count. -/
structure OkMap (okK : K → Prop) (okV : V → Prop) (val : List (K × V)) : Prop where
  sorted : OrderedMap.Sorted val
  size : val.length < 2 ^ 31
  keys : ∀ e ∈ val, okK e.1
  values : ∀ e ∈ val, okV e.2

theorem OkMap.length_lt {val : List (K × V)} (h : OkMap okK okV val) : val.length < 256 ^ 8 := by
  have := h.size
  omega

end Map

section Lawful

variable [Uninit]

theorem plain_lawful (k : Nat) : Lawful (plain k) (fun x => x < 256 ^ k) (leBytes k) := by
  refine ⟨fun x _ => writeBytes_writes _, ?_, ?_⟩
  · intro src x hx
    have h : (input src).Reads (readBytes (leBytes k x).length) _ _ := readBytes_reads (leBytes k x)
    rw [length_leBytes] at h
    apply h.map
    rw [decide_eq_true (length_leBytes k x), patch, ofLe_leBytes, Nat.mod_eq_of_lt hx, Nat.zero_div,
      Nat.zero_mul, Nat.add_zero]
  · intro x hx src s q hs ha hcut
    have hlt := hcut.length_lt
    rw [length_leBytes] at hlt
    obtain ⟨t, ht⟩ := readBytes_short hs ha hlt
    refine ⟨(false, patch 0 q), t, ?_, rfl⟩
    simp only [plain, Scan.bind_apply, ht, Outcome.bind_done, Scan.pure_apply,
      decide_eq_false (Nat.ne_of_lt hlt)]

theorem readString_cuts {b : Bytes} (hb : b.length < 2 ^ 32) :
    Cuts (readString false : Scan Bytestream (Bytes × Bool)) (fun r => r.2 = false)
      (leBytes 4 b.length ++ b) := by
  rw [readString_new]
  apply (readLe_cuts 4 b.length).bind
  · rintro y rfl
    exact ⟨([], false), rfl, rfl⟩
  · exact fun src => readLe_reads hb
  · apply (readBytes_cuts b).map
    intro y hy
    exact ⟨_, decide_eq_false (Nat.ne_of_lt hy), rfl⟩

theorem stored_lawful :
    Lawful stored (fun b => b.length < 2 ^ 32) (fun b => leBytes 4 b.length ++ b) := by
  refine ⟨fun b _ => writeString_writes b, ?_, ?_⟩
  · intro src b hb
    exact (readString_reads hb).map rfl
  · intro b hb
    apply (readString_cuts hb).map
    intro r hr
    exact ⟨(r.2, r.1), hr, rfl⟩

theorem storedArray_lawful :
    Lawful storedArray (fun b => b.length < 2 ^ 31) (fun b => leBytes 4 b.length ++ b) := by
  refine ⟨fun b _ => writeString_writes b, ?_, ?_⟩
  · intro src b hb
    apply Input.Reads.bind (readLe_reads (show b.length < 256 ^ 4 by omega))
    simp only [if_pos hb]
    apply (readBytes_reads b).map
    have hz : Uninit.block 0 = [] := List.length_eq_zero_iff.mp (Uninit.length_block 0)
    rw [Nat.sub_self, hz, List.append_nil, decide_eq_true rfl]
  · intro b hb
    apply (readLe_cuts 4 b.length).bind
    · rintro y rfl
      exact ⟨(false, []), rfl, rfl⟩
    · exact fun src => readLe_reads (show b.length < 256 ^ 4 by omega)
    · simp only [if_pos hb]
      apply (readBytes_cuts b).map
      intro y hy
      refine ⟨(decide (y.length = b.length), _), ?_, rfl⟩
      exact decide_eq_false (Nat.ne_of_lt hy)

variable {K V : Type}

/-- The entries of a map, one after the other. -/
def encodeEntries (encK : K → Bytes) (encV : V → Bytes) : List (K × V) → Bytes
  | [] => []
  | e :: val => encK e.1 ++ (encV e.2 ++ encodeEntries encK encV val)

def encodeMap (encK : K → Bytes) (encV : V → Bytes) (val : List (K × V)) : Bytes :=
  leBytes 8 val.length ++ encodeEntries encK encV val

variable {k : Stored K} {v : Stored V} {okK : K → Prop} {okV : V → Prop} {encK : K → Bytes}
  {encV : V → Bytes}

theorem writeEntries_writes (hk : Lawful k okK encK) (hv : Lawful v okV encV) {val : List (K × V)}
    (hkeys : ∀ e ∈ val, okK e.1) (hvalues : ∀ e ∈ val, okV e.2) :
    output.Writes (writeEntries k v val) (encodeEntries encK encV val) := by
  induction val with
  | nil =>
    rw [writeEntries, encodeEntries]
    exact Output.Writes.pure
  | cons e val ih =>
    rw [writeEntries, encodeEntries]
    apply (hk.writes e.1 (hkeys e (List.mem_cons_self ..))).seq
    apply (hv.writes e.2 (hvalues e (List.mem_cons_self ..))).seq
    exact ih (fun e he => hkeys e (List.mem_cons_of_mem _ he))
      (fun e he => hvalues e (List.mem_cons_of_mem _ he))

variable [LinearOrder K]

theorem readEntries_reads (hk : Lawful k okK encK) (hv : Lawful v okV encV) (src : Bytes) {i : Nat}
    {val : List (K × V)} (hkeys : ∀ e ∈ val, okK e.1) (hvalues : ∀ e ∈ val, okV e.2)
    (hi : i + val.length < 2 ^ 31) (acc : List (K × V)) :
    (input src).Reads (readEntries k v i val.length acc) (encodeEntries encK encV val)
      (true, OrderedMap.insertAll acc val) := by
  induction val generalizing i acc with
  | nil =>
    rw [encodeEntries]
    exact Input.Reads.pure _
  | cons e val ih =>
    rw [List.length_cons] at hi
    rw [encodeEntries]
    apply (hk.reads src e.1 (hkeys e (List.mem_cons_self ..))).bind
    rw [if_pos rfl]
    apply (hv.reads src e.2 (hvalues e (List.mem_cons_self ..))).bind
    rw [if_pos rfl, if_pos (by omega)]
    exact ih (fun e he => hkeys e (List.mem_cons_of_mem _ he))
      (fun e he => hvalues e (List.mem_cons_of_mem _ he))
      (by omega) _

/-- The reader returned false and kept the entries that it had read. -/
def Kept (old val : List (K × V)) (r : Bool × List (K × V)) : Prop :=
  r.1 = false ∧ ∃ pre, pre <+: val ∧ r.2 = OrderedMap.insertAll old pre

theorem readEntries_cuts (hk : Lawful k okK encK) (hv : Lawful v okV encV) {i : Nat}
    {val : List (K × V)} (hkeys : ∀ e ∈ val, okK e.1) (hvalues : ∀ e ∈ val, okV e.2)
    (hi : i + val.length < 2 ^ 31) (old : List (K × V)) :
    Cuts (readEntries k v i val.length old) (Kept old val) (encodeEntries encK encV val) := by
  induction val generalizing i old with
  | nil =>
    rw [encodeEntries]
    exact Cuts.nil _ _
  | cons e val ih =>
    rw [List.length_cons] at hi
    rw [encodeEntries]
    have hstop : ∀ {T : Type} (r : Bool × T) (f : Scan Bytestream (Bool × List (K × V))),
        Refused r →
        ∃ z, Kept old (e :: val) z ∧ (if r.1 then f else pure (false, old)) = pure z := by
      intro T r f hr
      exact ⟨(false, old), ⟨rfl, [], List.nil_prefix, rfl⟩,
        if_neg (by rw [show r.1 = false from hr]; decide)⟩
    apply (hk.cuts e.1 (hkeys e (List.mem_cons_self ..))).bind (fun r hr => hstop r _ hr)
      (fun src => hk.reads src e.1 (hkeys e (List.mem_cons_self ..)))
    rw [if_pos rfl]
    apply (hv.cuts e.2 (hvalues e (List.mem_cons_self ..))).bind (fun r hr => hstop r _ hr)
      (fun src => hv.reads src e.2 (hvalues e (List.mem_cons_self ..)))
    rw [if_pos rfl, if_pos (by omega)]
    have hrest := ih (i := i + 1) (fun e he => hkeys e (List.mem_cons_of_mem _ he))
      (fun e he => hvalues e (List.mem_cons_of_mem _ he)) (by omega) (OrderedMap.insert e.1 e.2 old)
    apply hrest.mono
    rintro r ⟨hr, pre, hpre, hkept⟩
    exact ⟨hr, e :: pre, List.cons_prefix_cons.mpr ⟨rfl, hpre⟩, hkept⟩

theorem writeMap_writes (hk : Lawful k okK encK) (hv : Lawful v okV encV) {val : List (K × V)}
    (h : OkMap okK okV val) : output.Writes (writeMap k v val) (encodeMap encK encV val) :=
  (writeBytes_writes _).seq (writeEntries_writes hk hv h.keys h.values)

theorem readMap_reads (hk : Lawful k okK encK) (hv : Lawful v okV encV) (src : Bytes)
    {val : List (K × V)} (h : OkMap okK okV val) (old : List (K × V)) :
    (input src).Reads (readMap k v old) (encodeMap encK encV val)
      (true, OrderedMap.insertAll old val) := by
  have hsize := h.size
  exact (readLe_reads h.length_lt).bind
    (readEntries_reads hk hv src (i := 0) h.keys h.values (by omega) old)

theorem readMap_cuts (hk : Lawful k okK encK) (hv : Lawful v okV encV) {val : List (K × V)}
    (h : OkMap okK okV val) (old : List (K × V)) :
    Cuts (readMap k v old) (Kept old val) (encodeMap encK encV val) := by
  have hsize := h.size
  apply (readLe_cuts 8 val.length).bind
  · rintro y rfl
    exact ⟨(false, old), ⟨rfl, [], List.nil_prefix, rfl⟩, rfl⟩
  · exact fun src => readLe_reads h.length_lt
  · exact readEntries_cuts hk hv h.keys h.values (by omega) old

/-- Maps over lawful types are lawful. -/
theorem Lawful.map (hk : Lawful k okK encK) (hv : Lawful v okV encV) :
    Lawful (mapOf k v) (OkMap okK okV) (encodeMap encK encV) := by
  refine ⟨fun val h => writeMap_writes hk hv h, ?_, ?_⟩
  · intro src val h
    have hread := readMap_reads hk hv src h []
    rw [OrderedMap.insertAll_of_sorted [] val h.sorted] at hread
    exact hread
  · intro val h
    exact (readMap_cuts hk hv h []).mono fun r hr => hr.1

end Lawful

/-! ## The types -/

/-- The types of keys: unsigned integers of `k` bytes, and `string`. -/
inductive Key where
  | uint (k : Nat)
  | string

/-- The types that have `read` and `write`. -/
inductive Elem where
  | key (K : Key)
  | bytearray
  | map (K : Key) (V : Elem)

def Key.Val : Key → Type
  | .uint _ => Nat
  | .string => Bytes

def Elem.Val : Elem → Type
  | .key K => K.Val
  | .bytearray => Bytes
  | .map K V => List (K.Val × V.Val)

instance Key.order : (K : Key) → LinearOrder K.Val
  | .uint _ => inferInstanceAs (LinearOrder Nat)
  | .string => inferInstanceAs (LinearOrder Bytes)

def Key.Ok : (K : Key) → K.Val → Prop
  | .uint k => fun x : Nat => x < 256 ^ k
  | .string => fun b : Bytes => b.length < 2 ^ 32

/-- Integers fit their size, the others have a length that is counted. -/
def Elem.Ok : (T : Elem) → T.Val → Prop
  | .key K => K.Ok
  | .bytearray => fun b : Bytes => b.length < 2 ^ 31
  | .map K V => OkMap K.Ok V.Ok

def Key.encode : (K : Key) → K.Val → Bytes
  | .uint k => leBytes k
  | .string => fun b : Bytes => leBytes 4 b.length ++ b

def Elem.encode : (T : Elem) → T.Val → Bytes
  | .key K => K.encode
  | .bytearray => fun b : Bytes => leBytes 4 b.length ++ b
  | .map K V => encodeMap K.encode V.encode

section Types

variable [Uninit]

/-- The overload that is called. -/
def Key.stored : (K : Key) → Stored K.Val
  | .uint k => plain k
  | .string => Bytestream.stored

def Elem.stored : (T : Elem) → Stored T.Val
  | .key K => K.stored
  | .bytearray => storedArray
  | .map K V => mapOf K.stored V.stored

theorem Key.lawful (K : Key) : Lawful K.stored K.Ok K.encode := by
  cases K with
  | uint k => exact plain_lawful k
  | string => exact stored_lawful

theorem Elem.lawful (T : Elem) : Lawful T.stored T.Ok T.encode := by
  induction T with
  | key K => exact K.lawful
  | bytearray => exact storedArray_lawful
  | map K V ih => exact K.lawful.map ih

/-- For keys and values of any of the types, maps of maps included: a map is written as its
encoding, reading it into another map adds the entries with new keys and consumes exactly these
bytes, and of a cut of them the complete entries are added and the answer is false. -/
theorem map_stored (K : Key) (V : Elem) {val : List (K.Val × V.Val)} (h : OkMap K.Ok V.Ok val)
    (hl : (encodeMap K.encode V.encode val).length ≤ 2 ^ 31 - 256) :
    (∃ s, writeMap K.stored V.stored val fresh = .done (true, s) ∧
      s.getWrittenBytes = some (encodeMap K.encode V.encode val)) ∧
    ∀ old, (∀ rest, (encodeMap K.encode V.encode val ++ rest).length < 2 ^ 31 →
      ∃ t, readMap K.stored V.stored old (ofBytearray (encodeMap K.encode V.encode val ++ rest)) =
          .done ((true, OrderedMap.insertAll old val), t) ∧
        t.offsetRead = (encodeMap K.encode V.encode val).length) ∧
      ∀ q, Cut q (encodeMap K.encode V.encode val) →
        ∃ pre t, pre <+: val ∧ readMap K.stored V.stored old (ofBytearray q) =
          .done ((false, OrderedMap.insertAll old pre), t) := by
  constructor
  · obtain ⟨s, hs, hopen, hw⟩ := writeMap_writes K.lawful V.lawful h fresh Open.fresh hl
    have hall : s.written = encodeMap K.encode V.encode val := hw
    have hlen := hopen.length_written
    exact ⟨s, hs, hall ▸ getWrittenBytes_eq hopen.write_le (by rw [hall] at hlen; omega)⟩
  · intro old
    constructor
    · intro rest hrest
      obtain ⟨t, ht, htr, hta⟩ :=
        readMap_reads K.lawful V.lawful _ h old _ rest (Over.ofBytearray hrest) rfl
      have hadd := htr.offsetRead_add hta
      rw [List.length_append] at hadd
      exact ⟨t, ht, by omega⟩
    · intro q hq
      have hlen := hq.length_lt
      obtain ⟨r, t, hr, hbad, pre, hpre, hkept⟩ := readMap_cuts K.lawful V.lawful h old q _ q
        (Over.ofBytearray (show q.length < 2 ^ 31 by omega)) rfl hq
      exact ⟨pre, t, hpre, by rw [hr, ← hbad, ← hkept]⟩

end Types

/-- A map of maps, read into a map that has one of the keys. -/
theorem map_stored_nested :
    letI := zeroMemory
    letI V := Elem.map .string (.key (.uint 4))
    ∃ s w t, writeMap Key.string.stored V.stored [([0x61], [([], (7 : Nat))]), ([0x62], [])] fresh =
      .done (true, s) ∧
      s.getWrittenBytes = some w ∧ w.length = 42 ∧
      readMap Key.string.stored V.stored [([0x62], [([0x63], (9 : Nat))])] (ofBytearray w) =
        .done ((true, [([0x61], [([], (7 : Nat))]), ([0x62], [([0x63], (9 : Nat))])]), t) := by
  let _ := zeroMemory
  have hinner : OkMap (Key.Ok .string) (Key.Ok (.uint 4)) [([], (7 : Nat))] := by
    refine ⟨List.pairwise_singleton .., by decide, ?_, ?_⟩
    · intro e he
      obtain rfl := List.mem_singleton.mp he
      exact (by decide : ([] : Bytes).length < 2 ^ 32)
    · intro e he
      obtain rfl := List.mem_singleton.mp he
      exact (by decide : 7 < 256 ^ 4)
  have hempty : OkMap (Key.Ok .string) (Key.Ok (.uint 4)) [] := by
    refine ⟨List.Pairwise.nil, by decide, ?_, ?_⟩
    · intro e he
      cases he
    · intro e he
      cases he
  have hok : OkMap (Key.Ok .string) (Elem.Ok (.map .string (.key (.uint 4))))
      [([0x61], [([], (7 : Nat))]), ([0x62], [])] := by
    refine ⟨by unfold OrderedMap.Sorted; decide, by decide, ?_, ?_⟩
    · intro e he
      rcases List.mem_cons.mp he with rfl | he
      · exact (by decide : [(0x61 : UInt8)].length < 2 ^ 32)
      · obtain rfl := List.mem_singleton.mp he
        exact (by decide : [(0x62 : UInt8)].length < 2 ^ 32)
    · intro e he
      rcases List.mem_cons.mp he with rfl | he
      · exact hinner
      · obtain rfl := List.mem_singleton.mp he
        exact hempty
  obtain ⟨⟨s, hs, hw⟩, hread⟩ := map_stored .string (.map .string (.key (.uint 4))) hok (by decide)
  obtain ⟨t, ht, -⟩ := (hread [([0x62], [([0x63], (9 : Nat))])]).1 [] (by decide)
  rw [List.append_nil] at ht
  exact ⟨s, _, t, hs, hw, by decide, ht⟩

end Libacorn.Bytestream
