import Libacorn.StringReplace

/-!
# resolvePath of base/macos.mm

A path with two slashes at its start names a file below a directory of the system:
`resolvePath` erases the name of the root and prepends the directory. The
terminator that `erase` writes can hit the rest of the path; on a copy, which the
callers pass, it does not (`resolvePath_copy`).
-/

namespace Libacorn

open Support

namespace StringHeap

/-! ## The source -/

/-- What the system calls its directories, as C strings; for a url that is nil there is none. -/
structure Directories where
  bundlePath : Bytes
  applicationSupport : Option Bytes
  caches : Option Bytes
  documents : Option Bytes
  temporary : Option Bytes

/-- The roots that `hadPrefix` takes off a path, with their directories. -/
def Directories.roots (dirs : Directories) : List (Bytes × Option Bytes) :=
  [(lit "//data/".toList, dirs.applicationSupport), (lit "//cache/".toList, dirs.caches),
    (lit "//docs/".toList, dirs.documents), (lit "//tmp/".toList, dirs.temporary)]

section Source
variable [Uninit]

/-- `string fsr(p, -1)`, to which `tail` is appended; it is prepended to the path and destroyed. -/
def prependDirectory (H : Heap) (path : Handle) (p : Option Bytes) (tail : Bytes) :
    Except Fault (Heap × Handle) := do
  let (H, fsr) ← assign H .empty p
  let (H, fsr) ← insert H fsr fsr.cb tail
  let (H, path) ← insertString H path 0 fsr
  let H ← destroy H fsr
  return (H, path)

/-- The branches from `//data/` on; an unknown path is logged. -/
def resolveRoot (H : Heap) (path : Handle) :
    List (Bytes × Option Bytes) → Except Fault ((Heap × Handle) × Bool)
  | [] => do
    let r ← cStr H path
    return (r, false)
  | (root, directory) :: roots => do
    let (r, had) ← hadPrefix H path (.literal root)
    if had then
      let r ← prependDirectory r.1 r.2 directory (lit ['/'])
      return (r, true)
    else resolveRoot r.1 r.2 roots

def resolvePath (dirs : Directories) (H : Heap) (path : Handle) :
    Except Fault ((Heap × Handle) × Bool) := do
  if ← hasPrefix H path (.literal (lit "//".toList)) then
    if ← hasPrefix H path (.literal (lit "//assets/".toList)) then
      let r ← erase H path 0 1
      let r ← prependDirectory r.1 r.2 (some dirs.bundlePath) (lit "/Contents/Resources/".toList)
      return (r, true)
    else resolveRoot H path dirs.roots
  else return ((H, path), true)

/-- `resolvePath` on a handle of a state -/
def State.resolvePath (dirs : Directories) (S : State) (k : Nat) : Except Fault (State × Bool) := do
  let h ← S.get k
  let r ← StringHeap.resolvePath dirs S.heap h
  return (S.put k r.1, r.2)

end Source

/-! ## Paths as lists of bytes -/

/-- What is erased at the start of the path, and what is prepended then. -/
def rootPlace (w : Bytes) : List (Bytes × Option Bytes) → Option (Nat × Bytes)
  | [] => none
  | (root, directory) :: roots =>
    if root <+: w then some (root.length, directory.getD [] ++ lit ['/']) else rootPlace w roots

def place (dirs : Directories) (w : Bytes) : Option (Nat × Bytes) :=
  if lit "//".toList <+: w then
    if lit "//assets/".toList <+: w then
      some (1, dirs.bundlePath ++ lit "/Contents/Resources/".toList)
    else rootPlace w dirs.roots
  else some (0, [])

/-- The path below its directory. -/
def resolved (dirs : Directories) (w : Bytes) : Option Bytes :=
  (place dirs w).map fun p => p.2 ++ w.drop p.1

/-- A string of this size has room for the directory, whose length an `int32_t` holds. -/
def Room (size : Nat) (directory : Bytes) : Prop :=
  directory.length < 2 ^ 31 ∧ size + directory.length < 2 ^ 32

/-- No second slash follows the first. -/
def OneSlash (directory : Bytes) : Prop := 2 ≤ directory.length ∧ ¬lit "//".toList <+: directory

/-- What is prepended has the property, whatever the root is. -/
structure Directories.All (dirs : Directories) (P : Bytes → Prop) : Prop where
  bundlePath : P (dirs.bundlePath ++ lit "/Contents/Resources/".toList)
  roots : ∀ r ∈ dirs.roots, P (r.2.getD [] ++ lit ['/'])

section Place

variable {dirs : Directories} {P : Bytes → Prop} {w v : Bytes} {p : Nat × Bytes}

theorem rootPlace_mem {roots : List (Bytes × Option Bytes)}
    (hroots : ∀ r ∈ roots, P (r.2.getD [] ++ lit ['/'])) (h : rootPlace w roots = some p) :
    P p.2 := by
  induction roots with
  | nil => cases h
  | cons r roots ih =>
    obtain ⟨hr, hroots⟩ := List.forall_mem_cons.mp hroots
    rw [rootPlace] at h
    split_ifs at h
    · cases h
      exact hr
    · exact ih hroots h

theorem Directories.All.place (hall : dirs.All P) (h : place dirs w = some p) :
    p = (0, []) ∧ ¬lit "//".toList <+: w ∨ P p.2 := by
  rw [StringHeap.place] at h
  split_ifs at h with hroot hassets
  · cases h
    exact Or.inr hall.bundlePath
  · exact Or.inr (rootPlace_mem hall.roots h)
  · cases h
    exact Or.inl ⟨rfl, hroot⟩

/-- A path below its directory is no path to resolve. -/
theorem resolved_oneSlash (hall : dirs.All OneSlash) (h : resolved dirs w = some v) :
    ¬lit "//".toList <+: v := by
  obtain ⟨p, hp, rfl⟩ := Option.map_eq_some_iff.mp h
  rcases hall.place hp with ⟨rfl, hw⟩ | ⟨hlen, hslash⟩
  · exact hw
  · intro hpre
    exact hslash (List.prefix_of_prefix_length_le hpre (List.prefix_append p.2 _) hlen)

theorem roots_length (dirs : Directories) :
    ∀ r ∈ dirs.roots, 0 < r.1.length ∧ r.1.length < 2 ^ 32 := by
  have hnames : ∀ root ∈ [lit "//data/".toList, lit "//cache/".toList, lit "//docs/".toList,
      lit "//tmp/".toList],
      0 < root.length ∧ root.length < 2 ^ 32 := by
    decide
  intro r hr
  exact hnames r.1 (List.mem_map_of_mem hr : r.1 ∈ dirs.roots.map Prod.fst)

end Place

/-! ## One directory -/

section Directory

variable [Uninit] {H : Heap} {h : Handle} {rest : Multiset Nat} {i n : Nat} {b : Buf}
  {w tail root : Bytes}
  {p : Option Bytes}

theorem directory_spec (hO : H.Owned rest) (hc : rest.card + 1 < 2 ^ 32)
    (hlen : (p.getD [] ++ tail).length < 2 ^ 31) :
    ∃ H₁ h₁ H₂ h₂, assign H .empty p = .ok (H₁, h₁) ∧ insert H₁ h₁ h₁.cb tail = .ok (H₂, h₂) ∧
      Keeps H rest (H₂, h₂) ∧ content H₂ h₂ = p.getD [] ++ tail := by
  rw [List.length_append] at hlen
  have hO' : H.Owned (own .empty + rest) := by
    rw [own_empty, zero_add]
    exact hO
  obtain ⟨H₁, h₁, has, hk, hplain, hcont, hsize⟩ : ∃ H₁ h₁, assign H .empty p = .ok (H₁, h₁) ∧
      Keeps H rest (H₁, h₁) ∧
      h₁.Plain ∧ content H₁ h₁ = p.getD [] ∧ preparedSize H₁ h₁ = (p.getD []).length := by
    cases p with
    | none => exact ⟨H, .empty, rfl, ⟨wf_empty H, hO', Frame.refl H rest⟩, fun _ => rfl, rfl, rfl⟩
    | some p =>
      rw [Option.getD_some] at hlen
      obtain ⟨r, has, hb⟩ := assign_keeps (wf_empty H) hO' hc rfl (show p.length < 2 ^ 32 by omega)
      exact ⟨r.1, r.2, has, hb.keeps, fun _ => hb.type, hb.content, hb.size⟩
  have hw₁ : WF H₁ h₁ := hk.wf
  obtain ⟨H₂, h₂, hins, hk₂, -, hcont₂, -⟩ := insert_content hw₁ hk.owned hc (Nat.le_refl h₁.cb)
    (show tail.length < 2 ^ 31 by omega) hplain (fun _ _ => by omega)
  refine ⟨H₁, h₁, H₂, h₂, has, hins, ⟨hk₂.wf, hk₂.owned, hk.frame.trans hk₂.frame⟩, ?_⟩
  rw [hcont₂, inserted, ← hw₁.length_content, List.take_length, List.drop_length, List.append_nil,
    hcont]

omit [Uninit] in
/-- The next edit needs no more room than the buffer has. -/
theorem WF.preparedSize_le (hw : WF H h) (hb : h.buf = .heap i) (hget : H.get? i = some b) :
    preparedSize H h ≤ b.cb := by
  cases hw with
  | null hb' => rw [hb] at hb'; cases hb'
  | lit hb' => rw [hb] at hb'; cases hb'
  | @heap j b' hb' ht hget' hle =>
    obtain rfl : i = j := Ptr.heap.inj (hb.symm.trans hb')
    obtain rfl := Option.some.inj (hget.symm.trans hget')
    obtain ⟨cell, hcell, hdata⟩ := Option.map_eq_some_iff.mp hget
    simp only [preparedSize, ht, hb, hcell, hdata]
    split_ifs
    · omega
    · omega

theorem prependDirectory_spec (hw : WF H h) (hO : H.Owned (own h + rest))
    (hc : rest.card + 2 < 2 ^ 32) (hb : h.buf = .heap i) (hget : H.get? i = some b)
    (hroom : Room b.cb (p.getD [] ++ tail)) :
    ∃ r, prependDirectory H h p tail = .ok r ∧ Keeps H rest r ∧ r.2.Plain ∧
      content r.1 r.2 = p.getD [] ++ tail ++ content H h := by
  have hcard : (own h + rest).card + 1 < 2 ^ 32 := by
    have := card_own_le h
    rw [Multiset.card_add]
    omega
  obtain ⟨H₁, h₁, H₂, fsr, has, hins, hk₂, hcont₂⟩ := directory_spec hO hcard hroom.1
  have hle : own h ≤ own h + rest := Multiset.le_add_right _ _
  obtain ⟨hw₂, hcont⟩ := hw.of_frame hle hk₂.frame
  have hi : i ∈ own h + rest := by
    apply Multiset.mem_of_le hle
    rw [own_heap hb (hw.type_eq hb)]
    exact Multiset.mem_singleton_self i
  have hsize : preparedSize H₂ h ≤ b.cb := hw₂.preparedSize_le hb ((hk₂.frame i hi).trans hget)
  have hfsr : WF H₂ fsr := hk₂.wf
  have hlen := hfsr.length_content
  rw [hcont₂] at hlen
  have hO₂ : H₂.Owned (own h + (own fsr + rest)) := by
    rw [add_left_comm]
    exact hk₂.owned
  have hbuf : h.buf ≠ .null := by
    rw [hb]
    rintro ⟨⟩
  have hcard₂ : (own fsr + rest).card + 1 < 2 ^ 32 := by
    have := card_own_le fsr
    rw [Multiset.card_add]
    omega
  have hfit : preparedSize H₂ h + (content H₂ fsr).length < 2 ^ 32 := by
    have := hroom.2
    rw [hcont₂]
    omega
  obtain ⟨H₃, h₃, hins₃, hk₃, hcont₃, -, -, hbuf₃⟩ :=
    insert_edited hw₂ hO₂ hbuf hcard₂ (Nat.zero_le h.cb) hfit
  have hw₃ : WF H₃ h₃ := hk₃.wf
  have hfsr₃ : WF H₃ fsr := (hfsr.of_frame (Multiset.le_add_right _ _) hk₃.frame).1
  have hO₃ : H₃.Owned (own fsr + (own h₃ + rest)) := by
    rw [add_left_comm]
    exact hk₃.owned
  have hcard₃ : (own h₃ + rest).card + 1 < 2 ^ 32 := by
    have := card_own_le h₃
    rw [Multiset.card_add]
    omega
  obtain ⟨H₄, hdel, hO₄, hf₄⟩ := releaseOwn_keeps hfsr₃ hO₃ hcard₃
  obtain ⟨hw₄, hcont₄⟩ := hw₃.of_frame (Multiset.le_add_right _ _) hf₄
  refine ⟨(H₄, h₃), ?_, ⟨hw₄, hO₄, ?_⟩, fun hnull => (hbuf₃ hnull).elim, ?_⟩
  · simp only [prependDirectory, has, ok_bind, hins, insertString_eq hfsr (hlen ▸ hroom.1), hins₃,
      destroy, hdel]
    rfl
  · have h₂ := hk₂.frame.mono (Multiset.le_add_left rest (own h))
    have h₃ := hk₃.frame.mono (Multiset.le_add_left rest (own fsr))
    have h₄ := hf₄.mono (Multiset.le_add_left rest (own _))
    exact h₂.trans (h₃.trans h₄)
  · rw [hcont₄, hcont₃, hcont₂, hcont, inserted, List.take_zero, List.nil_append, List.drop_zero]

/-- What is left of a path with a place: the directory in front of the rest, unless the terminator
hits it. -/
structure Placed (H : Heap) (h : Handle) (rest : Multiset Nat) (at? : Option (Nat × Bytes))
    (r : (Heap × Handle) × Bool) : Prop where
  keeps : Keeps H rest r.1
  plain : h.Plain → r.1.2.Plain
  known : r.2 = at?.isSome
  content_iff : content r.1.1 r.1.2 = (at?.map fun p => p.2 ++ (content H h).drop p.1).getD
    (content H h) ↔
    ∀ p ∈ at?, 0 < p.1 → Harmless (editOffset H h) ((content H h).drop p.1)

/-- The first `n` bytes give way to the directory. -/
theorem replaceFront (hw : WF H h) (hO : H.Owned (own h + rest)) (hc : rest.card + 2 < 2 ^ 32)
    (hn : 0 < n) (hle : n ≤ h.cb) (hroom : Room (preparedSize H h) (p.getD [] ++ tail)) :
    ∃ r₁ r, erase H h 0 n = .ok r₁ ∧ prependDirectory r₁.1 r₁.2 p tail = .ok r ∧
      Placed H h rest (some (n, p.getD [] ++ tail)) (r, true) := by
  obtain ⟨H₁, h₁, i, b, her, hsole, -, hz, hsize, H₀, h₀, hprep, -, hcont⟩ :=
    erase_spec hw hO (by omega) rfl rfl
    (show min h.cb (max 0 n) - min h.cb (min 0 n) ≠ 0 by omega)
  rw [← hw.length_content, removed_clamp, prepareToModify_offset hprep, removed, Nat.zero_min,
    Nat.zero_max, List.take_zero, List.nil_append] at hcont
  have hk : Keeps H rest (H₁, h₁) := by
    apply hsole.keeps
    intro _ hlen
    rw [← hlen]
    exact hz
  have hroom₁ : Room b.cb (p.getD [] ++ tail) := ⟨hroom.1, by have := hroom.2; omega⟩
  obtain ⟨r, hr, hkr, hplain, hcontr⟩ := prependDirectory_spec hk.wf hk.owned hc hsole.buf hsole.get
      hroom₁
  refine ⟨(H₁, h₁), r, her, hr, ⟨hkr.wf, hkr.owned, hk.frame.trans hkr.frame⟩, fun _ => hplain, rfl,
    ?_⟩
  simp only [hcontr, hcont, Option.map_some, Option.getD_some, List.append_cancel_left_eq,
    strayTerminator_eq_iff, Option.mem_def, Option.some.injEq, forall_eq', hn, true_implies]

omit [Uninit] in
theorem hasPrefix_literal (hw : WF H h) (hroot : root.length < 2 ^ 32) :
    hasPrefix H h (.literal root) = .ok (decide (root <+: content H h)) := by
  have hq : WF H (.literal root) := .lit rfl rfl (by rw [Handle.literal, Nat.zero_add]) hroot
  have hcont : content H (.literal root) = root := by
    show ((root ++ [0]).drop 0).take root.length = root
    rw [List.drop_zero, List.take_left]
  have hlen := hw.length_content
  have hcb : (Handle.literal root).cb = root.length := rfl
  rw [hasPrefix, hcb]
  split_ifs with hlong
  · have hnot : ¬root <+: content H h := by
      intro hpre
      have := hpre.length_le
      omega
    rw [decide_eq_false hnot]
    rfl
  · rw [sameBytes_eq hw hq (by rw [hcb]; omega), hcont, hcb, List.drop_zero]
    simp only [List.prefix_iff_eq_take, eq_comm]

end Directory

/-! ## A path -/

section Path

variable [Uninit] {H : Heap} {h : Handle} {rest : Multiset Nat} {w : Bytes}

theorem resolveRoot_spec (hw : WF H h) (hO : H.Owned (own h + rest)) (hc : rest.card + 2 < 2 ^ 32)
    {roots : List (Bytes × Option Bytes)}
    (hroots : ∀ r ∈ roots, 0 < r.1.length ∧ r.1.length < 2 ^ 32)
    (hroom : ∀ r ∈ roots, Room (preparedSize H h) (r.2.getD [] ++ lit ['/'])) :
    ∃ r, resolveRoot H h roots = .ok r ∧ Placed H h rest (rootPlace (content H h) roots) r := by
  induction roots with
  | nil =>
    obtain ⟨r, hr, hk, hcont, hor⟩ := cStr_keeps hw hO (by omega)
    refine ⟨(r, false), ?_, hk, plain_of_or hor, rfl, iff_of_true hcont ?_⟩
    · simp only [resolveRoot, hr]
      rfl
    · intro p hp
      cases hp
  | cons e roots ih =>
    obtain ⟨root, directory⟩ := e
    obtain ⟨⟨hpos, hlt⟩, hroots⟩ := List.forall_mem_cons.mp hroots
    obtain ⟨hroom₁, hroom⟩ := List.forall_mem_cons.mp hroom
    have hpre := hasPrefix_literal hw hlt
    rw [rootPlace]
    split_ifs with h'
    · rw [decide_eq_true h'] at hpre
      have hle := h'.length_le
      rw [hw.length_content] at hle
      obtain ⟨r₁, r, her, hr, hplaced⟩ := replaceFront hw hO hc hpos hle hroom₁
      refine ⟨(r, true), ?_, hplaced⟩
      have hcb : (Handle.literal root).cb = root.length := rfl
      simp only [resolveRoot, hadPrefix, hpre, ok_bind, hcb, her]
      simp only [↓reduceIte, pure_bind, hr, ok_bind]
      rfl
    · rw [decide_eq_false h'] at hpre
      obtain ⟨r, hr, hplaced⟩ := ih hroots hroom
      refine ⟨r, ?_, hplaced⟩
      simp only [resolveRoot, hadPrefix, hpre, ok_bind, Bool.false_eq_true, ↓reduceIte, pure_bind]
      exact hr

theorem resolvePath_spec (hw : WF H h) (hO : H.Owned (own h + rest)) (hc : rest.card + 2 < 2 ^ 32)
    {dirs : Directories} (hroom : dirs.All (Room (preparedSize H h))) :
    ∃ r, resolvePath dirs H h = .ok r ∧ Placed H h rest (place dirs (content H h)) r := by
  have hroot := hasPrefix_literal hw (show (lit "//".toList).length < 2 ^ 32 by decide)
  have hassets := hasPrefix_literal hw (show (lit "//assets/".toList).length < 2 ^ 32 by decide)
  rw [place]
  split_ifs with h₁ h₂
  · rw [decide_eq_true h₁] at hroot
    rw [decide_eq_true h₂] at hassets
    have hle := h₂.length_le
    rw [hw.length_content] at hle
    have hlong : 1 ≤ (lit "//assets/".toList).length := by decide
    obtain ⟨r₁, r, her, hr, hplaced⟩ := replaceFront (p := some dirs.bundlePath) hw hO hc one_pos
        (by omega)
      hroom.bundlePath
    refine ⟨(r, true), ?_, hplaced⟩
    simp only [resolvePath, hroot, hassets, ok_bind, ↓reduceIte, her, hr]
    rfl
  · rw [decide_eq_true h₁] at hroot
    rw [decide_eq_false h₂] at hassets
    obtain ⟨r, hr, hplaced⟩ := resolveRoot_spec hw hO hc (roots_length dirs) hroom.roots
    refine ⟨r, ?_, hplaced⟩
    simp only [resolvePath, hroot, hassets, ok_bind, ↓reduceIte, Bool.false_eq_true]
    exact hr
  · rw [decide_eq_false h₁] at hroot
    refine ⟨((H, h), true), ?_, ⟨hw, hO, Frame.refl H rest⟩, id, rfl, ?_⟩
    · simp only [resolvePath, hroot, ok_bind, Bool.false_eq_true, ↓reduceIte]
      rfl
    · simp only [Option.map_some, List.nil_append, List.drop_zero, Option.getD_some, Option.mem_def,
        Option.some.injEq, forall_eq', Nat.lt_irrefl, false_implies]

end Path

/-! ## The system -/

section System

variable [Uninit] {S : State} {k : Nat} {h : Handle} {dirs : Directories}

omit [Uninit] in
/-- A string that shares its buffer is edited in a copy of its own. -/
theorem shared_edit {H : Heap} {rest : Multiset Nat} (hw : WF H h) (hO : H.Owned (own h + rest))
    (hle : own h ≤ rest) :
    editOffset H h = 0 ∧ preparedSize H h = h.cb := by
  cases hw with
  | null hb => simp [editOffset, preparedSize, hb]
  | lit hb ht => simp [editOffset, preparedSize, ht]
  | @heap i b hb ht =>
    rw [own_heap hb ht] at hO hle
    have hi : i ∈ rest := Multiset.singleton_le.mp hle
    obtain ⟨c, hcell, hrefs⟩ := hO.exists_cell (Multiset.mem_add.mpr (Or.inr hi))
    have hpos := Multiset.count_pos.mpr hi
    rw [Multiset.count_add, Multiset.count_singleton_self] at hrefs
    have hshared : c.refs > 1 := by omega
    simp only [editOffset, preparedSize, ht, hb, hcell, if_pos hshared, and_self]

/-- In every state `resolvePath` tells whether it knows the path, leaves the other strings, and puts
the directory in front of the rest of the path, unless that lies at an offset that the terminator of
`erase` ignores. -/
theorem resolvePath_iff (hS : Reach S) (hlive : S.live + 1 < 2 ^ 32) (hk : S.handle? k = some h)
    (hroom : dirs.All (Room (preparedSize S.heap h))) :
    ∃ S', S.resolvePath dirs k = .ok (S', (place dirs (content S.heap h)).isSome) ∧ Inv S' ∧
      Plain S' ∧
      Isolated S S' (some k) ∧
      (S'.Holds k ((resolved dirs (content S.heap h)).getD (content S.heap h)) ↔
        ∀ p ∈ place dirs (content S.heap h), 0 < p.1 →
          Harmless (editOffset S.heap h) ((content S.heap h).drop p.1)) := by
  obtain ⟨hI, hP, -⟩ := hS.inv
  have hcard := card_rest_lt hk
  obtain ⟨⟨r, known⟩, hr, hk', hplain, hknown, hiff⟩ :=
    resolvePath_spec (hI.wf k h hk) (hI.owned_split hk)
    (by omega) hroom
  obtain ⟨hI', hiso⟩ := hI.put hk hk'
  refine ⟨S.put k r, ?_, hI', hP.put (hplain (hP k h hk)), hiso, (put_holds hk).trans hiff⟩
  simp only [State.resolvePath, get_eq_ok hk, ok_bind, hr]
  rw [← hknown]
  rfl

end System

/-- The directories of a user. -/
def homeDirectories : Directories where
  bundlePath := lit "/app".toList
  applicationSupport := some (lit "/home/support".toList)
  caches := some (lit "/home/caches".toList)
  documents := some (lit "/home/documents".toList)
  temporary := some (lit "/tmp".toList)

theorem homeDirectories_room {size : Nat} (hsize : size < 2 ^ 16) :
    homeDirectories.All (Room size) := by
  have hshort : homeDirectories.All fun directory => directory.length < 2 ^ 16 :=
    ⟨by decide, by decide⟩
  constructor
  · have := hshort.bundlePath
    constructor <;> omega
  · intro r hr
    have := hshort.roots r hr
    constructor <;> omega

theorem homeDirectories_oneSlash : homeDirectories.All OneSlash where
  bundlePath := by
    unfold OneSlash
    decide
  roots := by
    unfold OneSlash
    decide

/-- A slice that is alone on its buffer loses a byte of its path. -/
theorem resolvePath_iff_slice :
    letI := zeroMemory
    ∃ S S', run .init [.bytes (some (lit "ab//tmp/log".toList)), .substr 0 2 11, .destroy 0] =
      .ok S ∧
      S.resolvePath homeDirectories 1 = .ok (S', true) ∧ ¬S'.Holds 1 (lit "/tmp/log".toList) := by
  let _ := zeroMemory
  have hS₁ := Reach.slice (lit "ab//tmp/log".toList) 2 11 (by decide) rfl
  have hS₂ := Reach.step (.destroy 0) hS₁ trivial ⟨by decide, _, rfl⟩ trivial rfl
  obtain ⟨S', hres, -, -, -, hiff⟩ := resolvePath_iff hS₂ (by decide) (k := 1) rfl
    (homeDirectories_room (by decide))
  generalize hw : content _ _ = w at hres hiff
  obtain rfl : w = lit "//tmp/log".toList := hw.symm.trans (by decide)
  refine ⟨_, S', rfl, hres, ?_⟩
  intro hholds
  have hz := hiff.mp hholds (6, lit "/tmp/".toList) rfl (by decide) (by decide) (by decide)
  exact absurd hz (by decide)

section System

variable [Uninit] {S : State} {k : Nat} {h : Handle} {dirs : Directories}

omit [Uninit] in
theorem put_same (hk : S.handle? k = some h) : S.put k (S.heap, h) = S := by
  have hget := handle?_eq_some.mp hk
  obtain ⟨hlt, heq⟩ := List.getElem?_eq_some_iff.mp hget
  rw [State.put, ← heq, List.set_getElem_self]

/-- A path without two slashes at its start is left as it is. -/
theorem resolvePath_other (hI : Inv S) (hk : S.handle? k = some h)
    (hslash : ¬lit "//".toList <+: content S.heap h) : S.resolvePath dirs k = .ok (S, true) := by
  have hroot := hasPrefix_literal (hI.wf k h hk) (show (lit "//".toList).length < 2 ^ 32 by decide)
  rw [decide_eq_false hslash] at hroot
  simp only [State.resolvePath, get_eq_ok hk, ok_bind, resolvePath, hroot, Bool.false_eq_true,
    ↓reduceIte, pure_bind, put_same hk]
  rfl

/-- A copy of a path is resolved without a change to any string that was there; when every directory
starts with one slash only, it stays as it is when it is resolved again. -/
theorem resolvePath_copy (hS : Reach S) (hlive : S.live + 2 < 2 ^ 32) (hk : S.handle? k = some h)
    (hroom : dirs.All (Room h.cb)) :
    ∃ S₁ S₂, step S (.copy k) = .ok S₁ ∧
      S₁.resolvePath dirs S.handles.length = .ok (S₂, (place dirs (content S.heap h)).isSome) ∧
        Inv S₂ ∧
      Plain S₂ ∧ Isolated S S₂ none ∧
      S₂.Holds S.handles.length ((resolved dirs (content S.heap h)).getD (content S.heap h)) ∧
      (dirs.All OneSlash → (place dirs (content S.heap h)).isSome →
        S₂.resolvePath dirs S.handles.length = .ok (S₂, true)) := by
  obtain ⟨hI, -, -⟩ := hS.inv
  have hcard : (owners S.handles).card ≤ S.live := card_owners_le S.handles
  obtain ⟨⟨H₁, h₁⟩, hr, heq, hkeep⟩ := copyOf_keeps (hI.wf k h hk) (own_le_owners hk) hI.owned
      (by omega)
  obtain rfl : h₁ = h := heq
  have hstep : step S (.copy k) = .ok (S.push (H₁, h₁)) := by
    rw [step, get_eq_ok hk, ok_bind, hr]
    rfl
  have hready : Ready S (.copy k) := ⟨show S.live + 1 < 2 ^ 32 by omega, h₁, hk⟩
  have hS₁ : Reach (S.push (H₁, h₁)) := .step (.copy k) hS trivial hready trivial hstep
  obtain ⟨hI₁, hiso₁⟩ := hI.push hkeep
  obtain ⟨hkept, hcont⟩ := hiso₁ k h₁ (by rintro ⟨⟩) hk
  have hnew : (S.push (H₁, h₁)).handle? S.handles.length = some h₁ := by
    simp [State.push, State.handle?]
  have hne : ∀ j h', S.handle? j = some h' → S.handles.length ≠ j :=
    fun j h' hj => (lt_length hj).ne'
  obtain ⟨hoff, hsize⟩ := shared_edit (hI₁.wf _ _ hnew) (hI₁.owned_split hnew)
      (own_le_rest (hne k h₁ hk) hkept)
  obtain ⟨S₂, hres, hI₂, hP₂, hiso₂, hholds⟩ := resolvePath_iff hS₁ (by rw [live_push]; omega) hnew
    (show dirs.All (Room (preparedSize (S.push (H₁, h₁)).heap h₁)) from hsize ▸ hroom)
  rw [hcont, hoff] at hholds
  rw [hcont] at hres
  have hv := hholds.mpr fun _ _ _ hpos => (Nat.lt_irrefl 0 hpos).elim
  refine ⟨S.push (H₁, h₁), S₂, hstep, hres, hI₂, hP₂, ?_, hv, ?_⟩
  · intro j h' _ hj
    obtain ⟨hj₁, hc₁⟩ := hiso₁ j h' (by rintro ⟨⟩) hj
    obtain ⟨hj₂, hc₂⟩ := hiso₂ j h' (fun he => hne j h' hj (Option.some.inj he)) hj₁
    exact ⟨hj₂, hc₂.trans hc₁⟩
  · intro hall hknown
    obtain ⟨p, hp⟩ := Option.isSome_iff_exists.mp hknown
    have hsome : resolved dirs (content S.heap h₁) =
        some (p.2 ++ (content S.heap h₁).drop p.1) := by
      rw [resolved, hp]
      rfl
    obtain ⟨h₂, hk₂, hc₂⟩ := hv
    apply resolvePath_other hI₂ hk₂
    rw [hc₂, hsome]
    exact resolved_oneSlash hall hsome

end System

/-- The copy of a path to a file for a while. -/
theorem resolvePath_copy_tmp :
    letI := zeroMemory
    ∃ S S₁ S₂, run .init [.bytes (some (lit "//tmp/a.log".toList))] = .ok S ∧
      step S (.copy 0) = .ok S₁ ∧
      S₁.resolvePath homeDirectories 1 = .ok (S₂, true) ∧ S₂.Holds 1 (lit "/tmp/a.log".toList) ∧
      S₂.resolvePath homeDirectories 1 = .ok (S₂, true) := by
  let _ := zeroMemory
  have hS := Reach.bytes (lit "//tmp/a.log".toList) (by decide) rfl
  obtain ⟨S₁, S₂, hcopy, hres, -, -, -, hholds, hagain⟩ :=
    resolvePath_copy hS (by decide) (k := 0) rfl
    (homeDirectories_room (by decide))
  exact ⟨_, S₁, S₂, rfl, hcopy, hres, hholds, hagain homeDirectories_oneSlash rfl⟩

end StringHeap

end Libacorn
