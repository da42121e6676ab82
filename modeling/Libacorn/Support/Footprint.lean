import Mathlib.Tactic.Common
import Mathlib.Logic.Function.DependsOn
import Mathlib.Order.Interval.Set.Basic

/-!
# The addresses a program reads

A program over a memory some of whose cells cannot be read. `Footprint p R` says that `p` reads
exactly the cells of `R`, whatever they hold: it ends if and only if all of them can be read, and
no other cell has an influence on its answer. Footprints of programs that run one after the other
are united, so that the footprint of a program is found part by part.
-/

namespace Libacorn.Support

/-- A program that reads cells of `α` at addresses of `ι`; `none` is an access to a cell that
cannot be read. -/
abbrev Access (ι α β : Type) : Type := ReaderT (ι → Option α) Option β

variable {ι α β γ : Type}

/-- The cells of `R` can be read. -/
def Readable (mem : ι → Option α) (R : Set ι) : Prop := ∀ i ∈ R, (mem i).isSome

/-- `p` reads the cells of `R` and no others. -/
structure Footprint (p : Access ι α β) (R : Set ι) : Prop where
  ends : ∀ mem, (p mem).isSome ↔ Readable mem R
  dependsOn : DependsOn p R

/-- The cell at an address. -/
def peek (i : ι) : Access ι α α := fun mem => mem i

/-- The `n` cells from `i` on. -/
def peekRange (i : Nat) : Nat → Access Nat α (List α)
  | 0 => pure []
  | n + 1 => do
    let a ← peek i
    let as ← peekRange (i + 1) n
    pure (a :: as)

theorem readable_union {mem : ι → Option α} {R S : Set ι} :
    Readable mem (R ∪ S) ↔ Readable mem R ∧ Readable mem S := by
  constructor
  · intro h
    exact ⟨fun i hi => h i (Or.inl hi), fun i hi => h i (Or.inr hi)⟩
  · rintro ⟨hR, hS⟩ i (hi | hi)
    · exact hR i hi
    · exact hS i hi

namespace Footprint

theorem pure (b : β) : Footprint (Pure.pure b : Access ι α β) ∅ where
  ends _ := ⟨fun _ _ hi => hi.elim, fun _ => rfl⟩
  dependsOn _ _ _ := rfl

theorem peek (i : ι) : Footprint (peek i : Access ι α α) {i} where
  ends mem := by
    constructor
    · rintro h _ rfl
      exact h
    · intro h
      exact h i rfl
  dependsOn _ _ h := h i rfl

theorem bind {p : Access ι α β} {f : β → Access ι α γ} {R S : Set ι} (hp : Footprint p R)
    (hf : ∀ b, Footprint (f b) S) : Footprint (p >>= f) (R ∪ S) where
  ends mem := by
    have hrun : (p >>= f) mem = (p mem).bind fun b => f b mem := rfl
    rw [readable_union, ← hp.ends mem, hrun]
    cases p mem with
    | none =>
      constructor
      · intro h
        cases h
      · rintro ⟨h, -⟩
        cases h
    | some b =>
      rw [Option.bind_some, (hf b).ends mem]
      exact ⟨fun h => ⟨rfl, h⟩, fun h => h.2⟩
  dependsOn mem mem' h := by
    have hrun : p mem = p mem' := hp.dependsOn fun i hi => h i (Or.inl hi)
    show (p mem).bind (fun b => f b mem) = (p mem').bind fun b => f b mem'
    rw [hrun]
    congr 1
    funext b
    exact (hf b).dependsOn fun i hi => h i (Or.inr hi)

theorem of_eq {p : Access ι α β} {R S : Set ι} (h : Footprint p R) (hRS : ∀ i, i ∈ R ↔ i ∈ S) :
    Footprint p S := by
  rwa [← Set.ext hRS]

/-- What is done with the answer reads nothing. -/
theorem map {p : Access ι α β} {R : Set ι} (hp : Footprint p R) (g : β → γ) :
    Footprint (p >>= fun b => Pure.pure (g b)) R :=
  (hp.bind fun b => Footprint.pure (g b)).of_eq fun i => by rw [Set.union_empty]

theorem peekRange (i n : Nat) :
    Footprint (peekRange i n : Access Nat α (List α)) (Set.Ico i (i + n)) := by
  induction n generalizing i with
  | zero =>
    apply (Footprint.pure []).of_eq
    intro j
    rw [Nat.add_zero, Set.Ico_self]
  | succ n ih =>
    apply ((peek i).bind fun a => (ih (i + 1)).map (a :: ·)).of_eq
    intro j
    simp only [Set.mem_union, Set.mem_singleton_iff, Set.mem_Ico]
    omega

/-- Where all cells of the footprint can be read there is an answer. -/
theorem exists_eq {p : Access ι α β} {R : Set ι} (hp : Footprint p R) {mem : ι → Option α}
    (h : Readable mem R) :
    ∃ b, p mem = some b :=
  Option.isSome_iff_exists.mp ((hp.ends mem).mpr h)

end Footprint

end Libacorn.Support
