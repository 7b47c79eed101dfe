import Mathlib.Data.List.Range
import Mathlib.Logic.Function.Basic
import Mathlib.Tactic.Ring

/-!
# Lanes side by side in one memory

A memory holds, for every index, a group with a word of each lane. A step on the memory goes lane by lane when
what it does to each lane is what another step does to a memory that holds this lane alone. Such steps compose, and
so do loops of them: an algorithm on groups is the same algorithm in every lane.
-/

namespace Lanes

variable {V : Type*} {width : ℕ}

/-- The words of one lane -/
def lane (width : ℕ) (memory : ℕ → V) (k : ℕ) : ℕ → V := fun i => memory (i * width + k)

/-- What a step does to a lane is what another step does to this lane alone. -/
def Lanewise (width : ℕ) (step own : (ℕ → V) → ℕ → V) : Prop :=
  ∀ memory, ∀ k < width, lane width (step memory) k = own (lane width memory k)

theorem Lanewise.comp {step own next ownNext : (ℕ → V) → ℕ → V} (second : Lanewise width next ownNext)
    (first : Lanewise width step own) :
    Lanewise width (fun memory => next (step memory)) fun memory => ownNext (own memory) := by
  intro memory k inside
  rw [second _ k inside, first memory k inside]

/-- A loop whose rounds go lane by lane -/
theorem lanewise_foldl {ι : Type*} {step own : (ℕ → V) → ι → ℕ → V} (rounds : List ι)
    (each : ∀ i ∈ rounds, Lanewise width (fun memory => step memory i) fun memory => own memory i) :
    Lanewise width (fun memory => rounds.foldl step memory) fun memory => rounds.foldl own memory := by
  intro memory k inside
  induction rounds generalizing memory with
  | nil => rfl
  | cons i rounds ih =>
    have first := each i List.mem_cons_self memory k inside
    have later := ih (fun j member => each j (List.mem_cons_of_mem i member)) (step memory i)
    dsimp only at first later ⊢
    rw [List.foldl_cons, List.foldl_cons, later, first]

/-- Writing a word of a group -/
theorem lane_update (memory : ℕ → V) (i : ℕ) {j k : ℕ} (own : j < width) (inside : k < width) (value : V) :
    lane width (Function.update memory (i * width + j) value) k =
      if j = k then Function.update (lane width memory k) i value else lane width memory k := by
  funext index
  have position : index * width + k = i * width + j ↔ index = i ∧ k = j := by
    refine ⟨fun same => ?_, by rintro ⟨rfl, rfl⟩; rfl⟩
    have quotient := congrArg (· / width) same
    have remainder := congrArg (· % width) same
    simp only [Nat.mul_comm _ width, Nat.mul_add_div (Nat.zero_lt_of_lt own), Nat.mul_add_mod,
      Nat.div_eq_of_lt, Nat.mod_eq_of_lt, inside, own, Nat.add_zero] at quotient remainder
    exact ⟨quotient, remainder⟩
  rw [lane, Function.update_apply]
  by_cases same : j = k
  · rw [if_pos same, Function.update_apply]
    exact if_congr (by rw [position]; exact and_iff_left same.symm) rfl rfl
  · rw [if_neg same, if_neg fun here => same (position.mp here).2.symm]
    rfl

/-- A loop over the lanes, each round of which changes only its own -/
theorem lane_foldl {write : (ℕ → V) → ℕ → ℕ → V} (own : (ℕ → V) → ℕ → V) {k : ℕ} (inside : k < width)
    (each : ∀ memory, ∀ j < width, lane width (write memory j) k =
      if j = k then own (lane width memory k) else lane width memory k) (memory : ℕ → V) :
    lane width ((List.range width).foldl write memory) k = own (lane width memory k) := by
  have rounds : ∀ count ≤ width, lane width ((List.range count).foldl write memory) k =
      if k < count then own (lane width memory k) else lane width memory k := by
    intro count le
    induction count with
    | zero => rw [if_neg (Nat.not_lt_zero k)]; rfl
    | succ count ih =>
      rw [List.range_succ, List.foldl_append, List.foldl_cons, List.foldl_nil, each _ _ le,
        ih (by omega)]
      by_cases here : count = k
      · rw [if_pos here, if_neg (by omega), if_pos (by omega)]
      · rw [if_neg here]
        exact if_congr (by omega) rfl rfl
  rw [rounds width (le_refl _), if_pos inside]

end Lanes
