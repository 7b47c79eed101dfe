import Mathlib.Data.List.Range
import Mathlib.Data.Nat.Basic
import Mathlib.Tactic.Ring

/-!
# Loops over the blocks of two regions

A step makes a block of one region from itself and from the block of another region at the same place.
The regions are the same or do not meet, so that every block is made from what was there before the loop.
-/

namespace BlockLoops

variable {V : Type*}

/-- What is loaded from an address on. -/
def loadBlock (mem : ℕ → V) (ptr : ℕ) : ℕ → V := fun i => mem (ptr + i)

/-- The memory after so many values were stored. -/
def storeBlock (mem : ℕ → V) (ptr width : ℕ) (values : ℕ → V) : ℕ → V := fun address =>
  if ptr ≤ address ∧ address < ptr + width then values (address - ptr) else mem address

theorem storeBlock_congr (mem : ℕ → V) (ptr : ℕ) {width : ℕ} {values other : ℕ → V}
    (same : ∀ i < width, values i = other i) : storeBlock mem ptr width values = storeBlock mem ptr width other := by
  funext address
  rw [storeBlock, storeBlock]
  by_cases inside : ptr ≤ address ∧ address < ptr + width
  · rw [if_pos inside, if_pos inside, same _ (by omega)]
  · rw [if_neg inside, if_neg inside]

theorem storeBlock_storeBlock (mem : ℕ → V) (ptr first second : ℕ) (low high : ℕ → V) :
    storeBlock (storeBlock mem ptr first low) (ptr + first) second high =
      storeBlock mem ptr (first + second) fun i => if i < first then low i else high (i - first) := by
  funext address
  rw [storeBlock, storeBlock, storeBlock]
  by_cases inside : ptr ≤ address ∧ address < ptr + (first + second)
  · rw [if_pos inside]
    by_cases early : address < ptr + first
    · rw [if_neg (by omega), if_pos (by omega), if_pos (by omega)]
    · rw [if_pos (by omega), if_neg (by omega), Nat.sub_sub]
  · rw [if_neg inside, if_neg (by omega), if_neg (by omega)]

theorem storeBlock_at (mem : ℕ → V) (ptr : ℕ) {width i : ℕ} (inside : i < width) (values : ℕ → V) :
    storeBlock mem ptr width values (ptr + i) = values i := by
  rw [storeBlock, if_pos (by omega), Nat.add_sub_cancel_left]

theorem storeBlock_other (mem : ℕ → V) {ptr width address : ℕ} (values : ℕ → V)
    (outside : address < ptr ∨ ptr + width ≤ address) : storeBlock mem ptr width values address = mem address := by
  rw [storeBlock, if_neg (by omega)]

/-- Two regions of one length are the same or do not meet. -/
def Apart (dst src len : ℕ) : Prop := dst = src ∨ dst + len ≤ src ∨ src + len ≤ dst

/-- A block is made from what is loaded of the blocks. -/
def Makes (step : (ℕ → V) → ℕ → ℕ → ℕ → V) (width : ℕ) (make : (ℕ → V) → (ℕ → V) → ℕ → V) : Prop :=
  (∀ mem dst src, step mem dst src = storeBlock mem dst width (make (loadBlock mem dst) (loadBlock mem src))) ∧
    ∀ before after source other, (∀ i < width, before i = after i) → (∀ i < width, source i = other i) →
      ∀ i < width, make before source i = make after other i

/-- A loop over blocks. -/
def overBlocks (step : (ℕ → V) → ℕ → ℕ → ℕ → V) (width : ℕ) (mem : ℕ → V) (dst src len : ℕ) : ℕ → V :=
  (List.range (len / width)).foldl (fun mem block => step mem (dst + block * width) (src + block * width))
    mem

section Loop

variable {step : (ℕ → V) → ℕ → ℕ → ℕ → V} {width : ℕ} {make : (ℕ → V) → (ℕ → V) → ℕ → V}
  (makes : Makes step width make) {dst src len : ℕ} (apart : Apart dst src len) (mem : ℕ → V)

include makes apart

/-- What the first rounds leave. -/
theorem rounds_at {count : ℕ} (few : count ≤ len / width) :
    (∀ block < count, ∀ i < width, (List.range count).foldl
        (fun mem block => step mem (dst + block * width) (src + block * width)) mem
        (dst + block * width + i) =
      make (loadBlock mem (dst + block * width)) (loadBlock mem (src + block * width)) i) ∧
    ∀ address, address < dst ∨ dst + count * width ≤ address → (List.range count).foldl
      (fun mem block => step mem (dst + block * width) (src + block * width)) mem address =
        mem address := by
  have whole := Nat.div_mul_le_self len width
  induction count with
  | zero => exact ⟨fun block none => absurd none (Nat.not_lt_zero _), fun _ _ => rfl⟩
  | succ count ih =>
    obtain ⟨made, kept⟩ := ih (by omega)
    have next : (count + 1) * width = count * width + width := Nat.succ_mul count width
    have all := Nat.mul_le_mul_right width few
    rw [List.range_succ, List.foldl_append]
    generalize (List.range count).foldl
      (fun mem block => step mem (dst + block * width) (src + block * width)) mem = left at made kept
    rw [List.foldl_cons, List.foldl_nil, makes.1]
    constructor
    · intro block below i inside
      obtain earlier | rfl := Nat.lt_succ_iff_lt_or_eq.mp below
      · have before := Nat.mul_le_mul_right width earlier
        rw [Nat.succ_mul] at before
        rw [storeBlock_other _ _ (by omega)]
        exact made block earlier i inside
      · rw [storeBlock_at _ _ inside]
        apply makes.2 _ _ _ _ _ _ i inside
        · intro i short
          rw [loadBlock, loadBlock, kept _ (by omega)]
        · intro i short
          rw [loadBlock, loadBlock]
          apply kept
          obtain rfl | before | behind := apart <;> omega
    · intro address outside
      rw [storeBlock_other _ _ (by omega)]
      exact kept address (by omega)

/-- Every block is made from the blocks that were there. -/
theorem overBlocks_at {block i : ℕ} (room : block < len / width) (inside : i < width) :
    overBlocks step width mem dst src len (dst + block * width + i) =
      make (loadBlock mem (dst + block * width)) (loadBlock mem (src + block * width)) i :=
  (rounds_at makes apart mem le_rfl).1 block room i inside

/-- Nothing else is changed. -/
theorem overBlocks_other {address : ℕ} (outside : address < dst ∨ dst + len ≤ address) :
    overBlocks step width mem dst src len address = mem address := by
  have whole := Nat.div_mul_le_self len width
  exact (rounds_at makes apart mem le_rfl).2 address (by omega)

end Loop

end BlockLoops
