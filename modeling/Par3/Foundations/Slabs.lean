import Mathlib.Data.List.Range
import Mathlib.Logic.Function.Basic
import Mathlib.Order.Basic
import Mathlib.Tactic.Ring

/-!
# Loops that write to regions apart

A loop works on a memory, and each of its rounds changes only a region of its own. What a round has
left is still there at the end when the later regions do not touch it. Slabs are regions of one
width that follow each other.
-/
namespace Slabs

variable {V : Type*} {start : ℕ → V} {step : (ℕ → V) → ℕ → Option (ℕ → V)}

/-- Every round finds what it needs as it was at the start, and leaves something that lasts. -/
theorem foldlM_regions (own : ℕ → ℕ → Prop) (holds : ℕ → (ℕ → V) → Prop) (count : ℕ)
    (each : ∀ k < count, ∀ memory, (∀ j, (∀ i < k, ¬ own i j) → memory j = start j) →
      ∃ next, step memory k = some next ∧ holds k next ∧ ∀ j, ¬ own k j → next j = memory j)
    (lasting : ∀ i k, i < k → k < count → ∀ memory next,
      (∀ j, ¬ own k j → next j = memory j) → holds i memory → holds i next) :
    ∃ last, (List.range count).foldlM step start = some last ∧ (∀ k < count, holds k last) ∧
      ∀ j, (∀ k < count, ¬ own k j) → last j = start j := by
  induction count with
  | zero => exact ⟨start, rfl, fun k inside => absurd inside (Nat.not_lt_zero k), fun _ _ => rfl⟩
  | succ count ih =>
    obtain ⟨middle, run, held, kept⟩ := ih
      (fun k inside => each k (Nat.lt_succ_of_lt inside))
      fun i k before inside => lasting i k before (Nat.lt_succ_of_lt inside)
    obtain ⟨last, stepped, new, others⟩ := each count (Nat.lt_succ_self count) middle kept
    refine ⟨last, ?_, fun k inside => ?_, fun j outside => ?_⟩
    · rw [List.range_succ, List.foldlM_append, run]
      simp only [Option.bind_eq_bind, Option.bind_some, List.foldlM_cons, stepped, List.foldlM_nil]
      rfl
    · rcases Nat.lt_succ_iff_lt_or_eq.mp inside with earlier | rfl
      · exact lasting k count earlier (Nat.lt_succ_self count) middle last others (held k earlier)
      · exact new
    · rw [others j (outside count (Nat.lt_succ_self count)),
        kept j fun k inside => outside k (Nat.lt_succ_of_lt inside)]

/-- The end of a slab is not behind the start of a later one. -/
theorem slab_le {i k : ℕ} (before : i < k) (stride : ℕ) : i * stride + stride ≤ k * stride := by
  rw [← Nat.succ_mul]
  exact Nat.mul_le_mul_right stride before

/-- Every round writes words at the start of its slab. -/
theorem foldlM_slabs {place stride width : ℕ} {target : ℕ → ℕ → V} (narrow : width ≤ stride)
    (count : ℕ) (each : ∀ k < count, ∀ memory,
      (∀ j, j < place ∨ place + k * stride ≤ j → memory j = start j) →
      ∃ next, step memory k = some next ∧ (∀ i < width, next (place + k * stride + i) = target k i) ∧
        ∀ j, j < place + k * stride ∨ place + k * stride + width ≤ j → next j = memory j) :
    ∃ last, (List.range count).foldlM step start = some last ∧
      (∀ k < count, ∀ i < width, last (place + k * stride + i) = target k i) ∧
      ∀ j, j < place ∨ place + count * stride ≤ j → last j = start j := by
  refine (foldlM_regions (fun k j => place + k * stride ≤ j ∧ j < place + k * stride + width)
    (fun k memory => ∀ i < width, memory (place + k * stride + i) = target k i) count ?each
    ?lasting).imp fun last done => ⟨done.1, done.2.1, fun j outside => done.2.2 j fun k inside => ?_⟩
  case each =>
    intro k inside memory same
    obtain ⟨next, stepped, written, others⟩ := each k inside memory fun j outside =>
      same j fun i before => by
        have order := slab_le before stride
        omega
    exact ⟨next, stepped, written, fun j apart => others j (by omega)⟩
  case lasting =>
    intro i k before inside memory next others written w within
    have order := slab_le before stride
    rw [others _ (by omega), written w within]
  · have order := slab_le inside stride
    omega

/-- One word of every slab is written. -/
theorem foldl_update_slabs (out : ℕ → V) (value : ℕ → V) {width place : ℕ} (inside : place < width)
    (count k i : ℕ) (within : i < width) :
    (List.range count).foldl (fun out k => Function.update out (k * width + place) (value k)) out
        (k * width + i) = if k < count ∧ i = place then value k else out (k * width + i) := by
  induction count with
  | zero => rw [if_neg (by omega)]; rfl
  | succ count ih =>
    rw [List.range_succ, List.foldl_append, List.foldl_cons, List.foldl_nil, Function.update_apply,
      ih]
    have same : k * width + i = count * width + place ↔ k = count ∧ i = place := by
      refine ⟨fun equal => ?_, by rintro ⟨rfl, rfl⟩; rfl⟩
      rcases Nat.lt_trichotomy k count with before | rfl | after
      · have order := slab_le before width
        omega
      · exact ⟨rfl, by omega⟩
      · have order := slab_le after width
        omega
    by_cases here : k = count ∧ i = place
    · rw [if_pos (same.mpr here), if_pos ⟨by omega, here.2⟩, here.1]
    · rw [if_neg (mt same.mp here)]
      exact if_congr (by omega) rfl rfl

end Slabs
