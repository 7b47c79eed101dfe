import Mathlib.Data.Finset.Card
import Mathlib.Data.Finset.Range
import Mathlib.Logic.Function.Basic

/-!
# Open addressing with linear probing

A value is looked up from the slot its hash gives, slot by slot around the table, up to the first
empty one. As long as some slot stays empty, what was inserted is found.
-/

namespace LinearProbing

variable {α : Type*}

/-- The first empty slot from one on, in at most so many rounds. -/
def firstEmpty (slots : ℕ → Option α) (size : ℕ) : ℕ → ℕ → ℕ
  | 0, slot => slot
  | rounds + 1, slot =>
    if (slots slot).isSome then firstEmpty slots size rounds ((slot + 1) % size) else slot

def insert (slots : ℕ → Option α) (size slot : ℕ) (value : α) : ℕ → Option α :=
  Function.update slots (firstEmpty slots size size slot) (some value)

/-- The first accepted value before an empty slot, in at most so many rounds. -/
def find (slots : ℕ → Option α) (size : ℕ) (accepts : α → Bool) : ℕ → ℕ → Option α
  | 0, _ => none
  | rounds + 1, slot =>
    match slots slot with
    | none => none
    | some value =>
      if accepts value then some value else find slots size accepts rounds ((slot + 1) % size)

variable {slots : ℕ → Option α} {size slot : ℕ}

/-- The value is in the table and no empty slot stands before it. -/
def Reached (slots : ℕ → Option α) (size slot : ℕ) (value : α) : Prop :=
  ∃ distance < size, slots ((slot + distance) % size) = some value ∧
    ∀ earlier < distance, (slots ((slot + earlier) % size)).isSome

theorem next_slot (distance : ℕ) :
    ((slot + 1) % size + distance) % size = (slot + (distance + 1)) % size := by
  rw [Nat.mod_add_mod, Nat.add_assoc, Nat.add_comm 1 distance]

theorem find_sound (accepts : α → Bool) (rounds : ℕ) {value : α}
    (found : find slots size accepts rounds slot = some value) :
    accepts value = true ∧ ∃ position, slots position = some value := by
  induction rounds generalizing slot with
  | zero => cases found
  | succ rounds ih =>
    rw [find] at found
    split at found
    · cases found
    · rename_i other stored
      split at found
      · cases found
        exact ⟨by assumption, slot, stored⟩
      · exact ih found

/-- An accepted value that is reached is found, or another accepted one before it. -/
theorem find_isSome (accepts : α → Bool) {value : α} (accepted : accepts value = true)
    (rounds distance : ℕ) (near : distance < rounds) (inside : slot < size)
    (stored : slots ((slot + distance) % size) = some value)
    (filled : ∀ earlier < distance, (slots ((slot + earlier) % size)).isSome) :
    (find slots size accepts rounds slot).isSome := by
  induction rounds generalizing slot distance with
  | zero => omega
  | succ rounds ih =>
    have here : (slot + 0) % size = slot := Nat.mod_eq_of_lt inside
    rw [find]
    cases distance with
    | zero =>
      rw [here] at stored
      simp [stored, accepted]
    | succ distance =>
      have first := filled 0 (Nat.succ_pos distance)
      rw [here] at first
      obtain ⟨other, found⟩ := Option.isSome_iff_exists.mp first
      simp only [found]
      split
      · rfl
      · refine ih distance (by omega) (Nat.mod_lt _ (by omega)) ?_ ?_
        · rwa [next_slot]
        · intro earlier before
          rw [next_slot]
          exact filled (earlier + 1) (by omega)

theorem Reached.find {value : α} (reached : Reached slots size slot value) (inside : slot < size)
    (accepts : α → Bool) (accepted : accepts value = true) :
    (find slots size accepts size slot).isSome := by
  obtain ⟨distance, near, stored, filled⟩ := reached
  exact find_isSome accepts accepted size distance near inside stored filled

/-- The search for an empty slot ends at one that has no empty slot before it. -/
theorem firstEmpty_spec (rounds distance : ℕ) (near : distance < rounds) (inside : slot < size)
    (empty : slots ((slot + distance) % size) = none) :
    ∃ nearest ≤ distance, firstEmpty slots size rounds slot = (slot + nearest) % size ∧
      slots ((slot + nearest) % size) = none ∧
      ∀ earlier < nearest, (slots ((slot + earlier) % size)).isSome := by
  induction rounds generalizing slot distance with
  | zero => omega
  | succ rounds ih =>
    have here : (slot + 0) % size = slot := Nat.mod_eq_of_lt inside
    rw [firstEmpty]
    split
    case isFalse free =>
      refine ⟨0, Nat.zero_le _, here.symm, ?_, fun _ before => absurd before (Nat.not_lt_zero _)⟩
      rw [here]
      simpa using free
    case isTrue taken =>
      obtain ⟨fewer, rfl⟩ : ∃ fewer, distance = fewer + 1 := by
        refine ⟨distance - 1, ?_⟩
        rcases Nat.eq_zero_or_pos distance with rfl | pos
        · rw [here] at empty
          simp [empty] at taken
        · omega
      obtain ⟨nearest, le, found, free, filled⟩ := ih fewer (by omega)
        (Nat.mod_lt _ (by omega)) (by rwa [next_slot])
      rw [next_slot] at found free
      refine ⟨nearest + 1, by omega, found, free, ?_⟩
      intro earlier before
      rcases Nat.eq_zero_or_pos earlier with rfl | pos
      · rwa [here]
      · have known := filled (earlier - 1) (by omega)
        rwa [next_slot, Nat.sub_add_cancel pos] at known

/-- Every slot is some distance away. -/
theorem exists_distance (inside : slot < size) {position : ℕ} (within : position < size) :
    ∃ distance < size, (slot + distance) % size = position := by
  refine ⟨(position + (size - slot)) % size, Nat.mod_lt _ (by omega), ?_⟩
  rw [Nat.add_mod_mod, show slot + (position + (size - slot)) = position + size by omega,
    Nat.add_mod_right, Nat.mod_eq_of_lt within]

/-- A value that is inserted is reached. -/
theorem insert_reached (inside : slot < size) (value : α) {position : ℕ} (within : position < size)
    (empty : slots position = none) : Reached (insert slots size slot value) size slot value := by
  obtain ⟨distance, near, rfl⟩ := exists_distance inside within
  obtain ⟨nearest, le, found, -, filled⟩ := firstEmpty_spec size distance near inside empty
  refine ⟨nearest, by omega, ?_, ?_⟩
  · rw [insert, found, Function.update_self]
  · intro earlier before
    rw [insert, found, Function.update_apply]
    split
    · rfl
    · exact filled earlier before

/-- What was reached stays so. -/
theorem Reached.insert {start : ℕ} {value : α} (reached : Reached slots size start value)
    (inside : slot < size) (next : α) {position : ℕ} (within : position < size)
    (empty : slots position = none) : Reached (insert slots size slot next) size start value := by
  obtain ⟨away, near, rfl⟩ := exists_distance inside within
  obtain ⟨nearest, -, found, free, -⟩ := firstEmpty_spec size away near inside empty
  obtain ⟨distance, less, stored, filled⟩ := reached
  refine ⟨distance, less, ?_, ?_⟩
  · rw [LinearProbing.insert, found, Function.update_of_ne, stored]
    intro same
    rw [same, free] at stored
    cases stored
  · intro earlier before
    rw [LinearProbing.insert, Function.update_apply]
    split
    · rfl
    · exact filled earlier before

/-- A table with fewer values than slots has an empty slot. -/
theorem exists_empty (count : ℕ) (room : count < size)
    (few : ((Finset.range size).filter fun position => (slots position).isSome).card ≤ count) :
    ∃ position < size, slots position = none := by
  by_contra full
  have all : (Finset.range size).filter (fun position => (slots position).isSome) =
      Finset.range size := by
    refine Finset.filter_true_of_mem fun position member => ?_
    by_contra free
    exact full ⟨position, Finset.mem_range.mp member, by simpa using free⟩
  rw [all, Finset.card_range] at few
  omega

/-- An insertion fills one slot at most. -/
theorem card_insert (slot : ℕ) (value : α) :
    ((Finset.range size).filter fun position => (insert slots size slot value position).isSome).card
      ≤ ((Finset.range size).filter fun position => (slots position).isSome).card + 1 := by
  have more : (Finset.range size).filter
        (fun position => (insert slots size slot value position).isSome) ⊆
      Insert.insert (firstEmpty slots size size slot)
        ((Finset.range size).filter fun position => (slots position).isSome) := by
    intro position member
    rw [Finset.mem_filter] at member
    rw [Finset.mem_insert, Finset.mem_filter]
    by_cases here : position = firstEmpty slots size size slot
    · exact Or.inl here
    · refine Or.inr ⟨member.1, ?_⟩
      rw [insert, Function.update_of_ne here] at member
      exact member.2
  exact (Finset.card_le_card more).trans (Finset.card_insert_le _ _)

end LinearProbing
