import Mathlib.Data.List.Basic

/-!
# Slots that hold a value or nothing

An array of slots is searched from the front: for the first value that a test accepts, or for
the first slot that is empty. Each search changes one slot, and what it did is a splitting of
the array around that slot.
-/
namespace Slots

variable {α : Type*}

/-- The values that the slots hold, in order. -/
def stored (slots : List (Option α)) : List α := slots.filterMap id

/-- The first value that is accepted, and the slots after `change` was put in its place. -/
def replaceFirst (accepts : α → Bool) (change : α → Option α) :
    List (Option α) → Option (α × List (Option α))
  | [] => none
  | none :: rest => (replaceFirst accepts change rest).map fun (found, left) => (found, none :: left)
  | some value :: rest =>
    if accepts value then some (value, change value :: rest)
    else (replaceFirst accepts change rest).map fun (found, left) => (found, some value :: left)

/-- The slots after the value was put in the first empty one. -/
def fillFirst (value : α) : List (Option α) → Option (List (Option α))
  | [] => none
  | none :: rest => some (some value :: rest)
  | some other :: rest => (fillFirst value rest).map (some other :: ·)

@[simp] theorem stored_nil : stored ([] : List (Option α)) = [] := rfl

@[simp] theorem stored_none (rest : List (Option α)) : stored (none :: rest) = stored rest := rfl

@[simp] theorem stored_some (value : α) (rest : List (Option α)) :
    stored (some value :: rest) = value :: stored rest := rfl

@[simp] theorem stored_append (front back : List (Option α)) :
    stored (front ++ back) = stored front ++ stored back := List.filterMap_append

@[simp] theorem mem_stored {value : α} {slots : List (Option α)} :
    value ∈ stored slots ↔ some value ∈ slots := by
  rw [stored, List.mem_filterMap]
  constructor
  · rintro ⟨_, member, rfl⟩
    exact member
  · intro member
    exact ⟨_, member, rfl⟩

theorem stored_length_le (slots : List (Option α)) : (stored slots).length ≤ slots.length :=
  List.length_filterMap_le _ _

section

variable {accepts : α → Bool} {change : α → Option α}

/-- A value that is found is accepted, and only its slot changes. -/
theorem replaceFirst_some {slots left : List (Option α)} {value : α}
    (found : replaceFirst accepts change slots = some (value, left)) :
    accepts value = true ∧ ∃ front back, slots = front ++ some value :: back ∧
      left = front ++ change value :: back := by
  induction slots generalizing left with
  | nil => cases found
  | cons slot rest ih =>
    cases slot with
    | none =>
      obtain ⟨⟨inside, later⟩, inner, same⟩ := Option.map_eq_some_iff.mp found
      cases same
      obtain ⟨fits, front, back, rfl, rfl⟩ := ih inner
      exact ⟨fits, none :: front, back, rfl, rfl⟩
    | some other =>
      by_cases fits : accepts other
      · rw [replaceFirst, if_pos fits] at found
        cases found
        exact ⟨fits, [], rest, rfl, rfl⟩
      · rw [replaceFirst, if_neg fits] at found
        obtain ⟨⟨inside, later⟩, inner, same⟩ := Option.map_eq_some_iff.mp found
        cases same
        obtain ⟨fits, front, back, rfl, rfl⟩ := ih inner
        exact ⟨fits, some other :: front, back, rfl, rfl⟩

/-- The first value that is accepted is the one that is found. -/
theorem replaceFirst_first {front back : List (Option α)} {value : α}
    (refused : ∀ other, some other ∈ front → accepts other = false)
    (fits : accepts value = true) :
    replaceFirst accepts change (front ++ some value :: back) =
      some (value, front ++ change value :: back) := by
  induction front with
  | nil => rw [List.nil_append, replaceFirst, if_pos fits, List.nil_append]
  | cons slot rest ih =>
    have later := ih fun other member =>
      refused other (List.mem_cons_of_mem _ member)
    cases slot with
    | none => rw [List.cons_append, replaceFirst, later, Option.map_some, List.cons_append]
    | some other =>
      have unfit := refused other List.mem_cons_self
      rw [List.cons_append, replaceFirst, if_neg (by rw [unfit]; exact Bool.false_ne_true), later,
        Option.map_some, List.cons_append]

/-- Nothing is found exactly when no stored value is accepted. -/
theorem replaceFirst_eq_none_iff {slots : List (Option α)} :
    replaceFirst accepts change slots = none ↔ ∀ value ∈ stored slots, accepts value = false := by
  constructor
  · intro missed value member
    rw [mem_stored] at member
    by_contra fits
    rw [Bool.not_eq_false] at fits
    obtain ⟨front, back, rfl⟩ := List.append_of_mem member
    clear member
    induction front with
    | nil =>
      rw [List.nil_append, replaceFirst, if_pos fits] at missed
      cases missed
    | cons slot rest ih =>
      cases slot with
      | none => exact ih (Option.map_eq_none_iff.mp missed)
      | some other =>
        rw [List.cons_append, replaceFirst] at missed
        split at missed
        · cases missed
        · exact ih (Option.map_eq_none_iff.mp missed)
  · intro refused
    cases found : replaceFirst accepts change slots with
    | none => rfl
    | some pair =>
      obtain ⟨fits, front, back, rfl, _⟩ := replaceFirst_some found
      have unfit := refused pair.1 (by simp)
      rw [fits] at unfit
      cases unfit

end

theorem fillFirst_some {value : α} {slots filled : List (Option α)}
    (placed : fillFirst value slots = some filled) :
    ∃ front back, slots = front ++ none :: back ∧ filled = front ++ some value :: back := by
  induction slots generalizing filled with
  | nil => cases placed
  | cons slot rest ih =>
    cases slot with
    | none =>
      cases placed
      exact ⟨[], rest, rfl, rfl⟩
    | some other =>
      obtain ⟨later, inner, rfl⟩ := Option.map_eq_some_iff.mp placed
      obtain ⟨front, back, rfl, rfl⟩ := ih inner
      exact ⟨some other :: front, back, rfl, rfl⟩

end Slots
