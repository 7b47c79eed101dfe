import Par3.Foundations.Interleaving

/-!
# Loops of local steps

A step is local when the new value at an address depends on the old value there and on nothing
else in the memory. What a loop of local steps does to an address is the composition of what its
bodies do to it: they add one term after the other, or one body sets the value and all others
leave it alone.

Threads whose steps write the values of one function leave those values behind in every order.
-/
namespace Interleaving

variable {A V ι : Type*}

/-! ## Local steps -/

/-- Steps that change the value at an address by a function. -/
def Acts (steps : List (Step A V)) (address : A) (change : V → V) : Prop :=
  ∀ memory, perform steps memory address = change (memory address)

/-- A step that acts on every address alone, and on those outside a region not at all. -/
structure Local (region : Set A) (step : Step A V) : Prop where
  acts : ∀ address, ∃ change, Acts [step] address change
  outside : ∀ address ∉ region, Acts [step] address id

theorem Local.confined {region : Set A} {step : Step A V} (alone : Local region step) :
    Confined region step where
  frame memory address outside := alone.outside address outside memory
  reads memory other same address member := by
    obtain ⟨change, acts⟩ := alone.acts address
    have here := acts memory
    have there := acts other
    rw [perform_cons, perform_nil] at here there
    rw [here, there, same address member]

namespace Acts

variable {address : A} {first second : List (Step A V)} {earlier later change : V → V}

theorem nil : Acts ([] : List (Step A V)) address id := fun _ => rfl

theorem append (one : Acts first address earlier) (other : Acts second address later) :
    Acts (first ++ second) address (later ∘ earlier) := by
  intro memory
  rw [perform_append, other, one]
  rfl

theorem append_keeps (one : Acts first address id) (other : Acts second address id) :
    Acts (first ++ second) address id :=
  one.append other

theorem append_adds [Add V] {term : V} (one : Acts first address earlier)
    (other : Acts second address (· + term)) :
    Acts (first ++ second) address fun old => earlier old + term :=
  one.append other

/-- A loop whose bodies leave an address alone leaves it alone. -/
theorem keeps {values : List ι} {body : ι → List (Step A V)}
    (each : ∀ value ∈ values, Acts (body value) address id) :
    Acts (values.flatMap body) address id := by
  induction values with
  | nil => exact nil
  | cons value rest ih =>
    have later := ih fun other member =>
      each other (List.mem_cons_of_mem _ member)
    rw [List.flatMap_cons]
    exact append (each value List.mem_cons_self) later

/-- A loop in which one body acts on an address and all others leave it alone. -/
theorem once {values : List ι} {body : ι → List (Step A V)} {own : ι} (distinct : values.Nodup)
    (member : own ∈ values) (acts : Acts (body own) address later)
    (other : ∀ value ∈ values, value ≠ own → Acts (body value) address id) :
    Acts (values.flatMap body) address later := by
  obtain ⟨before, after, rfl⟩ := List.append_of_mem member
  rw [List.nodup_middle, List.nodup_cons, List.mem_append, not_or] at distinct
  obtain ⟨⟨notBefore, notAfter⟩, _⟩ := distinct
  have earlier : Acts (before.flatMap body) address id := by
    apply keeps
    intro value inside
    apply other value (List.mem_append_left _ inside)
    rintro rfl
    exact notBefore inside
  have rest : Acts (after.flatMap body) address id := by
    apply keeps
    intro value inside
    apply other value (List.mem_append_right _ (List.mem_cons_of_mem _ inside))
    rintro rfl
    exact notAfter inside
  rw [List.flatMap_append, List.flatMap_cons]
  exact earlier.append (acts.append rest)

/-- A loop whose bodies add their terms adds the sum of the terms. -/
theorem adds [AddCommMonoid V] {values : List ι} {body : ι → List (Step A V)} {term : ι → V}
    (each : ∀ value ∈ values, Acts (body value) address (· + term value)) :
    Acts (values.flatMap body) address (· + (values.map term).sum) := by
  induction values with
  | nil =>
    intro memory
    exact (add_zero _).symm
  | cons value rest ih =>
    intro memory
    have later := ih fun other member =>
      each other (List.mem_cons_of_mem _ member)
    rw [List.flatMap_cons, perform_append, later, each value List.mem_cons_self, List.map_cons,
      List.sum_cons]
    exact add_assoc _ _ _

theorem adds_range [AddCommMonoid V] {count : ℕ} {body : ℕ → List (Step A V)} {term : ℕ → V}
    (each : ∀ value < count, Acts (body value) address (· + term value)) :
    Acts ((List.range count).flatMap body) address (· + ∑ value ∈ Finset.range count, term value) := by
  have terms : ((List.range count).map term).sum = ∑ value ∈ Finset.range count, term value := by
    rw [← List.sum_toFinset term List.nodup_range, List.toFinset_range]
  rw [← terms]
  exact adds fun value member => each value (List.mem_range.mp member)

end Acts

/-! ## Loops with a stride -/

/-- The values of a loop counter that goes from `start` in steps and stays below `stop`. -/
def strided (start stop step : ℕ) : List ℕ :=
  List.range' start ((stop - start + step - 1) / step) step

section Strided

variable {start stop step : ℕ}

theorem strided_of_le (finished : stop ≤ start) : strided start stop step = [] := by
  rw [strided, Nat.sub_eq_zero_of_le finished, Nat.zero_add]
  cases step with
  | zero => rfl
  | succ step => rw [Nat.div_eq_of_lt (by omega), List.range'_zero]

theorem strided_of_lt (pos : 0 < step) (more : start < stop) :
    strided start stop step = start :: strided (start + step) stop step := by
  have count : (stop - start + step - 1) / step =
      (stop - (start + step) + step - 1) / step + 1 := by
    by_cases last : stop ≤ start + step
    · have first : (stop - start + step - 1) / step = 1 := by
        apply Nat.div_eq_of_lt_le
        · omega
        · omega
      rw [first, Nat.sub_eq_zero_of_le last, Nat.zero_add, Nat.div_eq_of_lt (by omega)]
    · rw [← Nat.add_div_right _ pos]
      congr 1
      omega
  rw [strided, count, List.range'_succ]
  rfl

/-- Every round starts inside. -/
theorem strided_bounds (pos : 0 < step) {value : ℕ}
    (member : value ∈ strided start stop step) : start ≤ value ∧ value < stop := by
  induction left : stop - start using Nat.strong_induction_on generalizing start with
  | _ left' ih =>
    by_cases more : start < stop
    · rw [strided_of_lt pos more, List.mem_cons] at member
      rcases member with rfl | member
      · exact ⟨le_rfl, more⟩
      · have later := ih (stop - (start + step)) (by omega) member rfl
        omega
    · rw [strided_of_le (Nat.not_lt.mp more)] at member
      cases member

/-- The rounds of a loop with a stride cover its range once. -/
theorem sum_strided {M : Type*} [AddCommMonoid M] (pos : 0 < step) (ordered : start ≤ stop)
    (term : ℕ → M) :
    ((strided start stop step).map fun value =>
        ∑ index ∈ Finset.Ico value (min (value + step) stop), term index).sum =
      ∑ index ∈ Finset.Ico start stop, term index := by
  induction left : stop - start using Nat.strong_induction_on generalizing start with
  | _ left' ih =>
    by_cases more : start < stop
    · rw [strided_of_lt pos more, List.map_cons, List.sum_cons]
      by_cases last : start + step ≤ stop
      · rw [ih (stop - (start + step)) (by omega) last rfl, min_eq_left last]
        exact Finset.sum_Ico_consecutive term (by omega) last
      · rw [strided_of_le (by omega), min_eq_right (by omega), List.map_nil, List.sum_nil, add_zero]
    · obtain rfl : start = stop := by omega
      rw [strided_of_le le_rfl, Finset.Ico_self, Finset.sum_empty, List.map_nil, List.sum_nil]

/-- An index lies in one round of a loop, which acts on its address; the other rounds do not. -/
theorem Acts.strided_once {body : ℕ → List (Step A V)} {address : A} {change : V → V} {index : ℕ}
    (pos : 0 < step) (inside : start ≤ index ∧ index < stop)
    (own : ∀ value ≤ index, value < stop → index < value + step → Acts (body value) address change)
    (other : ∀ value, index < value ∨ value + step ≤ index → Acts (body value) address id) :
    Acts ((strided start stop step).flatMap body) address change := by
  induction left : stop - start using Nat.strong_induction_on generalizing start with
  | _ left' ih =>
    have more : start < stop := lt_of_le_of_lt inside.1 inside.2
    rw [strided_of_lt pos more, List.flatMap_cons]
    by_cases here : index < start + step
    · have rest : Acts ((strided (start + step) stop step).flatMap body) address id := by
        apply Acts.keeps
        intro value member
        apply other
        exact .inl (lt_of_lt_of_le here (strided_bounds pos member).1)
      exact (own start inside.1 more here).append rest
    · have passed := Nat.not_lt.mp here
      exact (other start (.inr passed)).append
        (ih (stop - (start + step)) (by omega) ⟨passed, inside.2⟩ rfl)

theorem exists_strided {w : ℕ} (pos : 0 < step) (lower : start ≤ w)
    (upper : w < stop) : ∃ value ∈ strided start stop step, value ≤ w ∧ w < min (value + step) stop := by
  induction left : stop - start using Nat.strong_induction_on generalizing start with
  | _ left' ih =>
    rw [strided_of_lt pos (by omega)]
    by_cases first : w < start + step
    · exact ⟨start, List.mem_cons_self, lower, lt_min first upper⟩
    · obtain ⟨value, member, inside⟩ := ih (stop - (start + step)) (by omega)
        (by omega : start + step ≤ w) rfl
      exact ⟨value, List.mem_cons_of_mem _ member, inside⟩

end Strided

/-! ## Ranges that are cut into parts -/

section Parts

variable {bound : ℕ → ℕ} {count index : ℕ}

/-- An index of the range lies in one of its parts. -/
theorem exists_part (start : bound 0 ≤ index) (stop : index < bound count) :
    ∃ part < count, bound part ≤ index ∧ index < bound (part + 1) := by
  induction count with
  | zero => exact absurd stop (Nat.not_lt.mpr start)
  | succ count ih =>
    by_cases last : bound count ≤ index
    · exact ⟨count, Nat.lt_succ_self count, last, stop⟩
    · obtain ⟨part, earlier, inside⟩ := ih (Nat.not_le.mp last)
      exact ⟨part, Nat.lt_succ_of_lt earlier, inside⟩

/-- Parts between growing bounds do not overlap. -/
theorem part_unique (grows : Monotone bound) {first second : ℕ}
    (one : bound first ≤ index ∧ index < bound (first + 1))
    (other : bound second ≤ index ∧ index < bound (second + 1)) : first = second := by
  by_contra apart
  rcases Nat.lt_or_gt_of_ne apart with before | after
  · have order : bound (first + 1) ≤ bound second := grows before
    omega
  · have order : bound (second + 1) ≤ bound first := grows after
    omega

/-- The sum over all parts is the sum over the range. -/
theorem sum_parts {M : Type*} [AddCommMonoid M] (grows : Monotone bound) (count : ℕ)
    (term : ℕ → M) :
    ∑ part ∈ Finset.range count, ∑ index ∈ Finset.Ico (bound part) (bound (part + 1)), term index =
      ∑ index ∈ Finset.Ico (bound 0) (bound count), term index := by
  induction count with
  | zero => rw [Finset.range_zero, Finset.sum_empty, Finset.Ico_self, Finset.sum_empty]
  | succ count ih =>
    rw [Finset.sum_range_succ, ih]
    exact Finset.sum_Ico_consecutive term (grows (Nat.zero_le count)) (grows (Nat.le_succ count))

/-- The bounds that cut a range into parts of nearly the same length. -/
theorem share_monotone (total parts : ℕ) : Monotone fun part => part * total / parts :=
  fun _ _ order => Nat.div_le_div_right (Nat.mul_le_mul_right total order)

end Parts

/-! ## Interleavings exist -/

/-- Threads that run one after the other. -/
def inTurn (programs : ι → List (Step A V)) (labels : List ι) : List (ι × Step A V) :=
  labels.flatMap fun label => (programs label).map (Prod.mk label)

theorem thread_own [DecidableEq ι] (label : ι) (steps : List (Step A V)) :
    thread (steps.map (Prod.mk label)) label = steps := by
  induction steps with
  | nil => rfl
  | cons step rest ih =>
    rw [List.map_cons, thread_cons, if_pos rfl, ih]

theorem thread_other [DecidableEq ι] {label other : ι} (apart : label ≠ other)
    (steps : List (Step A V)) : thread (steps.map (Prod.mk label)) other = [] := by
  induction steps with
  | nil => rfl
  | cons step rest ih =>
    rw [List.map_cons, thread_cons, if_neg apart, ih]

theorem thread_inTurn [DecidableEq ι] (programs : ι → List (Step A V)) {labels : List ι}
    (distinct : labels.Nodup) (label : ι) :
    thread (inTurn programs labels) label = if label ∈ labels then programs label else [] := by
  induction labels with
  | nil => rfl
  | cons head rest ih =>
    obtain ⟨absent, distinct⟩ := List.nodup_cons.mp distinct
    have later := ih distinct
    rw [inTurn] at later
    rw [inTurn, List.flatMap_cons, thread_append, later]
    by_cases same : head = label
    · subst same
      rw [thread_own, if_neg absent, if_pos List.mem_cons_self, List.append_nil]
    · rw [thread_other same, List.nil_append]
      simp only [List.mem_cons, Ne.symm same, false_or]

/-- Finitely many threads have an interleaving. -/
theorem interleaved_exists [DecidableEq ι] {programs : ι → List (Step A V)} (labels : List ι)
    (distinct : labels.Nodup) (idle : ∀ label ∉ labels, programs label = []) (memory : A → V) :
    ∃ last, Interleaved programs memory last := by
  refine ⟨_, inTurn programs labels, fun label => ?_, rfl⟩
  rw [thread_inTurn programs distinct]
  split
  · rfl
  · rename_i absent
    exact (idle label absent).symm

/-! ## Steps that write the values of one function -/

/-- A step that writes the values of a function at some places. -/
def Writes (value : A → V) (places : Set A) (step : Step A V) : Prop :=
  ∀ (memory : A → V) (address : A),
    (address ∈ places → step memory address = value address) ∧
      (address ∉ places → step memory address = memory address)

section Writes

variable {value : A → V} {address : A} {steps : List (Step A V)}

/-- What is written stays, as every later step writes the same. -/
theorem perform_written (each : ∀ step ∈ steps, ∃ places, Writes value places step) {memory : A → V}
    (written : memory address = value address) : perform steps memory address = value address := by
  induction steps generalizing memory with
  | nil => exact written
  | cons step rest ih =>
    obtain ⟨places, writes⟩ := each step List.mem_cons_self
    rw [perform_cons]
    refine ih (fun other member => each other (List.mem_cons_of_mem _ member)) ?_
    by_cases here : address ∈ places
    · exact (writes memory address).1 here
    · rw [(writes memory address).2 here, written]

theorem perform_writes (each : ∀ step ∈ steps, ∃ places, Writes value places step)
    {step : Step A V} {places : Set A} (member : step ∈ steps) (writes : Writes value places step)
    (inside : address ∈ places) (memory : A → V) : perform steps memory address = value address := by
  obtain ⟨before, after, rfl⟩ := List.append_of_mem member
  rw [perform_append, perform_cons]
  exact perform_written
    (fun other later => each other (List.mem_append_right _ (List.mem_cons_of_mem _ later)))
    ((writes _ address).1 inside)

theorem perform_unwritten
    (each : ∀ step ∈ steps, ∃ places, Writes value places step ∧ address ∉ places) (memory : A → V) :
    perform steps memory address = memory address := by
  induction steps generalizing memory with
  | nil => rfl
  | cons step rest ih =>
    obtain ⟨places, writes, outside⟩ := each step List.mem_cons_self
    rw [perform_cons,
      ih (fun other member => each other (List.mem_cons_of_mem _ member)),
      (writes memory address).2 outside]

variable [DecidableEq ι] {programs : ι → List (Step A V)} {memory last : A → V}

/-- Each thread may write where it likes, when all write the values of one function. -/
theorem Interleaved.written (interleaved : Interleaved programs memory last)
    (each : ∀ label, ∀ step ∈ programs label, ∃ places, Writes value places step) {label : ι}
    {step : Step A V} {places : Set A} (member : step ∈ programs label)
    (writes : Writes value places step) (inside : address ∈ places) : last address = value address := by
  obtain ⟨schedule, own, rfl⟩ := interleaved
  have all : ∀ step ∈ schedule.map Prod.snd, ∃ places, Writes value places step := by
    intro step present
    obtain ⟨entry, scheduled, rfl⟩ := List.mem_map.mp present
    exact each entry.1 _ (own entry.1 ▸ mem_thread scheduled)
  rw [← own, thread, List.mem_map] at member
  obtain ⟨entry, kept, rfl⟩ := member
  exact perform_writes all (List.mem_map_of_mem (List.mem_of_mem_filter kept)) writes inside memory

theorem Interleaved.unwritten (interleaved : Interleaved programs memory last)
    (each : ∀ label, ∀ step ∈ programs label, ∃ places, Writes value places step ∧ address ∉ places) :
    last address = memory address := by
  obtain ⟨schedule, own, rfl⟩ := interleaved
  apply perform_unwritten
  intro step present
  obtain ⟨entry, scheduled, rfl⟩ := List.mem_map.mp present
  exact each entry.1 _ (own entry.1 ▸ mem_thread scheduled)

end Writes

end Interleaving
