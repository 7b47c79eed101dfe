import Par3.Foundations.Loops

/-!
# Loops over the words of a region

A step changes the words of an interval, each by itself and by what it holds. Steps over consecutive
intervals change all of them, and so does a loop over whole blocks that is followed by one over the words
that are left.
-/

namespace RegionLoops

open Interleaving

variable {State V : Type*}

/-- The step changes what is read in an interval, and nothing else. -/
def Changes (read : State → ℕ → V) (change : ℕ → V → V) (step : State → State) (start stop : ℕ) : Prop :=
  ∀ state place, read (step state) place =
    if start ≤ place ∧ place < stop then change place (read state place) else read state place

/-- Whole blocks, and then the words that are left. -/
def blocksThenWords (width : ℕ) (block word : State → ℕ → State) (len : ℕ) (state : State) : State :=
  let blocks := len / width
  (List.range' (blocks * width) (len - blocks * width)).foldl word
    ((List.range blocks).foldl (fun state b => block state (b * width)) state)

namespace Changes

variable {read : State → ℕ → V} {change : ℕ → V → V} {start middle stop : ℕ}

theorem nothing (same : stop ≤ start) : Changes read change id start stop := by
  intro state place
  rw [if_neg (by omega)]
  rfl

theorem append {first second : State → State} (before : start ≤ middle) (behind : middle ≤ stop)
    (one : Changes read change first start middle) (other : Changes read change second middle stop) :
    Changes read change (fun state => second (first state)) start stop := by
  intro state place
  rw [other, one]
  by_cases early : start ≤ place ∧ place < middle
  · rw [if_neg (by omega), if_pos early, if_pos (by omega)]
  · rw [if_neg early]
    exact if_congr (by omega) rfl rfl

/-- What is read after a whole region was changed. -/
theorem whole {len : ℕ} {step : State → State} (changes : Changes read change step 0 len) (state : State)
    (place : ℕ) : read (step state) place =
      if place < len then change place (read state place) else read state place :=
  (changes state place).trans (if_congr (and_iff_right (Nat.zero_le place)) rfl rfl)

/-- Steps over consecutive parts. -/
theorem parts {bound : ℕ → ℕ} (grows : Monotone bound) {step : State → ℕ → State} (count : ℕ)
    (each : ∀ part < count, Changes read change (step · part) (bound part) (bound (part + 1))) :
    Changes read change (fun state => (List.range count).foldl step state) (bound 0) (bound count) := by
  induction count with
  | zero => exact nothing le_rfl
  | succ count ih =>
    have earlier := ih fun part before => each part (by omega)
    have both := append (grows (Nat.zero_le count)) (grows (Nat.le_succ count)) earlier
      (each count (Nat.lt_succ_self count))
    intro state place
    dsimp only
    rw [List.range_succ, List.foldl_append]
    exact both state place

/-- Blocks of one width. -/
theorem blocks {width : ℕ} {step : State → ℕ → State} (base count : ℕ)
    (each : ∀ part < count, Changes read change (step · part) (base + part * width)
      (base + part * width + width)) :
    Changes read change (fun state => (List.range count).foldl step state) base
      (base + count * width) := by
  have grows : Monotone fun part => base + part * width := fun first second less =>
    Nat.add_le_add_left (Nat.mul_le_mul_right width less) base
  have all := parts grows count fun part inside => by
    have own := each part inside
    rw [Nat.add_assoc, ← Nat.succ_mul] at own
    exact own
  rw [Nat.zero_mul, Nat.add_zero] at all
  exact all

/-- One word after the other. -/
theorem words {word : State → ℕ → State} (start count : ℕ)
    (each : ∀ place, start ≤ place → place < start + count →
      Changes read change (word · place) place (place + 1)) :
    Changes read change (fun state => (List.range' start count).foldl word state) start
      (start + count) := by
  have one := @blocks State V read change 1 (fun state part => word state (start + part)) start count
    fun part inside => by
      rw [Nat.mul_one]
      exact each (start + part) (by omega) (by omega)
  rw [Nat.mul_one] at one
  intro state place
  dsimp only
  rw [List.range'_eq_map_range, List.foldl_map]
  exact one state place

/-- A loop over blocks and the words that are left changes the whole region. -/
theorem blocksThenWords {width : ℕ} {block word : State → ℕ → State} {len : ℕ}
    (eachBlock : ∀ start, start + width ≤ len → Changes read change (block · start) start (start + width))
    (eachWord : ∀ place < len, Changes read change (word · place) place (place + 1)) :
    Changes read change (blocksThenWords width block word len) 0 len := by
  have whole : len / width * width ≤ len := Nat.div_mul_le_self len width
  have first := @blocks State V read change width (fun state b => block state (b * width)) 0
    (len / width) fun part inside => by
      rw [Nat.zero_add]
      apply eachBlock
      rw [← Nat.succ_mul]
      exact (Nat.mul_le_mul_right width inside).trans whole
  have last := @words State V read change word (len / width * width) (len - len / width * width)
    fun place _ before => eachWord place (by omega)
  rw [Nat.zero_add] at first
  rw [Nat.add_sub_cancel' whole] at last
  have both := append (Nat.zero_le _) whole first last
  intro state place
  exact both state place

/-- The rounds of a loop with a stride. -/
theorem strided {width : ℕ} (pos : 0 < width) {step : State → ℕ → State} {start stop : ℕ}
    (ordered : start ≤ stop)
    (each : ∀ base < stop, Changes read change (step · base) base (min (base + width) stop)) :
    Changes read change (fun state => (strided start stop width).foldl step state) start stop := by
  induction left : stop - start using Nat.strong_induction_on generalizing start with
  | _ left' ih =>
    by_cases more : start < stop
    · have behind : min (start + width) stop ≤ stop := min_le_right _ _
      have before : start ≤ min (start + width) stop := le_min (Nat.le_add_right _ _) ordered
      have rest : Changes read change (fun state => (Interleaving.strided (start + width) stop width).foldl
          step state) (min (start + width) stop) stop := by
        by_cases inside : start + width ≤ stop
        · rw [min_eq_left inside]
          exact ih (stop - (start + width)) (by omega) inside rfl
        · rw [strided_of_le (by omega), min_eq_right (by omega)]
          exact nothing le_rfl
      rw [strided_of_lt pos more]
      exact append before behind (each start more) rest
    · rw [strided_of_le (Nat.not_lt.mp more)]
      exact nothing (Nat.not_lt.mp more)

end Changes

/-- Entries with different keys are changed by themselves. -/
theorem foldl_update_nodup {Key : Type*} [DecidableEq Key] (change : Key → V → V) {keys : List Key}
    (distinct : keys.Nodup) (entries : Key → V) (key : Key) :
    keys.foldl (fun entries key => Function.update entries key (change key (entries key))) entries key =
      if key ∈ keys then change key (entries key) else entries key := by
  induction keys generalizing entries with
  | nil => rfl
  | cons first rest ih =>
    obtain ⟨apart, distinctRest⟩ := List.nodup_cons.mp distinct
    rw [List.foldl_cons, ih distinctRest]
    by_cases here : key = first
    · subst here
      rw [if_neg apart, Function.update_self, if_pos List.mem_cons_self]
    · rw [Function.update_of_ne here]
      exact if_congr (by rw [List.mem_cons, or_iff_right here]) rfl rfl

end RegionLoops
