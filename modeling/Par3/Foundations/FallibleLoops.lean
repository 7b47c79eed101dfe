import Mathlib.Algebra.BigOperators.Group.Finset.Basic
import Mathlib.Algebra.BigOperators.Intervals

/-!
# Loops that may throw

A loop runs a fallible body on a state, one value after the other. When no body fails, its outcome
is that of the plain loop; when one body fails on every state, so does the loop.

A loop that updates one entry of a function at a time has changed the entries it has passed.
-/
namespace FallibleLoops

universe u

variable {State Next : Type u} {Value Error : Type*}

theorem ok_bind (state : State) (next : State → Except Error Next) :
    (Except.ok state >>= next) = next state := rfl

theorem error_bind (error : Error) (next : State → Except Error Next) :
    (Except.error error >>= next) = .error error := rfl

theorem bind_eq_ok {state : Except Error State} {next : State → Except Error Next} {result : Next} :
    (state >>= next) = .ok result ↔ ∃ value, state = .ok value ∧ next value = .ok result := by
  cases state with
  | error error => exact ⟨fun failed => (nomatch failed), fun ⟨_, failed, _⟩ => (nomatch failed)⟩
  | ok value =>
    rw [ok_bind]
    exact ⟨fun returned => ⟨value, rfl, returned⟩, fun ⟨_, same, returned⟩ => by cases same; exact returned⟩

/-- Every result of a list of calls is that of its own call. -/
theorem mapM_ok {Result : Type*} {body : Value → Except Error Result} {values : List Value}
    {results : List Result} (returned : values.mapM body = .ok results) :
    List.Forall₂ (fun value result => body value = .ok result) values results := by
  induction values generalizing results with
  | nil =>
    cases returned
    exact .nil
  | cons value rest ih =>
    rw [List.mapM_cons, bind_eq_ok] at returned
    obtain ⟨result, one, returned⟩ := returned
    rw [bind_eq_ok] at returned
    obtain ⟨others, more, returned⟩ := returned
    cases returned
    exact .cons one (ih more)

theorem mem_of_mapM {Result : Type*} {body : Value → Except Error Result} {values : List Value}
    {results : List Result} (returned : values.mapM body = .ok results) :
    ∀ result ∈ results, ∃ value ∈ values, body value = .ok result := by
  have all := mapM_ok returned
  clear returned
  induction all with
  | nil => exact fun result member => nomatch member
  | cons one rest ih =>
    intro result member
    obtain rfl | later := List.mem_cons.mp member
    · exact ⟨_, List.mem_cons_self, one⟩
    · obtain ⟨value, inside, own⟩ := ih result later
      exact ⟨value, List.mem_cons_of_mem _ inside, own⟩

/-- A list of calls fails with the error of one of them. -/
theorem mapM_error {Result : Type*} {body : Value → Except Error Result}
    {values : List Value} {error : Error} (failed : values.mapM body = .error error) :
    ∃ value ∈ values, body value = .error error := by
  induction values with
  | nil => cases failed
  | cons value rest ih =>
    rw [List.mapM_cons] at failed
    cases own : body value with
    | error reason =>
      rw [own] at failed
      cases failed
      exact ⟨value, List.mem_cons_self, own⟩
    | ok result =>
      rw [own, ok_bind] at failed
      cases others : rest.mapM body with
      | error reason =>
        rw [others] at failed
        cases failed
        obtain ⟨later, member, refused⟩ := ih others
        exact ⟨later, List.mem_cons_of_mem _ member, refused⟩
      | ok results =>
        rw [others] at failed
        cases failed

/-- A loop whose bodies all return. -/
theorem foldlM_ok (body : State → Value → Except Error State) (next : State → Value → State)
    (values : List Value) (state : State)
    (returns : ∀ value ∈ values, ∀ state, body state value = .ok (next state value)) :
    values.foldlM body state = .ok (values.foldl next state) := by
  induction values generalizing state with
  | nil => rfl
  | cons value rest ih =>
    rw [List.foldlM_cons, returns value List.mem_cons_self state, List.foldl_cons]
    apply ih
    intro other member
    exact returns other (List.mem_cons_of_mem _ member)

/-- The same where a body has no error to return. -/
theorem foldlM_some {body : State → Value → Option State} (next : State → Value → State)
    (values : List Value) (state : State)
    (returns : ∀ value ∈ values, ∀ state, body state value = some (next state value)) :
    values.foldlM body state = some (values.foldl next state) := by
  induction values generalizing state with
  | nil => rfl
  | cons value rest ih =>
    rw [List.foldlM_cons, returns value List.mem_cons_self state, List.foldl_cons]
    exact ih _ fun other member => returns other (List.mem_cons_of_mem _ member)

/-- A loop with a body that never returns. -/
theorem foldlM_error (body : State → Value → Except Error State) {values : List Value}
    {value : Value} (member : value ∈ values) (state : State)
    (fails : ∀ state, ∃ error, body state value = .error error) :
    ∃ error, values.foldlM body state = .error error := by
  induction values generalizing state with
  | nil => cases member
  | cons first rest ih =>
    rw [List.foldlM_cons]
    cases outcome : body state first with
    | error error => exact ⟨error, rfl⟩
    | ok next =>
      cases member with
      | head =>
        obtain ⟨error, failed⟩ := fails state
        rw [outcome] at failed
        cases failed
      | tail _ later => exact ih later next

theorem foldlM_congr {first second : State → Value → Except Error State} {values : List Value}
    (state : State) (same : ∀ value ∈ values, ∀ state, first state value = second state value) :
    values.foldlM first state = values.foldlM second state := by
  induction values generalizing state with
  | nil => rfl
  | cons value rest ih =>
    rw [List.foldlM_cons, List.foldlM_cons, same value List.mem_cons_self state]
    congr 1
    funext next
    apply ih
    intro other member
    exact same other (List.mem_cons_of_mem _ member)

theorem range_split {start middle stop : ℕ} (first : start ≤ middle) (second : middle ≤ stop) :
    List.range' start (stop - start) =
      List.range' start (middle - start) ++ List.range' middle (stop - middle) := by
  have count : stop - start = (middle - start) + (stop - middle) := by omega
  have next : middle = start + (middle - start) := by omega
  rw [count, ← List.range'_append_1, ← next]

/-- Two loops that follow each other are one loop. -/
theorem foldlM_range_append (body : State → ℕ → Except Error State) (state : State)
    {start middle stop : ℕ} (first : start ≤ middle) (second : middle ≤ stop) :
    ((List.range' start (middle - start)).foldlM body state >>=
        (List.range' middle (stop - middle)).foldlM body) =
      (List.range' start (stop - start)).foldlM body state := by
  rw [range_split first second, List.foldlM_append]

/-- One more turn of a loop. -/
theorem foldlM_range_succ (body : State → ℕ → Except Error State) (state : State)
    {start stop : ℕ} (ordered : start ≤ stop) :
    ((List.range' start (stop - start)).foldlM body state >>= fun state => body state stop) =
      (List.range' start (stop + 1 - start)).foldlM body state := by
  have one : stop + 1 - stop = 1 := by omega
  rw [← foldlM_range_append body state ordered (Nat.le_add_right stop 1), one]
  congr 1
  funext last
  rw [List.range'_one, List.foldlM_cons]
  simp only [List.foldlM_nil, bind_pure]

/-- A loop that counts from a base. -/
theorem foldlM_shift (body : State → ℕ → Except Error State) (base start stop : ℕ) (state : State) :
    (List.range' start (stop - start)).foldlM (fun state value => body state (base + value)) state =
      (List.range' (base + start) (base + stop - (base + start))).foldlM body state := by
  rw [Nat.add_sub_add_left, ← List.map_add_range', List.foldlM_map]

/-- A loop over chunks of values, the first of which may be entered in its middle, is the loop
over all values. -/
theorem foldlM_chunks (body : State → ℕ → Except Error State) (width chunk position chunks : ℕ)
    (inside : position ≤ width) (state : State) :
    (List.range' chunk (chunks - chunk)).foldlM
        (fun state current =>
          (List.range' (if current = chunk then position else 0)
              (width - if current = chunk then position else 0)).foldlM
            (fun state value => body state (current * width + value)) state)
        state =
      (List.range' (chunk * width + position) (chunks * width - (chunk * width + position))).foldlM
        body state := by
  have shifted (base first count : ℕ) (state : State) :
      (List.range' first count).foldlM (fun state value => body state (base + value)) state =
        (List.range' (base + first) count).foldlM body state := by
    rw [← List.map_add_range', List.foldlM_map]
  induction chunks with
  | zero =>
    have none : 0 * width - (chunk * width + position) = 0 := by omega
    rw [none, Nat.zero_sub]
    rfl
  | succ chunks ih =>
    by_cases entered : chunk ≤ chunks
    · have last : chunks + 1 - chunk = (chunks - chunk) + 1 := by omega
      have next : chunk + (chunks - chunk) = chunks := by omega
      rw [last, ← List.range'_append_1 (n := 1), next, List.foldlM_append, ih,
        List.range'_one]
      simp only [List.foldlM_cons, List.foldlM_nil, bind_pure, shifted]
      by_cases first : chunks = chunk
      · have none : chunk * width - (chunk * width + position) = 0 := by omega
        have rest : (chunk + 1) * width - (chunk * width + position) = width - position := by
          rw [Nat.succ_mul]
          omega
        rw [first, if_pos rfl, none, rest]
        rfl
      · have before : chunk * width + position ≤ chunks * width := by
          have more : (chunk + 1) * width ≤ chunks * width := Nat.mul_le_mul_right _ (by omega)
          rw [Nat.succ_mul] at more
          omega
        have rest : (chunks + 1) * width - chunks * width = width := by
          rw [Nat.succ_mul]
          omega
        rw [if_neg first, Nat.add_zero, Nat.sub_zero]
        have joined := foldlM_range_append body state before
          (Nat.mul_le_mul_right width (Nat.le_succ chunks))
        rw [rest] at joined
        exact joined
    · have none : chunks + 1 - chunk = 0 := by omega
      have less : (chunks + 1) * width ≤ chunk * width := Nat.mul_le_mul_right _ (by omega)
      have nothing : (chunks + 1) * width - (chunk * width + position) = 0 := by omega
      rw [none, nothing]
      rfl

/-- A loop that changes the entry of its counter. -/
theorem foldl_update_range {Entry : Type*} (change : ℕ → Entry → Entry) (count : ℕ)
    (entries : ℕ → Entry) :
    (List.range count).foldl
        (fun entries index => Function.update entries index (change index (entries index)))
        entries =
      fun index => if index < count then change index (entries index) else entries index := by
  induction count with
  | zero => rfl
  | succ count ih =>
    rw [List.range_succ, List.foldl_append, ih]
    funext index
    simp only [List.foldl_cons, List.foldl_nil, lt_irrefl, if_false]
    by_cases last : index = count
    · rw [last, Function.update_self, if_pos (Nat.lt_succ_self count)]
    · rw [Function.update_of_ne last]
      have bound : index < count + 1 ↔ index < count := by omega
      simp only [bound]

/-- The same from a base on. -/
theorem foldl_update_from {Entry : Type*} (change : ℕ → Entry → Entry) (base count : ℕ)
    (entries : ℕ → Entry) :
    (List.range count).foldl (fun entries index =>
        Function.update entries (base + index) (change index (entries (base + index)))) entries =
      fun index => if base ≤ index ∧ index < base + count then
        change (index - base) (entries index) else entries index := by
  induction count with
  | zero =>
    funext index
    rw [if_neg (by omega)]
    rfl
  | succ count ih =>
    rw [List.range_succ, List.foldl_append, ih]
    funext index
    simp only [List.foldl_cons, List.foldl_nil]
    by_cases last : index = base + count
    · rw [last, Function.update_self, if_neg (by omega), if_pos (by omega), Nat.add_sub_cancel_left]
    · rw [Function.update_of_ne last]
      exact if_congr (by omega) rfl rfl

/-- A loop that adds one term to each entry inside a region has added the sum there. -/
theorem foldl_add_within {Index Entry : Type*} [AddCommMonoid Entry] (region : Index → Prop)
    [DecidablePred region] (term : ℕ → Index → Entry) (count : ℕ) (entries : Index → Entry) :
    (List.range count).foldl
        (fun entries step index =>
          if region index then entries index + term step index else entries index)
        entries =
      fun index =>
        if region index then entries index + ∑ step ∈ Finset.range count, term step index
        else entries index := by
  induction count with
  | zero => simp
  | succ count ih =>
    rw [List.range_succ, List.foldl_append, ih]
    funext index
    simp only [List.foldl_cons, List.foldl_nil]
    by_cases inside : region index
    · rw [if_pos inside, if_pos inside, if_pos inside, Finset.sum_range_succ, add_assoc]
    · rw [if_neg inside, if_neg inside, if_neg inside]

/-- A loop over whole batches is the loop over what they hold. -/
theorem foldl_batches {State : Type*} (step : State → ℕ → State) (width batches : ℕ)
    (state : State) :
    (List.range batches).foldl (fun state batch =>
        (List.range width).foldl (fun state lane => step state (batch * width + lane)) state)
        state =
      (List.range (batches * width)).foldl step state := by
  induction batches with
  | zero => simp
  | succ batches ih =>
    rw [List.range_succ, List.foldl_append, ih, Nat.succ_mul, List.range_add,
      List.foldl_append, List.foldl_map]
    rfl

/-- A loop that writes one entry in each of two tables. -/
theorem foldl_update_both {Entry : Type*} (first second : ℕ → Entry) (count : ℕ)
    (tables : (ℕ → Entry) × (ℕ → Entry)) :
    (List.range count).foldl
        (fun tables index => (Function.update tables.1 index (first index),
          Function.update tables.2 index (second index))) tables =
      (fun index => if index < count then first index else tables.1 index,
        fun index => if index < count then second index else tables.2 index) := by
  rw [← foldl_update_range (fun index _ => first index),
    ← foldl_update_range (fun index _ => second index)]
  generalize List.range count = indices
  induction indices generalizing tables with
  | nil => rfl
  | cons index rest ih => exact ih _

section Pairs

variable {Entry : Type*} {low high : ℕ → ℕ} {first second : ℕ → Entry} {count : ℕ}
  {entries : ℕ → Entry}

/-- A loop that writes two entries in each round. -/
def writePairs (low high : ℕ → ℕ) (first second : ℕ → Entry) (count : ℕ)
    (entries : ℕ → Entry) : ℕ → Entry :=
  (List.range count).foldl (fun entries index =>
    Function.update (Function.update entries (low index) (first index)) (high index)
      (second index)) entries

theorem writePairs_succ (count : ℕ) : writePairs low high first second (count + 1) entries =
    Function.update (Function.update (writePairs low high first second count entries) (low count)
      (first count)) (high count) (second count) := by
  rw [writePairs, List.range_succ, List.foldl_append]
  rfl

/-- Where all written places are distinct, each keeps what was written there. -/
theorem writePairs_low (lowDistinct : Function.Injective low)
    (apart : ∀ index < count, ∀ other < count, low index ≠ high other) {index : ℕ}
    (inside : index < count) :
    writePairs low high first second count entries (low index) = first index := by
  induction count with
  | zero => exact absurd inside (Nat.not_lt_zero index)
  | succ count ih =>
    rw [writePairs_succ, Function.update_of_ne (apart index inside count (Nat.lt_succ_self count))]
    rcases Nat.lt_succ_iff_lt_or_eq.mp inside with earlier | rfl
    · rw [Function.update_of_ne (lowDistinct.ne earlier.ne)]
      exact ih (fun left leftInside right rightInside =>
        apart left (Nat.lt_succ_of_lt leftInside) right (Nat.lt_succ_of_lt rightInside)) earlier
    · rw [Function.update_self]

theorem writePairs_high (highDistinct : Function.Injective high)
    (apart : ∀ index < count, ∀ other < count, low index ≠ high other) {index : ℕ}
    (inside : index < count) :
    writePairs low high first second count entries (high index) = second index := by
  induction count with
  | zero => exact absurd inside (Nat.not_lt_zero index)
  | succ count ih =>
    rw [writePairs_succ]
    rcases Nat.lt_succ_iff_lt_or_eq.mp inside with earlier | rfl
    · rw [Function.update_of_ne (highDistinct.ne earlier.ne),
        Function.update_of_ne (apart count (Nat.lt_succ_self count) index inside).symm]
      exact ih (fun left leftInside right rightInside =>
        apart left (Nat.lt_succ_of_lt leftInside) right (Nat.lt_succ_of_lt rightInside)) earlier
    · rw [Function.update_self]

end Pairs

end FallibleLoops
