import Par3.Foundations.Runs
import Mathlib

/-!
# Threads that keep to their own regions

A step changes a memory, and is confined to a region when it changes nothing outside and depends
on nothing outside. Threads whose steps are confined to disjoint regions can be interleaved in any
order: each region ends up as if its own thread had run alone.

Rows of work can also be handed out by a shared counter, from which a worker takes the next row
whenever it has finished one. However the workers take turns, each row is done once, from its
first step to its last, so that the same holds.
-/
namespace Interleaving

variable {A V ι : Type*}

/-- A step of a thread. -/
abbrev Step (A V : Type*) := (A → V) → A → V

/-- A step that changes and reads one region only. -/
structure Confined (region : Set A) (step : Step A V) : Prop where
  frame : ∀ (memory : A → V) (address : A), address ∉ region → step memory address = memory address
  reads : ∀ memory other : A → V, (∀ address ∈ region, memory address = other address) →
    ∀ address ∈ region, step memory address = step other address

/-- Steps one after the other. -/
def perform (steps : List (Step A V)) (memory : A → V) : A → V :=
  steps.foldl (fun memory step => step memory) memory

@[simp] theorem perform_nil (memory : A → V) : perform [] memory = memory := rfl

@[simp] theorem perform_cons (step : Step A V) (rest : List (Step A V)) (memory : A → V) :
    perform (step :: rest) memory = perform rest (step memory) := rfl

theorem perform_append (first second : List (Step A V)) (memory : A → V) :
    perform (first ++ second) memory = perform second (perform first memory) :=
  List.foldl_append

theorem perform_confined {region : Set A} {steps : List (Step A V)}
    (confined : ∀ step ∈ steps, Confined region step) : Confined region (perform steps) := by
  induction steps with
  | nil => exact ⟨fun _ _ _ => rfl, fun _ _ same => same⟩
  | cons step rest ih =>
    have first := confined step List.mem_cons_self
    have later := ih fun other member =>
      confined other (List.mem_cons_of_mem _ member)
    constructor
    · intro memory address outside
      rw [perform_cons, later.frame _ _ outside, first.frame _ _ outside]
    · intro memory other same
      exact later.reads _ _ (first.reads memory other same)

theorem Confined.mono {smaller larger : Set A} {step : Step A V} (inside : smaller ⊆ larger)
    (confined : Confined smaller step) : Confined larger step where
  frame memory address outside := confined.frame memory address fun member =>
    outside (inside member)
  reads memory other same address member := by
    by_cases here : address ∈ smaller
    · exact confined.reads memory other (fun place there => same place (inside there)) address here
    · rw [confined.frame _ _ here, confined.frame _ _ here]
      exact same address member

/-! ## Schedules -/

section

variable [DecidableEq ι]

/-- The steps that one thread has in a schedule, where every step is labelled by its thread. -/
def thread (schedule : List (ι × Step A V)) (label : ι) : List (Step A V) :=
  (schedule.filter fun entry => entry.1 = label).map Prod.snd

@[simp] theorem thread_nil (label : ι) : thread ([] : List (ι × Step A V)) label = [] := rfl

theorem thread_cons (owner label : ι) (step : Step A V) (rest : List (ι × Step A V)) :
    thread ((owner, step) :: rest) label =
      if owner = label then step :: thread rest label else thread rest label := by
  rw [thread, List.filter_cons]
  by_cases same : owner = label
  · rw [if_pos (decide_eq_true same), if_pos same]
    rfl
  · rw [if_neg (by simpa using same), if_neg same]
    rfl

theorem thread_append (first second : List (ι × Step A V)) (label : ι) :
    thread (first ++ second) label = thread first label ++ thread second label := by
  rw [thread, List.filter_append, List.map_append]
  rfl

/-- The memory that one of the interleavings of the threads leads to. -/
def Interleaved (programs : ι → List (Step A V)) (memory last : A → V) : Prop :=
  ∃ schedule, (∀ label, thread schedule label = programs label) ∧
    last = perform (schedule.map Prod.snd) memory

variable {region : ι → Set A}

/-- A region sees only the steps of its own thread. -/
theorem perform_schedule (schedule : List (ι × Step A V))
    (confined : ∀ entry ∈ schedule, Confined (region entry.1) entry.2)
    (disjoint : ∀ first second, first ≠ second → Disjoint (region first) (region second))
    (memory : A → V) (label : ι) (address : A) (member : address ∈ region label) :
    perform (schedule.map Prod.snd) memory address =
      perform (thread schedule label) memory address := by
  induction schedule generalizing memory with
  | nil => rfl
  | cons entry rest ih =>
    obtain ⟨owner, step⟩ := entry
    have later : ∀ entry ∈ rest, Confined (region entry.1) entry.2 := fun other inside =>
      confined other (List.mem_cons_of_mem _ inside)
    rw [List.map_cons, perform_cons, ih later, thread_cons]
    split
    · rfl
    · rename_i apart
      -- the step of another thread leaves this region as it was
      have own : ∀ steps ∈ thread rest label, Confined (region label) steps := by
        intro other inside
        obtain ⟨entry, kept, rfl⟩ := List.mem_map.mp inside
        rw [List.mem_filter] at kept
        have same : entry.1 = label := of_decide_eq_true kept.2
        exact same ▸ later entry kept.1
      refine (perform_confined own).reads _ _ ?_ address member
      intro place there
      refine (confined _ List.mem_cons_self).frame _ _ fun here => ?_
      exact Set.disjoint_left.mp (disjoint owner label apart) here there

omit [DecidableEq ι] in
theorem perform_schedule_outside (schedule : List (ι × Step A V))
    (confined : ∀ entry ∈ schedule, Confined (region entry.1) entry.2) (memory : A → V)
    (address : A) (outside : ∀ entry ∈ schedule, address ∉ region entry.1) :
    perform (schedule.map Prod.snd) memory address = memory address := by
  induction schedule generalizing memory with
  | nil => rfl
  | cons entry rest ih =>
    rw [List.map_cons, perform_cons, ih
      (fun other inside => confined other (List.mem_cons_of_mem _ inside)) _
      (fun other inside => outside other (List.mem_cons_of_mem _ inside))]
    exact (confined entry List.mem_cons_self).frame _ _ (outside entry List.mem_cons_self)

/-- Every step of a schedule is a step of its thread. -/
theorem mem_thread {schedule : List (ι × Step A V)} {entry : ι × Step A V}
    (member : entry ∈ schedule) : entry.2 ∈ thread schedule entry.1 :=
  List.mem_map.mpr ⟨entry, List.mem_filter.mpr ⟨member, decide_eq_true rfl⟩, rfl⟩

variable {programs : ι → List (Step A V)} {memory last : A → V}

/-- Interleaved threads with disjoint regions: each region is as its own thread leaves it. -/
theorem Interleaved.apply (interleaved : Interleaved programs memory last)
    (confined : ∀ label, ∀ step ∈ programs label, Confined (region label) step)
    (disjoint : ∀ first second, first ≠ second → Disjoint (region first) (region second))
    (label : ι) (address : A) (member : address ∈ region label) :
    last address = perform (programs label) memory address := by
  obtain ⟨schedule, each, rfl⟩ := interleaved
  rw [perform_schedule schedule _ disjoint memory label address member, each]
  intro entry inside
  apply confined entry.1
  rw [← each]
  exact mem_thread inside

theorem Interleaved.outside (interleaved : Interleaved programs memory last)
    (confined : ∀ label, ∀ step ∈ programs label, Confined (region label) step)
    (address : A) (outside : ∀ label, programs label ≠ [] → address ∉ region label) :
    last address = memory address := by
  obtain ⟨schedule, each, rfl⟩ := interleaved
  have own : ∀ entry ∈ schedule, entry.2 ∈ programs entry.1 := by
    intro entry inside
    rw [← each]
    exact mem_thread inside
  apply perform_schedule_outside schedule (fun entry inside => confined _ _ (own entry inside))
  intro entry inside
  exact outside entry.1 (List.ne_nil_of_mem (own entry inside))

end

/-! ## Rows that workers take from a counter -/

/-- A worker: the row it is at, the steps that are left of it, and whether it has stopped. -/
structure Worker (A V : Type*) where
  row : ℕ
  rest : List (Step A V)
  stopped : Bool

/-- The counter, the workers and the memory. -/
structure Claims (A V : Type*) where
  nextRow : ℕ
  workers : List (Worker A V)
  memory : A → V

variable (numRows : ℕ) (program : ℕ → List (Step A V))

/-- The next step of one worker: a step of its row, or after the last of them the next row from
the counter. A worker that gets a number behind the last row stops. -/
def claimStep (state : Claims A V) (index : ℕ) : Option (Claims A V) :=
  match state.workers[index]? with
  | none => none
  | some worker =>
    if worker.stopped then none
    else
      match worker.rest with
      | step :: rest =>
        some { state with
          workers := state.workers.set index { worker with rest := rest }
          memory := step state.memory }
      | [] =>
        if state.nextRow < numRows then
          some { state with
            nextRow := state.nextRow + 1
            workers := state.workers.set index ⟨state.nextRow, program state.nextRow, false⟩ }
        else
          some { state with
            nextRow := state.nextRow + 1
            workers := state.workers.set index { worker with stopped := true } }

/-- So many workers that have not taken a row yet. -/
def Claims.start (count : ℕ) (memory : A → V) : Claims A V :=
  ⟨0, List.replicate count ⟨0, [], false⟩, memory⟩

/-- All workers have stopped. -/
def Claims.joined (state : Claims A V) : Prop := ∀ worker ∈ state.workers, worker.stopped = true

/-- The memory that workers leave behind, for some order of their steps. -/
def Stolen (count : ℕ) (memory last : A → V) : Prop :=
  ∃ order final, Machine.run (claimStep numRows program) (.start count memory) order = some final ∧
    final.joined ∧ last = final.memory

/-- What is known of a state: the steps so far, each labelled by its row, are whole rows, but for
the rows that a worker is at. -/
structure Claims.Sound (memory : A → V) (state : Claims A V) (steps : List (ℕ × Step A V)) :
    Prop where
  performed : state.memory = perform (steps.map Prod.snd) memory
  working : ∀ (index : ℕ) (worker : Worker A V), state.workers[index]? = some worker →
    worker.rest ≠ [] → worker.row < state.nextRow ∧ worker.row < numRows ∧
      thread steps worker.row ++ worker.rest = program worker.row
  alone : ∀ (first second : ℕ) (one other : Worker A V), state.workers[first]? = some one →
    state.workers[second]? = some other → one.rest ≠ [] → other.rest ≠ [] →
    one.row = other.row → first = second
  whole : ∀ row < state.nextRow, row < numRows →
    (∀ worker ∈ state.workers, worker.rest ≠ [] → worker.row ≠ row) →
      thread steps row = program row
  untouched : ∀ row, state.nextRow ≤ row ∨ numRows ≤ row → thread steps row = []
  stopped : ∀ worker ∈ state.workers, worker.stopped = true →
    worker.rest = [] ∧ numRows ≤ state.nextRow

variable {numRows program}

theorem start_sound (count : ℕ) (memory : A → V) :
    (Claims.start count memory).Sound numRows program memory [] where
  performed := rfl
  working := by
    intro index worker found some
    rw [Claims.start, List.getElem?_replicate] at found
    split at found
    · obtain rfl := Option.some.inj found
      exact absurd rfl some
    · cases found
  alone := by
    intro first second one other found _ some
    rw [Claims.start, List.getElem?_replicate] at found
    split at found
    · obtain rfl := Option.some.inj found
      exact absurd rfl some
    · cases found
  whole := fun _ below => absurd below (Nat.not_lt_zero _)
  untouched := fun _ _ => rfl
  stopped := by
    intro worker member marked
    rw [List.eq_of_mem_replicate member] at marked
    cases marked

section

variable {memory : A → V} {state next : Claims A V} {steps : List (ℕ × Step A V)} {index : ℕ}
  {worker : Worker A V}

/-- A worker that was replaced is the new one, all others are as before. -/
theorem set_found {workers : List (Worker A V)} {old changed found : Worker A V} {place : ℕ}
    (here : workers[index]? = some old)
    (there : (workers.set index changed)[place]? = some found) :
    place = index ∧ found = changed ∨ place ≠ index ∧ workers[place]? = some found := by
  rw [List.getElem?_set] at there
  split at there
  · rename_i same
    rw [if_pos (List.getElem?_eq_some_iff.mp here).1] at there
    exact .inl ⟨same.symm, (Option.some.inj there).symm⟩
  · rename_i apart
    exact .inr ⟨Ne.symm apart, there⟩

theorem set_mem {workers : List (Worker A V)} {old changed found : Worker A V}
    (here : workers[index]? = some old) (member : found ∈ workers.set index changed) :
    found = changed ∨ ∃ place, place ≠ index ∧ workers[place]? = some found := by
  obtain ⟨place, there⟩ := List.mem_iff_getElem?.mp member
  rcases set_found here there with ⟨_, same⟩ | ⟨apart, found⟩
  · exact .inl same
  · exact .inr ⟨place, apart, found⟩

/-- A worker performs the next step of its row. -/
theorem Claims.Sound.perform_step (sound : state.Sound numRows program memory steps)
    (here : state.workers[index]? = some worker) {step : Step A V} {rest : List (Step A V)}
    (left : worker.rest = step :: rest) (running : worker.stopped = false) :
    Claims.Sound numRows program memory
      { state with
        workers := state.workers.set index { worker with rest := rest }
        memory := step state.memory }
      (steps ++ [(worker.row, step)]) := by
  have busy : worker.rest ≠ [] := by
    rw [left]
    exact List.cons_ne_nil _ _
  obtain ⟨claimed, inside, partly⟩ := sound.working index worker here busy
  have own : thread (steps ++ [(worker.row, step)]) worker.row = thread steps worker.row ++ [step] := by
    rw [thread_append, thread_cons, if_pos rfl, thread_nil]
  have other : ∀ row, row ≠ worker.row →
      thread (steps ++ [(worker.row, step)]) row = thread steps row := by
    intro row apart
    rw [thread_append, thread_cons, if_neg (Ne.symm apart), thread_nil, List.append_nil]
  have apart : ∀ place found, place ≠ index → state.workers[place]? = some found →
      found.rest ≠ [] → found.row ≠ worker.row := by
    intro place found elsewhere there some same
    exact elsewhere (sound.alone place index found worker there here some busy same)
  constructor
  · rw [sound.performed, List.map_append, perform_append]
    rfl
  · intro place found there some
    rcases set_found here there with ⟨_, rfl⟩ | ⟨elsewhere, there⟩
    · refine ⟨claimed, inside, ?_⟩
      rw [own, ← partly, left, List.append_assoc]
      rfl
    · obtain ⟨below, within, split⟩ := sound.working place found there some
      refine ⟨below, within, ?_⟩
      rw [other _ (apart place found elsewhere there some), split]
  · intro first second one two foundOne foundTwo someOne someTwo same
    rcases set_found here foundOne with ⟨rfl, rfl⟩ | ⟨elsewhere, thereOne⟩
    · rcases set_found here foundTwo with ⟨rfl, _⟩ | ⟨elsewhere, thereTwo⟩
      · rfl
      · exact absurd same.symm (apart second two elsewhere thereTwo someTwo)
    · rcases set_found here foundTwo with ⟨rfl, rfl⟩ | ⟨_, thereTwo⟩
      · exact absurd same (apart first one elsewhere thereOne someOne)
      · exact sound.alone first second one two thereOne thereTwo someOne someTwo same
  · intro row below within free
    by_cases same : row = worker.row
    · -- the row is done when nothing is left of it
      have done : rest = [] := by
        by_contra some
        refine free { worker with rest := rest } ?_ some same.symm
        exact List.mem_iff_getElem?.mpr ⟨index, by
          rw [List.getElem?_set, if_pos rfl, if_pos (List.getElem?_eq_some_iff.mp here).1]⟩
      rw [same, own, ← partly, left, done]
    · rw [other row same]
      apply sound.whole row below within
      intro found member some
      obtain ⟨place, there⟩ := List.mem_iff_getElem?.mp member
      by_cases elsewhere : place = index
      · rw [elsewhere, here] at there
        obtain rfl := Option.some.inj there
        exact Ne.symm same
      · refine free found (List.mem_iff_getElem?.mpr ⟨place, ?_⟩) some
        rw [List.getElem?_set, if_neg (Ne.symm elsewhere)]
        exact there
  · intro row outside
    have apart : row ≠ worker.row := by
      rintro rfl
      rcases outside with above | above
      · exact Nat.not_lt.mpr above claimed
      · exact Nat.not_lt.mpr above inside
    rw [other row apart]
    exact sound.untouched row outside
  · intro found member marked
    rcases set_mem here member with rfl | ⟨place, _, there⟩
    · rw [running] at marked
      cases marked
    · exact sound.stopped found (List.mem_of_getElem? there) marked

/-- A worker takes the next row, and there is one. -/
theorem Claims.Sound.claim (sound : state.Sound numRows program memory steps)
    (here : state.workers[index]? = some worker) (done : worker.rest = [])
    (more : state.nextRow < numRows) :
    Claims.Sound numRows program memory
      { state with
        nextRow := state.nextRow + 1
        workers := state.workers.set index ⟨state.nextRow, program state.nextRow, false⟩ }
      steps := by
  constructor
  · exact sound.performed
  · intro place found there some
    rcases set_found here there with ⟨_, rfl⟩ | ⟨_, there⟩
    · refine ⟨Nat.lt_succ_self _, more, ?_⟩
      rw [sound.untouched _ (.inl (Nat.le_refl _)), List.nil_append]
    · obtain ⟨below, within, split⟩ := sound.working place found there some
      exact ⟨Nat.lt_succ_of_lt below, within, split⟩
  · intro first second one two foundOne foundTwo someOne someTwo same
    rcases set_found here foundOne with ⟨rfl, rfl⟩ | ⟨_, thereOne⟩
    · rcases set_found here foundTwo with ⟨rfl, _⟩ | ⟨_, thereTwo⟩
      · rfl
      · have below := (sound.working second two thereTwo someTwo).1
        simp only at same
        omega
    · rcases set_found here foundTwo with ⟨rfl, rfl⟩ | ⟨_, thereTwo⟩
      · have below := (sound.working first one thereOne someOne).1
        simp only at same
        omega
      · exact sound.alone first second one two thereOne thereTwo someOne someTwo same
  · intro row below within free
    by_cases new : row = state.nextRow
    · -- a row without steps is done at once
      have empty : program state.nextRow = [] := by
        by_contra some
        refine free ⟨state.nextRow, program state.nextRow, false⟩ ?_ some new.symm
        exact List.mem_iff_getElem?.mpr ⟨index, by
          rw [List.getElem?_set, if_pos rfl, if_pos (List.getElem?_eq_some_iff.mp here).1]⟩
      rw [new, empty]
      exact sound.untouched _ (.inl (Nat.le_refl _))
    · simp only at below
      apply sound.whole row (by omega) within
      intro found member some
      obtain ⟨place, there⟩ := List.mem_iff_getElem?.mp member
      by_cases elsewhere : place = index
      · rw [elsewhere, here] at there
        obtain rfl := Option.some.inj there
        exact absurd done some
      · refine free found (List.mem_iff_getElem?.mpr ⟨place, ?_⟩) some
        rw [List.getElem?_set, if_neg (Ne.symm elsewhere)]
        exact there
  · intro row outside
    apply sound.untouched row
    rcases outside with above | above
    · exact .inl (Nat.le_of_succ_le above)
    · exact .inr above
  · intro found member marked
    rcases set_mem here member with rfl | ⟨place, _, there⟩
    · cases marked
    · obtain ⟨_, reached⟩ := sound.stopped found (List.mem_of_getElem? there) marked
      exact absurd reached (Nat.not_le.mpr more)

/-- A worker finds that no row is left. -/
theorem Claims.Sound.retire (sound : state.Sound numRows program memory steps)
    (here : state.workers[index]? = some worker) (done : worker.rest = [])
    (none : numRows ≤ state.nextRow) :
    Claims.Sound numRows program memory
      { state with
        nextRow := state.nextRow + 1
        workers := state.workers.set index { worker with stopped := true } }
      steps := by
  constructor
  · exact sound.performed
  · intro place found there some
    rcases set_found here there with ⟨_, rfl⟩ | ⟨_, there⟩
    · exact absurd done some
    · obtain ⟨below, within, split⟩ := sound.working place found there some
      exact ⟨Nat.lt_succ_of_lt below, within, split⟩
  · intro first second one two foundOne foundTwo someOne someTwo same
    rcases set_found here foundOne with ⟨_, rfl⟩ | ⟨_, thereOne⟩
    · exact absurd done someOne
    · rcases set_found here foundTwo with ⟨_, rfl⟩ | ⟨_, thereTwo⟩
      · exact absurd done someTwo
      · exact sound.alone first second one two thereOne thereTwo someOne someTwo same
  · intro row _ within free
    apply sound.whole row (Nat.lt_of_lt_of_le within none) within
    intro found member some
    obtain ⟨place, there⟩ := List.mem_iff_getElem?.mp member
    by_cases elsewhere : place = index
    · rw [elsewhere, here] at there
      obtain rfl := Option.some.inj there
      exact absurd done some
    · refine free found (List.mem_iff_getElem?.mpr ⟨place, ?_⟩) some
      rw [List.getElem?_set, if_neg (Ne.symm elsewhere)]
      exact there
  · intro row outside
    apply sound.untouched row
    rcases outside with above | above
    · exact .inl (Nat.le_of_succ_le above)
    · exact .inr above
  · intro found member marked
    rcases set_mem here member with rfl | ⟨place, _, there⟩
    · exact ⟨done, Nat.le_succ_of_le none⟩
    · obtain ⟨empty, reached⟩ := sound.stopped found (List.mem_of_getElem? there) marked
      exact ⟨empty, Nat.le_succ_of_le reached⟩

/-- Every step of every worker keeps this. -/
theorem Claims.Sound.step (sound : ∃ steps, state.Sound numRows program memory steps)
    (taken : claimStep numRows program state index = some next) :
    ∃ steps, next.Sound numRows program memory steps := by
  obtain ⟨steps, sound⟩ := sound
  rw [claimStep] at taken
  cases here : state.workers[index]? with
  | none =>
    rw [here] at taken
    cases taken
  | some worker =>
    rw [here] at taken
    simp only at taken
    split at taken
    · cases taken
    · rename_i running
      rw [Bool.not_eq_true] at running
      split at taken
      · rename_i step rest left
        obtain rfl := Option.some.inj taken
        exact ⟨_, sound.perform_step here left running⟩
      · rename_i done
        split at taken
        · rename_i more
          obtain rfl := Option.some.inj taken
          exact ⟨_, sound.claim here done more⟩
        · rename_i none
          obtain rfl := Option.some.inj taken
          exact ⟨_, sound.retire here done (Nat.not_lt.mp none)⟩

end

/-- Rows taken from a counter are interleaved: each row below the number of rows is done once, and
no other. -/
theorem Stolen.interleaved {count : ℕ} {memory last : A → V} (pos : 0 < count)
    (stolen : Stolen numRows program count memory last) :
    Interleaved (fun row => if row < numRows then program row else []) memory last := by
  obtain ⟨order, final, reached, joined, rfl⟩ := stolen
  have sound := (Machine.throughout_of_step
    (fun state index next (sound : ∃ steps, state.Sound numRows program memory steps) taken =>
      Claims.Sound.step sound taken) ⟨[], start_sound count memory⟩ order).last reached
  have length : ∀ (order : List ℕ) (state : Claims A V),
      Machine.run (claimStep numRows program) state order = some final →
        final.workers.length = state.workers.length := by
    intro order
    induction order with
    | nil =>
      intro state same
      obtain rfl := Option.some.inj same
      rfl
    | cons index rest ih =>
      intro state reached
      obtain ⟨next, taken, later⟩ := Machine.run_cons_some reached
      rw [ih next later]
      rw [claimStep] at taken
      split at taken
      · cases taken
      · split at taken
        · cases taken
        · split at taken
          · obtain rfl := Option.some.inj taken
            exact List.length_set
          · split at taken
            · obtain rfl := Option.some.inj taken
              exact List.length_set
            · obtain rfl := Option.some.inj taken
              exact List.length_set
  obtain ⟨steps, sound⟩ := sound
  have worker : ∃ worker, worker ∈ final.workers := by
    apply List.exists_mem_of_length_pos
    rw [length order _ reached, Claims.start, List.length_replicate]
    exact pos
  obtain ⟨worker, member⟩ := worker
  have all := (sound.stopped worker member (joined worker member)).2
  refine ⟨steps, fun row => ?_, sound.performed⟩
  simp only
  split
  · rename_i inside
    apply sound.whole row (Nat.lt_of_lt_of_le inside all) inside
    intro found there left
    exact absurd (sound.stopped found there (joined found there)).1 left
  · rename_i outside
    exact sound.untouched row (.inr (Nat.not_lt.mp outside))

/-! ### The workers come to an end -/

/-- What a worker still has to do: its steps, and to stop. -/
def Worker.left (worker : Worker A V) : ℕ :=
  worker.rest.length + if worker.stopped then 0 else 1

/-- What is still to do: the steps that workers are at, and the rows that nobody has taken. -/
def Claims.left (numRows : ℕ) (program : ℕ → List (Step A V)) (state : Claims A V) : ℕ :=
  (state.workers.map Worker.left).sum +
    ((List.range' state.nextRow (numRows - state.nextRow)).map fun row =>
      (program row).length + 1).sum

theorem sum_left_set {workers : List (Worker A V)} {index : ℕ} {worker changed : Worker A V}
    (here : workers[index]? = some worker) :
    ((workers.set index changed).map Worker.left).sum + worker.left =
      (workers.map Worker.left).sum + changed.left := by
  induction workers generalizing index with
  | nil => cases here
  | cons first rest ih =>
    cases index with
    | zero =>
      obtain rfl : first = worker := by simpa using here
      simp only [List.set_cons_zero, List.map_cons, List.sum_cons]
      omega
    | succ index =>
      have later := ih (by simpa using here)
      simp only [List.set_cons_succ, List.map_cons, List.sum_cons]
      omega

/-- With each step there is less to do. -/
theorem claimStep_left {state next : Claims A V} {index : ℕ}
    (taken : claimStep numRows program state index = some next) :
    next.left numRows program + 1 = state.left numRows program := by
  rw [claimStep] at taken
  split at taken
  · cases taken
  · rename_i worker here
    split at taken
    · cases taken
    · rename_i running
      split at taken
      · rename_i step rest left
        obtain rfl := Option.some.inj taken
        have moved := @sum_left_set _ _ _ _ _ { worker with rest := rest } here
        have before : worker.left = rest.length + 2 := by simp [Worker.left, left, running]
        have after : Worker.left { worker with rest := rest } = rest.length + 1 := by
          simp [Worker.left, running]
        simp only [Claims.left]
        omega
      · rename_i done
        split at taken
        · rename_i more
          obtain rfl := Option.some.inj taken
          have moved := @sum_left_set _ _ _ _ _
            ⟨state.nextRow, program state.nextRow, false⟩ here
          have before : worker.left = 1 := by simp [Worker.left, done, running]
          have after : Worker.left ⟨state.nextRow, program state.nextRow, false⟩ =
              (program state.nextRow).length + 1 := by simp [Worker.left]
          have rows : numRows - state.nextRow = numRows - (state.nextRow + 1) + 1 := by omega
          simp only [Claims.left]
          rw [rows, List.range'_succ, List.map_cons, List.sum_cons]
          omega
        · rename_i none
          obtain rfl := Option.some.inj taken
          have moved := @sum_left_set _ _ _ _ _ { worker with stopped := true } here
          have before : worker.left = 1 := by simp [Worker.left, done, running]
          have after : Worker.left { worker with stopped := true } = 0 := by
            simp [Worker.left, done]
          have rows : numRows - state.nextRow = 0 ∧ numRows - (state.nextRow + 1) = 0 := by omega
          simp only [Claims.left]
          rw [rows.1, rows.2]
          simp only [List.range'_zero, List.map_nil, List.sum_nil]
          omega

/-- A worker that has not stopped can always go on. -/
theorem claimStep_enabled {state : Claims A V} {index : ℕ} {worker : Worker A V}
    (here : state.workers[index]? = some worker) (running : worker.stopped = false) :
    ∃ next, claimStep numRows program state index = some next := by
  rw [claimStep, here]
  simp only [running, Bool.false_eq_true, if_false]
  split
  · exact ⟨_, rfl⟩
  · split
    · exact ⟨_, rfl⟩
    · exact ⟨_, rfl⟩

theorem joins (state : Claims A V) : ∃ order final,
    Machine.run (claimStep numRows program) state order = some final ∧ final.joined := by
  generalize size : state.left numRows program = count
  induction count using Nat.strong_induction_on generalizing state with
  | _ count ih =>
    by_cases joined : state.joined
    · exact ⟨[], state, rfl, joined⟩
    · rw [Claims.joined] at joined
      push Not at joined
      obtain ⟨worker, member, running⟩ := joined
      obtain ⟨index, here⟩ := List.mem_iff_getElem?.mp member
      obtain ⟨next, taken⟩ := @claimStep_enabled _ _ numRows program _ _ _ here (by simpa using running)
      have less := claimStep_left taken
      obtain ⟨order, final, reached, stopped⟩ :=
        ih _ (by omega) next rfl
      refine ⟨index :: order, final, ?_, stopped⟩
      rw [Machine.run_cons, taken, Option.bind_some, reached]

/-- Some order of their steps brings the workers to an end. -/
theorem stolen_exists (numRows : ℕ) (program : ℕ → List (Step A V)) (count : ℕ) (memory : A → V) :
    ∃ last, Stolen numRows program count memory last := by
  obtain ⟨order, final, reached, joined⟩ := @joins _ _ numRows program (.start count memory)
  exact ⟨_, order, final, reached, joined, rfl⟩

end Interleaving
