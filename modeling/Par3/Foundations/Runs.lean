import Mathlib.Data.List.Basic

/-!
# Runs of a machine

A machine is a partial step function: an action takes a state to the next one, or is refused
there. Whatever the environment decides is part of the action, so that a list of actions
determines a run. A guard says in which states an action is harmless. An invariant that every
guarded step keeps holds along every guarded run, and where the guard is exact it fails right
after the first step that is not guarded.
-/
namespace Machine

variable {σ α : Type*} (step : σ → α → Option σ)

/-- The state that the actions lead to, when all of them are accepted. -/
def run (state : σ) (actions : List α) : Option σ :=
  actions.foldlM step state

/-- The property holds in every state that the actions pass through. -/
def Throughout (property : σ → Prop) : σ → List α → Prop
  | state, [] => property state
  | state, action :: rest =>
    property state ∧ ∀ next, step state action = some next → Throughout property next rest

/-- Every action that is accepted is accepted in a state that meets the guard. -/
def Guarded (guard : σ → α → Prop) : σ → List α → Prop
  | _, [] => True
  | state, action :: rest =>
    ∀ next, step state action = some next → guard state action ∧ Guarded guard next rest

variable {step} {property : σ → Prop} {guard : σ → α → Prop}

/-- A given run can be checked against a guard. -/
instance guardedDecidable [∀ state action, Decidable (guard state action)] :
    ∀ state actions, Decidable (Guarded step guard state actions)
  | _, [] => isTrue trivial
  | state, action :: rest =>
    have (next : σ) : Decidable (Guarded step guard next rest) := guardedDecidable next rest
    inferInstanceAs (Decidable (∀ next ∈ step state action,
      guard state action ∧ Guarded step guard next rest))

theorem run_nil (state : σ) : run step state [] = some state := rfl

theorem run_cons (state : σ) (action : α) (rest : List α) :
    run step state (action :: rest) = (step state action).bind (fun next => run step next rest) := by
  rw [run, List.foldlM_cons]
  rfl

theorem run_cons_some {state last : σ} {action : α} {rest : List α}
    (reached : run step state (action :: rest) = some last) :
    ∃ next, step state action = some next ∧ run step next rest = some last := by
  rw [run_cons] at reached
  exact Option.bind_eq_some_iff.mp reached

theorem run_append (state : σ) (first second : List α) :
    run step state (first ++ second) =
      (run step state first).bind (fun middle => run step middle second) := by
  rw [run, List.foldlM_append]
  rfl

/-- A run is guarded when its two parts are. -/
theorem guarded_append (state : σ) (first second : List α) :
    Guarded step guard state (first ++ second) ↔ Guarded step guard state first ∧
      ∀ middle, run step state first = some middle → Guarded step guard middle second := by
  induction first generalizing state with
  | nil =>
    rw [List.nil_append, run_nil]
    constructor
    · intro guarded
      refine ⟨trivial, fun middle same => ?_⟩
      obtain rfl := Option.some.inj same
      exact guarded
    · intro guarded
      exact guarded.2 state rfl
  | cons action rest ih =>
    rw [List.cons_append]
    constructor
    · intro guarded
      refine ⟨fun next taken => ?_, fun middle reached => ?_⟩
      · obtain ⟨harmless, later⟩ := guarded next taken
        exact ⟨harmless, ((ih next).mp later).1⟩
      · obtain ⟨next, taken, continued⟩ := run_cons_some reached
        exact ((ih next).mp (guarded next taken).2).2 middle continued
    · intro guarded next taken
      obtain ⟨harmless, later⟩ := guarded.1 next taken
      refine ⟨harmless, (ih next).mpr ⟨later, fun middle continued => ?_⟩⟩
      apply guarded.2 middle
      rw [run_cons, taken, Option.bind_some, continued]

theorem Throughout.start {state : σ} {actions : List α}
    (throughout : Throughout step property state actions) : property state := by
  cases actions with
  | nil => exact throughout
  | cons action rest => exact throughout.1

/-- The last state of a run is one that it passes through. -/
theorem Throughout.last {state last : σ} {actions : List α}
    (throughout : Throughout step property state actions)
    (reached : run step state actions = some last) : property last := by
  induction actions generalizing state with
  | nil =>
    obtain rfl : state = last := by simpa [run_nil] using reached
    exact throughout
  | cons action rest ih =>
    obtain ⟨next, taken, later⟩ := run_cons_some reached
    exact ih (throughout.2 next taken) later

theorem Throughout.imp {other : σ → Prop} (weaker : ∀ state, property state → other state)
    {state : σ} {actions : List α} (throughout : Throughout step property state actions) :
    Throughout step other state actions := by
  induction actions generalizing state with
  | nil => exact weaker _ throughout
  | cons action rest ih =>
    exact ⟨weaker _ throughout.1, fun next taken => ih (throughout.2 next taken)⟩

/-- What every guarded step keeps holds along a guarded run. -/
theorem Guarded.throughout
    (keeps : ∀ state action next, property state → guard state action →
      step state action = some next → property next)
    {state : σ} {actions : List α} (start : property state)
    (guarded : Guarded step guard state actions) : Throughout step property state actions := by
  induction actions generalizing state with
  | nil => exact start
  | cons action rest ih =>
    refine ⟨start, fun next taken => ?_⟩
    obtain ⟨harmless, later⟩ := guarded next taken
    exact ih (keeps state action next start harmless taken) later

/-- A guarded run is no longer than what each guarded step uses up. -/
theorem Guarded.run_length {weight : σ → ℕ}
    (keeps : ∀ state action next, property state → guard state action →
      step state action = some next → property next ∧ weight next < weight state)
    {state last : σ} {actions : List α} (start : property state)
    (guarded : Guarded step guard state actions) (reached : run step state actions = some last) :
    actions.length + weight last ≤ weight state := by
  induction actions generalizing state with
  | nil =>
    obtain rfl : state = last := by simpa [run_nil] using reached
    exact Nat.le_of_eq (Nat.zero_add _)
  | cons action rest ih =>
    obtain ⟨next, taken, continued⟩ := run_cons_some reached
    obtain ⟨harmless, later⟩ := guarded next taken
    obtain ⟨kept, lighter⟩ := keeps state action next start harmless taken
    have remaining := ih kept later continued
    rw [List.length_cons]
    omega

/-- What every step keeps holds along every run. -/
theorem throughout_of_step
    (keeps : ∀ state action next, property state → step state action = some next → property next)
    {state : σ} (start : property state) (actions : List α) :
    Throughout step property state actions := by
  induction actions generalizing state with
  | nil => exact start
  | cons action rest ih =>
    exact ⟨start, fun next taken => ih (keeps state action next start taken)⟩

/-- Where the guard is exact for an invariant that also says what else is needed, the property
holds along a run exactly when every step of it is guarded. -/
theorem throughout_iff_guarded {invariant : σ → Prop}
    (sound : ∀ state, invariant state → property state)
    (keeps : ∀ state action next, invariant state → guard state action →
      step state action = some next → invariant next)
    (exact : ∀ state action next, invariant state → step state action = some next →
      property next → guard state action)
    {state : σ} (start : invariant state) (actions : List α) :
    Throughout step property state actions ↔ Guarded step guard state actions := by
  constructor
  · intro throughout
    induction actions generalizing state with
    | nil => trivial
    | cons action rest ih =>
      intro next taken
      have later := throughout.2 next taken
      have harmless := exact state action next start taken later.start
      exact ⟨harmless, ih (keeps state action next start harmless taken) later⟩
  · intro guarded
    exact (guarded.throughout keeps start).imp sound

end Machine
