import Par3.InputContract

/-!
# Inputs with coefficients of their own

An input that is added with a list of coefficients is known to the controller by the first of them.
Nothing keeps two inputs in flight from having the same one: the second takes over the entry of the
first, with its callback and the count of its backends.
-/
namespace Par3

/-- The coefficients that an input is added with, and its size. -/
structure CoeffInputs where
  coeffs : ℕ → ℕ → BitVec 16
  size : ℕ → ℕ

/-- The first coefficient is the reference. -/
def CoeffInputs.inputs (added : CoeffInputs) : Inputs where
  number id := (added.coeffs id 0).toNat
  size := added.size

namespace Par2Proc

variable {n : ℕ} (added : CoeffInputs) (ranges : Fin n → BackendRange)

/-- `PAR2Proc::addInput` with coefficients -/
def addInput (state : Par2Proc n) (full submit : Fin n → Bool) (id : ℕ) : Par2Proc n × Bool :=
  state._addInput added.inputs ranges full submit id

/-- A caller adds inputs with any coefficients, and sends those again that were refused, until the end. -/
def coeffStep : Par2Proc n → Action n → Option (Par2Proc n)
  | state, .add id full submit =>
    if state.endSignalled = false ∧ id ∉ state.accepted then some (state.addInput added ranges full submit id).1
    else none
  | state, action => step added.inputs ranges state action

/-- An input that is added is taken by a backend, and no other input in flight has its first coefficient. -/
def FreshCoeff (state : Par2Proc n) : Action n → Prop
  | .add id _ _ => (∃ backend, Takes added.inputs ranges backend id) ∧
    ∀ other, state.InFlight other → added.coeffs other 0 = added.coeffs id 0 → other = id
  | _ => True

/-- Inputs in flight do not share an entry. -/
def Apart (state : Par2Proc n) : Prop :=
  ∀ id other, state.InFlight id → state.InFlight other → added.inputs.number id = added.inputs.number other →
    id = other

variable {added ranges} {state next : Par2Proc n} {action : Action n}

theorem Consistent.apart (consistent : Consistent added.inputs ranges state) : Apart added state := by
  intro id other flight otherFlight same
  obtain ⟨ref, entry, own⟩ := (consistent.inFlight id flight).1
  obtain ⟨otherRef, otherEntry, otherOwn⟩ := (consistent.inFlight other otherFlight).1
  rw [same, otherEntry] at entry
  obtain rfl := Option.some.inj entry
  exact own.symm.trans otherOwn

/-- A backend takes no part of an empty input. -/
theorem Takes.size_pos {inputs : Inputs} {backend : Fin n} {id : ℕ} (takes : Takes inputs ranges backend id) :
    0 < inputs.size id := by
  rw [Takes, BackendRange.Takes, not_or] at takes
  exact (Nat.zero_le _).trans_lt (not_le.mp takes.1)

theorem coeffStep_consistent (consistent : Consistent added.inputs ranges state)
    (fresh : FreshCoeff added ranges state action) (stepped : coeffStep added ranges state action = some next) :
    Consistent added.inputs ranges next := by
  have other : ∀ action : Action n, (∀ id full submit, action ≠ .add id full submit) →
      step added.inputs ranges state action = some next → Consistent added.inputs ranges next :=
    fun action no taken => Consistent.step_consistent (fun id full submit same => absurd same (no id full submit))
      consistent taken
  cases action with
  | add id full submit =>
    obtain ⟨taken, others⟩ := fresh
    rw [coeffStep, Option.ite_none_right_eq_some] at stepped
    obtain ⟨⟨open_, new⟩, result⟩ := stepped
    obtain rfl := Option.some.inj result
    obtain ⟨backend, takes⟩ := taken
    refine Consistent.add_consistent full submit consistent ⟨open_, Takes.size_pos takes, new, ?_⟩ ⟨backend, takes⟩
    intro earlier attempted unfired same
    exact others earlier ⟨attempted, unfired⟩ (BitVec.eq_of_toNat_eq same)
  | sent backend transfer => exact other (.sent backend transfer) (by rintro _ _ _ ⟨⟩) stepped
  | processed backend batch => exact other (.processed backend batch) (by rintro _ _ _ ⟨⟩) stepped
  | notified => exact other .notified (by rintro _ _ _ ⟨⟩) stepped
  | endInput => exact other .endInput (by rintro _ _ _ ⟨⟩) stepped

section
variable (state) (full submit : Fin n → Bool) (id : ℕ)

theorem addInput_attempted :
    (state.addInput added ranges full submit id).1.attempted = state.attempted ++ [id] := by
  rw [addInput, _addInput]
  split <;> rfl

theorem addInput_fired : (state.addInput added ranges full submit id).1.fired = state.fired := by
  rw [addInput, _addInput]
  split <;> rfl

theorem addInput_accepted (success : state.Success added.inputs ranges full id) :
    (state.addInput added ranges full submit id).1.accepted = state.accepted ++ [id] := by
  rw [addInput, _addInput, if_pos success]

end

/-- An add that is not fresh is seen at once: its entry is shared, or it is accepted without a callback. -/
theorem freshCoeff_of_delivered (consistent : Consistent added.inputs ranges state)
    (stepped : coeffStep added ranges state action = some next) (apart : Apart added next)
    (delivered : Delivered added.inputs ranges next) : FreshCoeff added ranges state action := by
  cases action with
  | add id full submit =>
    rw [coeffStep, Option.ite_none_right_eq_some] at stepped
    obtain ⟨⟨-, new⟩, result⟩ := stepped
    obtain rfl := Option.some.inj result
    have unfired : id ∉ state.fired := fun fired => new (consistent.accepted_of_fired fired)
    constructor
    · by_contra none
      have success : state.Success added.inputs ranges full id := fun backend takes => absurd ⟨backend, takes⟩ none
      have fired : id ∈ (state.addInput added ranges full submit id).1.fired := by
        refine (delivered.called id).mpr ⟨?_, fun backend takes => absurd ⟨backend, takes⟩ none⟩
        rw [addInput_accepted _ _ _ _ success]
        exact List.mem_append_right _ (List.mem_singleton_self id)
      rw [addInput_fired] at fired
      exact unfired fired
    · intro other flight same
      refine apart other id ⟨?_, ?_⟩ ⟨?_, ?_⟩ (congrArg BitVec.toNat same)
      · rw [addInput_attempted]
        exact List.mem_append_left _ flight.1
      · rw [addInput_fired]
        exact flight.2
      · rw [addInput_attempted]
        exact List.mem_append_right _ (List.mem_singleton_self id)
      · rw [addInput_fired]
        exact unfired
  | sent => trivial
  | processed => trivial
  | notified => trivial
  | endInput => trivial

end Par2Proc

open Par2Proc in
/-- Along a run, inputs in flight do not share bookkeeping, each is given to its backends once and its
callback is called once, exactly when each input that is added is taken by a backend and has another first
coefficient than all other inputs in flight. -/
theorem coefficients_delivered_iff {n : ℕ} (added : CoeffInputs) (ranges : Fin n → BackendRange)
    (actions : List (Action n)) :
    Machine.Throughout (coeffStep added ranges)
        (fun state => Apart added state ∧ Delivered added.inputs ranges state) start actions ↔
      Machine.Guarded (coeffStep added ranges) (FreshCoeff added ranges) start actions := by
  refine Machine.throughout_iff_guarded (fun state consistent => ⟨consistent.apart, consistent.delivered⟩)
    (fun state action next consistent fresh stepped => coeffStep_consistent consistent fresh stepped)
    (fun state action next consistent stepped after => ?_) (start_consistent added.inputs ranges) actions
  exact freshCoeff_of_delivered consistent stepped after.1 after.2

/-- Two inputs with the same first coefficient and one backend: the first copy calls the callback of the
second input, and the second copy does not find an entry. -/
theorem first_coefficient_shared :
    let added : CoeffInputs := ⟨fun id index => if index = 0 then 1 else BitVec.ofNat 16 (id + 2), fun _ => 4⟩
    let ranges : Fin 1 → BackendRange := fun _ => ⟨0, 4⟩
    ∃ state, Machine.run (Par2Proc.coeffStep added ranges) Par2Proc.start
        [.add 0 (fun _ => false) (fun _ => false), .add 1 (fun _ => false) (fun _ => false),
          .sent 0 (some 0)] = some state ∧
      state.accepted = [0, 1] ∧ (state.backends 0).copied = [0] ∧ state.fired = [1] ∧
      some 1 ∈ (state.backends 0).sending ∧
      Par2Proc.coeffStep added ranges state (.sent 0 (some 1)) = none := by
  intro added ranges
  refine ⟨_, rfl, ?_, ?_, ?_, ?_, ?_⟩ <;> decide +kernel

end Par3
