import Par3.AddContract
import Mathlib.Data.List.Pairwise

/-!
# The queue in front of the controller

A slice that the controller refuses waits in a queue. Each progress of the controller tries the
queue again from its head, until a slice is refused or the queue is empty. The end waits in the
queue too, behind every slice.
-/
namespace Par3

/-- A queued slice, or the end, which has a negative number in the program. -/
inductive GFAddQueueItem where
  | slice (id : ℕ)
  | finish
deriving DecidableEq

/-- The controller with the queue in front of it, and the slices that were passed to it. -/
structure GFWrapper (n : ℕ) where
  gf : Par2Proc n
  addQueue : List GFAddQueueItem
  buffered : List ℕ

namespace GFWrapper

open Par2Proc (Action)

variable {n : ℕ} (inputs : Inputs) (ranges : Fin n → BackendRange) (recoverySlices : ℕ)

def start : GFWrapper n := ⟨Par2Proc.start, [], []⟩

variable (wrapper : GFWrapper n)

def bufferedProcess (full submit : Fin n → Bool) (id : ℕ) : GFWrapper n :=
  if inputs.size id = 0 then wrapper
  else
    let added := wrapper.gf._addInput inputs ranges full submit id
    { gf := added.1
      addQueue := if added.2 then wrapper.addQueue else wrapper.addQueue ++ [.slice id]
      buffered := wrapper.buffered ++ [id] }

def finish : GFWrapper n :=
  if wrapper.addQueue ≠ [] then { wrapper with addQueue := wrapper.addQueue ++ [.finish] }
  else if recoverySlices = 0 then wrapper
  else { wrapper with gf := wrapper.gf.endInput ranges }

/-- The loop of the progress callback over the queue, `none` when it throws. Which backends are full
depends on the slice that is tried. -/
def progressCb (full submit : ℕ → Fin n → Bool) :
    List GFAddQueueItem → GFWrapper n → Option (GFWrapper n)
  | [], wrapper => some { wrapper with addQueue := [] }
  | .finish :: rest, wrapper =>
    if rest ≠ [] then none
    else some (finish ranges recoverySlices { wrapper with addQueue := rest })
  | .slice id :: rest, wrapper =>
    let added := wrapper.gf._addInput inputs ranges (full id) (submit id) id
    if added.2 then progressCb full submit rest { wrapper with gf := added.1 }
    else some { wrapper with gf := added.1, addQueue := .slice id :: rest }

/-! ## Actions -/

inductive WrapperAction (n : ℕ) where
  | bufferedProcess (id : ℕ) (full submit : Fin n → Bool)
  | progress (full submit : ℕ → Fin n → Bool)
  | finish
  | sent (backend : Fin n) (transfer : Option ℕ)
  | processed (backend : Fin n) (batch : List ℕ)
  | notified

/-- What reaches the controller past the queue. -/
def pass (action : Action n) : Option (GFWrapper n) :=
  (wrapper.gf.step inputs ranges action).map fun gf => { wrapper with gf := gf }

/-- A slice is passed once, and nothing is passed behind the end until it was reported. -/
def step : GFWrapper n → WrapperAction n → Option (GFWrapper n)
  | wrapper, .bufferedProcess id full submit =>
    if id ∉ wrapper.buffered ∧ .finish ∉ wrapper.addQueue ∧
        (inputs.size id = 0 ∨ wrapper.gf.MayAdd inputs id) then
      some (wrapper.bufferedProcess inputs ranges full submit id)
    else none
  | wrapper, .progress full submit =>
    wrapper.progressCb inputs ranges recoverySlices full submit wrapper.addQueue
  | wrapper, .finish =>
    if .finish ∉ wrapper.addQueue ∧ wrapper.gf.endSignalled = false then
      some (wrapper.finish ranges recoverySlices)
    else none
  | wrapper, .sent backend transfer => wrapper.pass inputs ranges (.sent backend transfer)
  | wrapper, .processed backend batch => wrapper.pass inputs ranges (.processed backend batch)
  | wrapper, .notified => wrapper.pass inputs ranges .notified

/-- The slices in a queue. -/
def queued (queue : List GFAddQueueItem) : List ℕ :=
  queue.filterMap fun item =>
    match item with
    | .slice id => some id
    | .finish => none

/-- What holds in every state that a wrapper reaches: its controller is one that is added to as it
may be, and every slice passed to it has its place. -/
structure Wrapped (wrapper : GFWrapper n) : Prop where
  reached : ∃ actions, Machine.run (Par2Proc.step inputs ranges) Par2Proc.start actions =
    some wrapper.gf
  once : wrapper.buffered.Nodup
  places : (wrapper.gf.accepted ++ queued wrapper.addQueue).Perm wrapper.buffered
  retried : ∀ id ∈ queued wrapper.addQueue, id ∈ wrapper.gf.attempted ∧ 0 < inputs.size id
  ending : wrapper.gf.endSignalled = true → wrapper.addQueue = []
  last : wrapper.addQueue.Pairwise fun earlier _ => earlier ≠ .finish

theorem queued_append (first second : List GFAddQueueItem) :
    queued (first ++ second) = queued first ++ queued second :=
  List.filterMap_append

theorem start_wrapped : Wrapped inputs ranges start where
  reached := ⟨[], rfl⟩
  once := List.nodup_nil
  places := List.Perm.refl _
  retried _ member := by cases member
  ending _ := rfl
  last := List.Pairwise.nil

section Keeps

variable (state : Par2Proc n) (full submit : Fin n → Bool) (id : ℕ)

theorem addInput_accepted : (state._addInput inputs ranges full submit id).1.accepted =
    state.accepted ++ if (state._addInput inputs ranges full submit id).2 then [id] else [] := by
  rw [Par2Proc._addInput]
  split
  · rfl
  · exact (List.append_nil _).symm

theorem addInput_keeps :
    (state._addInput inputs ranges full submit id).1.endSignalled = state.endSignalled ∧
      (state._addInput inputs ranges full submit id).1.attempted = state.attempted ++ [id] ∧
      (state._addInput inputs ranges full submit id).1.ended = state.ended := by
  rw [Par2Proc._addInput]
  split
  · exact ⟨rfl, rfl, rfl⟩
  · exact ⟨rfl, rfl, rfl⟩

theorem endInput_keeps : (state.endInput ranges).accepted = state.accepted ∧
    (state.endInput ranges).attempted = state.attempted := by
  simp only [Par2Proc.endInput]
  split
  · exact ⟨rfl, rfl⟩
  · exact ⟨rfl, rfl⟩

/-- What the backends report neither adds nor ends. -/
structure Reports (before after : Par2Proc n) : Prop where
  accepted : after.accepted = before.accepted
  attempted : after.attempted = before.attempted
  ended : after.ended = before.ended
  ending : after.endSignalled = true → before.endSignalled = true

variable {inputs ranges state}

theorem sent_reports {backend : Fin n} {transfer : Option ℕ} {after : Par2Proc n}
    (stepped : state.step inputs ranges (.sent backend transfer) = some after) :
    Reports state after := by
  simp only [Par2Proc.step, Option.ite_none_right_eq_some] at stepped
  obtain ⟨-, stepped⟩ := stepped
  cases transfer with
  | none =>
    obtain rfl := Option.some.inj stepped
    exact ⟨rfl, rfl, rfl, fun signalled => signalled⟩
  | some id =>
    obtain ⟨ref, -, rfl⟩ := Option.map_eq_some_iff.mp stepped
    split
    · exact ⟨rfl, rfl, rfl, fun signalled => signalled⟩
    · exact ⟨rfl, rfl, rfl, fun signalled => signalled⟩

theorem processed_reports {backend : Fin n} {batch : List ℕ} {after : Par2Proc n}
    (stepped : state.step inputs ranges (.processed backend batch) = some after) :
    Reports state after := by
  simp only [Par2Proc.step, Option.ite_none_right_eq_some, Option.some.injEq] at stepped
  obtain ⟨-, rfl⟩ := stepped
  exact ⟨rfl, rfl, rfl, fun signalled => signalled⟩

theorem notified_reports {after : Par2Proc n}
    (stepped : state.step inputs ranges .notified = some after) : Reports state after := by
  obtain rfl := Option.some.inj stepped
  rw [Par2Proc.onBackendProcess]
  split
  · refine ⟨rfl, rfl, rfl, fun signalled => ?_⟩
    cases signalled
  · exact ⟨rfl, rfl, rfl, fun signalled => signalled⟩

end Keeps

section Reached

variable {inputs ranges} {state : Par2Proc n}

/-- An action that the controller takes leads to a state that it reaches. -/
theorem reached_step {next : Par2Proc n} (action : Action n)
    (reached : ∃ actions, Machine.run (Par2Proc.step inputs ranges) Par2Proc.start actions =
      some state) (stepped : state.step inputs ranges action = some next) :
    ∃ actions, Machine.run (Par2Proc.step inputs ranges) Par2Proc.start actions = some next := by
  obtain ⟨actions, reached⟩ := reached
  refine ⟨actions ++ [action], ?_⟩
  rw [Machine.run_append, reached, Option.bind_some, Machine.run_cons, stepped]
  rfl

theorem reached_add (full submit : Fin n → Bool) (id : ℕ)
    (reached : ∃ actions, Machine.run (Par2Proc.step inputs ranges) Par2Proc.start actions =
      some state) (may : state.MayAdd inputs id) :
    ∃ actions, Machine.run (Par2Proc.step inputs ranges) Par2Proc.start actions =
      some (state._addInput inputs ranges full submit id).1 := by
  apply reached_step (.add id full submit) reached
  exact if_pos may

theorem reached_consistent
    (taken : ∀ id, 0 < inputs.size id → ∃ backend, Par2Proc.Takes inputs ranges backend id)
    (reached : ∃ actions, Machine.run (Par2Proc.step inputs ranges) Par2Proc.start actions =
      some state) : Par2Proc.Consistent inputs ranges state := by
  obtain ⟨actions, reached⟩ := reached
  have keeps : ∀ before action next, Par2Proc.Consistent inputs ranges before →
      Par2Proc.step inputs ranges before action = some next → Par2Proc.Consistent inputs ranges next :=
    fun before action next consistent =>
      Par2Proc.Consistent.step_consistent (fun id _ _ _ => taken id) consistent
  have throughout := Machine.throughout_of_step keeps (Par2Proc.start_consistent inputs ranges) actions
  exact throughout.last reached

end Reached

namespace Wrapped

variable {inputs ranges} {wrapper : GFWrapper n}

/-- A slice that waits in the queue may be added. -/
theorem mayAdd (wrapped : Wrapped inputs ranges wrapper)
    (taken : ∀ id, 0 < inputs.size id → ∃ backend, Par2Proc.Takes inputs ranges backend id) {id : ℕ}
    (waits : id ∈ queued wrapper.addQueue) : wrapper.gf.MayAdd inputs id := by
  have consistent := reached_consistent taken wrapped.reached
  obtain ⟨attempted, size⟩ := wrapped.retried id waits
  have apart := wrapped.places.nodup_iff.mpr wrapped.once
  rw [List.nodup_append] at apart
  have notAccepted : id ∉ wrapper.gf.accepted := fun accepted => apart.2.2 id accepted id waits rfl
  have notFired : id ∉ wrapper.gf.fired :=
    fun fired => notAccepted (consistent.accepted_of_fired fired)
  refine ⟨?_, size, notAccepted, ?_⟩
  · rw [← Bool.not_eq_true]
    intro signalled
    rw [wrapped.ending signalled] at waits
    cases waits
  · intro other attemptedOther notFiredOther same
    obtain ⟨⟨ref, found, cb⟩, -⟩ := consistent.inFlight id ⟨attempted, notFired⟩
    obtain ⟨⟨refOther, foundOther, cbOther⟩, -⟩ :=
      consistent.inFlight other ⟨attemptedOther, notFiredOther⟩
    rw [same, found] at foundOther
    obtain rfl := Option.some.inj foundOther
    rw [← cb, cbOther]

theorem bufferedProcess (wrapped : Wrapped inputs ranges wrapper) (full submit : Fin n → Bool)
    {id : ℕ} (new : id ∉ wrapper.buffered) (noFinish : GFAddQueueItem.finish ∉ wrapper.addQueue)
    (may : inputs.size id = 0 ∨ wrapper.gf.MayAdd inputs id) :
    Wrapped inputs ranges (wrapper.bufferedProcess inputs ranges full submit id) := by
  rw [GFWrapper.bufferedProcess]
  split
  case isTrue => exact wrapped
  case isFalse filled =>
    replace may := may.resolve_left filled
    have reached := reached_add full submit id wrapped.reached may
    have accepted := addInput_accepted inputs ranges wrapper.gf full submit id
    obtain ⟨ending, attempted, -⟩ := addInput_keeps inputs ranges wrapper.gf full submit id
    have once : (wrapper.buffered ++ [id]).Nodup := by
      rw [List.nodup_append]
      refine ⟨wrapped.once, List.nodup_singleton id, ?_⟩
      intro one member other single same
      rw [List.mem_singleton] at single
      exact new (single ▸ same ▸ member)
    have off : wrapper.gf.endSignalled ≠ true := Bool.eq_false_iff.mp may.1
    cases added : (wrapper.gf._addInput inputs ranges full submit id).2 with
    | true =>
      rw [added, if_pos rfl] at accepted
      constructor
      · exact reached
      · exact once
      · simp only [added, if_true, accepted]
        rw [List.append_assoc]
        refine (List.perm_append_comm.append_left _).trans ?_
        rw [← List.append_assoc]
        exact wrapped.places.append_right [id]
      · simp only [added, if_true, attempted]
        intro other waits
        obtain ⟨earlier, size⟩ := wrapped.retried other waits
        exact ⟨List.mem_append_left _ earlier, size⟩
      · intro signalled
        exact absurd (ending.symm.trans signalled) off
      · simp only [added, if_true]
        exact wrapped.last
    | false =>
      rw [added, if_neg Bool.false_ne_true, List.append_nil] at accepted
      have items : queued (wrapper.addQueue ++ [.slice id]) = queued wrapper.addQueue ++ [id] :=
        queued_append _ _
      constructor
      · exact reached
      · exact once
      · simp only [added, Bool.false_eq_true, if_false, accepted, items]
        rw [← List.append_assoc]
        exact wrapped.places.append_right [id]
      · intro other waits
        simp only [added, Bool.false_eq_true, if_false, items, List.mem_append,
          List.mem_singleton] at waits
        simp only [attempted, List.mem_append, List.mem_singleton]
        obtain waits | rfl := waits
        · obtain ⟨earlier, size⟩ := wrapped.retried other waits
          exact ⟨.inl earlier, size⟩
        · exact ⟨.inr rfl, Nat.pos_of_ne_zero filled⟩
      · intro signalled
        exact absurd (ending.symm.trans signalled) off
      · simp only [added, Bool.false_eq_true, if_false]
        rw [List.pairwise_append]
        refine ⟨wrapped.last, List.pairwise_singleton _ _, ?_⟩
        intro earlier member _ _ same
        exact noFinish (same ▸ member)

/-- The end is passed on when no slice waits, and waits behind the slices else. -/
theorem finish (wrapped : Wrapped inputs ranges wrapper)
    (noFinish : GFAddQueueItem.finish ∉ wrapper.addQueue)
    (off : wrapper.gf.endSignalled = false) :
    Wrapped inputs ranges (wrapper.finish ranges recoverySlices) ∧
      (wrapper.gf.ended < (wrapper.finish ranges recoverySlices).gf.ended →
        (wrapper.finish ranges recoverySlices).gf.accepted.Perm
          (wrapper.finish ranges recoverySlices).buffered) := by
  rw [GFWrapper.finish]
  split
  case isTrue waits =>
    refine ⟨?_, fun more => absurd more (lt_irrefl _)⟩
    have items : queued (wrapper.addQueue ++ [.finish]) = queued wrapper.addQueue :=
      (queued_append _ _).trans (List.append_nil _)
    constructor
    · exact wrapped.reached
    · exact wrapped.once
    · rw [items]
      exact wrapped.places
    · rw [items]
      exact wrapped.retried
    · intro signalled
      exact absurd (off.symm.trans signalled) Bool.false_ne_true
    · rw [List.pairwise_append]
      refine ⟨wrapped.last, List.pairwise_singleton _ _, ?_⟩
      intro earlier member _ _ same
      exact noFinish (same ▸ member)
  case isFalse empty =>
    rw [ne_eq, not_not] at empty
    split
    case isTrue => exact ⟨wrapped, fun more => absurd more (lt_irrefl _)⟩
    case isFalse =>
      obtain ⟨accepted, attempted⟩ := endInput_keeps ranges wrapper.gf
      have places := wrapped.places
      rw [empty] at places
      constructor
      · constructor
        · apply reached_step .endInput wrapped.reached
          rw [Par2Proc.step, off]
          rfl
        · exact wrapped.once
        · rw [accepted]
          exact wrapped.places
        · rw [attempted]
          exact wrapped.retried
        · intro _
          exact empty
        · exact wrapped.last
      · intro _
        rw [accepted]
        exact (List.append_nil wrapper.gf.accepted ▸ places :)

/-- The loop over the queue never throws, and ends with the end only behind every slice. -/
theorem progressCb (taken : ∀ id, 0 < inputs.size id → ∃ backend, Par2Proc.Takes inputs ranges backend id)
    (full submit : ℕ → Fin n → Bool) (queue : List GFAddQueueItem) (wrapper : GFWrapper n)
    (wrapped : Wrapped inputs ranges { wrapper with addQueue := queue }) :
    ∃ next, wrapper.progressCb inputs ranges recoverySlices full submit queue = some next ∧
      Wrapped inputs ranges next ∧
      (wrapper.gf.ended < next.gf.ended → next.gf.accepted.Perm next.buffered) := by
  induction queue generalizing wrapper with
  | nil => exact ⟨_, rfl, wrapped, fun more => absurd more (lt_irrefl _)⟩
  | cons item rest ih =>
    have last := List.pairwise_cons.mp wrapped.last
    cases item with
    | finish =>
      have none : rest = [] := by
        apply List.eq_nil_iff_forall_not_mem.mpr
        intro later member
        exact last.1 later member rfl
      subst none
      have off : wrapper.gf.endSignalled = false := by
        rw [← Bool.not_eq_true]
        intro signalled
        cases wrapped.ending signalled
      have rested : Wrapped inputs ranges { wrapper with addQueue := [] } := by
        constructor
        · exact wrapped.reached
        · exact wrapped.once
        · exact wrapped.places
        · exact wrapped.retried
        · intro _
          rfl
        · exact List.Pairwise.nil
      exact ⟨_, rfl, rested.finish recoverySlices (List.not_mem_nil) off⟩
    | slice id =>
      have may := wrapped.mayAdd taken (List.mem_cons_self : id ∈ id :: queued rest)
      have reached := reached_add (full id) (submit id) id wrapped.reached may
      have accepted := addInput_accepted inputs ranges wrapper.gf (full id) (submit id) id
      obtain ⟨ending, attempted, ended⟩ :=
        addInput_keeps inputs ranges wrapper.gf (full id) (submit id) id
      have off : wrapper.gf.endSignalled ≠ true := Bool.eq_false_iff.mp may.1
      have places : (wrapper.gf.accepted ++ id :: queued rest).Perm wrapper.buffered :=
        wrapped.places
      rw [GFWrapper.progressCb]
      cases added : (wrapper.gf._addInput inputs ranges (full id) (submit id) id).2 with
      | true =>
        rw [added, if_pos rfl] at accepted
        have shifted : Wrapped inputs ranges
            { wrapper with
              gf := (wrapper.gf._addInput inputs ranges (full id) (submit id) id).1
              addQueue := rest } := by
          constructor
          · exact reached
          · exact wrapped.once
          · rw [accepted, List.append_assoc]
            exact places
          · intro other waits
            rw [attempted]
            obtain ⟨earlier, size⟩ := wrapped.retried other (List.mem_cons_of_mem _ waits)
            exact ⟨List.mem_append_left _ earlier, size⟩
          · intro signalled
            exact absurd (ending.symm.trans signalled) off
          · exact last.2
        obtain ⟨next, same, kept, all⟩ := ih
          { wrapper with gf := (wrapper.gf._addInput inputs ranges (full id) (submit id) id).1 }
          shifted
        refine ⟨next, same, kept, fun more => all ?_⟩
        rw [ended]
        exact more
      | false =>
        rw [added, if_neg Bool.false_ne_true, List.append_nil] at accepted
        simp only [Bool.false_eq_true, if_false]
        refine ⟨_, rfl, ?_, fun more => absurd (ended ▸ more) (lt_irrefl _)⟩
        constructor
        · exact reached
        · exact wrapped.once
        · rw [accepted]
          exact places
        · intro other waits
          rw [attempted]
          obtain ⟨earlier, size⟩ := wrapped.retried other waits
          exact ⟨List.mem_append_left _ earlier, size⟩
        · intro signalled
          exact absurd (ending.symm.trans signalled) off
        · exact wrapped.last

theorem pass (wrapped : Wrapped inputs ranges wrapper) {action : Action n} {next : GFWrapper n}
    (reports : ∀ after, wrapper.gf.step inputs ranges action = some after →
      Reports wrapper.gf after)
    (passed : wrapper.pass inputs ranges action = some next) :
    Wrapped inputs ranges next ∧ next.gf.ended = wrapper.gf.ended := by
  obtain ⟨after, stepped, rfl⟩ := Option.map_eq_some_iff.mp passed
  obtain ⟨accepted, attempted, ended, ending⟩ := reports after stepped
  refine ⟨?_, ended⟩
  constructor
  · exact reached_step action wrapped.reached stepped
  · exact wrapped.once
  · rw [accepted]
    exact wrapped.places
  · rw [attempted]
    exact wrapped.retried
  · intro signalled
    exact wrapped.ending (ending signalled)
  · exact wrapped.last

/-- A step keeps what holds, and ends the controller only when it has accepted every slice. -/
theorem step (wrapped : Wrapped inputs ranges wrapper)
    (taken : ∀ id, 0 < inputs.size id → ∃ backend, Par2Proc.Takes inputs ranges backend id)
    (action : WrapperAction n) (next : GFWrapper n)
    (stepped : step inputs ranges recoverySlices wrapper action = some next) :
    Wrapped inputs ranges next ∧
      (wrapper.gf.ended < next.gf.ended → next.gf.accepted.Perm next.buffered) := by
  cases action with
  | bufferedProcess id full submit =>
    simp only [GFWrapper.step, Option.ite_none_right_eq_some, Option.some.injEq] at stepped
    obtain ⟨⟨new, noFinish, may⟩, rfl⟩ := stepped
    refine ⟨wrapped.bufferedProcess full submit new noFinish may, fun more => ?_⟩
    exfalso
    rw [GFWrapper.bufferedProcess] at more
    split at more
    · exact lt_irrefl _ more
    · have ended := (addInput_keeps inputs ranges wrapper.gf full submit id).2.2
      exact absurd (ended ▸ more) (lt_irrefl _)
  | progress full submit =>
    obtain ⟨after, same, kept⟩ :=
      progressCb recoverySlices taken full submit wrapper.addQueue wrapper wrapped
    obtain rfl := Option.some.inj (same.symm.trans stepped)
    exact kept
  | finish =>
    simp only [GFWrapper.step, Option.ite_none_right_eq_some, Option.some.injEq] at stepped
    obtain ⟨⟨noFinish, off⟩, rfl⟩ := stepped
    exact wrapped.finish recoverySlices noFinish off
  | sent backend transfer =>
    obtain ⟨kept, ended⟩ := wrapped.pass (fun _ => sent_reports) stepped
    exact ⟨kept, fun more => absurd (ended ▸ more) (lt_irrefl _)⟩
  | processed backend batch =>
    obtain ⟨kept, ended⟩ := wrapped.pass (fun _ => processed_reports) stepped
    exact ⟨kept, fun more => absurd (ended ▸ more) (lt_irrefl _)⟩
  | notified =>
    obtain ⟨kept, ended⟩ := wrapped.pass (fun _ => notified_reports) stepped
    exact ⟨kept, fun more => absurd (ended ▸ more) (lt_irrefl _)⟩

/-- The progress callback never throws. -/
theorem progress_defined (wrapped : Wrapped inputs ranges wrapper)
    (taken : ∀ id, 0 < inputs.size id → ∃ backend, Par2Proc.Takes inputs ranges backend id)
    (full submit : ℕ → Fin n → Bool) :
    (wrapper.step inputs ranges recoverySlices (.progress full submit)).isSome := by
  obtain ⟨next, same, -⟩ :=
    progressCb recoverySlices taken full submit wrapper.addQueue wrapper wrapped
  exact Option.isSome_iff_exists.mpr ⟨next, same⟩

end Wrapped

end GFWrapper

end Par3
