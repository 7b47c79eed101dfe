import Par3.Par2Proc
import Mathlib.Data.List.ReduceOption

/-!
# Inputs reach every backend once

What a backend was given is what it has copied and what is on its way, and what it has processed,
what it is processing and what it is staging. The entry of an input counts the backends that have
not copied it, so it is there as long as the input is in flight, and its callback is called with the
last copy. While the end is signalled nothing is staged: an empty backend has processed everything.
-/
namespace Par3

namespace ProcBackend

/-- Nothing that was given is lost or doubled. -/
structure Accounted (backend : ProcBackend) : Prop where
  once : backend.given.Nodup
  copies : backend.given.Perm (backend.copied ++ backend.sending.reduceOption)
  works : backend.given.Perm
    (backend.processed ++ (backend.active.flatten ++ backend.staged))

namespace Accounted

variable {backend : ProcBackend}

theorem start : Accounted ProcBackend.start := ⟨List.nodup_nil, List.Perm.refl _, List.Perm.refl _⟩

theorem addInput (accounted : backend.Accounted) {id : ℕ} (new : id ∉ backend.given)
    (submit : Bool) : (backend.addInput id submit).Accounted where
  once := by
    rw [ProcBackend.addInput, List.nodup_append]
    refine ⟨accounted.once, List.nodup_singleton id, ?_⟩
    intro one member other single same
    rw [List.mem_singleton] at single
    exact new (single ▸ same ▸ member)
  copies := by
    have copies := accounted.copies.append_right [id]
    simp only [ProcBackend.addInput, List.reduceOption_append, List.reduceOption_singleton,
      Option.toList_some]
    rwa [List.append_assoc] at copies
  works := by
    have works := accounted.works.append_right [id]
    rw [List.append_assoc, List.append_assoc] at works
    cases submit with
    | false => exact works
    | true => simpa [ProcBackend.addInput] using works

theorem flush (accounted : backend.Accounted) : backend.flush.Accounted := by
  rw [ProcBackend.flush]
  split
  case isTrue => exact accounted
  case isFalse =>
    constructor
    · exact accounted.once
    · simpa [List.reduceOption_append] using accounted.copies
    · simpa using accounted.works

theorem sent (accounted : backend.Accounted) {transfer : Option ℕ}
    (member : transfer ∈ backend.sending) : (backend.sent transfer).Accounted where
  once := accounted.once
  copies := by
    have sending := (List.perm_cons_erase member).filterMap id
    refine accounted.copies.trans ?_
    simp only [ProcBackend.sent, List.append_assoc]
    apply List.Perm.append_left
    cases transfer with
    | none => exact sending
    | some _ => exact sending
  works := accounted.works

theorem processedBatch (accounted : backend.Accounted) {batch : List ℕ}
    (member : batch ∈ backend.active) : (backend.processedBatch batch).Accounted where
  once := accounted.once
  copies := accounted.copies
  works := by
    have active := (List.perm_cons_erase member).flatten
    refine accounted.works.trans ?_
    simp only [ProcBackend.processedBatch, List.append_assoc]
    apply List.Perm.append_left
    rw [← List.append_assoc]
    exact active.append_right backend.staged

/-- What was copied was given. -/
theorem given_of_copied (accounted : backend.Accounted) {id : ℕ} (copied : id ∈ backend.copied) :
    id ∈ backend.given :=
  accounted.copies.mem_iff.mpr (List.mem_append_left _ copied)

/-- What is on its way was given and was not copied. -/
theorem of_sending (accounted : backend.Accounted) {id : ℕ}
    (sending : some id ∈ backend.sending) : id ∈ backend.given ∧ id ∉ backend.copied := by
  have way : id ∈ backend.sending.reduceOption := List.reduceOption_mem_iff.mpr sending
  constructor
  · exact accounted.copies.mem_iff.mpr (List.mem_append_right _ way)
  · intro copied
    have apart := (accounted.copies.nodup_iff.mp accounted.once)
    rw [List.nodup_append] at apart
    exact apart.2.2 id copied id way rfl

/-- A backend that is empty and stages nothing has processed what it was given. -/
theorem processed_of (accounted : backend.Accounted) (empty : backend.isEmpty = true)
    (none : backend.staged = []) {id : ℕ} (given : id ∈ backend.given) :
    id ∈ backend.processed := by
  rw [ProcBackend.isEmpty, Bool.and_eq_true, List.isEmpty_iff] at empty
  have place := accounted.works.mem_iff.mp given
  rw [empty.1, none, List.flatten_nil, List.append_nil, List.append_nil] at place
  exact place

end Accounted

end ProcBackend

namespace Par2Proc

variable {n : ℕ} (inputs : Inputs) (ranges : Fin n → BackendRange)

/-- The backends that take an input and have not copied it. -/
def waiting (state : Par2Proc n) (id : ℕ) : Finset (Fin n) :=
  Finset.univ.filter fun backend =>
    Takes inputs ranges backend id ∧ id ∉ (state.backends backend).copied

/-- What holds in every state that a controller reaches. -/
structure Consistent (state : Par2Proc n) : Prop where
  accounted : ∀ backend, (state.backends backend).Accounted
  given : ∀ backend, ∀ id ∈ (state.backends backend).given,
    Takes inputs ranges backend id ∧ id ∈ state.attempted
  added : ∀ backend number, number ∈ (state.backends backend).added ↔
    ∃ id ∈ (state.backends backend).given, id ∉ state.accepted ∧ inputs.number id = number
  accepted : ∀ id, id ∈ state.accepted ↔ id ∈ state.attempted ∧
    ∀ backend, Takes inputs ranges backend id → id ∈ (state.backends backend).given
  entry : ∀ number ref, state.addCbRefs number = some ref →
    inputs.number ref.cb = number ∧ state.InFlight ref.cb ∧
      ref.backendsActive = (state.waiting inputs ranges ref.cb).card
  inFlight : ∀ id, state.InFlight id →
    (∃ ref, state.addCbRefs (inputs.number id) = some ref ∧ ref.cb = id) ∧
      (state.waiting inputs ranges id).Nonempty
  fired : state.fired.Nodup
  copied : ∀ id ∈ state.fired, id ∈ state.attempted ∧
    ∀ backend, Takes inputs ranges backend id → id ∈ (state.backends backend).copied
  ending : state.endSignalled = true → ∀ backend, (state.backends backend).staged = []
  finishing : state.finishCb = state.endSignalled ∧
    state.finished + state.endSignalled.toNat = state.ended

theorem start_consistent : Consistent inputs ranges (start : Par2Proc n) where
  accounted _ := ProcBackend.Accounted.start
  given _ _ member := by cases member
  added _ _ := by simp [start, ProcBackend.start]
  accepted _ := by simp [start]
  entry _ _ same := by cases same
  inFlight _ flight := by cases flight.1
  fired := List.nodup_nil
  copied _ member := by cases member
  ending signalled := by cases signalled
  finishing := ⟨rfl, rfl⟩

namespace Consistent

variable {inputs ranges} {state : Par2Proc n}

/-- An input whose callback was called was accepted. -/
theorem accepted_of_fired (consistent : Consistent inputs ranges state) {id : ℕ}
    (fired : id ∈ state.fired) : id ∈ state.accepted := by
  obtain ⟨attempted, copied⟩ := consistent.copied id fired
  rw [consistent.accepted]
  refine ⟨attempted, fun backend takes => ?_⟩
  exact (consistent.accounted backend).given_of_copied (copied backend takes)

/-! ### Adding -/

section Add

variable {id : ℕ} (full submit : Fin n → Bool)

/-- A backend that refuses or skips an input keeps its state, the others get it for the first
time. -/
theorem addLoop_cases (consistent : Consistent inputs ranges state)
    (may : state.MayAdd inputs id) (backend : Fin n) :
    (state.Gives inputs ranges full id backend ∧ id ∉ (state.backends backend).given ∧
      state.addLoop inputs ranges full submit id backend =
        { (state.backends backend).addInput id (submit backend) with
          added := insert (inputs.number id) (state.backends backend).added }) ∨
    ¬ state.Gives inputs ranges full id backend ∧
      state.addLoop inputs ranges full submit id backend = state.backends backend := by
  rw [addLoop]
  split
  case isTrue gives =>
    refine .inl ⟨gives, fun given => gives.2.1 ?_, rfl⟩
    exact (consistent.added backend _).mpr ⟨id, given, may.2.2.1, rfl⟩
  case isFalse refuses => exact .inr ⟨refuses, rfl⟩

theorem addLoop_accounted (consistent : Consistent inputs ranges state)
    (may : state.MayAdd inputs id) (backend : Fin n) :
    (state.addLoop inputs ranges full submit id backend).Accounted := by
  obtain ⟨-, new, same⟩ | ⟨-, same⟩ := addLoop_cases full submit consistent may backend
  · rw [same]
    obtain ⟨once, copies, works⟩ := (consistent.accounted backend).addInput new (submit backend)
    exact ⟨once, copies, works⟩
  · rw [same]
    exact consistent.accounted backend

theorem addLoop_copied (consistent : Consistent inputs ranges state)
    (may : state.MayAdd inputs id) (backend : Fin n) :
    (state.addLoop inputs ranges full submit id backend).copied =
      (state.backends backend).copied := by
  obtain ⟨-, -, same⟩ | ⟨-, same⟩ := addLoop_cases full submit consistent may backend
  · rw [same]
    rfl
  · rw [same]

theorem addLoop_given (consistent : Consistent inputs ranges state)
    (may : state.MayAdd inputs id) (backend : Fin n) (other : ℕ) :
    other ∈ (state.addLoop inputs ranges full submit id backend).given ↔
      other ∈ (state.backends backend).given ∨
        other = id ∧ state.Gives inputs ranges full id backend := by
  obtain ⟨gives, -, same⟩ | ⟨refuses, same⟩ := addLoop_cases full submit consistent may
    backend
  · rw [same]
    simp [ProcBackend.addInput, gives]
  · rw [same]
    simp [refuses]

theorem addLoop_added (consistent : Consistent inputs ranges state)
    (may : state.MayAdd inputs id) (backend : Fin n) (number : ℕ) :
    number ∈ (state.addLoop inputs ranges full submit id backend).added ↔
      ∃ other ∈ (state.addLoop inputs ranges full submit id backend).given,
        other ∉ state.accepted ∧ inputs.number other = number := by
  have before := consistent.added backend number
  simp only [addLoop_given full submit consistent may]
  obtain ⟨gives, -, same⟩ | ⟨refuses, same⟩ := addLoop_cases full submit consistent may
    backend
  · rw [same]
    simp only [Finset.mem_insert, before]
    constructor
    · rintro (rfl | ⟨other, given, rest⟩)
      · exact ⟨id, .inr ⟨rfl, gives⟩, may.2.2.1, rfl⟩
      · exact ⟨other, .inl given, rest⟩
    · rintro ⟨other, given | ⟨rfl, -⟩, rest⟩
      · exact .inr ⟨other, given, rest⟩
      · exact .inl rest.2.symm
  · rw [same, before]
    constructor
    · rintro ⟨other, given, rest⟩
      exact ⟨other, .inl given, rest⟩
    · rintro ⟨other, given | ⟨-, gives⟩, rest⟩
      · exact ⟨other, given, rest⟩
      · exact absurd gives refuses

/-- An add succeeds when it leaves nobody who takes the input without it. -/
theorem success_iff (consistent : Consistent inputs ranges state) (may : state.MayAdd inputs id) :
    state.Success inputs ranges full id ↔ ∀ backend, Takes inputs ranges backend id →
      id ∈ (state.addLoop inputs ranges full submit id backend).given := by
  simp only [addLoop_given full submit consistent may]
  apply forall_congr'
  intro backend
  constructor
  · intro success takes
    by_cases added : inputs.number id ∈ (state.backends backend).added
    · obtain ⟨other, given, waiting, same⟩ := (consistent.added backend _).mp added
      have flight : other ∉ state.fired := fun fired => waiting (consistent.accepted_of_fired fired)
      have equal := may.2.2.2 other (consistent.given backend other given).2 flight same
      exact .inl (equal ▸ given)
    · exact .inr ⟨trivial, takes, added, (success takes).resolve_left added⟩
  · intro given takes
    obtain given | ⟨-, gives⟩ := given takes
    · exact .inl ((consistent.added backend _).mpr ⟨id, given, may.2.2.1, rfl⟩)
    · exact .inr gives.2.2

/-- An input that may be added is in flight, or it was never added and has no entry. -/
theorem flight_or_new (consistent : Consistent inputs ranges state) (may : state.MayAdd inputs id) :
    state.InFlight id ∨ id ∉ state.attempted ∧ state.addCbRefs (inputs.number id) = none := by
  have notFired : id ∉ state.fired := fun fired => may.2.2.1 (consistent.accepted_of_fired fired)
  by_cases attempted : id ∈ state.attempted
  · exact .inl ⟨attempted, notFired⟩
  · refine .inr ⟨attempted, ?_⟩
    cases found : state.addCbRefs (inputs.number id) with
    | none => rfl
    | some ref =>
      obtain ⟨number, flight, -⟩ := consistent.entry _ ref found
      have same := may.2.2.2 ref.cb flight.1 flight.2 number
      exact absurd (same ▸ flight.1) attempted

/-- The entry that an add leaves counts the backends that wait for the input. -/
theorem cbRef_eq (consistent : Consistent inputs ranges state) (may : state.MayAdd inputs id) :
    state.cbRef inputs ranges id = ⟨(state.waiting inputs ranges id).card, id⟩ := by
  obtain flight | ⟨new, none⟩ := consistent.flight_or_new may
  · obtain ⟨⟨ref, found, same⟩, -⟩ := consistent.inFlight id flight
    obtain ⟨-, -, count⟩ := consistent.entry _ ref found
    simp only [cbRef, found, count, same]
  · have nobody : ∀ backend, id ∉ (state.backends backend).copied := by
      intro backend copied
      exact new (consistent.given backend id
        ((consistent.accounted backend).given_of_copied copied)).2
    have takers : state.waiting inputs ranges id =
        Finset.univ.filter fun backend => Takes inputs ranges backend id := by
      apply Finset.filter_congr
      intro backend _
      exact and_iff_left (nobody backend)
    have split := Finset.card_filter_add_card_filter_not (s := (Finset.univ : Finset (Fin n)))
      (fun backend => Takes inputs ranges backend id)
    rw [Finset.card_univ, Fintype.card_fin] at split
    simp only [cbRef, none, takers]
    congr 1
    omega

theorem waiting_nonempty (consistent : Consistent inputs ranges state)
    (may : state.MayAdd inputs id) (taken : ∃ backend, Takes inputs ranges backend id) :
    (state.waiting inputs ranges id).Nonempty := by
  obtain flight | ⟨new, -⟩ := consistent.flight_or_new may
  · exact (consistent.inFlight id flight).2
  · obtain ⟨backend, takes⟩ := taken
    refine ⟨backend, Finset.mem_filter.mpr ⟨Finset.mem_univ backend, takes, fun copied => ?_⟩⟩
    exact new (consistent.given backend id
      ((consistent.accounted backend).given_of_copied copied)).2

/-- An add that leaves the right numbers and accepts the right inputs keeps the state consistent. -/
theorem add_keeps (consistent : Consistent inputs ranges state) (may : state.MayAdd inputs id)
    (taken : ∃ backend, Takes inputs ranges backend id) (added : Fin n → Finset ℕ)
    (accepted : List ℕ)
    (addedOf : ∀ backend number, number ∈ added backend ↔
      ∃ other ∈ (state.addLoop inputs ranges full submit id backend).given,
        other ∉ accepted ∧ inputs.number other = number)
    (acceptedOf : ∀ other, other ∈ accepted ↔ other ∈ state.attempted ++ [id] ∧
      ∀ backend, Takes inputs ranges backend other →
        other ∈ (state.addLoop inputs ranges full submit id backend).given) :
    Consistent inputs ranges
      { state with
        addCbRefs := Function.update state.addCbRefs (inputs.number id)
          (some (state.cbRef inputs ranges id))
        backends := fun backend =>
          { state.addLoop inputs ranges full submit id backend with added := added backend }
        attempted := state.attempted ++ [id]
        accepted := accepted } := by
  have notFired : id ∉ state.fired := fun fired => may.2.2.1 (consistent.accepted_of_fired fired)
  have waits (other : ℕ) : waiting inputs ranges
      { state with
        addCbRefs := Function.update state.addCbRefs (inputs.number id)
          (some (state.cbRef inputs ranges id))
        backends := fun backend =>
          { state.addLoop inputs ranges full submit id backend with added := added backend }
        attempted := state.attempted ++ [id]
        accepted := accepted } other = state.waiting inputs ranges other := by
    simp only [waiting, addLoop_copied full submit consistent may]
  constructor
  · intro backend
    obtain ⟨once, copies, works⟩ := addLoop_accounted full submit consistent may backend
    exact ⟨once, copies, works⟩
  · intro backend other member
    obtain given | ⟨rfl, gives⟩ := (addLoop_given full submit consistent may backend other).mp member
    · obtain ⟨takes, attempted⟩ := consistent.given backend other given
      exact ⟨takes, List.mem_append_left _ attempted⟩
    · exact ⟨gives.1, List.mem_append_right _ (List.mem_singleton_self _)⟩
  · exact addedOf
  · exact acceptedOf
  · intro number ref found
    simp only [Function.update_apply] at found
    split at found
    case isTrue own =>
      obtain rfl := (Option.some.inj found).symm
      have made := cbRef_eq consistent may
      have cb : (state.cbRef inputs ranges id).cb = id := by rw [made]
      rw [cb, waits, made]
      exact ⟨own.symm, ⟨List.mem_append_right _ (List.mem_singleton_self id), notFired⟩, rfl⟩
    case isFalse =>
      obtain ⟨same, flight, count⟩ := consistent.entry number ref found
      refine ⟨same, ⟨List.mem_append_left _ flight.1, flight.2⟩, ?_⟩
      rw [waits]
      exact count
  · rintro other ⟨attempted, flight⟩
    rw [waits]
    by_cases own : inputs.number other = inputs.number id
    · have same : other = id := by
        rcases List.mem_append.mp attempted with earlier | now
        · exact may.2.2.2 other earlier flight own
        · exact List.mem_singleton.mp now
      rw [same]
      refine ⟨⟨_, Function.update_self _ _ _, ?_⟩, waiting_nonempty consistent may taken⟩
      rw [cbRef_eq consistent may]
    · have earlier : other ∈ state.attempted := by
        rcases List.mem_append.mp attempted with earlier | now
        · exact earlier
        · exact absurd (congrArg inputs.number (List.mem_singleton.mp now)) own
      obtain ⟨⟨ref, found, same⟩, some⟩ := consistent.inFlight other ⟨earlier, flight⟩
      exact ⟨⟨ref, (Function.update_of_ne own _ _).trans found, same⟩, some⟩
  · exact consistent.fired
  · intro other fired
    obtain ⟨attempted, copied⟩ := consistent.copied other fired
    refine ⟨List.mem_append_left _ attempted, fun backend takes => ?_⟩
    have same := addLoop_copied full submit consistent may backend
    exact same.symm ▸ copied backend takes
  · intro signalled
    exact absurd signalled (Bool.eq_false_iff.mp may.1)
  · exact consistent.finishing

/-- An add keeps the state consistent, whoever refuses. -/
theorem add_consistent (consistent : Consistent inputs ranges state) (may : state.MayAdd inputs id)
    (taken : ∃ backend, Takes inputs ranges backend id) :
    Consistent inputs ranges (state._addInput inputs ranges full submit id).1 := by
  have successful := success_iff full submit consistent may
  have before (other : ℕ) (different : other ≠ id) : other ∈ state.accepted ↔
      other ∈ state.attempted ++ [id] ∧ ∀ backend, Takes inputs ranges backend other →
        other ∈ (state.addLoop inputs ranges full submit id backend).given := by
    simp only [addLoop_given full submit consistent may, different, false_and, or_false,
      List.mem_append, List.mem_singleton]
    exact consistent.accepted other
  rw [_addInput]
  split
  case isTrue success =>
    apply add_keeps full submit consistent may taken
    · intro backend number
      rw [Finset.mem_erase, addLoop_added full submit consistent may]
      constructor
      · rintro ⟨different, other, given, waiting, rfl⟩
        refine ⟨other, given, ?_, rfl⟩
        rw [List.mem_append, List.mem_singleton, not_or]
        exact ⟨waiting, fun same => different (congrArg inputs.number same)⟩
      · rintro ⟨other, given, waiting, rfl⟩
        rw [List.mem_append, List.mem_singleton, not_or] at waiting
        refine ⟨fun same => waiting.2 ?_, other, given, waiting.1, rfl⟩
        rcases (addLoop_given full submit consistent may backend other).mp given with
          earlier | ⟨now, -⟩
        · exact may.2.2.2 other (consistent.given backend other earlier).2
            (fun fired => waiting.1 (consistent.accepted_of_fired fired)) same
        · exact now
    · intro other
      rw [List.mem_append, List.mem_singleton]
      by_cases same : other = id
      · rw [same]
        have all := successful.mp success
        simp only [or_true, true_iff]
        exact ⟨List.mem_append_right _ (List.mem_singleton_self id), all⟩
      · rw [or_iff_left same]
        exact before other same
  case isFalse refused =>
    apply add_keeps full submit consistent may taken
      (fun backend => (state.addLoop inputs ranges full submit id backend).added) state.accepted
    · exact addLoop_added full submit consistent may
    · intro other
      by_cases same : other = id
      · rw [same]
        constructor
        · intro already
          exact absurd already may.2.2.1
        · rintro ⟨-, all⟩
          exact absurd (successful.mpr all) refused
      · exact before other same

end Add

/-! ### Notifications -/

section Sent

variable {backend : Fin n} {transfer : Option ℕ}

/-- The controller behind the counters of `_notifySent`. -/
def arrived (state : Par2Proc n) (backend : Fin n) (transfer : Option ℕ) : Par2Proc n :=
  { state with
    backends := Function.update state.backends backend ((state.backends backend).sent transfer) }

theorem arrived_copied (other : ℕ) (at_ : Fin n) :
    other ∈ ((arrived state backend transfer).backends at_).copied ↔
      other ∈ (state.backends at_).copied ∨ at_ = backend ∧ transfer = some other := by
  simp only [arrived, Function.update_apply]
  split
  case isTrue same =>
    rw [same]
    simp [ProcBackend.sent]
  case isFalse different => simp [different]

theorem arrived_fields (at_ : Fin n) :
    ((arrived state backend transfer).backends at_).given = (state.backends at_).given ∧
      ((arrived state backend transfer).backends at_).added = (state.backends at_).added ∧
      ((arrived state backend transfer).backends at_).staged = (state.backends at_).staged := by
  simp only [arrived, Function.update_apply]
  split
  case isTrue same =>
    rw [same]
    exact ⟨rfl, rfl, rfl⟩
  case isFalse => exact ⟨rfl, rfl, rfl⟩

theorem arrived_accounted (consistent : Consistent inputs ranges state)
    (member : transfer ∈ (state.backends backend).sending) (at_ : Fin n) :
    ((arrived state backend transfer).backends at_).Accounted := by
  simp only [arrived, Function.update_apply]
  split
  case isTrue => exact (consistent.accounted backend).sent member
  case isFalse => exact consistent.accounted at_

/-- Entries and callbacks that fit the copies keep the state consistent. -/
theorem arrived_keeps (consistent : Consistent inputs ranges state)
    (member : transfer ∈ (state.backends backend).sending)
    (addCbRefs : ℕ → Option AddCbRef) (fired : List ℕ)
    (entry : ∀ number ref, addCbRefs number = some ref →
      inputs.number ref.cb = number ∧ ref.cb ∈ state.attempted ∧ ref.cb ∉ fired ∧
        ref.backendsActive = ((arrived state backend transfer).waiting inputs ranges ref.cb).card)
    (inFlight : ∀ id ∈ state.attempted, id ∉ fired →
      (∃ ref, addCbRefs (inputs.number id) = some ref ∧ ref.cb = id) ∧
        ((arrived state backend transfer).waiting inputs ranges id).Nonempty)
    (once : fired.Nodup)
    (copied : ∀ id ∈ fired, id ∈ state.attempted ∧ ∀ at_, Takes inputs ranges at_ id →
      id ∈ ((arrived state backend transfer).backends at_).copied) :
    Consistent inputs ranges
      { arrived state backend transfer with addCbRefs := addCbRefs, fired := fired } := by
  constructor
  · exact arrived_accounted consistent member
  · intro at_ id given
    rw [(arrived_fields at_).1] at given
    exact consistent.given at_ id given
  · intro at_ number
    simp only [(@arrived_fields _ state _ _ at_).1, (@arrived_fields _ state _ _ at_).2.1]
    exact consistent.added at_ number
  · intro id
    simp only [(@arrived_fields _ state _ _ _).1]
    exact consistent.accepted id
  · intro number ref found
    obtain ⟨same, attempted, flight, count⟩ := entry number ref found
    exact ⟨same, ⟨attempted, flight⟩, count⟩
  · rintro id ⟨attempted, flight⟩
    exact inFlight id attempted flight
  · exact once
  · exact copied
  · intro signalled at_
    simp only [(@arrived_fields _ state _ _ at_).2.2]
    exact consistent.ending signalled at_
  · exact consistent.finishing

/-- A flush that arrives changes no input. -/
theorem sent_none (consistent : Consistent inputs ranges state)
    (member : none ∈ (state.backends backend).sending) :
    Consistent inputs ranges (arrived state backend none) := by
  have same (id : ℕ) : (arrived state backend none).waiting inputs ranges id =
      state.waiting inputs ranges id := by
    simp only [waiting, arrived_copied, reduceCtorEq, and_false, or_false]
  apply arrived_keeps consistent member state.addCbRefs state.fired
  · intro number ref found
    obtain ⟨number, flight, count⟩ := consistent.entry number ref found
    rw [same]
    exact ⟨number, flight.1, flight.2, count⟩
  · intro id attempted flight
    rw [same]
    exact consistent.inFlight id ⟨attempted, flight⟩
  · exact consistent.fired
  · intro id fired
    obtain ⟨attempted, copied⟩ := consistent.copied id fired
    refine ⟨attempted, fun at_ takes => ?_⟩
    rw [arrived_copied]
    exact .inl (copied at_ takes)

/-- A copy that arrives finds the entry of its input, and one backend less waits for it. -/
theorem sent_some (consistent : Consistent inputs ranges state) {id : ℕ}
    (member : some id ∈ (state.backends backend).sending) :
    ∃ next, (arrived state backend (some id)).backendCb inputs id = some next ∧
      Consistent inputs ranges next := by
  obtain ⟨given, notCopied⟩ := (consistent.accounted backend).of_sending member
  obtain ⟨takes, attempted⟩ := consistent.given backend id given
  have notFired : id ∉ state.fired := fun fired =>
    notCopied ((consistent.copied id fired).2 backend takes)
  obtain ⟨⟨ref, found, cb⟩, -⟩ := consistent.inFlight id ⟨attempted, notFired⟩
  obtain ⟨-, -, count⟩ := consistent.entry _ ref found
  have waits : backend ∈ state.waiting inputs ranges id :=
    Finset.mem_filter.mpr ⟨Finset.mem_univ backend, takes, notCopied⟩
  have own : (arrived state backend (some id)).waiting inputs ranges id =
      (state.waiting inputs ranges id).erase backend := by
    ext at_
    simp only [waiting, Finset.mem_filter, Finset.mem_univ, true_and, Finset.mem_erase,
      arrived_copied, and_true, not_or]
    tauto
  have others (other : ℕ) (different : other ≠ id) :
      (arrived state backend (some id)).waiting inputs ranges other =
        state.waiting inputs ranges other := by
    simp only [waiting, arrived_copied, Option.some.injEq, different.symm, and_false, or_false]
  have left := Finset.card_erase_add_one waits
  rw [← own] at left
  rw [cb] at count
  -- An input in flight with the same number is this one.
  have single : ∀ other ∈ state.attempted, other ∉ state.fired →
      inputs.number other = inputs.number id → other = id := by
    intro other attempted flight same
    obtain ⟨⟨entry, foundOther, cbOther⟩, -⟩ := consistent.inFlight other ⟨attempted, flight⟩
    rw [same, found] at foundOther
    rw [← cbOther, ← Option.some.inj foundOther, cb]
  have fetched : (arrived state backend (some id)).addCbRefs (inputs.number id) = some ref := found
  simp only [backendCb, fetched, Option.map_some, Option.some.injEq, exists_eq_left']
  split
  case isTrue last =>
    have nobody : (arrived state backend (some id)).waiting inputs ranges id = ∅ := by
      rw [← Finset.card_eq_zero]
      omega
    apply arrived_keeps consistent member
    · intro number other foundOther
      simp only [Function.update_apply] at foundOther
      split at foundOther
      case isTrue => cases foundOther
      case isFalse different =>
        obtain ⟨same, flight, waiting⟩ := consistent.entry number other foundOther
        have apart : other.cb ≠ id := fun equal => different (by rw [← same, equal])
        rw [others _ apart, cb]
        refine ⟨same, flight.1, ?_, waiting⟩
        rw [List.mem_append, List.mem_singleton, not_or]
        exact ⟨flight.2, apart⟩
    · intro other attempted flight
      rw [cb, List.mem_append, List.mem_singleton, not_or] at flight
      have different : inputs.number other ≠ inputs.number id :=
        fun same => flight.2 (single other attempted flight.1 same)
      rw [others _ flight.2]
      obtain ⟨⟨entry, foundOther, cbOther⟩, some⟩ :=
        consistent.inFlight other ⟨attempted, flight.1⟩
      exact ⟨⟨entry, (Function.update_of_ne different _ _).trans foundOther, cbOther⟩, some⟩
    · rw [cb, List.nodup_append]
      refine ⟨consistent.fired, List.nodup_singleton id, ?_⟩
      intro one fired other single same
      rw [List.mem_singleton] at single
      exact notFired (single ▸ same ▸ fired)
    · intro other fired
      rw [cb, List.mem_append, List.mem_singleton] at fired
      rcases fired with earlier | rfl
      · obtain ⟨attempted, copied⟩ := consistent.copied other earlier
        refine ⟨attempted, fun at_ takes => ?_⟩
        rw [arrived_copied]
        exact .inl (copied at_ takes)
      · refine ⟨attempted, fun at_ takes => ?_⟩
        by_contra missing
        have waits : at_ ∈ (arrived state backend (some other)).waiting inputs ranges other :=
          Finset.mem_filter.mpr ⟨Finset.mem_univ at_, takes, missing⟩
        rw [nobody] at waits
        exact absurd waits (Finset.notMem_empty at_)
  case isFalse more =>
    have somebody : ((arrived state backend (some id)).waiting inputs ranges id).Nonempty := by
      rw [← Finset.card_pos]
      omega
    apply arrived_keeps consistent member
    · intro number other foundOther
      simp only [Function.update_apply] at foundOther
      split at foundOther
      case isTrue same =>
        obtain rfl := (Option.some.inj foundOther).symm
        rw [cb]
        refine ⟨same.symm, attempted, notFired, ?_⟩
        simp only [count]
        omega
      case isFalse different =>
        obtain ⟨same, flight, waiting⟩ := consistent.entry number other foundOther
        have apart : other.cb ≠ id := fun equal => different (by rw [← same, equal])
        rw [others _ apart]
        exact ⟨same, flight.1, flight.2, waiting⟩
    · intro other attempted flight
      by_cases same : inputs.number other = inputs.number id
      · rw [single other attempted flight same]
        exact ⟨⟨_, Function.update_self _ _ _, cb⟩, somebody⟩
      · have different : other ≠ id := fun equal => same (congrArg inputs.number equal)
        rw [others _ different]
        obtain ⟨⟨entry, foundOther, cbOther⟩, some⟩ := consistent.inFlight other ⟨attempted, flight⟩
        exact ⟨⟨entry, (Function.update_of_ne same _ _).trans foundOther, cbOther⟩, some⟩
    · exact consistent.fired
    · intro other fired
      obtain ⟨attempted, copied⟩ := consistent.copied other fired
      refine ⟨attempted, fun at_ takes => ?_⟩
      rw [arrived_copied]
      exact .inl (copied at_ takes)

end Sent

/-- Backends that were given and have copied and added the same, and account for it, keep the state
consistent. -/
theorem backends_keep (consistent : Consistent inputs ranges state) (backends : Fin n → ProcBackend)
    (accounted : ∀ backend, (backends backend).Accounted)
    (same : ∀ backend, (backends backend).given = (state.backends backend).given ∧
      (backends backend).copied = (state.backends backend).copied ∧
      (backends backend).added = (state.backends backend).added)
    (ending : state.endSignalled = true → ∀ backend, (backends backend).staged = []) :
    Consistent inputs ranges { state with backends := backends } := by
  have waits (id : ℕ) : waiting inputs ranges { state with backends := backends } id =
      state.waiting inputs ranges id := by
    simp only [waiting, (same _).2.1]
  constructor
  · exact accounted
  · intro backend
    rw [(same backend).1]
    exact consistent.given backend
  · intro backend
    simp only [(same backend).1, (same backend).2.2]
    exact consistent.added backend
  · simp only [(same _).1]
    exact consistent.accepted
  · intro number ref found
    rw [waits]
    exact consistent.entry number ref found
  · intro id flight
    rw [waits]
    exact consistent.inFlight id flight
  · exact consistent.fired
  · simp only [(same _).2.1]
    exact consistent.copied
  · exact ending
  · exact consistent.finishing

theorem processed_consistent (consistent : Consistent inputs ranges state) {backend : Fin n}
    {batch : List ℕ} (member : batch ∈ (state.backends backend).active) :
    Consistent inputs ranges (state._notifyProc backend batch) := by
  have here (at_ : Fin n) (property : ProcBackend → Prop) (others : property (state.backends at_))
      (own : at_ = backend → property ((state.backends backend).processedBatch batch)) :
      property (Function.update state.backends backend
        ((state.backends backend).processedBatch batch) at_) := by
    by_cases same : at_ = backend
    · rw [same, Function.update_self]
      exact own same
    · rw [Function.update_of_ne same]
      exact others
  apply backends_keep consistent
  · intro at_
    apply here at_ ProcBackend.Accounted (consistent.accounted at_)
    intro _
    exact (consistent.accounted backend).processedBatch member
  · intro at_
    apply here at_ (fun own => own.given = (state.backends at_).given ∧
      own.copied = (state.backends at_).copied ∧ own.added = (state.backends at_).added)
    · exact ⟨rfl, rfl, rfl⟩
    · rintro rfl
      exact ⟨rfl, rfl, rfl⟩
  · intro signalled at_
    have none := consistent.ending signalled
    apply here at_ (fun own => own.staged = []) (none at_)
    intro _
    exact none backend

/-- The finish callback is called once for the end that was signalled. -/
theorem finished_consistent (consistent : Consistent inputs ranges state)
    (signalled : state.endSignalled = true) :
    Consistent inputs ranges state.processing_finished where
  accounted := consistent.accounted
  given := consistent.given
  added := consistent.added
  accepted := consistent.accepted
  entry := consistent.entry
  inFlight := consistent.inFlight
  fired := consistent.fired
  copied := consistent.copied
  ending off := by cases off
  finishing := by
    obtain ⟨callback, count⟩ := consistent.finishing
    rw [signalled] at callback count
    refine ⟨rfl, ?_⟩
    simp only [processing_finished, callback, if_true]
    exact count

/-- The controller behind the flushes of `endInput`. -/
def flushed (ranges : Fin n → BackendRange) (state : Par2Proc n) : Par2Proc n :=
  { state with
    backends := fun backend =>
      if (ranges backend).currentSliceSize > 0 then (state.backends backend).flush
      else state.backends backend
    finishCb := true
    endSignalled := true
    ended := state.ended + 1 }

/-- A backend without a part of the slice is given nothing. -/
theorem given_nil (consistent : Consistent inputs ranges state) {backend : Fin n}
    (none : (ranges backend).currentSliceSize = 0) : (state.backends backend).given = [] := by
  apply List.eq_nil_iff_forall_not_mem.mpr
  intro id given
  apply (consistent.given backend id given).1
  apply Or.inr
  rw [BackendRange.amount, none, Nat.min_zero]

theorem flushed_consistent (consistent : Consistent inputs ranges state)
    (off : state.endSignalled = false) : Consistent inputs ranges (flushed ranges state) := by
  obtain ⟨callback, count⟩ := consistent.finishing
  rw [off] at count
  have kept := backends_keep consistent (flushed ranges state).backends ?_ ?_ ?_
  · constructor
    · exact kept.accounted
    · exact kept.given
    · exact kept.added
    · exact kept.accepted
    · exact kept.entry
    · exact kept.inFlight
    · exact kept.fired
    · exact kept.copied
    · intro _ backend
      simp only [flushed]
      split
      case isTrue =>
        rw [ProcBackend.flush]
        split
        · assumption
        · rfl
      case isFalse none =>
        have given := given_nil consistent (Nat.eq_zero_of_not_pos none)
        have works := (consistent.accounted backend).works
        rw [given, List.nil_perm, List.append_eq_nil_iff, List.append_eq_nil_iff] at works
        exact works.2.2
    · exact ⟨rfl, congrArg (· + 1) count⟩
  · intro backend
    simp only [flushed]
    split
    · exact (consistent.accounted backend).flush
    · exact consistent.accounted backend
  · intro backend
    simp only [flushed, ProcBackend.flush]
    split
    · split
      · exact ⟨rfl, rfl, rfl⟩
      · exact ⟨rfl, rfl, rfl⟩
    · exact ⟨rfl, rfl, rfl⟩
  · intro signalled
    exact absurd signalled (Bool.eq_false_iff.mp off)

/-- Every step keeps the state consistent, when an input that it adds is taken by a backend. -/
theorem step_consistent {action : Action n} {next : Par2Proc n}
    (taken : ∀ id full submit, action = .add id full submit → 0 < inputs.size id →
      ∃ backend, Takes inputs ranges backend id)
    (consistent : Consistent inputs ranges state)
    (stepped : step inputs ranges state action = some next) : Consistent inputs ranges next := by
  cases action with
  | add id full submit =>
    simp only [step, Option.ite_none_right_eq_some, Option.some.injEq] at stepped
    obtain ⟨may, rfl⟩ := stepped
    exact add_consistent full submit consistent may (taken id full submit rfl may.2.1)
  | sent backend transfer =>
    simp only [step, Option.ite_none_right_eq_some] at stepped
    obtain ⟨member, stepped⟩ := stepped
    cases transfer with
    | none =>
      obtain rfl := Option.some.inj stepped
      exact sent_none consistent member
    | some id =>
      obtain ⟨after, same, kept⟩ := sent_some consistent member
      obtain rfl := Option.some.inj (same.symm.trans stepped)
      exact kept
  | processed backend batch =>
    simp only [step, Option.ite_none_right_eq_some, Option.some.injEq] at stepped
    obtain ⟨member, rfl⟩ := stepped
    exact processed_consistent consistent member
  | notified =>
    obtain rfl := Option.some.inj stepped
    rw [onBackendProcess]
    split
    case isTrue empty => exact finished_consistent consistent empty.1
    case isFalse => exact consistent
  | endInput =>
    simp only [step] at stepped
    split at stepped
    case isTrue => cases stepped
    case isFalse off =>
      obtain rfl := Option.some.inj stepped
      have kept := flushed_consistent consistent (Bool.eq_false_iff.mpr off)
      change Consistent inputs ranges (if _ then (flushed ranges state).processing_finished
        else flushed ranges state)
      split
      · exact finished_consistent kept rfl
      · exact kept

end Consistent

/-! ## What an action changes -/

variable {inputs ranges} {state : Par2Proc n}

theorem addInput_finished (full submit : Fin n → Bool) (id : ℕ) :
    (state._addInput inputs ranges full submit id).1.finished = state.finished := by
  rw [_addInput]
  split
  · rfl
  · rfl

theorem backendCb_finished {id : ℕ} {next : Par2Proc n}
    (found : state.backendCb inputs id = some next) : next.finished = state.finished := by
  obtain ⟨ref, -, rfl⟩ := Option.map_eq_some_iff.mp found
  split
  · rfl
  · rfl

theorem processing_finished_all (consistent : Consistent inputs ranges state)
    (signalled : state.endSignalled = true)
    (empty : ∀ backend, (ranges backend).currentSliceSize ≠ 0 →
      (state.backends backend).isEmpty = true) :
    ∀ id ∈ state.accepted, ∀ backend, Takes inputs ranges backend id →
      id ∈ (state.backends backend).processed := by
  intro id accepted backend takes
  have given := ((consistent.accepted id).mp accepted).2 backend takes
  apply (consistent.accounted backend).processed_of _ (consistent.ending signalled backend) given
  apply empty
  intro none
  rw [consistent.given_nil none] at given
  cases given

/-- The finish callback is called only when every input that was accepted has been processed by every
backend that takes a part of it. -/
theorem finished_processed (consistent : Consistent inputs ranges state) {action : Action n}
    {next : Par2Proc n} (stepped : step inputs ranges state action = some next)
    (more : state.finished < next.finished) :
    ∀ id ∈ next.accepted, ∀ backend, Takes inputs ranges backend id →
      id ∈ (next.backends backend).processed := by
  cases action with
  | add id full submit =>
    simp only [step, Option.ite_none_right_eq_some, Option.some.injEq] at stepped
    rw [← stepped.2, addInput_finished] at more
    exact absurd more (lt_irrefl _)
  | sent backend transfer =>
    simp only [step, Option.ite_none_right_eq_some] at stepped
    obtain ⟨-, stepped⟩ := stepped
    cases transfer with
    | none =>
      obtain rfl := Option.some.inj stepped
      exact absurd more (lt_irrefl _)
    | some id =>
      rw [backendCb_finished stepped] at more
      exact absurd more (lt_irrefl _)
  | processed backend batch =>
    simp only [step, Option.ite_none_right_eq_some, Option.some.injEq] at stepped
    rw [← stepped.2] at more
    exact absurd more (lt_irrefl _)
  | notified =>
    obtain rfl := Option.some.inj stepped
    rw [onBackendProcess] at more ⊢
    split at more
    case isTrue empty =>
      rw [if_pos empty]
      exact @processing_finished_all n inputs ranges state consistent empty.1
        fun backend _ => empty.2 backend
    case isFalse => exact absurd more (lt_irrefl _)
  | endInput =>
    simp only [step] at stepped
    split at stepped
    case isTrue => cases stepped
    case isFalse off =>
      obtain rfl := Option.some.inj stepped
      have kept := Consistent.flushed_consistent consistent (Bool.eq_false_iff.mpr off)
      have same : state.endInput ranges = if ∀ backend, (ranges backend).currentSliceSize ≠ 0 →
          ((Consistent.flushed ranges state).backends backend).isEmpty then
            (Consistent.flushed ranges state).processing_finished
          else Consistent.flushed ranges state := rfl
      rw [same] at more ⊢
      split at more
      case isTrue empty =>
        rw [if_pos empty]
        exact @processing_finished_all n inputs ranges (Consistent.flushed ranges state) kept rfl empty
      case isFalse => exact absurd more (lt_irrefl _)

/-- A notification of a prepare that is under way finds what it needs. -/
theorem sent_defined (consistent : Consistent inputs ranges state) (backend : Fin n)
    (transfer : Option ℕ) (member : transfer ∈ (state.backends backend).sending) :
    (step inputs ranges state (.sent backend transfer)).isSome := by
  rw [step, if_pos member]
  cases transfer with
  | none => rfl
  | some id =>
    obtain ⟨next, same, -⟩ := consistent.sent_some member
    exact Option.isSome_iff_exists.mpr ⟨next, same⟩

end Par2Proc

end Par3
