import Par3.GfWrapper

/-!
# What a caller may rely on

Whatever the order of adds, resends and notifications, an input reaches each of its backends once,
its callback is called with the last copy and never again, and each end is reported once, when
everything is processed.
-/
namespace Par3

/-- Every byte of the slice is in the part of one backend. -/
def Partition {n : ℕ} (ranges : Fin n → BackendRange) (sliceSize : ℕ) : Prop :=
  ∀ byte < sliceSize, ∃! backend, (ranges backend).currentOffset ≤ byte ∧
    byte < (ranges backend).currentOffset + (ranges backend).currentSliceSize

namespace Par2Proc

variable {n : ℕ} (inputs : Inputs) (ranges : Fin n → BackendRange)

/-- The backend of the first byte takes a part of every input. -/
theorem Partition.taken {sliceSize : ℕ} (filled : 0 < sliceSize)
    (partition : Partition ranges sliceSize) (id : ℕ) (size : 0 < inputs.size id) :
    ∃ backend, Takes inputs ranges backend id := by
  obtain ⟨backend, ⟨first, inside⟩, -⟩ := partition 0 filled
  have offset := Nat.le_zero.mp first
  refine ⟨backend, ?_⟩
  rw [Takes, BackendRange.Takes, BackendRange.amount, offset]
  rw [offset, zero_add] at inside
  intro skipped
  obtain behind | nothing := skipped
  · exact absurd size (Nat.not_lt.mpr behind)
  · rw [Nat.min_eq_zero_iff, Nat.sub_zero] at nothing
    obtain none | none := nothing
    · exact absurd none size.ne'
    · exact absurd none inside.ne'

/-- What a controller has given, called back and reported. -/
structure Delivered (state : Par2Proc n) : Prop where
  once : ∀ backend, (state.backends backend).given.Nodup
  accepted : ∀ id ∈ state.accepted, ∀ backend, Takes inputs ranges backend id →
    id ∈ (state.backends backend).given
  called : ∀ id, id ∈ state.fired ↔ id ∈ state.accepted ∧
    ∀ backend, Takes inputs ranges backend id → id ∈ (state.backends backend).copied
  callbacks : state.fired.Nodup
  found : ∀ backend, ∀ transfer ∈ (state.backends backend).sending,
    (state.step inputs ranges (.sent backend transfer)).isSome
  reported : state.finished + state.endSignalled.toNat = state.ended

variable {inputs ranges} {state : Par2Proc n}

theorem Consistent.delivered (consistent : Consistent inputs ranges state) :
    Delivered inputs ranges state where
  once backend := (consistent.accounted backend).once
  accepted id accepted := ((consistent.accepted id).mp accepted).2
  called id := by
    constructor
    · intro fired
      exact ⟨consistent.accepted_of_fired fired, (consistent.copied id fired).2⟩
    · rintro ⟨accepted, copied⟩
      have attempted := ((consistent.accepted id).mp accepted).1
      by_contra notFired
      obtain ⟨-, backend, waits⟩ := consistent.inFlight id ⟨attempted, notFired⟩
      obtain ⟨-, takes, missing⟩ := Finset.mem_filter.mp waits
      exact missing (copied backend takes)
  callbacks := consistent.fired
  found backend transfer := sent_defined consistent backend transfer
  reported := consistent.finishing.2

end Par2Proc

end Par3
