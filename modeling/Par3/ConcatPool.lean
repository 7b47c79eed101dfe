import Par3.Foundations.Runs
import Par3.Foundations.Slots
import Mathlib.Data.List.Nodup

/-!
# The pool of buffers for concatenated batches

A batch is copied to one buffer for the native call. Such buffers are kept in a pool of a few
slots. A caller that gets a buffer holds it until it gives it back, and meanwhile no other
caller should be given the same one.

A request that finds no buffer of its size is served with a new one. When all slots are in use,
the new buffer is also put in a slot, where the next request finds it.
-/
namespace Par3

/-- A buffer of the JavaScript heap: its identity and its size. -/
structure Allocation where
  id : ℕ
  length : ℕ
deriving DecidableEq

def CONCAT_POOL_MAX : ℕ := 4

/-- The slots, `none` for a slot that is `null`. -/
abbrev ConcatPool := List (Option Allocation)

/-- The first loop of `getConcatBuffer`: the first stored buffer that is large enough leaves its
slot. -/
def takeFitting (minSize : ℕ) (pool : ConcatPool) : Option (Allocation × ConcatPool) :=
  Slots.replaceFirst (fun buf => minSize ≤ buf.length) (fun _ => none) pool

/-- The last loop of `getConcatBuffer`: the first slot that is `null`, else the first of those
with the smallest buffer. A size that is `none` is `Infinity`. -/
def replacedSlot : ConcatPool → ℕ → ℕ → Option ℕ → ℕ
  | [], _, smallestIdx, _ => smallestIdx
  | none :: _, index, _, _ => index
  | some buf :: rest, index, smallestIdx, smallestSize =>
    if smallestSize.all (fun size => buf.length < size) then
      replacedSlot rest (index + 1) index (some buf.length)
    else replacedSlot rest (index + 1) smallestIdx smallestSize

/-- `getConcatBuffer`: the buffer for the caller and the slots after the call. A new buffer has
the identity `fresh`. -/
def getConcatBuffer (pool : ConcatPool) (fresh minSize : ℕ) : Allocation × ConcatPool :=
  match takeFitting minSize pool with
  | some taken => taken
  | none =>
    let newBuf : Allocation := ⟨fresh, minSize⟩
    if pool.length < CONCAT_POOL_MAX then (newBuf, pool)
    else (newBuf, pool.set (replacedSlot pool 0 0 none) (some newBuf))

/-- `releaseConcatBuffer`: the buffer goes to the first slot that is `null`, else to a new slot,
else it is dropped. -/
def releaseConcatBuffer (pool : ConcatPool) (buf : Allocation) : ConcatPool :=
  match Slots.fillFirst buf pool with
  | some filled => filled
  | none => if pool.length < CONCAT_POOL_MAX then pool ++ [some buf] else pool

namespace ConcatPool

open Slots

/-- A buffer that is taken fits and leaves its slot empty. -/
theorem takeFitting_some {minSize : ℕ} {pool left : ConcatPool} {buf : Allocation}
    (taken : takeFitting minSize pool = some (buf, left)) :
    minSize ≤ buf.length ∧ ∃ front back, pool = front ++ some buf :: back ∧
      left = front ++ none :: back := by
  obtain ⟨fits, places⟩ := Slots.replaceFirst_some taken
  exact ⟨of_decide_eq_true fits, places⟩

/-- No buffer is taken exactly when each stored one is too small. -/
theorem takeFitting_eq_none_iff {minSize : ℕ} {pool : ConcatPool} :
    takeFitting minSize pool = none ↔ ∀ buf ∈ stored pool, buf.length < minSize := by
  rw [takeFitting, Slots.replaceFirst_eq_none_iff]
  simp only [decide_eq_false_iff_not, Nat.not_le]

theorem replacedSlot_lt (pool : ConcatPool) (index smallestIdx : ℕ) (smallestSize : Option ℕ)
    (inside : smallestIdx < index ∨ smallestIdx = index ∧ pool ≠ [] ∧ smallestSize = none) :
    replacedSlot pool index smallestIdx smallestSize < index + pool.length := by
  induction pool generalizing index smallestIdx smallestSize with
  | nil =>
    rcases inside with before | ⟨_, nonempty, _⟩
    · exact before
    · exact absurd rfl nonempty
  | cons slot rest ih =>
    rw [List.length_cons]
    cases slot with
    | none =>
      rw [replacedSlot]
      omega
    | some buf =>
      rw [replacedSlot]
      split
      · have later := ih (index + 1) index (some buf.length) (.inl (by omega))
        omega
      · rename_i larger
        have before : smallestIdx < index := by
          rcases inside with before | ⟨_, _, unbounded⟩
          · exact before
          · exact absurd (by rw [unbounded]; rfl) larger
        have later := ih (index + 1) smallestIdx smallestSize (.inl (by omega))
        omega

/-! ## Calls in any order -/

/-- The slots, what the callers hold, and how many buffers were ever allocated. -/
structure State where
  pool : ConcatPool
  held : List Allocation
  allocated : ℕ

/-- The state when the module is loaded. -/
def State.start : State := ⟨[], [], 0⟩

inductive Call where
  | get (minSize : ℕ)
  | release (buf : Allocation)

/-- A call by any of the callers. Only a buffer that is held can be given back. -/
def step (state : State) : Call → Option State
  | .get minSize =>
    let (buf, pool) := getConcatBuffer state.pool state.allocated minSize
    some ⟨pool, buf :: state.held, state.allocated + 1⟩
  | .release buf =>
    if buf ∈ state.held then
      some ⟨releaseConcatBuffer state.pool buf, state.held.erase buf, state.allocated⟩
    else none

/-- No buffer has two holders or two slots, and a request is served with a buffer of its size. -/
structure State.Exclusive (state : State) : Prop where
  oneHolder : (state.held.map Allocation.id).Nodup
  oneSlot : ((stored state.pool).map Allocation.id).Nodup
  largeEnough : ∀ minSize,
    minSize ≤ (getConcatBuffer state.pool state.allocated minSize).1.length

/-- A request is harmless while there is a slot left for its buffer, or a stored buffer that
fits. -/
def harmless (state : State) : Call → Prop
  | .get minSize => state.pool.length < CONCAT_POOL_MAX ∨
      ∃ buf ∈ stored state.pool, minSize ≤ buf.length
  | .release _ => True

/-- A buffer that is stored is held by nobody. -/
structure State.Separate (state : State) : Prop where
  distinct : ((state.held ++ stored state.pool).map Allocation.id).Nodup
  known : ∀ buf ∈ state.held ++ stored state.pool, buf.id < state.allocated

theorem getConcatBuffer_length (pool : ConcatPool) (fresh minSize : ℕ) :
    minSize ≤ (getConcatBuffer pool fresh minSize).1.length := by
  rw [getConcatBuffer]
  cases taken : takeFitting minSize pool with
  | none =>
    simp only
    split
    · exact Nat.le_refl _
    · exact Nat.le_refl _
  | some found => exact (takeFitting_some taken).1

theorem State.Separate.exclusive {state : State} (separate : state.Separate) :
    state.Exclusive := by
  have distinct := separate.distinct
  rw [List.map_append, List.nodup_append] at distinct
  exact ⟨distinct.1, distinct.2.1, getConcatBuffer_length _ _⟩

theorem State.start_separate : State.start.Separate where
  distinct := List.nodup_nil
  known := by
    intro buf member
    cases member

/-- The invariant depends on the two lists together up to order. -/
theorem State.Separate.of_perm {state next : State} (separate : state.Separate)
    (same : (next.held ++ stored next.pool).Perm (state.held ++ stored state.pool))
    (later : state.allocated ≤ next.allocated) : next.Separate where
  distinct := (same.map _).nodup_iff.mpr separate.distinct
  known := by
    intro buf member
    exact Nat.lt_of_lt_of_le (separate.known buf (same.mem_iff.mp member)) later

/-- Buffers that nobody needs any more may be dropped. -/
theorem State.Separate.of_sublist {state next : State} (separate : state.Separate)
    (fewer : (next.held ++ stored next.pool).Sublist (state.held ++ stored state.pool))
    (later : state.allocated ≤ next.allocated) : next.Separate where
  distinct := (fewer.map _).nodup separate.distinct
  known := by
    intro buf member
    exact Nat.lt_of_lt_of_le (separate.known buf (fewer.subset member)) later

/-- A request that is harmless takes a stored buffer out of its slot, or leaves the slots as
they are and hands out a new buffer. -/
theorem separate_get {state next : State} {minSize : ℕ} (separate : state.Separate)
    (guarded : harmless state (.get minSize)) (taken : step state (.get minSize) = some next) :
    next.Separate := by
  simp only [step, getConcatBuffer] at taken
  cases found : takeFitting minSize state.pool with
  | some pair =>
    obtain ⟨buf, left⟩ := pair
    rw [found] at taken
    cases taken
    obtain ⟨_, front, back, slots, rfl⟩ := takeFitting_some found
    refine separate.of_perm ?_ (Nat.le_succ _)
    rw [slots, stored_append, stored_append, stored_none, stored_some, List.cons_append]
    rw [← List.append_assoc, ← List.append_assoc]
    exact List.perm_middle.symm
  | none =>
    have room : state.pool.length < CONCAT_POOL_MAX := by
      rcases guarded with room | ⟨buf, member, fits⟩
      · exact room
      · exact absurd fits (Nat.not_le_of_lt (takeFitting_eq_none_iff.mp found buf member))
    rw [found] at taken
    simp only [if_pos room] at taken
    cases taken
    constructor
    · rw [List.cons_append, List.map_cons, List.nodup_cons]
      refine ⟨fun known => ?_, separate.distinct⟩
      obtain ⟨buf, member, same⟩ := List.mem_map.mp known
      have older := separate.known buf member
      simp only at same
      omega
    · intro buf member
      rcases List.mem_cons.mp member with rfl | older
      · exact Nat.lt_succ_self _
      · exact Nat.lt_succ_of_lt (separate.known buf older)

theorem separate_release {state next : State} {buf : Allocation} (separate : state.Separate)
    (taken : step state (.release buf) = some next) : next.Separate := by
  rw [step] at taken
  split at taken
  · rename_i holds
    cases taken
    have returned : (state.held.erase buf ++ buf :: stored state.pool).Perm
        (state.held ++ stored state.pool) :=
      List.perm_middle.trans (List.Perm.append_right _ (List.perm_cons_erase holds).symm)
    rw [releaseConcatBuffer]
    cases placed : Slots.fillFirst buf state.pool with
    | some filled =>
      obtain ⟨front, back, slots, rfl⟩ := fillFirst_some placed
      refine separate.of_perm (List.Perm.trans ?_ returned) (Nat.le_refl _)
      simp only [slots, stored_append, stored_none, stored_some]
      exact List.Perm.append_left _ List.perm_middle
    | none =>
      simp only
      split
      · refine separate.of_perm (List.Perm.trans ?_ returned) (Nat.le_refl _)
        simp only [stored_append, stored_some, stored_nil]
        exact List.Perm.append_left _ (List.perm_append_singleton _ _)
      · refine separate.of_sublist ?_ (Nat.le_refl _)
        exact List.Sublist.append_right (List.erase_sublist) _
  · cases taken

theorem separate_step (state : State) (call : Call) (next : State) (separate : state.Separate)
    (guarded : harmless state call) (taken : step state call = some next) : next.Separate := by
  cases call with
  | get minSize => exact separate_get separate guarded taken
  | release buf => exact separate_release separate taken

/-- A request that finds all slots in use and no buffer of its size is given a buffer that the
next request of that size is given as well. -/
theorem get_twice {state : State} {minSize : ℕ} (full : ¬ harmless state (.get minSize)) :
    ∃ last, Machine.run step state [.get minSize, .get minSize] = some last ∧
      ¬ last.Exclusive := by
  rw [harmless, not_or, not_exists] at full
  obtain ⟨noRoom, unfit⟩ := full
  have small : ∀ buf ∈ stored state.pool, buf.length < minSize := by
    intro buf member
    exact Nat.not_le.mp fun fits => unfit buf ⟨member, fits⟩
  have slots : 0 < state.pool.length := by
    rw [CONCAT_POOL_MAX] at noRoom
    omega
  have inside : replacedSlot state.pool 0 0 none < state.pool.length := by
    have bound := replacedSlot_lt state.pool 0 0 none
      (.inr ⟨rfl, List.ne_nil_of_length_pos slots, rfl⟩)
    omega
  obtain ⟨front, back, split, _, replaced⟩ :=
    @List.exists_of_set _ _ (some (Allocation.mk state.allocated minSize)) _ inside
  have first : getConcatBuffer state.pool state.allocated minSize =
      (⟨state.allocated, minSize⟩, front ++ some ⟨state.allocated, minSize⟩ :: back) := by
    rw [getConcatBuffer, takeFitting_eq_none_iff.mpr small]
    simp only [if_neg noRoom, replaced]
  have smallFront : ∀ other, some other ∈ front → other.length < minSize := by
    intro other member
    apply small other
    rw [mem_stored, split]
    exact List.mem_append_left _ member
  have second : getConcatBuffer (front ++ some ⟨state.allocated, minSize⟩ :: back)
      (state.allocated + 1) minSize = (⟨state.allocated, minSize⟩, front ++ none :: back) := by
    have found : takeFitting minSize (front ++ some ⟨state.allocated, minSize⟩ :: back) =
        some (⟨state.allocated, minSize⟩, front ++ none :: back) :=
      replaceFirst_first (fun other member => decide_eq_false (Nat.not_le.mpr (smallFront other member)))
        (decide_eq_true (Nat.le_refl _))
    rw [getConcatBuffer, found]
  refine ⟨⟨front ++ none :: back, ⟨state.allocated, minSize⟩ :: ⟨state.allocated, minSize⟩ ::
    state.held, state.allocated + 2⟩, ?_, ?_⟩
  · simp only [Machine.run_cons, step, first, second, Option.bind_some, Machine.run_nil]
  · rintro ⟨oneHolder, _, _⟩
    simp at oneHolder

/-- While each request finds a slot left or a stored buffer that fits, no buffer is handed out
or stored twice. At the first request that does not, a second one like it breaks this. -/
theorem exclusive_of_harmless (calls : List Call)
    (guarded : Machine.Guarded step harmless State.start calls) :
    Machine.Throughout step State.Exclusive State.start calls ∧
      ∀ state minSize, Machine.run step State.start calls = some state →
        ¬ harmless state (.get minSize) →
        ∃ last, Machine.run step state [.get minSize, .get minSize] = some last ∧
          ¬ last.Exclusive :=
  ⟨(guarded.throughout separate_step State.start_separate).imp fun _ => State.Separate.exclusive,
    fun _ _ _ full => get_twice full⟩

/-- Two buffers are held, and the one that is given back is used again. -/
theorem two_buffers_exclusive :
    Machine.Throughout step State.Exclusive State.start
      [.get 16, .get 8, .release ⟨0, 16⟩, .get 8] := by
  refine (exclusive_of_harmless _ ?_).1
  intro first taken
  obtain rfl := Option.some.inj taken
  refine ⟨.inl (by decide), fun second taken => ?_⟩
  obtain rfl := Option.some.inj taken
  refine ⟨.inl (by decide), fun third taken => ?_⟩
  obtain rfl := Option.some.inj taken
  refine ⟨trivial, fun fourth taken => ?_⟩
  obtain rfl := Option.some.inj taken
  exact ⟨.inr ⟨⟨0, 16⟩, by decide, by decide⟩, trivial⟩

/-- Four buffers are got and given back. The next two requests are for more bytes than any of
them has, and both get the same buffer. -/
theorem replaced_buffer_shared : ¬ ∀ calls,
    Machine.Throughout step State.Exclusive State.start calls := by
  intro always
  have full : ¬ harmless ⟨[some ⟨0, 8⟩, some ⟨1, 8⟩, some ⟨2, 8⟩, some ⟨3, 8⟩], [], 4⟩
      (.get 16) := by
    simp [harmless, CONCAT_POOL_MAX, stored]
  obtain ⟨last, reached, broken⟩ := get_twice full
  refine broken ((always [.get 8, .get 8, .get 8, .get 8, .release ⟨0, 8⟩, .release ⟨1, 8⟩,
    .release ⟨2, 8⟩, .release ⟨3, 8⟩, .get 16, .get 16]).last ?_)
  rw [← reached]
  rfl

end ConcatPool

end Par3
