import Par3.Foundations.Runs
import Par3.Foundations.Slots
import Par3.ConcatPool
import Par3.Bytes
import Mathlib.Algebra.BigOperators.Group.List.Basic

/-!
# The pool of recovery buffers

Recovery blocks are accumulated in a buffer that starts out as zero. The buffers of earlier
creates are kept for reuse, up to a budget. A buffer that is handed out again is zeroed first,
and the ones that nobody uses are evicted, the least recently used first, while the pool is over
its budget.
-/
namespace Par3

/-- An entry of `recoveryBufferPool`. -/
structure PoolEntry where
  buf : Allocation
  size : ℕ
  lastUsed : ℕ
  inUse : Bool
deriving DecidableEq

def RECOVERY_BUFFER_POOL_MAX_BYTES : ℕ := 16 * 1024 * 1024

/-- The entries, `none` for a slot that is `null`. -/
abbrev RecoveryPool := List (Option PoolEntry)

/-- The sum that `_evictRecoveryBufferPoolIfOverBudget` starts with. -/
def retainedBytes (pool : RecoveryPool) : ℕ := ((Slots.stored pool).map PoolEntry.size).sum

/-- The inner loop of the eviction: the index of the unused entry with the smallest `lastUsed`.
What was found so far is `oldest`, an index with its time, `none` for `-1` and `Infinity`. -/
def oldestUnused : RecoveryPool → ℕ → Option (ℕ × ℕ) → Option ℕ
  | [], _, oldest => oldest.map Prod.fst
  | none :: rest, index, oldest => oldestUnused rest (index + 1) oldest
  | some entry :: rest, index, oldest =>
    if entry.inUse = false ∧ oldest.all (fun found => entry.lastUsed < found.2) then
      oldestUnused rest (index + 1) (some (index, entry.lastUsed))
    else oldestUnused rest (index + 1) oldest

/-- The size of the entry at an index. -/
def entrySize (pool : RecoveryPool) (index : ℕ) : ℕ :=
  (pool.getD index none).elim 0 PoolEntry.size

/-- One round of the eviction loop over the byte counter and the slots, `none` when it ends. -/
def evictRound : ℕ × RecoveryPool → Option (ℕ × RecoveryPool)
  | (total, pool) =>
    if RECOVERY_BUFFER_POOL_MAX_BYTES < total then
      (oldestUnused pool 0 none).map fun oldestIdx =>
        (total - entrySize pool oldestIdx, pool.set oldestIdx none)
    else none

/-- So many rounds of the eviction loop, or fewer when it ends before. -/
def evictRounds : ℕ → ℕ × RecoveryPool → ℕ × RecoveryPool
  | 0, counted => counted
  | rounds + 1, counted =>
    match evictRound counted with
    | none => counted
    | some next => evictRounds rounds next

/-- `_evictRecoveryBufferPoolIfOverBudget`. A round empties a slot, so there are no more rounds
than slots. -/
def evictIfOverBudget (pool : RecoveryPool) : RecoveryPool :=
  (evictRounds pool.length (retainedBytes pool, pool)).2

namespace RecoveryPool

open Slots

/-- The pool, the counter of uses, the bytes of every buffer, how many buffers were ever
allocated, and the buffers that were handed out and not given back. -/
structure State where
  pool : RecoveryPool
  lastUsedSeq : ℕ
  contents : ℕ → Buffer
  allocated : ℕ
  held : List Allocation

/-- The state when the module is loaded. -/
def State.start : State := ⟨[], 0, fun _ => [], 0, []⟩

/-- `Buffer.alloc(size)`: a new buffer of zeros. -/
def State.alloc (state : State) (size : ℕ) : Allocation × State :=
  (⟨state.allocated, size⟩,
    { state with
      contents := Function.update state.contents state.allocated (List.replicate size 0)
      allocated := state.allocated + 1 })

/-- `buf.fill(0)`. -/
def State.fillZero (state : State) (buf : Allocation) : State :=
  { state with contents := Function.update state.contents buf.id (List.replicate buf.length 0) }

/-- `acquireRecoveryBuffer`: the buffer and the state after the call, without who holds it. -/
def acquireRecoveryBuffer (state : State) (size : ℕ) : Allocation × State :=
  let now := state.lastUsedSeq + 1
  let state := { state with lastUsedSeq := now }
  if RECOVERY_BUFFER_POOL_MAX_BYTES < size then state.alloc size
  else
    match replaceFirst (fun entry => entry.size = size ∧ entry.inUse = false)
      (fun entry => some { entry with inUse := true, lastUsed := now }) state.pool with
    | some (entry, pool) => (entry.buf, ({ state with pool := pool }).fillZero entry.buf)
    | none =>
      let (buf, state) := state.alloc size
      let newEntry : PoolEntry := ⟨buf, size, now, true⟩
      match fillFirst newEntry state.pool with
      | some pool => (buf, { state with pool := evictIfOverBudget pool })
      | none => (buf, { state with pool := evictIfOverBudget (state.pool ++ [some newEntry]) })

/-- `releaseRecoveryBuffer`. -/
def releaseRecoveryBuffer (state : State) (buf : Allocation) : State :=
  match replaceFirst (fun entry => entry.buf = buf)
    (fun entry => some { entry with inUse := false, lastUsed := state.lastUsedSeq + 1 })
    state.pool with
  | some (_, pool) =>
    { state with pool := evictIfOverBudget pool, lastUsedSeq := state.lastUsedSeq + 1 }
  | none => { state with pool := evictIfOverBudget state.pool }

inductive Operation where
  | acquire (size : ℕ)
  | release (buf : Allocation)
  | evict
  | reset
  | write (buf : Allocation) (bytes : Buffer)

/-- What an operation does. A buffer can be given back by anyone, and be written at any time. -/
def State.apply (state : State) : Operation → State
  | .acquire size =>
    let (buf, next) := acquireRecoveryBuffer state size
    { next with held := buf :: next.held }
  | .release buf =>
    { releaseRecoveryBuffer state buf with held := state.held.erase buf }
  | .evict => { state with pool := evictIfOverBudget state.pool }
  | .reset => { state with pool := [] }
  | .write buf bytes => { state with contents := Function.update state.contents buf.id bytes }

/-! ## Eviction -/

theorem retainedBytes_split (front back : RecoveryPool) (entry : PoolEntry) :
    retainedBytes (front ++ some entry :: back) =
      retainedBytes (front ++ none :: back) + entry.size := by
  simp only [retainedBytes, stored_append, stored_some, stored_none, List.map_append,
    List.map_cons, List.sum_append, List.sum_cons]
  omega

/-- The index that the inner loop finds is one of an unused entry, or the one it started with. -/
theorem oldestUnused_some {pool : RecoveryPool} {index found : ℕ} {oldest : Option (ℕ × ℕ)}
    (chosen : oldestUnused pool index oldest = some found) :
    (∃ time, oldest = some (found, time)) ∨
      ∃ front entry back, pool = front ++ some entry :: back ∧ entry.inUse = false ∧
        found = index + front.length := by
  induction pool generalizing index oldest with
  | nil =>
    obtain ⟨⟨_, time⟩, same, rfl⟩ := Option.map_eq_some_iff.mp chosen
    exact .inl ⟨time, same⟩
  | cons slot rest ih =>
    have later : ∀ front entry back, rest = front ++ some entry :: back → entry.inUse = false →
        found = index + 1 + front.length → ∃ front entry back,
          slot :: rest = front ++ some entry :: back ∧ entry.inUse = false ∧
            found = index + front.length := by
      intro front entry back split unused place
      refine ⟨slot :: front, entry, back, by rw [split, List.cons_append], unused, ?_⟩
      rw [place, List.length_cons]
      omega
    cases slot with
    | none =>
      rcases ih chosen with started | ⟨front, entry, back, split, unused, place⟩
      · exact .inl started
      · exact .inr (later front entry back split unused place)
    | some entry =>
      rw [oldestUnused] at chosen
      split at chosen
      · rename_i older
        rcases ih chosen with ⟨time, same⟩ | ⟨front, other, back, split, unused, place⟩
        · cases same
          exact .inr ⟨[], entry, rest, rfl, older.1, rfl⟩
        · exact .inr (later front other back split unused place)
      · rcases ih chosen with started | ⟨front, other, back, split, unused, place⟩
        · exact .inl started
        · exact .inr (later front other back split unused place)

/-- The inner loop finds nothing only when it started with nothing and all entries are in use. -/
theorem oldestUnused_none {pool : RecoveryPool} {index : ℕ} {oldest : Option (ℕ × ℕ)}
    (missed : oldestUnused pool index oldest = none) :
    oldest = none ∧ ∀ entry ∈ stored pool, entry.inUse = true := by
  induction pool generalizing index oldest with
  | nil =>
    refine ⟨Option.map_eq_none_iff.mp missed, ?_⟩
    intro entry member
    cases member
  | cons slot rest ih =>
    cases slot with
    | none => exact ih missed
    | some entry =>
      rw [oldestUnused] at missed
      split at missed
      · cases (ih missed).1
      · rename_i newer
        obtain ⟨rfl, others⟩ := ih missed
        refine ⟨rfl, ?_⟩
        intro other member
        rcases List.mem_cons.mp member with rfl | member
        · by_contra unused
          exact newer ⟨Bool.not_eq_true _ ▸ unused, rfl⟩
        · exact others other member

/-- A round of the eviction takes an unused entry out of its slot and its size off the counter. -/
theorem evictRound_some {counted next : ℕ × RecoveryPool} (taken : evictRound counted = some next) :
    ∃ front entry back, counted.2 = front ++ some entry :: back ∧ entry.inUse = false ∧
      next = (counted.1 - entry.size, front ++ none :: back) := by
  obtain ⟨total, pool⟩ := counted
  rw [evictRound] at taken
  split at taken
  · obtain ⟨found, chosen, rfl⟩ := Option.map_eq_some_iff.mp taken
    rcases oldestUnused_some chosen with ⟨time, same⟩ | ⟨front, entry, back, rfl, unused, rfl⟩
    · cases same
    · refine ⟨front, entry, back, rfl, unused, ?_⟩
      simp [entrySize]
  · cases taken

/-- The eviction ends within the budget, or with all entries in use. -/
theorem evictRound_none {counted : ℕ × RecoveryPool} (ended : evictRound counted = none) :
    counted.1 ≤ RECOVERY_BUFFER_POOL_MAX_BYTES ∨
      ∀ entry ∈ stored counted.2, entry.inUse = true := by
  obtain ⟨total, pool⟩ := counted
  rw [evictRound] at ended
  split at ended
  · exact .inr (oldestUnused_none (Option.map_eq_none_iff.mp ended)).2
  · rename_i within
    exact .inl (Nat.not_lt.mp within)

/-- The byte counter is the total size of the entries that are left, after any number of
rounds. -/
theorem evictRounds_counter (rounds : ℕ) (counted : ℕ × RecoveryPool)
    (exact : counted.1 = retainedBytes counted.2) :
    (evictRounds rounds counted).1 = retainedBytes (evictRounds rounds counted).2 := by
  induction rounds generalizing counted with
  | zero => exact exact
  | succ rounds ih =>
    rw [evictRounds]
    cases taken : evictRound counted with
    | none => exact exact
    | some next =>
      apply ih next
      obtain ⟨front, entry, back, split, _, rfl⟩ := evictRound_some taken
      rw [split, retainedBytes_split] at exact
      simp only
      omega

theorem evictRounds_sublist (rounds : ℕ) (counted : ℕ × RecoveryPool) :
    (stored (evictRounds rounds counted).2).Sublist (stored counted.2) := by
  induction rounds generalizing counted with
  | zero => exact List.Sublist.refl _
  | succ rounds ih =>
    rw [evictRounds]
    cases taken : evictRound counted with
    | none => exact List.Sublist.refl _
    | some next =>
      apply (ih next).trans
      obtain ⟨front, entry, back, split, _, rfl⟩ := evictRound_some taken
      rw [split, stored_append, stored_append, stored_none, stored_some]
      exact List.Sublist.append_left (List.sublist_cons_self _ _) _

/-- A round for every entry is enough for the eviction to end. -/
theorem evictRounds_ended (rounds : ℕ) (counted : ℕ × RecoveryPool)
    (exact : counted.1 = retainedBytes counted.2)
    (enough : (stored counted.2).length ≤ rounds) :
    evictRound (evictRounds rounds counted) = none := by
  induction rounds generalizing counted with
  | zero =>
    have empty := List.length_eq_zero_iff.mp (Nat.le_zero.mp enough)
    obtain ⟨total, pool⟩ := counted
    rw [retainedBytes, empty] at exact
    have nothing : total = 0 := exact
    rw [evictRounds, evictRound, nothing, if_neg (Nat.not_lt_zero _)]
  | succ rounds ih =>
    have counter := evictRounds_counter 1 counted exact
    rw [evictRounds] at counter ⊢
    cases taken : evictRound counted with
    | none => exact taken
    | some next =>
      rw [taken] at counter
      apply ih next counter
      obtain ⟨front, entry, back, split, _, rfl⟩ := evictRound_some taken
      rw [split, stored_append, stored_some, List.length_append, List.length_cons] at enough
      rw [stored_append, stored_none, List.length_append]
      omega

theorem evictIfOverBudget_sublist (pool : RecoveryPool) :
    (stored (evictIfOverBudget pool)).Sublist (stored pool) :=
  evictRounds_sublist _ _

theorem evictIfOverBudget_budget (pool : RecoveryPool)
    (above : RECOVERY_BUFFER_POOL_MAX_BYTES < retainedBytes (evictIfOverBudget pool)) :
    ∀ entry ∈ stored (evictIfOverBudget pool), entry.inUse = true := by
  have ended := evictRounds_ended pool.length (retainedBytes pool, pool) rfl (stored_length_le pool)
  have counter := evictRounds_counter pool.length (retainedBytes pool, pool) rfl
  rcases evictRound_none ended with within | used
  · rw [counter] at within
    exact absurd within (Nat.not_le.mpr above)
  · exact used

/-! ## Operations in any order -/

/-- An operation as a step: it is always accepted. -/
def step (state : State) (operation : Operation) : Option State := some (state.apply operation)

/-- What a request of any size gets is zero, large enough and held by nobody; the eviction's byte
counter is the size of what is retained; and more than the budget is retained only when
somebody holds each of the buffers. -/
structure State.Safe (state : State) : Prop where
  zeroed : ∀ size, (acquireRecoveryBuffer state size).2.contents
      (acquireRecoveryBuffer state size).1.id =
    List.replicate (acquireRecoveryBuffer state size).1.length 0
  largeEnough : ∀ size, size ≤ (acquireRecoveryBuffer state size).1.length
  unheld : ∀ size, (acquireRecoveryBuffer state size).1.id ∉ state.held.map Allocation.id
  counted : ∀ rounds pool, (evictRounds rounds (retainedBytes pool, pool)).1 =
    retainedBytes (evictRounds rounds (retainedBytes pool, pool)).2
  budget : RECOVERY_BUFFER_POOL_MAX_BYTES < retainedBytes state.pool →
    ∀ entry ∈ stored state.pool, entry.buf ∈ state.held

/-- The entries agree with the buffers they have, and with who holds them. -/
structure State.Consistent (state : State) : Prop where
  sizes : ∀ entry ∈ stored state.pool, entry.size = entry.buf.length
  distinct : ((stored state.pool).map fun entry => entry.buf.id).Nodup
  allocatedEntries : ∀ entry ∈ stored state.pool, entry.buf.id < state.allocated
  allocatedHeld : ∀ buf ∈ state.held, buf.id < state.allocated
  oneHolder : state.held.Nodup
  sameBuffer : ∀ entry ∈ stored state.pool, ∀ buf ∈ state.held,
    entry.buf.id = buf.id → entry.buf = buf
  inUse : ∀ entry ∈ stored state.pool, entry.inUse = true ↔ entry.buf ∈ state.held

/-- Entries may be dropped. -/
theorem State.Consistent.of_sublist {state : State} (consistent : state.Consistent)
    {pool : RecoveryPool} (fewer : (stored pool).Sublist (stored state.pool)) :
    ({ state with pool := pool } : State).Consistent where
  sizes entry member := consistent.sizes entry (fewer.subset member)
  distinct := (fewer.map _).nodup consistent.distinct
  allocatedEntries entry member := consistent.allocatedEntries entry (fewer.subset member)
  allocatedHeld := consistent.allocatedHeld
  oneHolder := consistent.oneHolder
  sameBuffer entry member := consistent.sameBuffer entry (fewer.subset member)
  inUse entry member := consistent.inUse entry (fewer.subset member)

theorem State.Consistent.evicted {state : State} (consistent : state.Consistent) :
    ({ state with pool := evictIfOverBudget state.pool } : State).Consistent :=
  consistent.of_sublist (evictIfOverBudget_sublist _)

/-- The invariant of the pool. -/
structure State.Sound (state : State) : Prop extends state.Consistent where
  evicted : RECOVERY_BUFFER_POOL_MAX_BYTES < retainedBytes state.pool →
    ∀ entry ∈ stored state.pool, entry.inUse = true

theorem State.Consistent.sound {state : State} (consistent : state.Consistent) :
    ({ state with pool := evictIfOverBudget state.pool } : State).Sound :=
  ⟨consistent.evicted, evictIfOverBudget_budget _⟩

theorem State.start_sound : State.start.Sound := by
  refine ⟨⟨?_, List.nodup_nil, ?_, ?_, List.nodup_nil, ?_, ?_⟩, ?_⟩
  · intro entry member
    cases member
  · intro entry member
    cases member
  · intro buf member
    cases member
  · intro entry member
    cases member
  · intro entry member
    cases member
  · intro _ entry member
    cases member

section

variable {state : State} (consistent : state.Consistent)
include consistent

/-- A buffer that was just allocated is nobody's, and in no entry. -/
theorem State.Consistent.fresh : state.allocated ∉ state.held.map Allocation.id := by
  intro member
  obtain ⟨buf, holds, same⟩ := List.mem_map.mp member
  have older := consistent.allocatedHeld buf holds
  omega

theorem State.Consistent.unused {entry : PoolEntry} (member : entry ∈ stored state.pool)
    (unused : entry.inUse = false) : entry.buf.id ∉ state.held.map Allocation.id := by
  intro held
  obtain ⟨buf, holds, same⟩ := List.mem_map.mp held
  have equal := consistent.sameBuffer entry member buf holds same.symm
  rw [← equal, ← consistent.inUse entry member, unused] at holds
  cases holds

/-- An entry is told from the others by its buffer. -/
theorem State.Consistent.other {front back : RecoveryPool} {entry other : PoolEntry}
    (split : state.pool = front ++ some entry :: back)
    (member : other ∈ stored front ++ stored back) : other.buf.id ≠ entry.buf.id := by
  have distinct := consistent.distinct
  rw [split, stored_append, stored_some, List.map_append, List.map_cons] at distinct
  have apart := List.nodup_middle.mp distinct
  rw [List.nodup_cons, ← List.map_append] at apart
  intro same
  exact apart.1 (List.mem_map.mpr ⟨other, member, same⟩)

/-- A new buffer is handed out, and an entry made for it or not. -/
theorem State.Consistent.handOutNew {next : State} {size now : ℕ}
    (entries : (stored next.pool).Perm
        (⟨⟨state.allocated, size⟩, size, now, true⟩ :: stored state.pool) ∨
      next.pool = state.pool)
    (allocated : next.allocated = state.allocated + 1)
    (held : next.held = ⟨state.allocated, size⟩ :: state.held) : next.Consistent := by
  have known : ∀ entry ∈ stored next.pool,
      entry = ⟨⟨state.allocated, size⟩, size, now, true⟩ ∨ entry ∈ stored state.pool := by
    intro entry member
    rcases entries with added | same
    · exact List.mem_cons.mp (added.mem_iff.mp member)
    · exact .inr (same ▸ member)
  have apart : ∀ entry ∈ stored state.pool, entry.buf ≠ ⟨state.allocated, size⟩ := by
    intro entry member same
    have older := consistent.allocatedEntries entry member
    rw [same] at older
    exact Nat.lt_irrefl _ older
  constructor
  · intro entry member
    rcases known entry member with rfl | older
    · rfl
    · exact consistent.sizes entry older
  · rcases entries with added | same
    · rw [(added.map _).nodup_iff, List.map_cons, List.nodup_cons]
      refine ⟨fun member => ?_, consistent.distinct⟩
      obtain ⟨entry, older, same⟩ := List.mem_map.mp member
      exact Nat.lt_irrefl _ (same ▸ consistent.allocatedEntries entry older)
    · rw [same]
      exact consistent.distinct
  · intro entry member
    rw [allocated]
    rcases known entry member with rfl | older
    · exact Nat.lt_succ_self _
    · exact Nat.lt_succ_of_lt (consistent.allocatedEntries entry older)
  · intro buf member
    rw [allocated]
    rw [held] at member
    rcases List.mem_cons.mp member with rfl | older
    · exact Nat.lt_succ_self _
    · exact Nat.lt_succ_of_lt (consistent.allocatedHeld buf older)
  · rw [held, List.nodup_cons]
    refine ⟨fun member => ?_, consistent.oneHolder⟩
    exact Nat.lt_irrefl _ (consistent.allocatedHeld _ member)
  · intro entry member buf holds same
    rw [held] at holds
    rcases known entry member with rfl | older
    · rcases List.mem_cons.mp holds with rfl | holds
      · rfl
      · exact absurd (same ▸ consistent.allocatedHeld buf holds) (Nat.lt_irrefl _)
    · rcases List.mem_cons.mp holds with rfl | holds
      · exact absurd (same ▸ consistent.allocatedEntries entry older) (Nat.lt_irrefl _)
      · exact consistent.sameBuffer entry older buf holds same
  · intro entry member
    rw [held]
    rcases known entry member with rfl | older
    · exact iff_of_true rfl List.mem_cons_self
    · rw [consistent.inUse entry older, List.mem_cons]
      exact (or_iff_right (apart entry older)).symm

/-- An entry changes its mark, and with it whether its buffer is held. -/
theorem State.Consistent.mark {next : State} {front back : RecoveryPool} {entry : PoolEntry}
    {used : Bool} {now : ℕ} (split : state.pool = front ++ some entry :: back)
    (pool : next.pool = front ++ some { entry with inUse := used, lastUsed := now } :: back)
    (allocated : next.allocated = state.allocated)
    (held : ∀ buf, buf ∈ next.held ↔ if buf = entry.buf then used = true else buf ∈ state.held)
    (oneHolder : next.held.Nodup) : next.Consistent := by
  have known : ∀ other ∈ stored next.pool, other = { entry with inUse := used, lastUsed := now } ∨
      other ∈ stored front ++ stored back := by
    intro other member
    rw [pool, stored_append, stored_some] at member
    exact List.mem_cons.mp (List.perm_middle.mem_iff.mp member)
  have here : entry ∈ stored state.pool := by
    rw [split]
    simp
  have older : ∀ other ∈ stored front ++ stored back, other ∈ stored state.pool := by
    intro other member
    rw [split, stored_append, stored_some]
    exact List.perm_middle.mem_iff.mpr (List.mem_cons_of_mem _ member)
  have holders : ∀ buf ∈ next.held, buf = entry.buf ∨ buf ∈ state.held := by
    intro buf holds
    rw [held] at holds
    split at holds
    · exact .inl ‹_›
    · exact .inr holds
  constructor
  · intro other member
    rcases known other member with rfl | elsewhere
    · exact consistent.sizes entry here
    · exact consistent.sizes other (older other elsewhere)
  · have distinct := consistent.distinct
    rw [split, stored_append, stored_some, List.map_append, List.map_cons] at distinct
    rw [pool, stored_append, stored_some, List.map_append, List.map_cons]
    exact distinct
  · intro other member
    rw [allocated]
    rcases known other member with rfl | elsewhere
    · exact consistent.allocatedEntries entry here
    · exact consistent.allocatedEntries other (older other elsewhere)
  · intro buf holds
    rw [allocated]
    rcases holders buf holds with rfl | holds
    · exact consistent.allocatedEntries entry here
    · exact consistent.allocatedHeld buf holds
  · exact oneHolder
  · intro other member buf holds same
    rcases known other member with rfl | elsewhere
    · rcases holders buf holds with rfl | holds
      · rfl
      · exact consistent.sameBuffer entry here buf holds same
    · rcases holders buf holds with rfl | holds
      · exact absurd same (consistent.other split elsewhere)
      · exact consistent.sameBuffer other (older other elsewhere) buf holds same
  · intro other member
    rw [held]
    rcases known other member with rfl | elsewhere
    · rw [if_pos rfl]
    · have apart : other.buf ≠ entry.buf := fun same =>
        consistent.other split elsewhere (congrArg Allocation.id same)
      rw [if_neg apart]
      exact consistent.inUse other (older other elsewhere)

/-- A buffer without an entry is given back, or one that nobody holds. -/
theorem State.Consistent.forget {next : State} {buf : Allocation} (pool : next.pool = state.pool)
    (allocated : next.allocated = state.allocated) (held : next.held = state.held.erase buf)
    (unpooled : ∀ entry ∈ stored state.pool, entry.buf ≠ buf) : next.Consistent where
  sizes := by
    rw [pool]
    exact consistent.sizes
  distinct := by
    rw [pool]
    exact consistent.distinct
  allocatedEntries := by
    rw [pool, allocated]
    exact consistent.allocatedEntries
  allocatedHeld := by
    rw [held, allocated]
    exact fun other holds => consistent.allocatedHeld other (List.mem_of_mem_erase holds)
  oneHolder := by
    rw [held]
    exact consistent.oneHolder.erase buf
  sameBuffer := by
    rw [held, pool]
    exact fun entry member other holds =>
      consistent.sameBuffer entry member other (List.mem_of_mem_erase holds)
  inUse := by
    rw [held, pool]
    intro entry member
    rw [consistent.inUse entry member, List.mem_erase_of_ne (unpooled entry member)]

end

/-- What a request gets: a new buffer, or one whose entry is not in use, and in both cases one of
its size that is filled with zeros. -/
theorem acquireRecoveryBuffer_result {state : State} (consistent : state.Consistent) (size : ℕ) :
    (acquireRecoveryBuffer state size).2.contents (acquireRecoveryBuffer state size).1.id =
        List.replicate (acquireRecoveryBuffer state size).1.length 0 ∧
      (acquireRecoveryBuffer state size).1.length = size ∧
      (acquireRecoveryBuffer state size).1.id ∉ state.held.map Allocation.id := by
  simp only [acquireRecoveryBuffer]
  split
  · refine ⟨?_, rfl, consistent.fresh⟩
    simp only [State.alloc, Function.update_self]
  · split
    · rename_i entry pool found
      obtain ⟨accepted, front, back, split, _⟩ := replaceFirst_some found
      obtain ⟨sameSize, unused⟩ := of_decide_eq_true accepted
      have member : entry ∈ stored state.pool := by
        rw [split]
        simp
      refine ⟨?_, ?_, consistent.unused member unused⟩
      · simp only [State.fillZero, Function.update_self]
      · rw [← consistent.sizes entry member, sameSize]
    · split
      · refine ⟨?_, rfl, consistent.fresh⟩
        simp only [State.alloc, Function.update_self]
      · refine ⟨?_, rfl, consistent.fresh⟩
        simp only [State.alloc, Function.update_self]

theorem sound_acquire {state : State} (sound : state.Sound) (size : ℕ) :
    (state.apply (.acquire size)).Sound := by
  have consistent := sound.toConsistent
  simp only [State.apply, acquireRecoveryBuffer]
  split
  · have handedOut := @State.Consistent.handOutNew _ consistent
      { (State.alloc { state with lastUsedSeq := state.lastUsedSeq + 1 } size).2 with
        held := ⟨state.allocated, size⟩ :: state.held } size 0 (.inr rfl) rfl rfl
    refine ⟨handedOut, fun above entry member => ?_⟩
    exact sound.evicted above entry member
  · split
    · rename_i entry pool found
      obtain ⟨accepted, front, back, split, rfl⟩ := replaceFirst_some found
      obtain ⟨_, unused⟩ := of_decide_eq_true accepted
      have member : entry ∈ stored state.pool := by
        rw [split]
        simp
      have free : entry.buf ∉ state.held := by
        rw [← consistent.inUse entry member, unused]
        exact Bool.false_ne_true
      constructor
      · refine @State.Consistent.mark _ consistent _ front back entry true
          (state.lastUsedSeq + 1) split rfl rfl ?_ ?_
        · intro buf
          simp only [State.fillZero, List.mem_cons]
          split
          · simp [*]
          · simp [*]
        · exact List.nodup_cons.mpr ⟨free, consistent.oneHolder⟩
      · -- a pool over its budget has no entry that could be handed out again
        intro above
        have before : RECOVERY_BUFFER_POOL_MAX_BYTES < retainedBytes state.pool := by
          rw [split, retainedBytes_split]
          simpa only [State.fillZero, retainedBytes_split] using above
        have used := sound.evicted before entry member
        rw [unused] at used
        cases used
    · split
      · rename_i pool placed
        obtain ⟨front, back, split, rfl⟩ := fillFirst_some placed
        refine State.Consistent.sound (@State.Consistent.handOutNew _ consistent
          { (State.alloc { state with lastUsedSeq := state.lastUsedSeq + 1 } size).2 with
            pool := front ++ some ⟨⟨state.allocated, size⟩, size, state.lastUsedSeq + 1, true⟩ :: back
            held := ⟨state.allocated, size⟩ :: state.held } size (state.lastUsedSeq + 1) ?_ rfl rfl)
        have place : state.pool = front ++ none :: back := split
        rw [place, stored_append, stored_append, stored_some, stored_none]
        exact .inl List.perm_middle
      · refine State.Consistent.sound (@State.Consistent.handOutNew _ consistent
          { (State.alloc { state with lastUsedSeq := state.lastUsedSeq + 1 } size).2 with
            pool := state.pool ++
              [some ⟨⟨state.allocated, size⟩, size, state.lastUsedSeq + 1, true⟩]
            held := ⟨state.allocated, size⟩ :: state.held } size (state.lastUsedSeq + 1) ?_ rfl rfl)
        rw [stored_append, stored_some, stored_nil]
        exact .inl (List.perm_append_singleton _ _)

theorem sound_release {state : State} (sound : state.Sound) (buf : Allocation) :
    (state.apply (.release buf)).Sound := by
  have consistent := sound.toConsistent
  simp only [State.apply, releaseRecoveryBuffer]
  split
  · rename_i entry pool found
    obtain ⟨accepted, front, back, split, rfl⟩ := replaceFirst_some found
    have same : entry.buf = buf := of_decide_eq_true accepted
    refine State.Consistent.sound (@State.Consistent.mark _ consistent
      { state with
        pool := front ++ some { entry with inUse := false, lastUsed := state.lastUsedSeq + 1 } :: back
        lastUsedSeq := state.lastUsedSeq + 1
        held := state.held.erase buf } front back entry false (state.lastUsedSeq + 1)
      split rfl rfl ?_ (consistent.oneHolder.erase buf))
    intro other
    rw [same]
    split
    · rename_i here
      rw [here]
      exact iff_of_false consistent.oneHolder.not_mem_erase Bool.false_ne_true
    · rename_i elsewhere
      exact List.mem_erase_of_ne elsewhere
  · rename_i missed
    refine State.Consistent.sound (@State.Consistent.forget _ consistent
      { state with held := state.held.erase buf } buf rfl rfl rfl ?_)
    intro entry member
    exact of_decide_eq_false (replaceFirst_eq_none_iff.mp missed entry member)

/-- Every operation keeps the invariant. -/
theorem sound_apply {state : State} (sound : state.Sound) (operation : Operation) :
    (state.apply operation).Sound := by
  cases operation with
  | acquire size => exact sound_acquire sound size
  | release buf => exact sound_release sound buf
  | evict => exact sound.toConsistent.sound
  | reset =>
    refine ⟨sound.toConsistent.of_sublist (List.nil_sublist _), ?_⟩
    intro _ entry member
    cases member
  | write buf bytes =>
    exact ⟨⟨sound.sizes, sound.distinct, sound.allocatedEntries, sound.allocatedHeld,
      sound.oneHolder, sound.sameBuffer, sound.inUse⟩, sound.evicted⟩

theorem State.Sound.safe {state : State} (sound : state.Sound) : state.Safe where
  zeroed size := (acquireRecoveryBuffer_result sound.toConsistent size).1
  largeEnough size := (acquireRecoveryBuffer_result sound.toConsistent size).2.1.ge
  unheld size := (acquireRecoveryBuffer_result sound.toConsistent size).2.2
  counted rounds _ := evictRounds_counter rounds _ rfl
  budget above entry member := (sound.inUse entry member).mp (sound.evicted above entry member)

/-- In every state that any operations lead to, the next buffer that is handed out is zero, large
enough and held by nobody, the byte counter is exact, and the pool is over its budget only with
buffers that are in use. -/
theorem always_safe (operations : List Operation) :
    Machine.Throughout step State.Safe State.start operations := by
  have sound : Machine.Throughout step State.Sound State.start operations := by
    apply Machine.throughout_of_step _ State.start_sound
    intro state operation next sound taken
    obtain rfl := Option.some.inj taken
    exact sound_apply sound operation
  exact sound.imp fun _ => State.Sound.safe

end RecoveryPool

end Par3
