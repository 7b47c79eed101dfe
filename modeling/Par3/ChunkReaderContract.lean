import Mathlib.Data.List.Perm.Basic
import Mathlib.Data.List.Nodup
import Par3.FileChunkReader

/-!
# Every chunk once, and the callback at the end

A slice is not started yet, waits at one place, is being read, was given to the consumer, or its read
failed; nothing else happens to it. As long as a buffer is left for the slices that still need one,
something can happen until the final callback is called, and every event brings the end nearer. A
failed read keeps its buffer for ever, which the guard of the runs leaves room for.
-/
namespace Par3

/-- The file that is open for its slices, or being opened -/
def Turn.current : Turn → Option ℕ
  | .opening index => some index
  | .slice index _ => some index
  | .busy index _ => some index
  | _ => none

/-- The slice that was started and has no read yet -/
def Turn.job : Turn → List SliceId
  | .busy index sliceNum => [(index, sliceNum)]
  | _ => []

namespace ChunkState

variable (state : ChunkState)

/-- Slices that wait for a buffer, a place, a tick or the throttle -/
def waiting : List SliceId :=
  state.waitQueue ++ state.queue.map Prod.fst ++ state.ticks.map Prod.fst ++
    state.passing.map Prod.fst

/-- Buffers that were taken from the pool and come back -/
def taken : List ℕ :=
  state.queue.map Prod.snd ++ state.ticks.map Prod.snd ++ state.passing.map Prod.snd ++
    state.reading.map Prod.snd ++ state.held

theorem taken_length : state.taken.length = state.queue.length + state.ticks.length +
    state.passing.length + state.reading.length + state.held.length := by
  simp only [taken, List.length_append, List.length_map]

end ChunkState

namespace ChunkConfig

variable (cfg : ChunkConfig)

/-- The slices of the files from one on. -/
def slicesFrom (index : ℕ) : List SliceId :=
  (List.range' index (cfg.files.length - index)).flatMap fun file =>
    (List.range (cfg.fileSlices file)).map fun sliceNum => (file, sliceNum)

/-- The slices of a file from one on. -/
def slicesOf (index sliceNum : ℕ) : List SliceId :=
  (List.range' sliceNum (cfg.fileSlices index - sliceNum)).map fun next => (index, next)

/-- The slices that are still to be started. -/
def remaining : Turn → List SliceId
  | .file index => cfg.slicesFrom index
  | .opening index => cfg.slicesFrom index
  | .slice index sliceNum => cfg.slicesOf index sliceNum ++ cfg.slicesFrom (index + 1)
  | .busy index sliceNum => cfg.slicesOf index (sliceNum + 1) ++ cfg.slicesFrom (index + 1)
  | .ended => []

/-- All slices that have data beyond the offset. -/
def allSlices : List SliceId := cfg.slicesFrom 0

/-- Buffers of the pool that are large enough. -/
def largeInPool (state : ChunkState) : ℕ :=
  (state.pool.filter fun buffer => decide (buffer ≥ cfg.length)).length

/-- A read that fails leaves a buffer for the slices that still need one: some buffer that is large
enough, or room in the pool for a new one. -/
def Sparing (state : ChunkState) : ChunkEvent → Prop
  | .read _ true _ =>
    state.poolSize + 1 < cfg.maxBufs + (state.pool.length + state.taken.length) ∨
      2 ≤ cfg.largeInPool state + state.taken.length ∨
        (state.waitQueue = [] ∧ cfg.remaining state.turn = [])
  | _ => True

/-- What is left to happen, at most. -/
def turnWeight : Turn → ℕ
  | .file index => 4 * (cfg.files.length - index) + 1
  | .opening index => 4 * (cfg.files.length - index)
  | .slice index _ => 4 * (cfg.files.length - index) - 1
  | .busy index _ => 4 * (cfg.files.length - index) - 1
  | .ended => 0

def weight (state : ChunkState) : ℕ :=
  8 * (cfg.remaining state.turn).length + 7 * state.waitQueue.length + 6 * state.queue.length +
    5 * state.ticks.length + 4 * state.passing.length + 3 * state.reading.length +
    state.closing.length + state.held.length + cfg.turnWeight state.turn

/-! ## The invariant -/

/-- Before the final callback is called. Some places among the running reads may be about to be
given back. -/
structure Live (extra : ℕ) (state : ChunkState) : Prop where
  uncalled : state.results = []
  inside : ∀ index, state.turn.current = some index → index < cfg.files.length
  one : state.waiting = state.turn.job
  running : state.running =
    state.ticks.length + state.passing.length + state.reading.length + state.closing.length + extra
  ended : state.endCb = true ↔ state.turn = .ended
  last : state.turn = .ended → state.running ≠ 0
  errors : state.readErr = state.failed
  pool : state.waitQueue ≠ [] → state.pool = [] ∧ cfg.maxBufs ≤ state.poolSize
  usable : state.pool.length + state.taken.length ≤ state.poolSize
  enough : state.waitQueue ≠ [] ∨ cfg.remaining state.turn ≠ [] →
    state.poolSize < cfg.maxBufs + (state.pool.length + state.taken.length) ∨
      1 ≤ cfg.largeInPool state + state.taken.length
  large : ∀ buffer ∈ state.taken, cfg.length ≤ buffer
  account : ∃ lost, (lost ≠ [] → state.failed = true) ∧
    (state.given.map Prod.fst ++ lost ++ state.reading.map Prod.fst ++ state.waiting ++
      cfg.remaining state.turn).Perm cfg.allSlices
  bytes : ∀ call ∈ state.given, call.2 = cfg.readSlice call.1

/-- The queue of reads is used only when all places are taken. -/
def Queued (state : ChunkState) : Prop := state.queue ≠ [] → cfg.concurrency ≤ state.running

/-- After the final callback was called with an error while reads were under way. -/
structure Aborted (state : ChunkState) : Prop where
  called : state.results = [true]
  failed : state.failed = true
  unended : state.endCb = false
  turn : state.turn = .ended
  one : state.waiting = []
  account : ∃ rest, (state.given.map Prod.fst ++ state.reading.map Prod.fst ++ rest).Perm
    cfg.allSlices
  bytes : ∀ call ∈ state.given, call.2 = cfg.readSlice call.1

/-- After the final callback was called when everything was done. -/
structure Finished (state : ChunkState) : Prop where
  called : state.results = [state.failed]
  turn : state.turn = .ended
  one : state.waiting = []
  reading : state.reading = []
  closing : state.closing = []
  account : ∃ lost, (lost ≠ [] → state.failed = true) ∧
    (state.given.map Prod.fst ++ lost).Perm cfg.allSlices
  bytes : ∀ call ∈ state.given, call.2 = cfg.readSlice call.1

def Sound (extra : ℕ) (state : ChunkState) : Prop :=
  (cfg.Live extra state ∧ cfg.Queued state) ∨ cfg.Aborted state ∨
    (extra = 0 ∧ cfg.Finished state)

variable {cfg}

/-! ## A slice with its buffer -/

theorem job_length (turn : Turn) : turn.job.length ≤ 1 := by
  cases turn <;> simp [Turn.job]

theorem busy_of_job {turn : Turn} {id : SliceId} (one : [id] = turn.job) : turn = .busy id.1 id.2 := by
  cases turn with
  | busy index sliceNum => rw [(List.cons.inj one).1]
  | _ => cases one

/-- At most one slice waits, wherever it is. -/
theorem Live.short {extra : ℕ} {state : ChunkState} (live : cfg.Live extra state) :
    state.waitQueue.length + state.queue.length + state.ticks.length + state.passing.length ≤ 1 := by
  have length := congrArg List.length live.one
  simp only [ChunkState.waiting, List.length_append, List.length_map] at length
  exact length.trans_le (job_length state.turn)

/-- A slice in hand is the only one between its start and its read. -/
theorem Live.alone {extra : ℕ} {state : ChunkState} {id : SliceId} {buffer : ℕ}
    (live : cfg.Live extra { state with queue := state.queue ++ [(id, buffer)] }) :
    state.waitQueue = [] ∧ state.queue = [] ∧ state.ticks = [] ∧ state.passing = [] ∧
      state.turn = .busy id.1 id.2 := by
  have one := live.one
  have short := live.short
  simp only [List.length_append, List.length_cons, List.length_nil] at short
  have waitQueue : state.waitQueue = [] := List.eq_nil_of_length_eq_zero (by omega)
  have queue : state.queue = [] := List.eq_nil_of_length_eq_zero (by omega)
  have ticks : state.ticks = [] := List.eq_nil_of_length_eq_zero (by omega)
  have passing : state.passing = [] := List.eq_nil_of_length_eq_zero (by omega)
  refine ⟨waitQueue, queue, ticks, passing, ?_⟩
  simp only [ChunkState.waiting, waitQueue, queue, ticks, passing, List.nil_append, List.map_nil,
    List.append_nil, List.map_cons] at one
  exact busy_of_job one

/-- Once a read has failed, the slice in hand ends the run. -/
theorem inSlot_sound {extra : ℕ} {state : ChunkState} {id : SliceId} {buffer : ℕ}
    (live : cfg.Live extra { state with passing := state.passing ++ [(id, buffer)] })
    (queue : state.queue = []) (alone : state.waiting = []) (busy : state.turn = .busy id.1 id.2) :
    cfg.Sound extra (inSlot state id buffer) := by
  rw [inSlot]
  split
  case isFalse fine =>
    exact Or.inl ⟨live, fun some => absurd queue some⟩
  case isTrue failure =>
    obtain ⟨lost, -, account⟩ := live.account
    have failed : state.failed = true := live.errors.symm.trans failure
    have unended : state.endCb = false := by
      by_contra ended
      have turn : state.turn = .ended := live.ended.mp (by simpa using ended)
      rw [busy] at turn
      cases turn
    refine Or.inr (Or.inl ⟨?_, failed, unended, rfl, alone,
      ⟨lost ++ [id] ++ cfg.remaining state.turn, ?_⟩, live.bytes⟩)
    · have uncalled : state.results = [] := live.uncalled
      simp [uncalled]
    · refine List.perm_iff_count.mpr fun other => ?_
      have count := List.perm_iff_count.mp account other
      have none := congrArg (List.count other) alone
      simp only [ChunkState.waiting, List.map_append, List.count_append, List.map_cons,
        List.map_nil, List.count_nil] at count none ⊢
      omega

theorem run_sound {extra : ℕ} {state : ChunkState} {id : SliceId} {buffer : ℕ}
    (live : cfg.Live extra { state with queue := state.queue ++ [(id, buffer)] }) :
    cfg.Sound extra (cfg.run state id buffer) := by
  obtain ⟨waitQueue, queue, ticks, passing, busy⟩ := live.alone
  rw [run]
  split
  case isTrue full => exact Or.inl ⟨live, fun _ => full⟩
  case isFalse room =>
    have moved : cfg.Live extra
        { state with running := state.running + 1, passing := state.passing ++ [(id, buffer)] } := by
      obtain ⟨uncalled, inside, one, running, ended, last, errors, pool, usable, enough, large,
        account, bytes⟩ := live
      simp only [ChunkState.waiting, ChunkState.taken, waitQueue, queue, ticks, passing,
        List.nil_append, List.map_nil, List.append_nil, List.map_cons, largeInPool,
        List.length_nil] at *
      refine ⟨uncalled, inside, ?_, ?_, ended, fun _ => Nat.succ_ne_zero _, errors, ?_, ?_, ?_, ?_,
        ?_, bytes⟩
      all_goals simp only [ChunkState.waiting, ChunkState.taken, List.nil_append, List.map_nil,
        List.append_nil, List.map_cons, largeInPool, List.length_nil, List.length_cons]
      · exact one
      · omega
      · exact pool
      · omega
      · exact enough
      · exact large
      · exact account
    have alone : state.waiting = [] := by
      simp [ChunkState.waiting, waitQueue, queue, ticks, passing]
    exact inSlot_sound moved queue alone busy

/-! ## A place among the running reads is given back -/

/-- At most one slice waits, so the queue holds at most one. -/
theorem Live.queue_tail {extra : ℕ} {state : ChunkState} (live : cfg.Live extra state)
    {first : SliceId × ℕ} {queue : List (SliceId × ℕ)} (queued : state.queue = first :: queue) :
    state.waitQueue = [] ∧ queue = [] ∧ state.ticks = [] ∧ state.passing = [] := by
  have short := live.short
  rw [queued, List.length_cons] at short
  refine ⟨?_, ?_, ?_, ?_⟩ <;> refine List.eq_nil_of_length_eq_zero ?_ <;> omega

theorem done_live {state : ChunkState} (live : cfg.Live 1 state) :
    cfg.Sound 0 (done state) := by
  rw [done]
  split
  case h_1 first queue queued =>
    obtain ⟨waitQueue, rfl, ticks, passing⟩ := live.queue_tail queued
    refine Or.inl ⟨?_, fun some => absurd rfl some⟩
    obtain ⟨uncalled, inside, one, running, ended, last, errors, pool, usable, enough, large,
      account, bytes⟩ := live
    simp only [ChunkState.waiting, ChunkState.taken, waitQueue, queued, ticks, passing,
      List.nil_append, List.map_nil, List.append_nil, List.map_cons, List.length_nil,
      largeInPool] at one running pool usable enough large account
    refine ⟨uncalled, inside, ?_, ?_, ended, last, errors, ?_, ?_, ?_, ?_, ?_, bytes⟩
    all_goals simp only [ChunkState.waiting, ChunkState.taken, waitQueue, ticks, passing,
      List.nil_append, List.map_nil, List.append_nil, List.map_cons, List.length_nil,
      List.length_cons, largeInPool]
    · exact one
    · omega
    · exact pool
    · omega
    · exact fun needed => (enough needed).imp (by omega) (by omega)
    · exact large
    · exact account
  case h_2 queued =>
    have running := live.running
    dsimp only
    split
    case isTrue last =>
      obtain ⟨none, endCb⟩ := last
      have turn : state.turn = .ended := live.ended.mp (by simpa using endCb)
      have waiting : state.waiting = [] := by
        rw [live.one, turn]
        rfl
      have reading : state.reading = [] := List.eq_nil_of_length_eq_zero (by omega)
      have closing : state.closing = [] := List.eq_nil_of_length_eq_zero (by omega)
      refine Or.inr (Or.inr ⟨rfl, ?_, turn, waiting, reading, closing, ?_, live.bytes⟩)
      · simp only [live.uncalled, live.errors, List.nil_append]
      · obtain ⟨lost, failure, account⟩ := live.account
        refine ⟨lost, failure, ?_⟩
        simpa only [reading, waiting, turn, remaining, List.map_nil, List.append_nil] using account
    case isFalse more =>
      have fewer : state.running - 1 = state.ticks.length + state.passing.length +
          state.reading.length + state.closing.length + 0 := by omega
      refine Or.inl ⟨{ live with running := fewer, last := fun turn none => ?_ },
        fun some => absurd queued some⟩
      have endCb : state.endCb = true := live.ended.mpr turn
      exact more ⟨none, by simpa using endCb⟩

theorem done_aborted {state : ChunkState} (aborted : cfg.Aborted state) :
    cfg.Aborted (done state) := by
  have queue : state.queue = [] := by
    have one := aborted.one
    simp only [ChunkState.waiting, List.append_eq_nil_iff, List.map_eq_nil_iff] at one
    exact one.1.1.2
  have unended : ¬ (state.running - 1 = 0 ∧ state.endCb = true) := by simp [aborted.unended]
  rw [done]
  split
  case h_1 first rest queued => exact absurd (queued.symm.trans queue) (List.cons_ne_nil _ _)
  case h_2 =>
    dsimp only
    rw [if_neg unended]
    exact { aborted with }

theorem done_weight (state : ChunkState) : cfg.weight (done state) ≤ cfg.weight state := by
  rw [done]
  split
  case h_1 first queue queued =>
    simp only [weight, queued, List.length_append, List.length_cons, List.length_nil]
    omega
  case h_2 =>
    dsimp only
    split <;> exact le_rfl

theorem done_sound {state : ChunkState} (sound : cfg.Sound 1 state) :
    cfg.Sound 0 (done state) := by
  rcases sound with ⟨live, -⟩ | aborted | ⟨absurd, -⟩
  · exact done_live live
  · exact Or.inr (Or.inl (done_aborted aborted))
  · cases absurd

/-! ## The pool -/

theorem put_live {extra : ℕ} {state : ChunkState} {buffer : ℕ}
    (live : cfg.Live extra { state with held := state.held ++ [buffer] })
    (queued : cfg.Queued state) :
    cfg.Sound extra (cfg.put state buffer) := by
  have large : cfg.length ≤ buffer := live.large buffer (by simp [ChunkState.taken])
  rw [put]
  split
  case h_1 next waitQueue waits =>
    have handed : cfg.Live extra
        { state with waitQueue := waitQueue, queue := state.queue ++ [(next, buffer)] } := by
      have short := live.short
      obtain ⟨uncalled, inside, one, running, ended, last, errors, pool, usable, enough, large,
        account, bytes⟩ := live
      simp only [waits, List.length_cons] at short
      have rest : waitQueue = [] := List.eq_nil_of_length_eq_zero (by omega)
      have queue : state.queue = [] := List.eq_nil_of_length_eq_zero (by omega)
      have ticks : state.ticks = [] := List.eq_nil_of_length_eq_zero (by omega)
      have passing : state.passing = [] := List.eq_nil_of_length_eq_zero (by omega)
      simp only [ChunkState.taken_length, ChunkState.waiting, waits, queue, ticks, passing,
        List.map_nil, List.append_nil, rest, List.length_append, List.length_nil,
        largeInPool] at one running usable enough account
      refine ⟨uncalled, inside, ?_, ?_, ended, last, errors, ?_, ?_, ?_, ?_, ?_, bytes⟩
      all_goals simp only [ChunkState.taken_length, ChunkState.waiting, queue, ticks, passing,
        List.nil_append, List.map_nil, List.append_nil, List.map_cons, List.length_nil,
        List.length_cons, largeInPool, rest]
      · exact one
      · exact running
      · exact fun some => absurd rfl some
      · simp only [List.length_cons, List.length_nil] at usable
        omega
      · exact fun _ => Or.inr (by omega)
      · intro other member
        apply large other
        simp only [ChunkState.taken, queue, ticks, passing, List.map_nil, List.map_cons,
          List.nil_append, List.append_nil, List.mem_append, List.mem_singleton] at member ⊢
        rcases member with (same | reading) | held
        · exact Or.inr (Or.inr same)
        · exact Or.inl reading
        · exact Or.inr (Or.inl held)
      · exact account
    exact run_sound handed
  case h_2 waits =>
    refine Or.inl ⟨?_, queued⟩
    obtain ⟨uncalled, inside, one, running, ended, last, errors, pool, usable, enough, kept,
      account, bytes⟩ := live
    simp only [ChunkState.taken_length, List.length_append, List.length_cons, List.length_nil,
      largeInPool] at usable enough
    refine ⟨uncalled, inside, one, running, ended, last, errors, fun some => absurd waits some, ?_,
      fun needed => ?_, fun other member => kept other ?_, account, bytes⟩
    · simp only [ChunkState.taken_length, List.length_cons]
      omega
    · simp only [ChunkState.taken_length, largeInPool, List.length_cons, List.filter_cons,
        ge_iff_le, large, decide_true, if_true]
      exact (enough needed).imp (by omega) (by omega)
    · simp only [ChunkState.taken, List.mem_append] at member ⊢
      exact member.imp_right Or.inl

theorem put_aborted {state : ChunkState} (aborted : cfg.Aborted state) (buffer : ℕ) :
    cfg.Aborted (cfg.put state buffer) := by
  have waitQueue : state.waitQueue = [] := by
    have one := aborted.one
    simp only [ChunkState.waiting, List.append_eq_nil_iff] at one
    exact one.1.1.1
  rw [put]
  split
  case h_1 next rest waits => exact absurd (waits.symm.trans waitQueue) (List.cons_ne_nil _ _)
  case h_2 =>
    exact { aborted with }

theorem put_finished {state : ChunkState} (finished : cfg.Finished state) (buffer : ℕ) :
    cfg.Finished (cfg.put state buffer) := by
  have waitQueue : state.waitQueue = [] := by
    have one := finished.one
    simp only [ChunkState.waiting, List.append_eq_nil_iff] at one
    exact one.1.1.1
  rw [put]
  split
  case h_1 next rest waits => exact absurd (waits.symm.trans waitQueue) (List.cons_ne_nil _ _)
  case h_2 =>
    exact { finished with }

/-- The order of the buffers that the consumer holds does not matter. -/
theorem Sound.holding {extra : ℕ} {state : ChunkState} {held : List ℕ}
    (sound : cfg.Sound extra state) (same : held.Perm state.held) :
    cfg.Sound extra { state with held := held } := by
  rcases sound with ⟨live, queued⟩ | aborted | ⟨none, finished⟩
  · have taken : (ChunkState.taken { state with held := held }).Perm state.taken :=
      List.Perm.append_left _ same
    have length := taken.length_eq
    have usable := live.usable
    have enough := live.enough
    refine Or.inl ⟨{ live with
      usable := ?_
      enough := ?_
      large := fun buffer member => live.large buffer (taken.mem_iff.mp member) }, queued⟩
    · rw [length]
      exact usable
    · rw [length]
      exact enough
  · exact Or.inr (Or.inl { aborted with })
  · exact Or.inr (Or.inr ⟨none, finished.called, finished.turn, finished.one, finished.reading,
      finished.closing, finished.account, finished.bytes⟩)

theorem put_sound {extra : ℕ} {state : ChunkState} {buffer : ℕ}
    (sound : cfg.Sound extra { state with held := state.held ++ [buffer] }) :
    cfg.Sound extra (cfg.put state buffer) := by
  rcases sound with ⟨live, queued⟩ | aborted | ⟨none, finished⟩
  · exact put_live live queued
  · have before : cfg.Aborted state := { aborted with }
    exact Or.inr (Or.inl (put_aborted before buffer))
  · have before : cfg.Finished state := { finished with }
    exact Or.inr (Or.inr ⟨none, put_finished before buffer⟩)

theorem inSlot_weight (state : ChunkState) (id : SliceId) (buffer : ℕ) :
    cfg.weight (inSlot state id buffer) ≤
      cfg.weight { state with passing := state.passing ++ [(id, buffer)] } := by
  rw [inSlot]
  split
  case isTrue =>
    simp only [weight, remaining, turnWeight, List.length_nil, List.length_append, List.length_cons]
    omega
  case isFalse => exact le_rfl

theorem run_weight (state : ChunkState) (id : SliceId) (buffer : ℕ) :
    cfg.weight (cfg.run state id buffer) ≤
      cfg.weight { state with queue := state.queue ++ [(id, buffer)] } := by
  rw [run]
  split
  case isTrue => exact le_rfl
  case isFalse =>
    refine (inSlot_weight _ id buffer).trans ?_
    simp only [weight, List.length_append, List.length_cons, List.length_nil]
    omega

theorem put_weight (state : ChunkState) (buffer : ℕ) :
    cfg.weight (cfg.put state buffer) ≤ cfg.weight state := by
  rw [put]
  split
  case h_1 next waitQueue waits =>
    refine (run_weight _ next buffer).trans ?_
    simp only [weight, waits, List.length_append, List.length_cons, List.length_nil]
    omega
  case h_2 => exact le_rfl

/-- Each buffer that is dropped makes room for a new one. -/
theorem popLarge_some {pool rest : List ℕ} {poolSize left buffer : ℕ} (fits : pool.length ≤ poolSize)
    (popped : cfg.popLarge pool poolSize = (some buffer, rest, left)) :
    cfg.length ≤ buffer ∧ left + pool.length = poolSize + rest.length + 1 := by
  induction pool generalizing poolSize with
  | nil => cases popped
  | cons first pool ih =>
    rw [List.length_cons] at fits ⊢
    rw [popLarge] at popped
    split at popped
    case isTrue large =>
      obtain ⟨rfl, rfl, rfl⟩ : first = buffer ∧ pool = rest ∧ poolSize = left := by
        simpa using popped
      exact ⟨large, by omega⟩
    case isFalse =>
      obtain ⟨large, sizes⟩ := ih (by omega) popped
      exact ⟨large, by omega⟩

theorem popLarge_none {pool rest : List ℕ} {poolSize left : ℕ} (fits : pool.length ≤ poolSize)
    (popped : cfg.popLarge pool poolSize = (none, rest, left)) :
    rest = [] ∧ left + pool.length = poolSize ∧
      (pool.filter fun buffer => decide (buffer ≥ cfg.length)) = [] := by
  induction pool generalizing poolSize with
  | nil =>
    obtain ⟨rfl, rfl⟩ : [] = rest ∧ poolSize = left := by simpa [popLarge] using popped
    exact ⟨rfl, rfl, rfl⟩
  | cons first pool ih =>
    rw [List.length_cons] at fits ⊢
    rw [popLarge] at popped
    split at popped
    case isTrue => cases popped
    case isFalse small =>
      obtain ⟨empty, sizes, filtered⟩ := ih (by omega) popped
      refine ⟨empty, by omega, ?_⟩
      rw [List.filter_cons_of_neg (by simpa using small), filtered]

theorem get_weight (state : ChunkState) (id : SliceId) :
    cfg.weight (cfg.get state id) ≤ cfg.weight state + 7 := by
  rw [get]
  split
  case h_1 =>
    refine (run_weight _ id _).trans ?_
    simp only [weight, List.length_append, List.length_cons, List.length_nil]
    omega
  case h_2 =>
    split
    case isTrue =>
      refine (run_weight _ id _).trans ?_
      simp only [weight, List.length_append, List.length_cons, List.length_nil]
      omega
    case isFalse =>
      simp only [weight, List.length_append, List.length_cons, List.length_nil]
      omega

theorem slicesOf_eq {index sliceNum : ℕ} (more : sliceNum < cfg.fileSlices index) :
    cfg.slicesOf index sliceNum =
      (index, sliceNum) :: cfg.slicesOf index (sliceNum + 1) := by
  have count : cfg.fileSlices index - sliceNum =
      cfg.fileSlices index - (sliceNum + 1) + 1 := by omega
  rw [slicesOf, count, List.range'_succ, List.map_cons, slicesOf]

/-- The slice whose turn it is takes a buffer, a new one where there is room. -/
theorem take_sound {state : ChunkState} {index sliceNum buffer left : ℕ} {pool : List ℕ}
    (live : cfg.Live 0 state) (turn : state.turn = .slice index sliceNum)
    (more : sliceNum < cfg.fileSlices index) (large : cfg.length ≤ buffer)
    (usable : pool.length + 1 + state.taken.length ≤ left) :
    cfg.Sound 0 (cfg.run
      { state with turn := .busy index sliceNum, pool := pool, poolSize := left }
      (index, sliceNum) buffer) := by
  apply run_sound
  have waiting : state.waiting = [] := by
    rw [live.one, turn]
    rfl
  have empty := waiting
  simp only [ChunkState.waiting, List.append_eq_nil_iff, List.map_eq_nil_iff] at empty
  obtain ⟨⟨⟨waitQueue, queue⟩, ticks⟩, passing⟩ := empty
  obtain ⟨uncalled, inside, one, running, ended, last, errors, -, -, -, kept,
    account, bytes⟩ := live
  simp only [turn, reduceCtorEq, iff_false, Bool.not_eq_true] at ended
  simp only [ChunkState.taken, queue, ticks, passing, List.map_nil, List.nil_append,
    List.mem_append, List.length_append] at kept usable
  refine ⟨uncalled, fun other same => inside other ?_, ?_, running, ?_, ?_, errors,
    fun some => absurd waitQueue some, ?_, fun _ => Or.inr ?_, ?_, ?_, bytes⟩
  · rw [turn]
    exact same
  · simp [ChunkState.waiting, waitQueue, queue, ticks, passing, Turn.job]
  · simp [ended]
  · exact fun busy => by cases busy
  · simp only [ChunkState.taken, queue, ticks, passing, List.map_nil, List.nil_append,
      List.map_cons, List.length_append, List.length_cons, List.length_nil]
    omega
  · simp only [ChunkState.taken_length, List.length_append, List.length_cons, List.length_nil]
    omega
  · intro other member
    simp only [ChunkState.taken, queue, ticks, passing, List.map_nil, List.nil_append,
      List.map_cons, List.mem_append, List.mem_singleton, List.append_nil] at member
    rcases member with (rfl | reading) | held
    · exact large
    · exact kept other (Or.inl reading)
    · exact kept other (Or.inr held)
  · obtain ⟨lost, failure, account⟩ := account
    refine ⟨lost, failure, List.perm_iff_count.mpr fun other => ?_⟩
    have count := List.perm_iff_count.mp account other
    simp only [ChunkState.waiting, waitQueue, queue, ticks, passing, turn, remaining,
      slicesOf_eq more, List.map_nil, List.map_cons, List.count_append, List.count_cons,
      List.count_nil, List.nil_append] at count ⊢
    omega

theorem get_sound {state : ChunkState} {index sliceNum : ℕ} (live : cfg.Live 0 state)
    (turn : state.turn = .slice index sliceNum) (more : sliceNum < cfg.fileSlices index) :
    cfg.Sound 0
      (cfg.get { state with turn := .busy index sliceNum } (index, sliceNum)) := by
  have usable := live.usable
  rw [get]
  split
  case h_1 buffer pool left popped =>
    obtain ⟨large, sizes⟩ := popLarge_some (by dsimp only; omega) popped
    dsimp only at sizes
    have fits : pool.length + 1 + state.taken.length ≤ left := by omega
    have taken := take_sound live turn more large fits
    exact taken
  case h_2 pool left popped =>
    obtain ⟨rfl, sizes, small⟩ := popLarge_none (by dsimp only; omega) popped
    dsimp only at sizes small
    split
    case isTrue =>
      have fits : ([] : List ℕ).length + 1 + state.taken.length ≤ left + 1 := by
        rw [List.length_nil]
        omega
      have taken := take_sound live turn more le_rfl fits
      exact taken
    case isFalse full =>
      have waiting : state.waiting = [] := by
        rw [live.one, turn]
        rfl
      have empty := waiting
      simp only [ChunkState.waiting, List.append_eq_nil_iff, List.map_eq_nil_iff] at empty
      obtain ⟨⟨⟨waitQueue, queue⟩, ticks⟩, passing⟩ := empty
      obtain ⟨uncalled, inside, one, running, ended, last, errors, -, -, enough, kept, account,
        bytes⟩ := live
      simp only [turn, reduceCtorEq, iff_false, Bool.not_eq_true] at ended
      refine Or.inl ⟨⟨uncalled, fun other same => inside other ?_, ?_, running, ?_, ?_, errors,
        fun _ => ⟨rfl, by dsimp only; omega⟩, ?_, fun _ => ?_, kept, ?_, bytes⟩,
        fun some => absurd queue some⟩
      · rw [turn]
        exact same
      · simp [ChunkState.waiting, waitQueue, queue, ticks, passing, Turn.job]
      · simp [ended]
      · exact fun busy => by cases busy
      · change 0 + state.taken.length ≤ left
        omega
      · change left < cfg.maxBufs + (0 + state.taken.length) ∨ 1 ≤ 0 + state.taken.length
        have needed : cfg.remaining state.turn ≠ [] := by
          rw [turn, remaining, slicesOf_eq more]
          exact List.cons_ne_nil _ _
        have some := enough (Or.inr needed)
        rw [largeInPool, small, List.length_nil] at some
        omega
      · obtain ⟨lost, failure, account⟩ := account
        refine ⟨lost, failure, List.perm_iff_count.mpr fun other => ?_⟩
        have count := List.perm_iff_count.mp account other
        simp only [ChunkState.waiting, waitQueue, queue, ticks, passing, turn, remaining,
          slicesOf_eq more, List.map_nil, List.count_append, List.count_cons,
          List.count_nil, List.nil_append] at count ⊢
        omega

/-! ## One event -/

theorem slicesFrom_eq {index : ℕ} (inside : index < cfg.files.length) :
    cfg.slicesFrom index = cfg.slicesOf index 0 ++ cfg.slicesFrom (index + 1) := by
  have count : cfg.files.length - index = cfg.files.length - (index + 1) + 1 := by omega
  rw [slicesFrom, count, List.range'_succ, List.flatMap_cons, slicesFrom, slicesOf,
    List.range_eq_range', Nat.sub_zero]

theorem slicesFrom_end {index : ℕ} (outside : cfg.files.length ≤ index) :
    cfg.slicesFrom index = [] := by
  rw [slicesFrom, Nat.sub_eq_zero_of_le outside, List.range'_zero, List.flatMap_nil]

theorem Sound.turn {extra : ℕ} {state : ChunkState} (sound : cfg.Sound extra state)
    (going : state.turn ≠ .ended) : cfg.Live extra state ∧ cfg.Queued state := by
  rcases sound with live | aborted | ⟨-, finished⟩
  · exact live
  · exact absurd aborted.turn going
  · exact absurd finished.turn going

theorem Live.idle {extra : ℕ} {state : ChunkState} (live : cfg.Live extra state)
    (idle : state.turn.job = []) : state.waiting = [] := live.one.trans idle

/-- The loops go on between slices. -/
theorem Live.turned {state : ChunkState} {turn : Turn} (live : cfg.Live 0 state)
    (idle : state.turn.job = []) (going : state.turn ≠ .ended) (next : turn ≠ .ended)
    (job : turn.job = []) (inside : ∀ index, turn.current = some index → index < cfg.files.length)
    (same : cfg.remaining turn = cfg.remaining state.turn) :
    cfg.Live 0 { state with turn := turn } := by
  have unended : ¬ state.endCb = true := fun ended => going (live.ended.mp ended)
  refine { live with
    inside := inside
    one := (live.idle idle).trans job.symm
    ended := ⟨fun ended => absurd ended unended, fun ended => absurd ended next⟩
    last := fun ended => absurd ended next
    enough := ?_
    account := ?_ }
  · intro needed
    apply live.enough
    rw [← same]
    exact needed
  · rw [same]
    exact live.account

theorem next_sound {state after : ChunkState} (sound : cfg.Sound 0 state)
    (taken : cfg.next state = some after) :
    cfg.Sound 0 after ∧ cfg.weight after < cfg.weight state := by
  cases turn : state.turn with
  | opening index => simp [next, turn] at taken
  | busy index sliceNum => simp [next, turn] at taken
  | ended => simp [next, turn] at taken
  | file index =>
    obtain ⟨live, queued⟩ := sound.turn (by simp [turn])
    simp only [next, turn] at taken
    split at taken
    case h_1 file found =>
      have inside : index < cfg.files.length := (List.getElem?_eq_some_iff.mp found).1
      split at taken
      case isTrue passed =>
        obtain rfl := Option.some.inj taken
        have empty : cfg.slicesOf index 0 = [] := by
          simp [slicesOf, fileSlices, found, numSlices, passed]
        have same : cfg.remaining (.file (index + 1)) = cfg.remaining state.turn := by
          rw [turn, remaining, remaining, slicesFrom_eq inside, empty, List.nil_append]
        refine ⟨Or.inl ⟨live.turned (by simp [turn, Turn.job]) (by simp [turn]) (by simp) rfl
          (by simp [Turn.current]) same, queued⟩, ?_⟩
        simp only [weight, same, turn, turnWeight]
        omega
      case isFalse =>
        obtain rfl := Option.some.inj taken
        have same : cfg.remaining (.opening index) = cfg.remaining state.turn := by
          rw [turn, remaining, remaining]
        refine ⟨Or.inl ⟨live.turned (by simp [turn, Turn.job]) (by simp [turn]) (by simp) rfl
          (by simpa [Turn.current] using inside) same, queued⟩, ?_⟩
        simp only [weight, same, turn, turnWeight]
        omega
    case h_2 outside =>
      have beyond : cfg.files.length ≤ index := List.getElem?_eq_none_iff.mp outside
      have nothing : cfg.remaining state.turn = [] := by
        rw [turn, remaining, slicesFrom_end beyond]
      have waiting : state.waiting = [] := live.idle (by simp [turn, Turn.job])
      have lighter : cfg.weight { state with turn := .ended } < cfg.weight state := by
        simp only [weight, turn, turnWeight, remaining, List.length_nil]
        omega
      obtain ⟨lost, failure, account⟩ := live.account
      split at taken
      case isTrue runs =>
        obtain rfl := Option.some.inj taken
        refine ⟨Or.inl ⟨{ live with
          inside := by simp [Turn.current]
          one := waiting
          ended := ⟨fun _ => rfl, fun _ => rfl⟩
          last := fun _ => runs
          enough := ?_
          account := ⟨lost, failure, ?_⟩ }, queued⟩, lighter⟩
        · intro needed
          apply live.enough
          exact needed.imp_right (by simp [remaining])
        · rw [nothing] at account
          exact account
      case isFalse stopped =>
        obtain rfl := Option.some.inj taken
        have running := live.running
        have reading : state.reading = [] := List.eq_nil_of_length_eq_zero (by omega)
        have closing : state.closing = [] := List.eq_nil_of_length_eq_zero (by omega)
        refine ⟨Or.inr (Or.inr ⟨rfl, ?_, rfl, waiting, reading, closing, ⟨lost, failure, ?_⟩,
          live.bytes⟩), lighter⟩
        · simp only [live.uncalled, live.errors, List.nil_append]
        · simpa only [reading, waiting, nothing, List.map_nil, List.append_nil] using account
  | slice index sliceNum =>
    obtain ⟨live, queued⟩ := sound.turn (by simp [turn])
    have inside := live.inside index (by simp [turn, Turn.current])
    simp only [next, turn] at taken
    split at taken
    case isTrue more =>
      obtain rfl := Option.some.inj taken
      refine ⟨get_sound live turn more, lt_of_le_of_lt (get_weight _ _) ?_⟩
      simp only [weight, turn, remaining, slicesOf_eq more, turnWeight, List.length_append,
        List.length_cons]
      omega
    case isFalse last =>
      obtain rfl := Option.some.inj taken
      have empty : cfg.slicesOf index sliceNum = [] := by
        rw [slicesOf, Nat.sub_eq_zero_of_le (by omega), List.range'_zero, List.map_nil]
      have same : cfg.remaining (.file (index + 1)) = cfg.remaining state.turn := by
        rw [turn, remaining, remaining, empty, List.nil_append]
      refine ⟨Or.inl ⟨live.turned (by simp [turn, Turn.job]) (by simp [turn]) (by simp) rfl
        (by simp [Turn.current]) same, queued⟩, ?_⟩
      simp only [weight, same, turn, turnWeight]
      omega

theorem opened_sound {state after : ChunkState} {failed : Bool} (sound : cfg.Sound 0 state)
    (taken : cfg.opened state failed = some after) :
    cfg.Sound 0 after ∧ cfg.weight after < cfg.weight state := by
  cases turn : state.turn with
  | file index => simp [opened, turn] at taken
  | slice index sliceNum => simp [opened, turn] at taken
  | busy index sliceNum => simp [opened, turn] at taken
  | ended => simp [opened, turn] at taken
  | opening index =>
    obtain ⟨live, queued⟩ := sound.turn (by simp [turn])
    have inside := live.inside index (by simp [turn, Turn.current])
    simp only [opened, turn] at taken
    split at taken
    case isTrue =>
      obtain rfl := Option.some.inj taken
      obtain ⟨lost, -, account⟩ := live.account
      have waiting : state.waiting = [] := live.idle (by simp [turn, Turn.job])
      have unended : state.endCb = false := by
        by_contra ended
        have done : state.turn = .ended := live.ended.mp (by simpa using ended)
        rw [turn] at done
        cases done
      refine ⟨Or.inr (Or.inl ⟨?_, rfl, unended, rfl, waiting,
        ⟨lost ++ cfg.remaining state.turn, List.perm_iff_count.mpr fun other => ?_⟩,
        live.bytes⟩), ?_⟩
      · simp only [live.uncalled, List.nil_append]
      · have count := List.perm_iff_count.mp account other
        simp only [waiting, List.count_append, List.count_nil] at count ⊢
        omega
      · simp only [weight, turn, turnWeight, remaining, List.length_nil]
        omega
    case isFalse =>
      obtain rfl := Option.some.inj taken
      have same : cfg.remaining (.slice index 0) = cfg.remaining state.turn := by
        rw [turn, remaining, remaining, slicesFrom_eq inside]
      have moved := live.turned (by simp [turn, Turn.job]) (by simp [turn]) (by simp) rfl
        (by simpa [Turn.current] using inside) same
      refine ⟨Or.inl ⟨{ moved with }, queued⟩, ?_⟩
      simp only [weight, same, turn, turnWeight]
      omega

theorem tick_sound {state after : ChunkState} (sound : cfg.Sound 0 state)
    (taken : tick state = some after) :
    cfg.Sound 0 after ∧ cfg.weight after < cfg.weight state := by
  rw [tick] at taken
  split at taken
  case h_2 => cases taken
  case h_1 id buffer ticks waits =>
    obtain rfl := Option.some.inj taken
    have lighter : cfg.weight (inSlot { state with ticks := ticks } id buffer) <
        cfg.weight state := by
      refine lt_of_le_of_lt (inSlot_weight _ id buffer) ?_
      simp only [weight, waits, List.length_append, List.length_cons, List.length_nil]
      omega
    refine ⟨?_, lighter⟩
    rcases sound with ⟨live, queued⟩ | aborted | ⟨-, finished⟩
    · have short := live.short
      obtain ⟨uncalled, inside, one, running, ended, last, errors, pool, usable, enough, large,
        account, bytes⟩ := live
      rw [waits, List.length_cons] at short
      have waitQueue : state.waitQueue = [] := List.eq_nil_of_length_eq_zero (by omega)
      have queue : state.queue = [] := List.eq_nil_of_length_eq_zero (by omega)
      have rest : ticks = [] := List.eq_nil_of_length_eq_zero (by omega)
      have passing : state.passing = [] := List.eq_nil_of_length_eq_zero (by omega)
      have alone : ChunkState.waiting { state with ticks := ticks } = [] := by
        simp [ChunkState.waiting, waitQueue, queue, rest, passing]
      simp only [ChunkState.waiting, ChunkState.taken, waits, waitQueue, queue, rest, passing,
        List.nil_append, List.map_nil, List.append_nil, List.map_cons, largeInPool,
        List.length_nil, List.length_cons] at one running pool usable enough large account
      have busy := busy_of_job one
      refine inSlot_sound ⟨uncalled, inside, ?_, ?_, ended, last, errors, ?_, ?_, ?_, ?_, ?_, bytes⟩
        queue alone busy
      all_goals simp only [ChunkState.waiting, ChunkState.taken, waitQueue, queue, rest, passing,
        List.nil_append, List.map_nil, List.append_nil, List.map_cons, largeInPool,
        List.length_nil, List.length_cons]
      · exact one
      · omega
      · exact pool
      · exact usable
      · exact enough
      · exact large
      · exact account
    · have one := aborted.one
      simp only [ChunkState.waiting, waits, List.map_cons, List.append_eq_nil_iff,
        reduceCtorEq, and_false, false_and] at one
    · have one := finished.one
      simp only [ChunkState.waiting, waits, List.map_cons, List.append_eq_nil_iff,
        reduceCtorEq, and_false, false_and] at one

theorem passed_sound {state after : ChunkState} (sound : cfg.Sound 0 state)
    (taken : passed state = some after) :
    cfg.Sound 0 after ∧ cfg.weight after < cfg.weight state := by
  rw [passed] at taken
  split at taken
  case h_2 => cases taken
  case h_1 id buffer passing waits =>
    obtain rfl := Option.some.inj taken
    rcases sound with ⟨live, queued⟩ | aborted | ⟨-, finished⟩
    · have short := live.short
      obtain ⟨uncalled, inside, one, running, ended, last, errors, pool, usable, enough, large,
        account, bytes⟩ := live
      rw [waits, List.length_cons] at short
      have waitQueue : state.waitQueue = [] := List.eq_nil_of_length_eq_zero (by omega)
      have queue : state.queue = [] := List.eq_nil_of_length_eq_zero (by omega)
      have ticks : state.ticks = [] := List.eq_nil_of_length_eq_zero (by omega)
      have rest : passing = [] := List.eq_nil_of_length_eq_zero (by omega)
      simp only [ChunkState.waiting, waits, waitQueue, queue, ticks, rest, List.nil_append,
        List.map_nil, List.map_cons] at one account
      have busy := busy_of_job one
      have unended : ¬ state.endCb = true := fun endCb => by
        have done := ended.mp endCb
        rw [busy] at done
        cases done
      have same : cfg.remaining (.slice id.1 (id.2 + 1)) = cfg.remaining state.turn := by
        rw [busy, remaining, remaining]
      simp only [ChunkState.taken_length, waits, queue, ticks, rest, List.length_nil,
        List.length_cons, largeInPool] at running usable enough
      refine ⟨Or.inl ⟨⟨uncalled, fun index current => ?_, ?_, ?_, ?_, ?_, errors, pool, ?_, ?_, ?_,
        ?_, bytes⟩, fun some => absurd queue some⟩, ?_⟩
      · apply inside
        rw [busy]
        exact current
      · simp [ChunkState.waiting, waitQueue, queue, ticks, rest, Turn.job]
      · simp only [ticks, rest, List.length_append, List.length_cons, List.length_nil]
        omega
      · exact ⟨fun endCb => absurd endCb unended, fun ended => by cases ended⟩
      · exact fun ended => by cases ended
      · simp only [ChunkState.taken_length, queue, ticks, rest, List.length_append,
          List.length_cons, List.length_nil]
        omega
      · intro needed
        rw [same] at needed
        simp only [ChunkState.taken_length, queue, ticks, rest, List.length_append,
          List.length_cons, List.length_nil, largeInPool]
        exact (enough needed).imp (by omega) (by omega)
      · intro other member
        apply large other
        simp only [ChunkState.taken, waits, queue, ticks, rest, List.map_nil, List.map_cons,
          List.map_append, List.nil_append, List.mem_append, List.mem_singleton] at member ⊢
        rcases member with (reading | same) | held
        · exact Or.inl (Or.inr reading)
        · exact Or.inl (Or.inl same)
        · exact Or.inr held
      · obtain ⟨lost, failure, account⟩ := account
        refine ⟨lost, failure, List.perm_iff_count.mpr fun other => ?_⟩
        have count := List.perm_iff_count.mp account other
        simp only [ChunkState.waiting, waitQueue, queue, ticks, rest, same, List.map_nil,
          List.map_append, List.map_cons, List.count_append, List.count_nil] at count ⊢
        omega
      · simp only [weight, same, waits, busy, turnWeight, List.length_append, List.length_cons,
          List.length_nil]
        omega
    · have one := aborted.one
      simp only [ChunkState.waiting, waits, List.map_cons, List.append_eq_nil_iff,
        reduceCtorEq, and_false] at one
    · have one := finished.one
      simp only [ChunkState.waiting, waits, List.map_cons, List.append_eq_nil_iff,
        reduceCtorEq, and_false] at one

theorem chunkDone_sound {state : ChunkState} (sound : cfg.Sound 1 state) (index : ℕ) :
    cfg.Sound 0 (chunkDone state index) := by
  rw [chunkDone]
  dsimp only
  split
  case isTrue =>
    rcases sound with ⟨live, queued⟩ | aborted | ⟨absurd, -⟩
    · have closing : state.running = state.ticks.length + state.passing.length +
          state.reading.length + (state.closing ++ [index]).length + 0 := by
        rw [live.running, List.length_append, List.length_singleton]
        omega
      exact Or.inl ⟨{ live with running := closing }, queued⟩
    · exact Or.inr (Or.inl { aborted with })
    · cases absurd
  case isFalse =>
    apply done_sound
    rcases sound with ⟨live, queued⟩ | aborted | ⟨absurd, -⟩
    · exact Or.inl ⟨{ live with }, queued⟩
    · exact Or.inr (Or.inl { aborted with })
    · cases absurd

theorem chunkDone_weight (state : ChunkState) (index : ℕ) :
    cfg.weight (chunkDone state index) ≤ cfg.weight state + 1 := by
  rw [chunkDone]
  dsimp only
  split
  case isTrue =>
    simp only [weight, List.length_append, List.length_cons, List.length_nil]
    omega
  case isFalse => exact (done_weight _).trans (Nat.le_succ _)

theorem closed_sound {state after : ChunkState} {index : ℕ} {failed : Bool}
    (sound : cfg.Sound 0 state) (taken : closed state index failed = some after) :
    cfg.Sound 0 after ∧ cfg.weight after < cfg.weight state := by
  rw [closed] at taken
  split at taken
  case h_2 => cases taken
  case h_1 file found =>
    obtain rfl := Option.some.inj taken
    have inside : index < state.closing.length := (List.getElem?_eq_some_iff.mp found).1
    have length := List.length_eraseIdx_of_lt inside
    constructor
    · apply done_sound
      rcases sound with ⟨live, queued⟩ | aborted | ⟨-, finished⟩
      · have running : state.running = state.ticks.length + state.passing.length +
            state.reading.length + (state.closing.eraseIdx index).length + 1 := by
          rw [live.running, length]
          omega
        obtain ⟨lost, failure, account⟩ := live.account
        cases failed with
        | true =>
          exact Or.inl ⟨{ live with
            running := running
            errors := rfl
            account := ⟨lost, fun _ => rfl, account⟩ }, queued⟩
        | false =>
          exact Or.inl ⟨{ live with running := running }, queued⟩
      · cases failed with
        | true =>
          exact Or.inr (Or.inl { aborted with failed := rfl })
        | false =>
          exact Or.inr (Or.inl { aborted with })
      · rw [finished.closing] at inside
        cases inside
    · refine lt_of_le_of_lt (done_weight _) ?_
      cases failed <;> simp only [weight, length, if_true, Bool.false_eq_true, if_false] <;> omega

theorem giveBack_sound {state after : ChunkState} {index : ℕ} (sound : cfg.Sound 0 state)
    (taken : cfg.giveBack state index = some after) :
    cfg.Sound 0 after ∧ cfg.weight after < cfg.weight state := by
  rw [giveBack] at taken
  split at taken
  case h_2 => cases taken
  case h_1 buffer found =>
    obtain rfl := Option.some.inj taken
    obtain ⟨inside, here⟩ := List.getElem?_eq_some_iff.mp found
    have length := List.length_eraseIdx_of_lt inside
    constructor
    · refine put_sound (sound.holding ?_)
      exact (List.perm_append_singleton _ _).trans (here ▸ List.getElem_cons_eraseIdx_perm inside)
    · refine lt_of_le_of_lt (put_weight _ buffer) ?_
      simp only [weight, length]
      omega

/-- The read that is done is taken out of the list. -/
theorem read_split {state : ChunkState} {index : ℕ} {id : SliceId} {buffer : ℕ}
    (found : state.reading[index]? = some (id, buffer)) :
    index < state.reading.length ∧
      ((id, buffer) :: state.reading.eraseIdx index).Perm state.reading := by
  obtain ⟨inside, here⟩ := List.getElem?_eq_some_iff.mp found
  exact ⟨inside, here ▸ List.getElem_cons_eraseIdx_perm inside⟩

/-- A read fails: its buffer is lost, and its slice is never given. -/
theorem readFailed_sound {state : ChunkState} {index : ℕ} {id : SliceId} {buffer : ℕ}
    (sound : cfg.Sound 0 state) (found : state.reading[index]? = some (id, buffer))
    (sparing : state.poolSize + 1 < cfg.maxBufs + (state.pool.length + state.taken.length) ∨
      2 ≤ cfg.largeInPool state + state.taken.length ∨
        (state.waitQueue = [] ∧ cfg.remaining state.turn = [])) :
    cfg.Sound 1
      { state with reading := state.reading.eraseIdx index, readErr := true, failed := true } := by
  obtain ⟨inside, split⟩ := read_split found
  have length := List.length_eraseIdx_of_lt inside
  rcases sound with ⟨live, queued⟩ | aborted | ⟨-, finished⟩
  · have running : state.running = state.ticks.length + state.passing.length +
        (state.reading.eraseIdx index).length + state.closing.length + 1 := by
      rw [live.running, length]
      omega
    obtain ⟨lost, -, account⟩ := live.account
    have usable := live.usable
    simp only [ChunkState.taken_length, largeInPool] at usable sparing
    refine Or.inl ⟨{ live with
      running := running
      errors := rfl
      usable := ?_
      enough := fun needed => ?_
      large := fun other member => live.large other ?_
      account := ⟨lost ++ [id], fun _ => rfl, List.perm_iff_count.mpr fun other => ?_⟩ }, queued⟩
    · simp only [ChunkState.taken_length, length]
      omega
    · simp only [ChunkState.taken_length, length, largeInPool]
      rcases sparing with room | large | ⟨waitQueue, remaining⟩
      · exact Or.inl (by omega)
      · exact Or.inr (by omega)
      · rcases needed with waits | some
        · exact absurd waitQueue waits
        · exact absurd remaining some
    · simp only [ChunkState.taken, List.mem_append] at member ⊢
      refine member.imp_left fun before => before.imp_right fun reading => ?_
      exact (split.map Prod.snd).mem_iff.mp (List.mem_cons_of_mem _ reading)
    · have count := List.perm_iff_count.mp account other
      have parts := List.perm_iff_count.mp (split.map Prod.fst) other
      simp only [ChunkState.waiting, List.map_cons, List.count_append, List.count_cons,
        List.count_nil] at count parts ⊢
      omega
  · obtain ⟨rest, account⟩ := aborted.account
    refine Or.inr (Or.inl { aborted with
      failed := rfl
      account := ⟨rest ++ [id], List.perm_iff_count.mpr fun other => ?_⟩ })
    have count := List.perm_iff_count.mp account other
    have parts := List.perm_iff_count.mp (split.map Prod.fst) other
    simp only [List.map_cons, List.count_append, List.count_cons, List.count_nil] at count parts ⊢
    omega
  · rw [finished.reading] at inside
    cases inside

/-- A read has its data: the slice is given, and the consumer holds the buffer. -/
theorem readGiven_sound {state : ChunkState} {index : ℕ} {id : SliceId} {buffer : ℕ}
    (sound : cfg.Sound 0 state) (found : state.reading[index]? = some (id, buffer)) :
    cfg.Sound 1
      { state with
        reading := state.reading.eraseIdx index
        given := state.given ++ [(id, cfg.readSlice id)]
        held := state.held ++ [buffer] } := by
  obtain ⟨inside, split⟩ := read_split found
  have length := List.length_eraseIdx_of_lt inside
  have bytes : ∀ given : List (SliceId × Buffer), (∀ call ∈ given, call.2 = cfg.readSlice call.1) →
      ∀ call ∈ given ++ [(id, cfg.readSlice id)], call.2 = cfg.readSlice call.1 := by
    intro given before call member
    rcases List.mem_append.mp member with old | new
    · exact before call old
    · rw [List.mem_singleton.mp new]
  rcases sound with ⟨live, queued⟩ | aborted | ⟨-, finished⟩
  · have running : state.running = state.ticks.length + state.passing.length +
        (state.reading.eraseIdx index).length + state.closing.length + 1 := by
      rw [live.running, length]
      omega
    obtain ⟨lost, failure, account⟩ := live.account
    have usable := live.usable
    have enough := live.enough
    simp only [ChunkState.taken_length, largeInPool] at usable enough
    refine Or.inl ⟨{ live with
      running := running
      usable := ?_
      enough := fun needed => ?_
      large := fun other member => live.large other ?_
      account := ⟨lost, failure, List.perm_iff_count.mpr fun other => ?_⟩
      bytes := bytes _ live.bytes }, queued⟩
    · simp only [ChunkState.taken_length, length, List.length_append, List.length_singleton]
      omega
    · simp only [ChunkState.taken_length, length, largeInPool, List.length_append,
        List.length_singleton]
      exact (enough needed).imp (by omega) (by omega)
    · simp only [ChunkState.taken, List.mem_append, List.mem_singleton] at member ⊢
      have back := split.map Prod.snd
      rcases member with (before | reading) | held | same
      · exact Or.inl (Or.inl before)
      · exact Or.inl (Or.inr (back.mem_iff.mp (List.mem_cons_of_mem _ reading)))
      · exact Or.inr held
      · rw [same]
        exact Or.inl (Or.inr (back.mem_iff.mp List.mem_cons_self))
    · have count := List.perm_iff_count.mp account other
      have parts := List.perm_iff_count.mp (split.map Prod.fst) other
      simp only [ChunkState.waiting, List.map_append, List.map_cons, List.map_nil,
        List.count_append, List.count_cons, List.count_nil] at count parts ⊢
      omega
  · obtain ⟨rest, account⟩ := aborted.account
    refine Or.inr (Or.inl { aborted with
      account := ⟨rest, List.perm_iff_count.mpr fun other => ?_⟩
      bytes := bytes _ aborted.bytes })
    have count := List.perm_iff_count.mp account other
    have parts := List.perm_iff_count.mp (split.map Prod.fst) other
    simp only [List.map_append, List.map_cons, List.map_nil, List.count_append, List.count_cons,
      List.count_nil] at count parts ⊢
    omega
  · rw [finished.reading] at inside
    cases inside

theorem read_sound {state after : ChunkState} {index : ℕ} {failed returned : Bool}
    (sound : cfg.Sound 0 state) (sparing : cfg.Sparing state (.read index failed returned))
    (taken : cfg.read state index failed returned = some after) :
    cfg.Sound 0 after ∧ cfg.weight after < cfg.weight state := by
  rw [read] at taken
  split at taken
  case h_2 => cases taken
  case h_1 id buffer found =>
    have length := List.length_eraseIdx_of_lt (read_split found).1
    have some := (read_split found).1
    cases failed with
    | true =>
      obtain rfl := Option.some.inj taken
      refine ⟨chunkDone_sound (readFailed_sound sound found sparing) _,
        lt_of_le_of_lt (chunkDone_weight _ _) ?_⟩
      simp only [weight, length]
      omega
    | false =>
      obtain rfl := Option.some.inj taken
      have given := readGiven_sound sound found
      cases returned with
      | true =>
        refine ⟨chunkDone_sound (put_sound given) _, lt_of_le_of_lt (chunkDone_weight _ _) ?_⟩
        refine lt_of_le_of_lt (Nat.succ_le_succ (put_weight _ _)) ?_
        simp only [weight, length]
        omega
      | false =>
        refine ⟨chunkDone_sound given _, lt_of_le_of_lt (chunkDone_weight _ _) ?_⟩
        simp only [weight, length, Bool.false_eq_true, if_false, List.length_append,
          List.length_singleton]
        omega

theorem step_sound {state after : ChunkState} {event : ChunkEvent} (sound : cfg.Sound 0 state)
    (sparing : cfg.Sparing state event) (taken : cfg.step state event = some after) :
    cfg.Sound 0 after ∧ cfg.weight after < cfg.weight state := by
  cases event with
  | next => exact next_sound sound taken
  | opened failed => exact opened_sound sound taken
  | tick => exact tick_sound sound taken
  | passed => exact passed_sound sound taken
  | read index failed returned => exact read_sound sound sparing taken
  | closed index failed => exact closed_sound sound taken
  | put index => exact giveBack_sound sound taken

/-! ## Something can happen until the end -/

theorem read_goesOn {state : ChunkState} (reading : state.reading ≠ []) :
    ∃ event, (cfg.step state event).isSome := by
  refine ⟨.read 0 false false, ?_⟩
  cases same : state.reading with
  | nil => exact absurd same reading
  | cons first rest => simp [step, read, same]

theorem closed_goesOn {state : ChunkState} (closing : state.closing ≠ []) :
    ∃ event, (cfg.step state event).isSome := by
  refine ⟨.closed 0 false, ?_⟩
  cases same : state.closing with
  | nil => exact absurd same closing
  | cons first rest => simp [step, closed, same]

theorem put_goesOn {state : ChunkState} (held : state.held ≠ []) :
    ∃ event, (cfg.step state event).isSome := by
  refine ⟨.put 0, ?_⟩
  cases same : state.held with
  | nil => exact absurd same held
  | cons first rest => simp [step, giveBack, same]

/-- What waits for a buffer or a place waits for a read, a close or the consumer. -/
theorem Live.goesOn {state : ChunkState} (live : cfg.Live 0 state) (queued : cfg.Queued state)
    (concurrent : 0 < cfg.concurrency) : ∃ event, (cfg.step state event).isSome := by
  have running := live.running
  have short := job_length state.turn
  have length := congrArg List.length live.one
  simp only [ChunkState.waiting, List.length_append, List.length_map] at length
  by_cases reading : state.reading = []
  case neg => exact read_goesOn reading
  by_cases closing : state.closing = []
  case neg => exact closed_goesOn closing
  simp only [reading, closing, List.length_nil] at running
  cases ticks : state.ticks with
  | cons first rest => exact ⟨.tick, by simp [step, tick, ticks]⟩
  | nil =>
    cases passing : state.passing with
    | cons first rest => exact ⟨.passed, by simp [step, passed, passing]⟩
    | nil =>
      simp only [ticks, passing, List.length_nil] at running length
      cases turn : state.turn with
      | opening index => exact ⟨.opened false, by simp [step, opened, turn]⟩
      | ended => exact absurd running (live.last turn)
      | file index =>
        refine ⟨.next, ?_⟩
        simp only [step, next, turn]
        split
        · split <;> rfl
        · split <;> rfl
      | slice index sliceNum =>
        refine ⟨.next, ?_⟩
        simp only [step, next, turn]
        split <;> rfl
      | busy index sliceNum =>
        rw [turn, Turn.job, List.length_singleton] at length
        have unqueued : state.queue = [] := by
          by_contra some
          have full := queued some
          omega
        have waits : state.waitQueue ≠ [] := by
          intro none
          simp only [none, unqueued, List.length_nil] at length
          omega
        have needed := live.enough (Or.inl waits)
        obtain ⟨pool, full⟩ := live.pool waits
        simp only [ChunkState.taken_length, pool, unqueued, ticks, passing, reading, largeInPool,
          List.length_nil, List.filter_nil] at needed
        apply put_goesOn
        intro none
        rw [none, List.length_nil] at needed
        omega

/-! ## A run -/

/-- What a caller may rely on while and after a run. -/
structure Right (cfg : ChunkConfig) (state : ChunkState) : Prop where
  once : state.results.length ≤ 1
  outcome : ∀ result ∈ state.results, result = state.failed
  goesOn : state.results = [] → ∃ event, (cfg.step state event).isSome
  distinct : (state.given.map Prod.fst).Nodup
  bytes : ∀ call ∈ state.given, ∃ file, cfg.files[call.1.1]? = some file ∧
    call.1.2 * cfg.sliceSize + cfg.chunkOffset < file.size ∧
      call.2 = slice file.content (call.1.2 * cfg.sliceSize + cfg.chunkOffset)
        (call.1.2 * cfg.sliceSize + cfg.chunkOffset + cfg.chunkSize)
  served : state.results = [false] → ∀ index file sliceNum, cfg.files[index]? = some file →
    sliceNum * cfg.sliceSize + cfg.chunkOffset < file.size →
      (index, sliceNum) ∈ state.given.map Prod.fst

theorem lt_numSlices (pos : 0 < cfg.sliceSize) (file : ChunkFile) (sliceNum : ℕ) :
    sliceNum < cfg.numSlices file ↔
      sliceNum * cfg.sliceSize + cfg.chunkOffset < file.size := by
  rw [numSlices]
  split
  case isTrue none =>
    refine ⟨fun some => absurd some (Nat.not_lt_zero _), fun some => ?_⟩
    rcases none with empty | short <;> omega
  case isFalse data =>
    rw [Nat.lt_iff_add_one_le, Nat.le_div_iff_mul_le pos, Nat.succ_mul]
    omega

theorem mem_allSlices (pos : 0 < cfg.sliceSize) (index sliceNum : ℕ) :
    (index, sliceNum) ∈ cfg.allSlices ↔ ∃ file, cfg.files[index]? = some file ∧
      sliceNum * cfg.sliceSize + cfg.chunkOffset < file.size := by
  simp only [allSlices, slicesFrom, List.mem_flatMap, List.mem_range'_1, List.mem_map,
    List.mem_range, Prod.mk.injEq, fileSlices]
  constructor
  · rintro ⟨index, ⟨-, inside⟩, sliceNum, has, rfl, rfl⟩
    have found : cfg.files[index]? = some cfg.files[index] := List.getElem?_eq_getElem _
    rw [found] at has
    exact ⟨_, found, (lt_numSlices pos _ _).mp has⟩
  · rintro ⟨file, found, has⟩
    have inside := (List.getElem?_eq_some_iff.mp found).1
    refine ⟨index, ⟨Nat.zero_le _, by omega⟩, sliceNum, ?_, rfl, rfl⟩
    rw [found]
    exact (lt_numSlices pos _ _).mpr has

theorem allSlices_nodup : cfg.allSlices.Nodup := by
  rw [allSlices, slicesFrom, List.nodup_flatMap]
  constructor
  · exact fun index _ => List.nodup_range.map fun _ _ same => (Prod.mk.inj same).2
  · refine List.Pairwise.imp ?_ List.nodup_range'
    intro first second differ
    simp only [Function.onFun, List.disjoint_left, List.mem_map]
    rintro id ⟨_, -, rfl⟩ ⟨_, -, same⟩
    exact differ (Prod.mk.inj same).1.symm

theorem Sound.right {state : ChunkState} (sound : cfg.Sound 0 state)
    (pos : 0 < cfg.sliceSize) (concurrent : 0 < cfg.concurrency) :
    cfg.Right state := by
  have shared : ∀ rest : List SliceId, (state.given.map Prod.fst ++ rest).Perm cfg.allSlices →
      (∀ call ∈ state.given, call.2 = cfg.readSlice call.1) →
      (state.given.map Prod.fst).Nodup ∧ ∀ call ∈ state.given, ∃ file,
        cfg.files[call.1.1]? = some file ∧
        call.1.2 * cfg.sliceSize + cfg.chunkOffset < file.size ∧
          call.2 = slice file.content (call.1.2 * cfg.sliceSize + cfg.chunkOffset)
            (call.1.2 * cfg.sliceSize + cfg.chunkOffset + cfg.chunkSize) := by
    intro rest account bytes
    refine ⟨(List.nodup_append.mp (account.nodup_iff.mpr allSlices_nodup)).1, ?_⟩
    intro call member
    have id : call.1 ∈ state.given.map Prod.fst := List.mem_map_of_mem member
    have listed : call.1 ∈ cfg.allSlices := account.mem_iff.mp (List.mem_append_left _ id)
    obtain ⟨file, found, has⟩ := (mem_allSlices pos call.1.1 call.1.2).mp listed
    refine ⟨file, found, has, ?_⟩
    rw [bytes call member, readSlice, found]
  rcases sound with ⟨live, queued⟩ | aborted | ⟨-, finished⟩
  · obtain ⟨lost, -, account⟩ := live.account
    simp only [List.append_assoc] at account
    obtain ⟨distinct, bytes⟩ := shared _ account live.bytes
    have none := live.uncalled
    refine ⟨?_, ?_, fun _ => live.goesOn queued concurrent, distinct, bytes, ?_⟩ <;> simp [none]
  · obtain ⟨rest, account⟩ := aborted.account
    simp only [List.append_assoc] at account
    obtain ⟨distinct, bytes⟩ := shared _ account aborted.bytes
    have called := aborted.called
    refine ⟨?_, ?_, ?_, distinct, bytes, ?_⟩ <;> simp [called, aborted.failed]
  · obtain ⟨lost, failure, account⟩ := finished.account
    obtain ⟨distinct, bytes⟩ := shared _ account finished.bytes
    have called := finished.called
    refine ⟨?_, ?_, ?_, distinct, bytes, fun fine index file sliceNum found has => ?_⟩
    · rw [called, List.length_singleton]
    · simp [called]
    · simp [called]
    · have unfailed : state.failed = false := by simpa [called] using fine
      have all : lost = [] := by
        by_contra some
        rw [failure some] at unfailed
        cases unfailed
      rw [all, List.append_nil] at account
      exact account.mem_iff.mpr ((mem_allSlices pos index sliceNum).mpr ⟨file, found, has⟩)

theorem start_sound (bufs : List ℕ) (room : 0 < cfg.maxBufs) :
    cfg.Sound 0 (start bufs) := by
  refine Or.inl ⟨⟨rfl, by simp [start, Turn.current], rfl, rfl, by simp [start], by simp [start],
    rfl, fun some => absurd rfl some, ?_, fun _ => Or.inl ?_, ?_, ⟨[], fun some => absurd rfl some,
    List.Perm.refl _⟩, ?_⟩, fun some => absurd rfl some⟩
  · simp [start, ChunkState.taken]
  · simp only [start, ChunkState.taken_length, List.length_nil]
    omega
  · simp [start, ChunkState.taken]
  · simp [start]

/-- As long as a failed read leaves a buffer for the slices still to come, the callback is called
exactly once, at the end, and with an error just when something has failed. -/
theorem FileChunkReader_calls_once (cfg : ChunkConfig) (bufs : List ℕ)
    (actions : List ChunkEvent) (pos : 0 < cfg.sliceSize)
    (concurrent : 0 < cfg.concurrency) (buffers : cfg.concurrency ≤ cfg.maxBufs)
    (spared : Machine.Guarded cfg.step cfg.Sparing (start bufs) actions) :
    Machine.Throughout cfg.step cfg.Right (start bufs) actions ∧
      ∀ last, Machine.run cfg.step (start bufs) actions = some last →
        actions.length + cfg.weight last ≤ cfg.weight (start bufs) := by
  have begins : cfg.Sound 0 (start bufs) := start_sound bufs (by omega)
  constructor
  · refine Machine.Throughout.imp (fun state kept => Sound.right kept pos concurrent) ?_
    exact Machine.Guarded.throughout
      (fun state event after sound sparing taken => (step_sound sound sparing taken).1) begins spared
  · exact fun last reached => Machine.Guarded.run_length
      (fun state event after sound sparing taken => step_sound sound sparing taken) begins spared
      reached

/-- One file with two slices, and as many buffers. -/
def twoSlices (maxBufs : ℕ) : ChunkConfig where
  files := [⟨2, [1, 2]⟩]
  sliceSize := 1
  chunkSize := 1
  chunkOffset := 0
  concurrency := 1
  length := 1
  maxBufs := maxBufs

theorem FileChunkReader_calls_once_two :
    Machine.Throughout (twoSlices 2).step (twoSlices 2).Right (start [])
        [.next, .opened false, .next, .passed, .read 0 true false] ∧
      ∀ last, Machine.run (twoSlices 2).step (start [])
          [.next, .opened false, .next, .passed, .read 0 true false] = some last →
        5 + (twoSlices 2).weight last ≤ (twoSlices 2).weight (start []) := by
  apply FileChunkReader_calls_once (twoSlices 2) [] _ Nat.one_pos Nat.one_pos (Nat.le_succ 1)
  repeat
    refine fun next taken => ⟨?_, ?_⟩
    · first
      | trivial
      | exact Or.inl (by decide)
    obtain rfl := Option.some.inj taken
  trivial

/-- With a single buffer, the first read that fails keeps it, and the second slice waits for ever. -/
theorem failed_read_keeps_buffer : ∃ actions last,
    Machine.run (twoSlices 1).step (start []) actions = some last ∧ last.results = [] ∧
      ∀ event, (twoSlices 1).step last event = none := by
  refine ⟨[.next, .opened false, .next, .passed, .read 0 true false, .next], _, rfl, rfl, ?_⟩
  intro event
  cases event <;> rfl

end ChunkConfig

end Par3
