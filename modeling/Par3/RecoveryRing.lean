import Par3.Foundations.Runs
import Mathlib.Data.Int.Notation
import Mathlib.Data.List.Nodup
import Mathlib.Logic.Function.Basic

/-!
# The ring of recovery buffers

Recovery slices are read back into a ring of buffers. A buffer is used by two parties: the hasher takes
the slices in groups, as soon as a whole group was read, and the consumer takes them one after the other.
When both of them are done with a slice, its buffer is read into again. Reads and updates of the hashers
end in any order, and what was set by `setImmediate` runs in any order.
-/
namespace Par3

namespace RecoveryRing

/-- The number of recovery slices, and the options of `PAR2`, which are zero where they are not given. There
is no ring without recovery slices. -/
structure Config where
  slices : ℕ
  hashBatchOption : ℕ
  recDataOption : ℕ
  positive : 0 < slices

/-- An entry of `recDataFetchCb` or `recDataHashCb`: nothing, a callback, or `true`. -/
inductive Marker where
  | unset
  | callback
  | done
deriving DecidableEq

/-- The variables of the wrapper during the chunk with a number, what the hashers were given for every slice,
and what is under way: the reads, the updates of the hashers with the places of their buffers, the reads that
`setImmediate` begins, and the pieces that it delivers. The consumer holds pieces and may wait for the end,
which `process.nextTick` tells it. The contents of a buffer are known by chunk and slice; while it is read into
it has none. -/
structure State where
  chunk : ℕ
  recData : ℕ → Option (ℕ × ℕ)
  recDataFetchCb : ℕ → Marker
  recDataHashCb : ℕ → Marker
  recDataRefcount : ℕ → ℤ
  recDataHasherBufsNeeded : ℕ → ℤ
  recDataPtr : ℕ
  recCompleteCb : Bool
  hashed : ℕ → List (Option (ℕ × ℕ))
  reading : List ℕ
  updating : List (ℕ × List ℕ)
  fetching : List ℕ
  delivering : List ℕ
  held : List ℕ
  waited : Bool
  ticks : ℕ
  completions : ℕ

namespace Config

variable (cfg : Config)

/-- `opts.hashBatchSize` before it is limited -/
def requestedBatch : ℕ := if cfg.hashBatchOption = 0 then 8 else cfg.hashBatchOption

/-- `opts.recDataSize` -/
def recDataSize : ℕ :=
  if cfg.recDataOption = 0 then (3 * cfg.requestedBatch + 1) / 2 else cfg.recDataOption

/-- `opts.hashBatchSize` -/
def hashBatchSize : ℕ := min cfg.requestedBatch cfg.recDataSize

/-- `recData.length` -/
def ring : ℕ := min cfg.slices cfg.recDataSize

/-- `numBufs` of a hasher -/
def numBufs (hasher : ℕ) : ℕ := min cfg.hashBatchSize (cfg.slices - hasher * cfg.hashBatchSize)

/-- The slices of a hasher -/
def group (hasher : ℕ) : List ℕ := List.range' (hasher * cfg.hashBatchSize) (cfg.numBufs hasher)

/-- The places of the buffers that a hasher is updated with -/
def bufs (hasher : ℕ) : List ℕ :=
  ((List.range (cfg.numBufs hasher)).foldl (fun (acc : ℤ × List ℕ) (i : ℕ) =>
    let baseBufIdx := if acc.1 + i ≥ cfg.ring then acc.1 - cfg.ring else acc.1
    (baseBufIdx, acc.2 ++ [(baseBufIdx + i).toNat]))
    (((hasher * cfg.hashBatchSize % cfg.ring : ℕ) : ℤ), [])).2

/-- `_fetchRecData` until it waits for the read -/
def fetchRecData (idx : ℕ) (state : State) : State :=
  { state with
    recDataRefcount := Function.update state.recDataRefcount (idx % cfg.ring) 2
    recData := Function.update state.recData (idx % cfg.ring) none
    reading := state.reading ++ [idx] }

/-- `_isRecoveryProcessed` -/
def isRecoveryProcessed (recDataRefcount : ℕ → ℤ) : Bool :=
  (List.range cfg.ring).all fun i => !(recDataRefcount i > 0)

/-- `_markRecDataConsumed` -/
def markRecDataConsumed (idx : ℕ) (state : State) : State :=
  let groupIdx := idx % cfg.ring
  let count := state.recDataRefcount groupIdx - 1
  let state := { state with recDataRefcount := Function.update state.recDataRefcount groupIdx count }
  if count = 0 then
    let nextIdx := idx + cfg.ring
    if nextIdx < cfg.slices then { state with fetching := state.fetching ++ [nextIdx] }
    else
      let state := { state with recData := Function.update state.recData groupIdx none }
      if cfg.isRecoveryProcessed state.recDataRefcount && state.recCompleteCb then { state with ticks := state.ticks + 1 }
      else state
  else state

/-- `_pullRecData` -/
def pullRecData (state : State) (chunk : ℕ) : State :=
  (List.range cfg.ring).foldl (fun state i => cfg.fetchRecData i state)
    { state with
      chunk := chunk
      recData := fun _ => none
      recDataFetchCb := fun _ => .unset
      recDataHashCb := fun _ => .unset
      recDataRefcount := fun _ => 0
      recDataHasherBufsNeeded := fun hasher => cfg.numBufs hasher
      recDataPtr := 0
      recCompleteCb := false
      waited := false
      completions := 0 }

/-- The state in which the first chunk is read back -/
def start : State :=
  cfg.pullRecData
    { chunk := 0
      recData := fun _ => none
      recDataFetchCb := fun _ => .unset
      recDataHashCb := fun _ => .unset
      recDataRefcount := fun _ => 0
      recDataHasherBufsNeeded := fun _ => 0
      recDataPtr := 0
      recCompleteCb := false
      hashed := fun _ => []
      reading := []
      updating := []
      fetching := []
      delivering := []
      held := []
      waited := false
      ticks := 0
      completions := 0 } 0

/-- The callback of a read -/
def received (idx : ℕ) (state : State) : State :=
  let hasherIdx := idx / cfg.hashBatchSize
  let needed := state.recDataHasherBufsNeeded hasherIdx - 1
  let state := { state with
    recData := Function.update state.recData (idx % cfg.ring) (some (state.chunk, idx))
    recDataHasherBufsNeeded := Function.update state.recDataHasherBufsNeeded hasherIdx needed }
  let state := if needed = 0 then { state with updating := state.updating ++ [(hasherIdx, cfg.bufs hasherIdx)] }
    else state
  let state := match state.recDataFetchCb idx with
    | .callback => { state with held := state.held ++ [idx] }
    | _ => state
  { state with recDataFetchCb := Function.update state.recDataFetchCb idx .done }

/-- What the callback of an update does for one of its slices -/
def release (state : State) (idx : ℕ) : State :=
  let state := cfg.markRecDataConsumed idx state
  { state with recDataHashCb := Function.update state.recDataHashCb idx .done }

/-- The hasher reads the buffers, and its callback is called. -/
def updated (hasher : ℕ) (bufs : List ℕ) (state : State) : State :=
  (cfg.group hasher).foldl cfg.release { state with
    hashed := fun idx =>
      if idx ∈ cfg.group hasher then
        state.hashed idx ++ [state.recData (bufs.getD (idx - hasher * cfg.hashBatchSize) 0)]
      else state.hashed idx }

/-- `getNextRecoveryData` -/
def getNextRecoveryData (state : State) : Option State :=
  if state.recDataPtr ≥ cfg.slices then none
  else if state.recDataFetchCb state.recDataPtr = .done then
    some { state with delivering := state.delivering ++ [state.recDataPtr], recDataPtr := state.recDataPtr + 1 }
  else some { state with
    recDataFetchCb := Function.update state.recDataFetchCb state.recDataPtr .callback
    recDataPtr := state.recDataPtr + 1 }

/-- `waitForRecoveryComplete` -/
def waitForRecoveryComplete (state : State) : State :=
  if cfg.isRecoveryProcessed state.recDataRefcount then { state with ticks := state.ticks + 1, waited := true }
  else { state with recCompleteCb := true, waited := true }

/-- The consumer was given every piece, and has released it. -/
def Emptied (state : State) : Prop :=
  state.recDataPtr = cfg.slices ∧ state.held = [] ∧ state.delivering = [] ∧
    ∀ idx < cfg.slices, state.recDataFetchCb idx = .done

instance (state : State) : Decidable (cfg.Emptied state) := inferInstanceAs (Decidable (_ ∧ _))

end Config

/-- What can happen: a read ends, an update ends, a function that was set by `setImmediate` runs, the consumer
asks for the next piece, releases one, waits for the end or hears of it, and the next chunk is read back. -/
inductive Action where
  | received (idx : ℕ)
  | updated (hasher : ℕ) (bufs : List ℕ)
  | fetch (idx : ℕ)
  | deliver (idx : ℕ)
  | next
  | release (idx : ℕ)
  | wait
  | tick
  | pull
deriving DecidableEq

/-- One step. The consumer releases the pieces that it holds, waits once, when it has released all of them, and
goes on when it has heard of the end. -/
def Config.step (cfg : Config) (state : State) : Action → Option State
  | .received idx =>
    if idx ∈ state.reading then some (cfg.received idx { state with reading := state.reading.erase idx }) else none
  | .updated hasher bufs =>
    if (hasher, bufs) ∈ state.updating then
      some (cfg.updated hasher bufs { state with updating := state.updating.erase (hasher, bufs) })
    else none
  | .fetch idx =>
    if idx ∈ state.fetching then some (cfg.fetchRecData idx { state with fetching := state.fetching.erase idx })
    else none
  | .deliver idx =>
    if idx ∈ state.delivering then
      some { state with delivering := state.delivering.erase idx, held := state.held ++ [idx] }
    else none
  | .next => cfg.getNextRecoveryData state
  | .release idx =>
    if idx ∈ state.held then some (cfg.markRecDataConsumed idx { state with held := state.held.erase idx })
    else none
  | .wait => if cfg.Emptied state ∧ state.waited = false then some (cfg.waitForRecoveryComplete state) else none
  | .tick => if 0 < state.ticks then
      some { state with ticks := state.ticks - 1, completions := state.completions + 1 }
    else none
  | .pull => if 0 < state.completions then some (cfg.pullRecData state (state.chunk + 1)) else none

end RecoveryRing

end Par3
