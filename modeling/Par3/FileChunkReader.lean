import Par3.Bytes
import Par3.Foundations.Runs

/-!
# Reading chunks of files

The slices of each file are started one after the other. A slice gets a buffer from the pool, then a
place among the reads that may run at once, and the next slice is started when its read is under way.
Reads end in any order. The events are what the environment decides: that a callback is called now,
and with which outcome.
-/
namespace Par3

/-- A file, with what reads of it return. -/
structure ChunkFile where
  size : ℕ
  content : Buffer

/-- The parameters of `FileChunkReader` and of its pool. -/
structure ChunkConfig where
  files : List ChunkFile
  sliceSize : ℕ
  chunkSize : ℕ
  chunkOffset : ℕ
  concurrency : ℕ
  length : ℕ
  maxBufs : ℕ

/-- A slice of a file: the index of the file and that of the slice in it. -/
abbrev SliceId := ℕ × ℕ

/-- Where the loops over files and slices stand. -/
inductive Turn
  | file (index : ℕ)
  | opening (index : ℕ)
  | slice (index sliceNum : ℕ)
  | busy (index sliceNum : ℕ)
  | ended
deriving DecidableEq

/-- Callbacks that wait: in the pool for a buffer, in the queue for a place, at the next tick, in the
throttle, for a read, for a close and for the consumer. A buffer is known by its length. -/
structure ChunkState where
  turn : Turn
  pool : List ℕ
  poolSize : ℕ
  waitQueue : List SliceId
  queue : List (SliceId × ℕ)
  ticks : List (SliceId × ℕ)
  passing : List (SliceId × ℕ)
  reading : List (SliceId × ℕ)
  closing : List ℕ
  held : List ℕ
  running : ℕ
  endCb : Bool
  readErr : Bool
  chunksLeft : ℕ → ℤ
  /-- The calls of `cbChunk`. -/
  given : List (SliceId × Buffer)
  /-- The calls of the final callback, and whether with an error. -/
  results : List Bool
  /-- Whether an open, a read or a close has failed. -/
  failed : Bool

/-- What the environment does next: the loops go on, an open or a close is done, a read is let
through or done, a callback of the next tick is called, the consumer gives a buffer back. -/
inductive ChunkEvent
  | next
  | opened (failed : Bool)
  | tick
  | passed
  | read (index : ℕ) (failed returned : Bool)
  | closed (index : ℕ) (failed : Bool)
  | put (index : ℕ)

namespace ChunkConfig

variable (cfg : ChunkConfig)

/-- A new pool with these buffers. -/
def start (bufs : List ℕ) : ChunkState where
  turn := .file 0
  pool := bufs
  poolSize := bufs.length
  waitQueue := []
  queue := []
  ticks := []
  passing := []
  reading := []
  closing := []
  held := []
  running := 0
  endCb := false
  readErr := false
  chunksLeft := fun _ => 0
  given := []
  results := []
  failed := false

/-- `Math.ceil((file.size - chunkOffset) / sliceSize)`, or none for a file that is passed over -/
def numSlices (file : ChunkFile) : ℕ :=
  if file.size = 0 ∨ file.size ≤ cfg.chunkOffset then 0
  else (file.size - cfg.chunkOffset + cfg.sliceSize - 1) / cfg.sliceSize

def fileSlices (index : ℕ) : ℕ :=
  match cfg.files[index]? with
  | some file => cfg.numSlices file
  | none => 0

/-- The bytes that a read returns. -/
def readSlice (id : SliceId) : Buffer :=
  match cfg.files[id.1]? with
  | some file =>
    let filePos := id.2 * cfg.sliceSize + cfg.chunkOffset
    slice file.content filePos (filePos + cfg.chunkSize)
  | none => []

/-- The callback of `readQ.run` -/
def inSlot (state : ChunkState) (id : SliceId) (buffer : ℕ) : ChunkState :=
  if state.readErr then { state with turn := .ended, results := state.results ++ [true] }
  else { state with passing := state.passing ++ [(id, buffer)] }

/-- `readQ.run` -/
def run (state : ChunkState) (id : SliceId) (buffer : ℕ) : ChunkState :=
  if state.running ≥ cfg.concurrency then { state with queue := state.queue ++ [(id, buffer)] }
  else inSlot { state with running := state.running + 1 } id buffer

/-- `readQ.done` -/
def done (state : ChunkState) : ChunkState :=
  match state.queue with
  | first :: queue => { state with queue := queue, ticks := state.ticks ++ [first] }
  | [] =>
    let state := { state with running := state.running - 1 }
    if state.running = 0 ∧ state.endCb then
      { state with results := state.results ++ [state.readErr] }
    else state

/-- The loop of `get`: buffers that are too small are dropped. -/
def popLarge : List ℕ → ℕ → Option ℕ × List ℕ × ℕ
  | [], poolSize => (none, [], poolSize)
  | buffer :: pool, poolSize =>
    if buffer ≥ cfg.length then (some buffer, pool, poolSize) else popLarge pool (poolSize - 1)

/-- `bufPool.get` -/
def get (state : ChunkState) (id : SliceId) : ChunkState :=
  match cfg.popLarge state.pool state.poolSize with
  | (some buffer, pool, poolSize) =>
    cfg.run { state with pool := pool, poolSize := poolSize } id buffer
  | (none, pool, poolSize) =>
    if poolSize < cfg.maxBufs then
      cfg.run { state with pool := pool, poolSize := poolSize + 1 } id cfg.length
    else { state with pool := pool, poolSize := poolSize, waitQueue := state.waitQueue ++ [id] }

/-- `bufPool.put` -/
def put (state : ChunkState) (buffer : ℕ) : ChunkState :=
  match state.waitQueue with
  | next :: waitQueue => cfg.run { state with waitQueue := waitQueue } next buffer
  | [] => { state with pool := buffer :: state.pool }

/-- The loop over slices, that over files, or the end of both -/
def next (state : ChunkState) : Option ChunkState :=
  match state.turn with
  | .file index =>
    match cfg.files[index]? with
    | some file =>
      if file.size = 0 ∨ file.size ≤ cfg.chunkOffset then
        some { state with turn := .file (index + 1) }
      else some { state with turn := .opening index }
    | none =>
      let state := { state with turn := .ended }
      if state.running ≠ 0 then some { state with endCb := true }
      else some { state with results := state.results ++ [state.readErr] }
  | .slice index sliceNum =>
    if sliceNum < cfg.fileSlices index then
      some (cfg.get { state with turn := .busy index sliceNum } (index, sliceNum))
    else some { state with turn := .file (index + 1) }
  | _ => none

def opened (state : ChunkState) (failed : Bool) : Option ChunkState :=
  match state.turn with
  | .opening index =>
    if failed then
      some { state with turn := .ended, results := state.results ++ [true], failed := true }
    else
      some { state with
        turn := .slice index 0
        chunksLeft := Function.update state.chunksLeft index (cfg.fileSlices index) }
  | _ => none

def tick (state : ChunkState) : Option ChunkState :=
  match state.ticks with
  | (id, buffer) :: ticks => some (inSlot { state with ticks := ticks } id buffer)
  | [] => none

/-- The read is requested, and the loop can go on. -/
def passed (state : ChunkState) : Option ChunkState :=
  match state.passing with
  | (id, buffer) :: passing =>
    some { state with
      passing := passing
      reading := state.reading ++ [(id, buffer)]
      turn := .slice id.1 (id.2 + 1) }
  | [] => none

/-- The last chunk of a file closes it. -/
def chunkDone (state : ChunkState) (index : ℕ) : ChunkState :=
  let left := state.chunksLeft index - 1
  let state := { state with chunksLeft := Function.update state.chunksLeft index left }
  if left = 0 then { state with closing := state.closing ++ [index] } else done state

/-- The callback of `fs.read`. The consumer may give the buffer back at once. -/
def read (state : ChunkState) (index : ℕ) (failed returned : Bool) : Option ChunkState :=
  match state.reading[index]? with
  | some (id, buffer) =>
    let state := { state with reading := state.reading.eraseIdx index }
    if failed then some (chunkDone { state with readErr := true, failed := true } id.1)
    else
      let state := { state with given := state.given ++ [(id, cfg.readSlice id)] }
      let state := if returned then cfg.put state buffer
        else { state with held := state.held ++ [buffer] }
      some (chunkDone state id.1)
  | none => none

/-- The callback of `fs.close` -/
def closed (state : ChunkState) (index : ℕ) (failed : Bool) : Option ChunkState :=
  match state.closing[index]? with
  | some _ =>
    let state := { state with closing := state.closing.eraseIdx index }
    some (done (if failed then { state with readErr := true, failed := true } else state))
  | none => none

/-- The consumer gives a buffer back. -/
def giveBack (state : ChunkState) (index : ℕ) : Option ChunkState :=
  match state.held[index]? with
  | some buffer => some (cfg.put { state with held := state.held.eraseIdx index } buffer)
  | none => none

def step (state : ChunkState) : ChunkEvent → Option ChunkState
  | .next => cfg.next state
  | .opened failed => cfg.opened state failed
  | .tick => tick state
  | .passed => passed state
  | .read index failed returned => cfg.read state index failed returned
  | .closed index failed => closed state index failed
  | .put index => cfg.giveBack state index

end ChunkConfig

end Par3
