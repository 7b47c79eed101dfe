import Par3.FileChunkReader

/-!
# Reading files from start to end

At most one open, read or close is in flight. Each read goes into a buffer of its own, which comes
back when the consumer has hashed and released the piece. The events are what the environment
decides: that a callback is called now, with which outcome, and when the consumer is done.
-/
namespace Par3

/-- A buffer: which one it is, and its length. -/
structure ReadBuffer where
  name : ℕ
  length : ℕ

structure SeqConfig where
  files : List ChunkFile
  readSize : ℕ
  maxBufs : ℕ
  maxQueuePerFile : ℕ
  reqSliceLen : ℕ
  reqChunkLen : ℕ

/-- What is in flight, or that the consumer's callback is being called. -/
inductive SeqRequest
  | opening (file : ℕ) (buffer : ReadBuffer)
  | reading (file : ℕ) (buffer : ReadBuffer) (size : ℕ) (chunks : Option (List ℕ))
  | calling (file : ℕ) (eof : Bool)
  | closing (file : ℕ)

/-- A piece that the consumer was given, and what it has done with it. -/
structure FileReaderData where
  file : ℕ
  buffer : ReadBuffer
  refs : ℕ
  hashed : Bool
  released : Bool

/-- A call of `cb` with data. -/
structure SeqPiece where
  file : ℕ
  pos : ℕ
  bytes : Buffer
  chunks : Option (List ℕ)

/-- A file is known by its index. The pool is a stack whose top comes first. -/
structure SeqState where
  buf : List ReadBuffer
  bufCount : ℕ
  /-- The number of buffers that there ever were. -/
  allocated : ℕ
  openFiles : List ℕ
  fileQueue : List ℕ
  pos : ℕ → ℕ
  hashQueue : ℕ → ℕ
  isReading : Bool
  request : Option SeqRequest
  /-- The pieces that are not both hashed and released. -/
  held : List FileReaderData
  given : List SeqPiece
  closed : List ℕ
  /-- The calls of `cb` with an error. -/
  errors : ℕ
  /-- The calls of `finishCb`. -/
  finishes : ℕ

inductive SeqEvent
  | opened (failed : Bool)
  | read (failed : Bool) (bytesRead : ℕ)
  | returned
  | closed (failed : Bool)
  | hashed (index : ℕ)
  | release (index : ℕ)

namespace SeqConfig

variable (cfg : SeqConfig)

def file (index : ℕ) : ChunkFile := cfg.files.getD index ⟨0, []⟩

/-- The files that are not empty. -/
def nonempty : List ℕ := (List.range cfg.files.length).filter fun index => (cfg.file index).size > 0

/-- The loop of `_getBuf`: buffers that are too small are dropped. -/
def popLarge : List ReadBuffer → ℕ → Option ReadBuffer × List ReadBuffer × ℕ
  | [], bufCount => (none, [], bufCount)
  | buffer :: buf, bufCount =>
    if buffer.length ≥ cfg.readSize then (some buffer, buf, bufCount)
    else popLarge buf (bufCount - 1)

def getBuf (state : SeqState) : Option ReadBuffer × SeqState :=
  match cfg.popLarge state.buf state.bufCount with
  | (some buffer, buf, bufCount) => (some buffer, { state with buf := buf, bufCount := bufCount })
  | (none, buf, bufCount) =>
    if bufCount < cfg.maxBufs then
      (some ⟨state.allocated, cfg.readSize⟩,
        { state with buf := buf, bufCount := bufCount + 1, allocated := state.allocated + 1 })
    else (none, { state with buf := buf, bufCount := bufCount })

/-- The loop of `_readSize`, which ends within `readSize` turns. -/
def chunkLoop (maxSize : ℕ) : ℕ → ℕ → List ℕ → ℕ × List ℕ
  | 0, readSize, chunks => (readSize, chunks)
  | turns + 1, readSize, chunks =>
    if readSize < cfg.readSize then
      if min maxSize (readSize + cfg.reqChunkLen) > cfg.readSize then (readSize, chunks)
      else if readSize + cfg.reqSliceLen ≥ maxSize then
        (readSize + cfg.reqSliceLen, chunks ++ [readSize])
      else chunkLoop maxSize turns (readSize + cfg.reqSliceLen) (chunks ++ [readSize])
    else (readSize, chunks)

/-- `_readSize` -/
def readLength (pos size : ℕ) : ℕ × Option (List ℕ) :=
  if cfg.reqSliceLen = 0 then (cfg.readSize, none)
  else
    let nextSlicePos := (pos + cfg.reqSliceLen - 1) / cfg.reqSliceLen * cfg.reqSliceLen
    if nextSlicePos ≥ size then (cfg.readSize, none)
    else
      let (readSize, chunks) := cfg.chunkLoop (size - pos) cfg.readSize (nextSlicePos - pos) []
      (min cfg.readSize readSize, some chunks)

def doRead (state : SeqState) (file : ℕ) (buffer : ReadBuffer) : SeqState :=
  let (size, chunks) := cfg.readLength (state.pos file) (cfg.file file).size
  { state with request := some (.reading file buffer size chunks) }

/-- The shortest queue, and the index of its file, among the files from an index on. -/
def shortest (hashQueue : ℕ → ℕ) : List ℕ → ℕ → ℕ × ℕ → ℕ × ℕ
  | [], _, best => best
  | file :: files, index, best =>
    shortest hashQueue files (index + 1)
      (if hashQueue file < best.1 then (hashQueue file, index) else best)

/-- A file is moved to the front and read. -/
def readIndex (state : SeqState) (index : ℕ) (buffer : ReadBuffer) : SeqState :=
  match state.openFiles[index]? with
  | some file =>
    cfg.doRead { state with openFiles := file :: state.openFiles.eraseIdx index } file buffer
  | none => state

/-- `readNext` once the active file cannot be read -/
def readOther (state : SeqState) (buffer : ReadBuffer) : SeqState :=
  let (shortestQueue, shortestIndex) :=
    shortest state.hashQueue state.openFiles.tail 1 (cfg.maxQueuePerFile, 0)
  if shortestIndex > 0 ∧ shortestQueue = 0 then cfg.readIndex state shortestIndex buffer
  else
    match state.fileQueue with
    | file :: fileQueue =>
      { state with fileQueue := fileQueue, request := some (.opening file buffer) }
    | [] =>
      if shortestIndex > 0 then cfg.readIndex state shortestIndex buffer
      else
        let state := { state with buf := buffer :: state.buf, isReading := false }
        if state.openFiles.length = 0 ∧ state.buf.length = state.bufCount then
          { state with finishes := state.finishes + 1 }
        else state

def readNext (state : SeqState) : SeqState :=
  match cfg.getBuf state with
  | (none, state) => { state with isReading := false }
  | (some buffer, state) =>
    let state := { state with isReading := true }
    match state.openFiles with
    | file :: _ =>
      if state.hashQueue file < cfg.maxQueuePerFile then cfg.doRead state file buffer
      else cfg.readOther state buffer
    | [] => cfg.readOther state buffer

/-- `setBuffers` with buffers of these lengths, then `run` -/
def start (bufs : List ℕ) : SeqState :=
  cfg.readNext
    { buf := bufs.zipIdx.map fun buffer => ⟨buffer.2, buffer.1⟩
      bufCount := bufs.length
      allocated := bufs.length
      openFiles := []
      fileQueue := cfg.nonempty
      pos := fun _ => 0
      hashQueue := fun _ => 0
      isReading := false
      request := none
      held := []
      given := []
      closed := []
      errors := 0
      finishes := 0 }

/-- `cb(err)` -/
def fail (state : SeqState) : SeqState :=
  { state with request := none, errors := state.errors + 1 }

def opened (state : SeqState) (failed : Bool) : Option SeqState :=
  match state.request with
  | some (.opening file buffer) =>
    if failed then some (fail state)
    else
      some (cfg.readNext { state with
        openFiles := state.openFiles ++ [file]
        pos := Function.update state.pos file 0
        hashQueue := Function.update state.hashQueue file 0
        buf := buffer :: state.buf
        request := none })
  | _ => none

/-- The callback of `fs.read`, up to the call of the consumer. -/
def read (state : SeqState) (failed : Bool) (bytesRead : ℕ) : Option SeqState :=
  match state.request with
  | some (.reading file buffer size chunks) =>
    let pos := state.pos file
    let newPos := pos + bytesRead
    if failed then some (fail state)
    else if bytesRead > size ∨ newPos > (cfg.file file).content.length then none
    else if newPos > (cfg.file file).size then some (fail state)
    else if newPos ≠ (cfg.file file).size ∧ bytesRead ≠ size then some (fail state)
    else
      some { state with
        held := state.held ++ [⟨file, buffer, 2, false, false⟩]
        hashQueue := Function.update state.hashQueue file (state.hashQueue file + 1)
        pos := Function.update state.pos file newPos
        given := state.given ++ [⟨file, pos, slice (cfg.file file).content pos newPos, chunks⟩]
        request := some (.calling file (newPos = (cfg.file file).size)) }
  | _ => none

/-- The rest of that callback -/
def returned (state : SeqState) : Option SeqState :=
  match state.request with
  | some (.calling file eof) =>
    if eof then
      some { state with
        openFiles := state.openFiles.erase file, request := some (.closing file) }
    else some (cfg.readNext { state with request := none })
  | _ => none

def closed (state : SeqState) (failed : Bool) : Option SeqState :=
  match state.request with
  | some (.closing file) =>
    if failed then some (fail state)
    else some (cfg.readNext { state with closed := state.closed ++ [file], request := none })
  | _ => none

def processed (state : SeqState) (buffer : ReadBuffer) : SeqState :=
  let state := { state with buf := buffer :: state.buf }
  if state.isReading then state else cfg.readNext state

/-- One reference to a piece is given up. -/
def unref (state : SeqState) (index : ℕ) (data : FileReaderData) : SeqState :=
  if data.refs - 1 = 0 then
    cfg.processed { state with held := state.held.eraseIdx index } data.buffer
  else { state with held := state.held.set index { data with refs := data.refs - 1 } }

/-- `hashed`, which the consumer calls once for a piece. -/
def hashed (state : SeqState) (index : ℕ) : Option SeqState :=
  match state.held[index]? with
  | some data =>
    if data.hashed then none
    else
      some (cfg.unref { state with
        hashQueue := Function.update state.hashQueue data.file (state.hashQueue data.file - 1) }
        index { data with hashed := true })
  | none => none

/-- `release`, which the consumer calls once for a piece. -/
def release (state : SeqState) (index : ℕ) : Option SeqState :=
  match state.held[index]? with
  | some data =>
    if data.released then none
    else some (cfg.unref state index { data with released := true })
  | none => none

def step (state : SeqState) : SeqEvent → Option SeqState
  | .opened failed => cfg.opened state failed
  | .read failed bytesRead => cfg.read state failed bytesRead
  | .returned => cfg.returned state
  | .closed failed => cfg.closed state failed
  | .hashed index => cfg.hashed state index
  | .release index => cfg.release state index

end SeqConfig

end Par3
