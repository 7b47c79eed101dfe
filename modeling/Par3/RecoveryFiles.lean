import Par3.Foundations.Doubles
import Par3.Par2Packets

/-!
# Recovery files

The plan of the output: how many recovery slices each file takes, from which exponent on, and the
order of the packets in it. Copies of the critical packets are spread among the recovery packets by a
ratio of doubles. Some loops go on for ever when a count of files wraps to a negative one.
-/
namespace Par3

inductive GenPacketType
  | recovery
  | filedesc
  | filechk
  | comment
  | main
  | creator
deriving DecidableEq

/-- What a packet stands for; its data comes later. -/
structure PAR2GenPacket where
  type : GenPacketType
  size : ℕ
  index : Option ℕ
deriving DecidableEq

/-- The list of packets is an array, which may have holes. -/
structure PAR2OutFile where
  recoverySlices : ℕ
  recoveryIndex : ℕ
  packets : List (Option PAR2GenPacket)
  totalSize : ℕ

inductive OutputSizeScheme
  | pow2
  | uniform
  | equal
deriving DecidableEq

/-- Why there is no plan. -/
inductive PlanFailure
  | thrown (message : String)
  | endless
deriving DecidableEq

/-- Options, with numbers of slices where the program works these out from other units. The scheme
for critical packets gives a rounded number of copies from their size and the number of recovery
slices. -/
structure PAR2GenOptions where
  outputIndex : Bool
  comments : List JsString
  creator : JsString
  unicode : Option Bool
  recoverySlices : ℕ
  recoveryOffset : ℕ
  recoveryExponents : Option (List ℕ)
  outputSizeScheme : OutputSizeScheme
  outputFirstFileSlices : Option ℤ
  outputFileMaxSlices : ℤ
  outputFileCount : ℕ
  criticalRedundancyScheme : Option (ℕ → ℕ → ℤ)
  minCriticalRedundancy : ℕ
  maxCriticalRedundancy : ℕ

def sumSize (packets : List PAR2GenPacket) : ℕ := (packets.map PAR2GenPacket.size).sum

/-- `sliceOffsetOrExponents` -/
inductive SliceExponents
  | offset (first : ℕ)
  | exponents (values : List ℕ)

def SliceExponents.exp : SliceExponents → ℕ → ℕ
  | offset first, i => i + first
  | exponents values, i => values.getD i 0

namespace PAR2Gen

variable (opts : PAR2GenOptions)

/-! ## Packets -/

/-- An array can have at most so many elements. -/
def MAX_ARRAY_LENGTH : ℕ := 2 ^ 32 - 1

def critCopies (critTotalSize numSlices : ℕ) (scheme : ℕ → ℕ → ℤ) : ℕ :=
  let critCopies := (max (scheme critTotalSize numSlices) opts.minCriticalRedundancy).toNat
  if opts.maxCriticalRedundancy ≠ 0 then min critCopies opts.maxCriticalRedundancy else critCopies

/-- The critical packets one after the other, from one number on. -/
def critRange (critPackets : List PAR2GenPacket) (critWritten count : ℕ) : List PAR2GenPacket :=
  (List.range' critWritten count).filterMap fun written => critPackets[written % critPackets.length]?

/-- Recovery packets from one number on, each with the critical packets that are due after it. -/
def spreadPackets (critPackets : List PAR2GenPacket) (recvSize critNum numSlices : ℕ)
    (exponents : SliceExponents) : ℕ → ℕ → ℕ → List PAR2GenPacket
  | 0, _, _ => []
  | count + 1, i, critWritten =>
    let due := (Doubles.share critNum numSlices (i + 1)).toNat
    ⟨.recovery, recvSize, some (exponents.exp i)⟩ ::
      critRange critPackets critWritten (due - critWritten) ++
        spreadPackets critPackets recvSize critNum numSlices exponents count (i + 1)
          (max critWritten due)

/-- An array of a length whose first elements are set. -/
def arrayOf (length : ℕ) (elements : List PAR2GenPacket) : List (Option PAR2GenPacket) :=
  elements.map some ++ List.replicate (length - elements.length) none

/-- The packets of a file and the size of its critical packets without the creator. -/
def rfPackets (numSlices recvSize : ℕ) (exponents : SliceExponents)
    (critPackets : List PAR2GenPacket) (creator : PAR2GenPacket) :
    Except PlanFailure (List (Option PAR2GenPacket) × ℕ) :=
  let critTotalSize := sumSize critPackets
  match opts.criticalRedundancyScheme with
  | some scheme =>
    if numSlices ≠ 0 then
      let copies := critCopies opts critTotalSize numSlices scheme
      let critNum := copies * critPackets.length
      if numSlices + critNum + 1 > MAX_ARRAY_LENGTH then .error (.thrown "Invalid array length")
      else
        .ok (arrayOf (numSlices + critNum + 1)
          (spreadPackets critPackets recvSize critNum numSlices exponents numSlices 0 0 ++ [creator]),
            critTotalSize * copies)
    else
      let numCritPackets := opts.minCriticalRedundancy * critPackets.length
      if numCritPackets + 1 > MAX_ARRAY_LENGTH then .error (.thrown "Invalid array length")
      else
        .ok (arrayOf (numCritPackets + 1)
          ((List.replicate opts.minCriticalRedundancy critPackets).flatten ++ [creator]),
            critTotalSize * opts.minCriticalRedundancy)
  | none =>
    .ok (((List.range numSlices).map (fun i =>
        (⟨.recovery, recvSize, some (exponents.exp i)⟩ : PAR2GenPacket)) ++
          (critPackets ++ [creator])).map some, critTotalSize)

def _rfPush (par : PAR2) (numSlices : ℕ) (exponents : SliceExponents)
    (critPackets : List PAR2GenPacket) (creator : PAR2GenPacket) (recoveryFiles : List PAR2OutFile) :
    Except PlanFailure (List PAR2OutFile) := do
  let recvSize := if numSlices ≠ 0 then par.packetRecoverySize else 0
  let (packets, critTotalSize) ← rfPackets opts numSlices recvSize exponents critPackets creator
  let recoveryIndex :=
    match recoveryFiles.getLast? with
    | some lastFile => lastFile.recoveryIndex + lastFile.recoverySlices
    | none => 0
  return recoveryFiles ++ [{
    recoverySlices := numSlices
    recoveryIndex := recoveryIndex
    packets := packets
    totalSize := critTotalSize + creator.size + recvSize * numSlices }]

/-- Several files, each with its number of slices and its first exponent. -/
def pushAll (par : PAR2) (critPackets : List PAR2GenPacket) (creator : PAR2GenPacket) :
    List (ℕ × ℕ) → List PAR2OutFile → Except PlanFailure (List PAR2OutFile)
  | [], files => .ok files
  | (numSlices, offset) :: rest, files => do
    let files ← _rfPush opts par numSlices (.offset offset) critPackets creator files
    pushAll par critPackets creator rest files

/-! ## Allocation -/

/-- Volumes that grow by powers of two, from the exponent zero on. Those below the offset are
skipped, or cut. -/
def getSliceNumsOffsets (totalSlices recoveryOffset outputFileMaxSlices : ℕ) :
    ℕ → ℕ → ℕ → List (ℕ × ℕ)
  | 0, _, _ => []
  | fuel + 1, i, slices =>
    if i < totalSlices then
      let fSlices := min slices (totalSlices - i)
      let rest := getSliceNumsOffsets totalSlices recoveryOffset outputFileMaxSlices fuel (i + slices)
        (min (slices * 2) outputFileMaxSlices)
      if i + fSlices ≤ recoveryOffset then rest
      else if recoveryOffset > i then (fSlices - (recoveryOffset - i), recoveryOffset) :: rest
      else (fSlices, i) :: rest
    else []

/-- A number of slices for the first volume is looked for that gives the number of files. -/
def findSliceFilesList (list : ℕ → List (ℕ × ℕ)) (outputFileMaxSlices : ℕ) (outputFileCount : ℤ) :
    ℕ → ℕ → Option (List (ℕ × ℕ))
  | 0, _ => none
  | fuel + 1, slices =>
    if slices ≤ outputFileMaxSlices then
      if (list slices).length = outputFileCount then some (list slices)
      else if (list slices).length < outputFileCount then none
      else findSliceFilesList list outputFileMaxSlices outputFileCount fuel (slices * 2)
    else none

/-- `Math.ceil` of a quotient; numbers are small enough for doubles to tell them apart. -/
def ceilQuotient (a b : ℤ) : ℤ := ⌈(a / b : ℚ)⌉

/-- What is left is divided evenly among the files that are left. -/
def uniformFiles (recoverySlices recoveryOffset : ℕ) : ℕ → ℕ → List (ℕ × ℕ)
  | 0, _ => []
  | numFiles + 1, slicePos =>
    let nSlices := (ceilQuotient (recoverySlices - slicePos) (numFiles + 1)).toNat
    (nSlices, slicePos + recoveryOffset) ::
      uniformFiles recoverySlices recoveryOffset numFiles (slicePos + nSlices)

/-- Files of the same number of slices, in at most so many steps. -/
def equalFiles (recoverySlices recoveryOffset slicesPerFile : ℕ) : ℕ → ℕ → List (ℕ × ℕ)
  | 0, _ => []
  | fuel + 1, i =>
    if i < recoverySlices then
      (min slicesPerFile (recoverySlices - i), i + recoveryOffset) ::
        equalFiles recoverySlices recoveryOffset slicesPerFile fuel (i + slicesPerFile)
    else []

/-- The numbers of slices and first exponents of the volumes. -/
def sliceFilesList (recoverySlices recoveryOffset outputFirstFileSlices outputFileMaxSlices : ℕ)
    (outputFileCount : ℤ) : OutputSizeScheme → Except PlanFailure (List (ℕ × ℕ))
  | .pow2 =>
    let totalSlices := recoverySlices + recoveryOffset
    let list := getSliceNumsOffsets totalSlices recoveryOffset outputFileMaxSlices totalSlices 0
    if outputFileCount ≠ 0 then
      match findSliceFilesList list outputFileMaxSlices outputFileCount (outputFileMaxSlices + 1) 1 with
      | some found => .ok found
      | none => .error (.thrown ("Unable to find a set of parameters to generate " ++
          toString outputFileCount ++ " recovery volume(s)"))
    else .ok (list (if outputFirstFileSlices ≠ 0 then outputFirstFileSlices else 1))
  | .uniform =>
    let numFiles :=
      if outputFileCount ≠ 0 then outputFileCount
      else ceilQuotient recoverySlices outputFileMaxSlices
    -- a negative number never comes to zero
    if numFiles < 0 then .error .endless
    else .ok (uniformFiles recoverySlices recoveryOffset numFiles.toNat 0)
  | .equal => do
    let first := if outputFirstFileSlices ≠ 0 then [(outputFirstFileSlices, recoveryOffset)] else []
    let remainingSlices := recoverySlices - outputFirstFileSlices
    let slicesPerFile ← (
      if outputFileCount ≠ 0 then
        if outputFirstFileSlices ≠ 0 then
          if outputFileCount < 2 ∧ remainingSlices ≠ 0 then
            .error (.thrown ("Cannot allocate slices: only one recovery volume requested, which is " ++
              "allocated " ++ toString outputFirstFileSlices ++ " slice(s), leaving " ++
              toString remainingSlices ++ " slice(s) unallocated"))
          else if outputFileCount - 1 > remainingSlices then
            .error (.thrown ("Cannot allocate " ++ toString remainingSlices ++
              " recovery slice(s) amongst " ++ toString (outputFileCount - 1) ++
              " recovery volume(s)"))
          else .ok (ceilQuotient remainingSlices (outputFileCount - 1))
        else .ok (ceilQuotient recoverySlices outputFileCount)
      else .ok (outputFileMaxSlices : ℤ))
    -- the position does not advance
    if slicesPerFile ≤ 0 ∧ outputFirstFileSlices < recoverySlices then .error .endless
    else
      .ok (first ++ equalFiles recoverySlices recoveryOffset slicesPerFile.toNat recoverySlices
        outputFirstFileSlices)

def _unicodeOpt : CharConst :=
  match opts.unicode with
  | some true => .BOTH
  | some false => .ASCII
  | none => .AUTO

/-- The packets of a file. -/
def filePackets (par : PAR2) (unicode : CharConst) (file : PAR2File × ℕ) :
    Except String (List PAR2GenPacket) :=
  (par.packetDescriptionSize file.1 unicode).map fun size =>
    ⟨.filedesc, size, some file.2⟩ ::
      if file.1.size > 0 then [⟨.filechk, par.packetChecksumsSize file.1, some file.2⟩] else []

/-- The packet of a comment. -/
def commentPacket (par : PAR2) (unicode : CharConst) (comment : JsString × ℕ) :
    Except String PAR2GenPacket :=
  (par.packetCommentSize comment.1 unicode).map fun size => ⟨.comment, size, some comment.2⟩

def critPackets (par : PAR2) : Except String (List PAR2GenPacket) := do
  let unicode := _unicodeOpt opts
  let files ← par.files.zipIdx.mapM (filePackets par unicode)
  let comments ← opts.comments.zipIdx.mapM (commentPacket par unicode)
  return files.flatten ++ comments ++ [⟨.main, par.packetMainSize, none⟩]

def totalSize (par : PAR2) : ℕ := (par.files.map PAR2File.size).sum

def inputSlices (par : PAR2) : ℕ := (par.files.map par.numSlices).sum

/-- The checks before anything is planned. -/
def checkOptions (par : PAR2) : Except PlanFailure Unit :=
  if opts.recoverySlices + opts.recoveryOffset > 65535 then
    .error (.thrown ("Cannot generate specified number of recovery slices: " ++
      toString (opts.recoverySlices + opts.recoveryOffset) ++ " exceeds maximum of 65535"))
  else if inputSlices par < 1 ∧ opts.recoverySlices > 0 then
    .error (.thrown "Cannot generate recovery from empty input data")
  else if opts.minCriticalRedundancy < 1 then
    .error (.thrown "Must have at least one copy of critical packets")
  else if opts.maxCriticalRedundancy ≠ 0 ∧
      opts.maxCriticalRedundancy < opts.minCriticalRedundancy then
    .error (.thrown "Maximum critical packet redundancy cannot be below the minimum")
  else .ok ()

def maxSlices : ℕ := (min (max opts.outputFileMaxSlices 1) 65535).toNat

/-- Zero stands for an option that is not set. -/
def firstFileSlices : ℕ :=
  match opts.outputFirstFileSlices with
  | some slices => (min (max slices 1) opts.recoverySlices).toNat
  | none => 0

/-- `outputFileCount |= 0` -/
def fileCount : ℤ := (opts.outputFileCount : ℤ).bmod (2 ^ 32)

/-- The volumes behind the files that are there already. -/
def allocateVolumes (par : PAR2) (crit : List PAR2GenPacket) (creatorPkt : PAR2GenPacket)
    (files : List PAR2OutFile) : Except PlanFailure (List PAR2OutFile) :=
  if fileCount opts > opts.recoverySlices then
    .error (.thrown ("Cannot allocate " ++ toString opts.recoverySlices ++ " recovery slices to " ++
      toString (fileCount opts) ++ " volumes as there aren't enough slices"))
  else if totalSize par > 0 then
    match opts.recoveryExponents with
    | some exponents =>
      _rfPush opts par exponents.length (.exponents exponents) crit creatorPkt files
    | none => do
      let list ← sliceFilesList opts.recoverySlices opts.recoveryOffset (firstFileSlices opts)
        (maxSlices opts) (fileCount opts) opts.outputSizeScheme
      pushAll opts par crit creatorPkt list files
  else .ok files

/-- The recovery files that the constructor of `PAR2Gen` plans. -/
def recoveryFiles (par : PAR2) : Except PlanFailure (List PAR2OutFile) := do
  checkOptions opts par
  let crit ← (critPackets opts par).mapError .thrown
  let creatorPkt : PAR2GenPacket := ⟨.creator, par.packetCreatorSize opts.creator, none⟩
  let index ← (
    if opts.outputIndex then _rfPush opts par 0 (.offset 0) crit creatorPkt [] else .ok [])
  let files ← allocateVolumes opts par crit creatorPkt index
  if files.length = 0 then
    .error (.thrown
      "Nothing to generate; need to generate an index or at least one recovery slice")
  else .ok files

/-- `_sliceNums` -/
def _sliceNums (files : List PAR2OutFile) : List (Option ℕ) :=
  files.flatMap fun rf => (rf.packets.filterMap id).filterMap fun pkt =>
    if pkt.type = .recovery then some pkt.index else none

end PAR2Gen

end Par3
