import Par3.Bytes

/-!
# PAR2 packets

The sizes of the packets of a PAR2 file, which are needed before there is any data, and the functions
that make the packets later. Strings are UTF-16 code units; how they are encoded otherwise, and the
hash, are parameters.
-/
namespace Par3

abbrev JsString := List UInt16

/-- `CHAR_CONST` -/
inductive CharConst
  | AUTO
  | BOTH
  | ASCII
  | UNICODE
deriving DecidableEq

def hasUnicode (s : JsString) : Bool := s.any fun unit => 0x80 ≤ unit

/-- `Math.ceil(len / 4) * 4` -/
def ceil4 (len : ℕ) : ℕ := (len + 3) / 4 * 4

/-- A file whose data was read. Its memory holds what the hasher left behind for the checksums. -/
structure PAR2File where
  displayName : JsString
  size : ℕ
  id : Buffer
  md5 : Buffer
  md5_16k : Buffer
  memory : ℕ → UInt8

structure PAR2 where
  sliceSize : ℕ
  files : List PAR2File
  asciiCharset : JsString → Buffer
  md5 : Buffer → Buffer
  memory : ℕ → UInt8

namespace PAR2

variable (par : PAR2)

def strToAscii (str : JsString) : Buffer := par.asciiCharset str

/-! ## Sizes -/

def packetRecoverySize : ℕ := par.sliceSize + 68

def packetMainSize : ℕ := 64 + 12 + par.files.length * 16

def packetCreatorSize (creator : JsString) : ℕ := 64 + ceil4 (par.strToAscii creator).length

/-- An encoding is chosen for a text, from those that are known. -/
def chooseUnicode (known : List CharConst) (text : JsString) (unicode : CharConst) :
    Except String CharConst :=
  if unicode = .AUTO then .ok (if hasUnicode text then .BOTH else .ASCII)
  else if unicode ∈ known then .ok unicode
  else .error "Unknown unicode option"

def packetCommentSize (comment : JsString) (unicode : CharConst) : Except String ℕ := do
  let unicode ← chooseUnicode [.BOTH, .ASCII, .UNICODE] comment unicode
  let len := ceil4 (par.strToAscii comment).length
  let len2 := ceil4 (comment.length * 2)
  let pktLen := if unicode = .BOTH ∨ unicode = .ASCII then 64 + len else 0
  return if unicode = .BOTH ∨ unicode = .UNICODE then pktLen + (64 + 16 + len2) else pktLen

def numSlices (file : PAR2File) : ℕ := (file.size + par.sliceSize - 1) / par.sliceSize

def packetChecksumsSize (file : PAR2File) : ℕ :=
  if par.numSlices file = 0 then 0 else 64 + 16 + 20 * par.numSlices file

def packetDescriptionSize (file : PAR2File) (unicode : CharConst) : Except String ℕ := do
  let unicode ← chooseUnicode [.BOTH, .ASCII] file.displayName unicode
  let len := ceil4 (par.strToAscii file.displayName).length
  let len2 := ceil4 (file.displayName.length * 2)
  let pktLen := 64 + 56 + len
  return if unicode = .BOTH then pktLen + (64 + 16 + len2) else pktLen

end PAR2

end Par3
