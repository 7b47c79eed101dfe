import Par3.Bytes

/-!
# Packets

Every packet is a 48-byte header and a body. The header holds the magic sequence, a
16-byte checksum, the packet length, the identifier of the input set and an eight-byte
type. The checksum is the first half of a hash of everything behind it; the hash comes
from a library outside the repository and is a parameter here.
-/

namespace Par3

/-- The packet types, in the order of the source's table. -/
inductive PacketType where
  | START | CREATOR | FILE | DIRECTORY | DATA | EXT_DATA | MATRIX | CAUCHY | SPARSE
  | EXPLICIT | RECOVERY | EXT_REC | UNIX_PERM | FAT_PERM | ROOT
deriving DecidableEq, Repr

namespace PacketType

/-- The three letters that distinguish a type. -/
def letters : PacketType → String
  | START => "STA"
  | CREATOR => "CRE"
  | FILE => "FIL"
  | DIRECTORY => "DIR"
  | DATA => "DAT"
  | EXT_DATA => "EFD"
  | MATRIX => "MAT"
  | CAUCHY => "CAU"
  | SPARSE => "SPR"
  | EXPLICIT => "EXP"
  | RECOVERY => "REC"
  | EXT_REC => "ERD"
  | UNIX_PERM => "UNX"
  | FAT_PERM => "FAT"
  | ROOT => "ROO"

/-- The bytes of an ASCII string. -/
def ascii (text : String) : Buffer := text.toList.map fun letter => UInt8.ofNat letter.toNat

/-- The eight bytes written in the header: `PAR`, a space, the letters and a zero. -/
def code (type : PacketType) : Buffer := ascii "PAR " ++ ascii type.letters ++ [0]

/-- The table `PAR3_PKT_TYPE` in the order in which its keys are enumerated. -/
def table : List PacketType :=
  [START, CREATOR, FILE, DIRECTORY, DATA, EXT_DATA, MATRIX, CAUCHY, SPARSE, EXPLICIT, RECOVERY,
    EXT_REC, UNIX_PERM, FAT_PERM, ROOT]

/-- Decoding as ASCII clears the high bit of every byte. -/
def decodeAscii (bytes : Buffer) : Buffer := bytes.map (· &&& 0x7F)

/-- The type whose code is in the header, and `START` for any other eight bytes. -/
def ofHeader (bytes : Buffer) : PacketType :=
  (table.find? fun type => type.code == decodeAscii bytes).getD START

/-- Whether the eight type bytes are those of a known type. -/
def known (bytes : Buffer) : Bool := table.any fun type => type.code == decodeAscii bytes

/-- Every code is eight bytes long and is read back as its own type. -/
theorem ofHeader_code (type : PacketType) : type.code.length = 8 ∧ ofHeader type.code = type ∧
    known type.code = true := by
  cases type <;> decide

end PacketType

def PAR3_PKT_HDR_SIZE : ℕ := 48

/-- The bytes `PAR3`, zero, `PKT`. -/
def PAR3_MAGIC : Buffer := PacketType.ascii "PAR3" ++ [0] ++ PacketType.ascii "PKT"

theorem PAR3_MAGIC_length : PAR3_MAGIC.length = 8 := by decide

/-- What a parser hands to its callback for one packet. -/
structure Packet where
  type : PacketType
  body : Buffer
  bodyLen : ℕ
  absBodyOffset : ℕ
  header : Buffer
deriving DecidableEq

/-- The hash of a byte sequence. -/
abbrev Hash := Buffer → Vector UInt8 32

/-- A hash that adds all bytes, to run the model with. -/
def byteSum (bytes : Buffer) : Vector UInt8 32 :=
  (Vector.replicate 32 0).set 0 (bytes.foldr (· + ·) 0)

/-- A packet as bytes of a file, before it is known whether its checksum is right. -/
structure RawPacket where
  checksum : Buffer
  inputSetId : Buffer
  type : PacketType
  body : Buffer
deriving DecidableEq

namespace RawPacket

/-- The header bytes behind the checksum: length, set identifier and type. -/
def afterChecksum (packet : RawPacket) : Buffer :=
  toLittleEndian 8 (PAR3_PKT_HDR_SIZE + packet.body.length) ++ packet.inputSetId ++
    packet.type.code

/-- The 48 header bytes. -/
def header (packet : RawPacket) : Buffer := PAR3_MAGIC ++ packet.checksum ++ packet.afterChecksum

def bytes (packet : RawPacket) : Buffer := packet.header ++ packet.body

/-- The fields have their widths, and the length is one that a double holds exactly. Every
buffer that the program can allocate is shorter. -/
structure WellFormed (packet : RawPacket) : Prop where
  checksum_length : packet.checksum.length = 16
  inputSetId_length : packet.inputSetId.length = 8
  body_small : PAR3_PKT_HDR_SIZE + packet.body.length < 2 ^ 53

end RawPacket

section Checksum

variable (blake3 : Hash)

/-- `createPacketHeader` followed by `finalizePacketHeader`: the checksum covers the length,
the set identifier, the type and the body. -/
def createPacket (type : PacketType) (inputSetId body : Buffer) : RawPacket :=
  let unfinished : RawPacket := { checksum := [], inputSetId, type, body }
  { unfinished with checksum := (blake3 (unfinished.afterChecksum ++ body)).toList.take 16 }

/-- A stored checksum of sixteen zero bytes is accepted without looking at the body. -/
def validatePacketChecksum (header body : Buffer) : Bool :=
  let storedChecksum := slice header 8 24
  if storedChecksum.all (· == 0) then
    true
  else
    storedChecksum == (blake3 (header.drop 24 ++ body)).toList.take 16

/-- Whether a parsed packet passes its checksum. -/
def Packet.valid (packet : Packet) : Bool :=
  validatePacketChecksum blake3 packet.header packet.body

/-- Whether a packet of a file passes its own checksum. -/
def RawPacket.valid (packet : RawPacket) : Bool :=
  validatePacketChecksum blake3 packet.header packet.body

end Checksum

namespace RawPacket

variable {packet : RawPacket}

theorem header_length (formed : packet.WellFormed) : packet.header.length = 48 := by
  have code := (PacketType.ofHeader_code packet.type).1
  simp [header, afterChecksum, PAR3_MAGIC_length, formed.checksum_length, formed.inputSetId_length,
    code]

theorem bytes_length (formed : packet.WellFormed) :
    packet.bytes.length = 48 + packet.body.length := by
  rw [bytes, List.length_append, header_length formed]

/-- The header read field by field. -/
theorem header_fields (formed : packet.WellFormed) :
    slice packet.header 0 8 = PAR3_MAGIC ∧ slice packet.header 8 24 = packet.checksum ∧
      packet.header.drop 24 = packet.afterChecksum ∧
      slice packet.header 24 32 =
        toLittleEndian 8 (PAR3_PKT_HDR_SIZE + packet.body.length) ∧
      slice packet.header 40 48 = packet.type.code := by
  have magic := PAR3_MAGIC_length
  have checksum := formed.checksum_length
  have setId := formed.inputSetId_length
  have code := (PacketType.ofHeader_code packet.type).1
  have gone : PAR3_MAGIC.drop 40 = [] ∧ packet.checksum.drop 32 = [] ∧
      (toLittleEndian 8 (PAR3_PKT_HDR_SIZE + packet.body.length)).drop 16 = [] :=
    ⟨List.drop_eq_nil_of_le (by omega), List.drop_eq_nil_of_le (by omega),
      List.drop_eq_nil_of_le (by simp)⟩
  have whole : packet.type.code.take 8 = packet.type.code :=
    List.take_of_length_le (by omega)
  refine ⟨?_, ?_, ?_, ?_, ?_⟩ <;>
    simp [header, afterChecksum, slice, List.drop_append, List.take_append, magic, checksum, setId,
      gone, whole]

end RawPacket

/-- A packet that the program has created passes its checksum. -/
theorem createPacket_valid (blake3 : Hash) (type : PacketType) (inputSetId body : Buffer)
    (formed : (createPacket blake3 type inputSetId body).WellFormed) :
    (createPacket blake3 type inputSetId body).valid blake3 = true := by
  obtain ⟨_, stored, rest, _, _⟩ := RawPacket.header_fields formed
  unfold RawPacket.valid validatePacketChecksum
  rw [stored, rest]
  simp [createPacket, RawPacket.afterChecksum]

end Par3
