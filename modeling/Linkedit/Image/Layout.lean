import Linkedit.Image.Header

/-!
# Layouts of load commands

The load commands that say where linkedit data lies, as they are laid out in the
file. Segment commands and their sections come in two forms that differ in the
width of addresses and sizes. Each layout has a writer and a reader.
-/

namespace Linkedit.Image

/-- The size of a name field. -/
def nameSize : Nat := 16

/-- The name field that holds a text, cut off at the size of the field. -/
def nameField (text : String) : List UInt8 :=
  let kept := (Text.bytes text).take nameSize
  kept ++ List.replicate (nameSize - kept.length) 0

/-- Reads a name field. -/
def readNameField? (data : Bytes) (offset : Nat) : Option (List UInt8) :=
  if offset + nameSize ≤ data.size then
    some (data.slice offset (offset + nameSize))
  else none

/-! ## Segments -/

/-- The command number of a segment command. -/
def segmentNumber : Width → UInt32
  | .bits32 => 0x01
  | .bits64 => 0x19

/-- A segment command without its sections. -/
structure SegmentCommand where
  number : UInt32
  size : UInt32
  name : List UInt8
  address : UInt64
  addressSize : UInt64
  fileOffset : UInt64
  fileSize : UInt64
  maxProtection : UInt32
  initialProtection : UInt32
  sectionCount : UInt32
  flags : UInt32
deriving DecidableEq, Repr

namespace SegmentCommand

/-- The number of bytes of a segment command without its sections. -/
def bytes (width : Width) : Nat := 40 + 4 * width.bytes

/-- A segment command with neither name, content nor sections. -/
def empty (width : Width) : SegmentCommand where
  number := segmentNumber width
  size := UInt32.ofNat (bytes width)
  name := nameField ""
  address := 0
  addressSize := 0
  fileOffset := 0
  fileSize := 0
  maxProtection := 0
  initialProtection := 0
  sectionCount := 0
  flags := 0

/-- The bytes of a segment command. -/
def encode (width : Width) (command : SegmentCommand) : List UInt8 :=
  encodeWord32 command.number ++ encodeWord32 command.size ++ command.name ++
    width.encode command.address ++ width.encode command.addressSize ++
    width.encode command.fileOffset ++ width.encode command.fileSize ++
    encodeWord32 command.maxProtection ++
    encodeWord32 command.initialProtection ++
    encodeWord32 command.sectionCount ++ encodeWord32 command.flags

/-- Reads a segment command. -/
def decode? (width : Width) (data : Bytes) : Option SegmentCommand := do
  let tail := 24 + 4 * width.bytes
  return {
    number := ← data.word32? 0
    size := ← data.word32? 4
    name := ← readNameField? data 8
    address := ← width.decode? data 24
    addressSize := ← width.decode? data (24 + width.bytes)
    fileOffset := ← width.decode? data (24 + 2 * width.bytes)
    fileSize := ← width.decode? data (24 + 3 * width.bytes)
    maxProtection := ← data.word32? tail
    initialProtection := ← data.word32? (tail + 4)
    sectionCount := ← data.word32? (tail + 8)
    flags := ← data.word32? (tail + 12) }

end SegmentCommand

/-! ## Sections -/

/-- A section as it follows its segment command. The last reserved word exists
in 64-bit sections only. -/
structure SectionEntry where
  name : List UInt8
  segmentName : List UInt8
  address : UInt64
  size : UInt64
  offset : UInt32
  alignment : UInt32
  relocationOffset : UInt32
  relocationCount : UInt32
  flags : UInt32
  reserved1 : UInt32
  reserved2 : UInt32
  reserved3 : UInt32
deriving DecidableEq, Repr

namespace SectionEntry

/-- The number of words of a section that do not depend on the width. -/
def words : Width → Nat
  | .bits32 => 7
  | .bits64 => 8

/-- The number of bytes of a section. -/
def bytes (width : Width) : Nat := 32 + 2 * width.bytes + 4 * words width

/-- A section with neither name nor content. -/
def empty : SectionEntry where
  name := nameField ""
  segmentName := nameField ""
  address := 0
  size := 0
  offset := 0
  alignment := 0
  relocationOffset := 0
  relocationCount := 0
  flags := 0
  reserved1 := 0
  reserved2 := 0
  reserved3 := 0

/-- The bytes of a section. -/
def encode (width : Width) (part : SectionEntry) : List UInt8 :=
  part.name ++ part.segmentName ++ width.encode part.address ++
    width.encode part.size ++ encodeWord32 part.offset ++
    encodeWord32 part.alignment ++ encodeWord32 part.relocationOffset ++
    encodeWord32 part.relocationCount ++ encodeWord32 part.flags ++
    encodeWord32 part.reserved1 ++ encodeWord32 part.reserved2 ++
    match width with
    | .bits32 => []
    | .bits64 => encodeWord32 part.reserved3

/-- Reads a section at `start`. -/
def decode? (width : Width) (data : Bytes) (start : Nat) : Option SectionEntry := do
  let tail := start + 32 + 2 * width.bytes
  let reserved3 ← match width with
    | .bits32 => some 0
    | .bits64 => data.word32? (tail + 28)
  return {
    name := ← readNameField? data start
    segmentName := ← readNameField? data (start + nameSize)
    address := ← width.decode? data (start + 32)
    size := ← width.decode? data (start + 32 + width.bytes)
    offset := ← data.word32? tail
    alignment := ← data.word32? (tail + 4)
    relocationOffset := ← data.word32? (tail + 8)
    relocationCount := ← data.word32? (tail + 12)
    flags := ← data.word32? (tail + 16)
    reserved1 := ← data.word32? (tail + 20)
    reserved2 := ← data.word32? (tail + 24)
    reserved3 }

/-- The section as bind programs see it. -/
def toSection (part : SectionEntry) : Section :=
  ⟨Bytes.fieldText part.name, part.address, part.size⟩

end SectionEntry

/-- The segment of a segment command with its sections. -/
def SegmentCommand.toSegment (command : SegmentCommand)
    (sections : List SectionEntry) : Segment where
  name := Bytes.fieldText command.name
  address := command.address
  size := command.addressSize
  fileOffset := command.fileOffset
  fileSize := command.fileSize
  sections := sections.map SectionEntry.toSection

/-! ## Linkedit data -/

/-- The file ranges of the compressed tables of the dynamic linker. -/
structure DyldInfo where
  number : UInt32
  size : UInt32
  rebaseOffset : UInt32
  rebaseSize : UInt32
  bindOffset : UInt32
  bindSize : UInt32
  weakBindOffset : UInt32
  weakBindSize : UInt32
  lazyBindOffset : UInt32
  lazyBindSize : UInt32
  exportOffset : UInt32
  exportSize : UInt32
deriving DecidableEq, Repr

namespace DyldInfo

/-- The number of bytes of the command. -/
def bytes : Nat := 48

/-- A command without tables. -/
def empty : DyldInfo where
  number := 0x80000022
  size := UInt32.ofNat bytes
  rebaseOffset := 0
  rebaseSize := 0
  bindOffset := 0
  bindSize := 0
  weakBindOffset := 0
  weakBindSize := 0
  lazyBindOffset := 0
  lazyBindSize := 0
  exportOffset := 0
  exportSize := 0

/-- The bytes of the command. -/
def encode (info : DyldInfo) : List UInt8 :=
  encodeWord32 info.number ++ encodeWord32 info.size ++
    encodeWord32 info.rebaseOffset ++ encodeWord32 info.rebaseSize ++
    encodeWord32 info.bindOffset ++ encodeWord32 info.bindSize ++
    encodeWord32 info.weakBindOffset ++ encodeWord32 info.weakBindSize ++
    encodeWord32 info.lazyBindOffset ++ encodeWord32 info.lazyBindSize ++
    encodeWord32 info.exportOffset ++ encodeWord32 info.exportSize

/-- Reads the command. -/
def decode? (data : Bytes) : Option DyldInfo := do
  return {
    number := ← data.word32? 0
    size := ← data.word32? 4
    rebaseOffset := ← data.word32? 8
    rebaseSize := ← data.word32? 12
    bindOffset := ← data.word32? 16
    bindSize := ← data.word32? 20
    weakBindOffset := ← data.word32? 24
    weakBindSize := ← data.word32? 28
    lazyBindOffset := ← data.word32? 32
    lazyBindSize := ← data.word32? 36
    exportOffset := ← data.word32? 40
    exportSize := ← data.word32? 44 }

end DyldInfo

/-- A command that gives one file range. -/
structure DataCommand where
  number : UInt32
  size : UInt32
  dataOffset : UInt32
  dataSize : UInt32
deriving DecidableEq, Repr

namespace DataCommand

/-- The number of bytes of the command. -/
def bytes : Nat := 16

/-- The command of an empty export trie. -/
def empty : DataCommand where
  number := 0x80000033
  size := UInt32.ofNat bytes
  dataOffset := 0
  dataSize := 0

/-- The bytes of the command. -/
def encode (command : DataCommand) : List UInt8 :=
  encodeWord32 command.number ++ encodeWord32 command.size ++
    encodeWord32 command.dataOffset ++ encodeWord32 command.dataSize

/-- Reads the command. -/
def decode? (data : Bytes) : Option DataCommand := do
  return {
    number := ← data.word32? 0
    size := ← data.word32? 4
    dataOffset := ← data.word32? 8
    dataSize := ← data.word32? 12 }

end DataCommand

/-! ## Libraries -/

/-- A command that names a library. The name lies in the command at
`nameOffset` and ends at a zero byte or at the end of the command. -/
structure DylibCommand where
  number : UInt32
  size : UInt32
  nameOffset : UInt32
  timestamp : UInt32
  currentVersion : UInt32
  compatibilityVersion : UInt32
deriving DecidableEq, Repr

namespace DylibCommand

/-- The number of bytes of the command without the name. -/
def bytes : Nat := 24

/-- The bytes of the command without the name. -/
def encode (command : DylibCommand) : List UInt8 :=
  encodeWord32 command.number ++ encodeWord32 command.size ++
    encodeWord32 command.nameOffset ++ encodeWord32 command.timestamp ++
    encodeWord32 command.currentVersion ++
    encodeWord32 command.compatibilityVersion

/-- Reads the command. -/
def decode? (data : Bytes) : Option DylibCommand := do
  return {
    number := ← data.word32? 0
    size := ← data.word32? 4
    nameOffset := ← data.word32? 8
    timestamp := ← data.word32? 12
    currentVersion := ← data.word32? 16
    compatibilityVersion := ← data.word32? 20 }

/-- The name in the command. -/
def nameText (command : DylibCommand) (data : Bytes) : String :=
  Text.lossy (data.untilZero command.nameOffset.toNat)

end DylibCommand

/-- Whether a command with this number names a library that takes the next
ordinal. The image's own name takes none. -/
def isDependency (number : UInt32) : Bool :=
  number = 0x0000000C || number = 0x80000018 || number = 0x8000001F ||
    number = 0x00000020 || number = 0x80000023

end Linkedit.Image
