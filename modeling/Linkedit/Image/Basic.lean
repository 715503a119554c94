import Linkedit.Image.Layout

/-!
# Images

A thin Mach-O image: its header and its load commands, each with the place where
it lies. Load commands follow the header one after the other. The first eight
bytes of a command lie in the area that the header announces and the whole
command lies in the file.
-/

namespace Linkedit

namespace Image

/-- What a load command says. Commands that do not concern linkedit data are
kept by number only. -/
inductive Command where
  | segment (segment : Segment)
  | library (name : String)
  | dyldInfo (info : DyldInfo)
  | exportsTrie (range : DataCommand)
  | chainedFixups (range : DataCommand)
  | other (number : UInt32)
deriving DecidableEq, Repr

/-- A load command with its place in the file. -/
structure LoadCommand where
  offset : Nat
  size : Nat
  body : Command
deriving DecidableEq, Repr

end Image

/-- A thin Mach-O image. -/
structure Image where
  data : Bytes
  width : Width
  header : Image.Header
  commands : List Image.LoadCommand
deriving DecidableEq, Repr

namespace Image

/-- Takes a value that a reader may not have found. -/
def require {α : Type} (error : Error) : Option α → Except Error α
  | some value => .ok value
  | none => .error error

/-! ## Reading load commands -/

/-- Reads `count` sections from `start` on in the segment command `data`, which
lies at `offset` in the file. -/
def readSections (width : Width) (data : Bytes) (offset start : Nat) :
    (count : Nat) → Except Error (List SectionEntry)
  | 0 => .ok []
  | count + 1 => do
      let part ← require (.parse (offset + start) .shortSection)
        (SectionEntry.decode? width data start)
      let parts ← readSections width data offset
        (start + SectionEntry.bytes width) count
      return part :: parts

/-- Reads a segment command with its sections. A command that has no room for
the sections it declares is refused. -/
def readSegment (width : Width) (data : Bytes) (offset : Nat) :
    Except Error Segment := do
  let command ← require (.parse offset .shortSegmentCommand)
    (SegmentCommand.decode? width data)
  let declared := command.sectionCount.toNat
  let room := (data.size - SegmentCommand.bytes width) / SectionEntry.bytes width
  if declared ≤ room then
    let sections ← readSections width data offset (SegmentCommand.bytes width)
      declared
    return command.toSegment sections
  else throw (.parse offset (.sectionsDoNotFit declared room))

/-- Reads the load command `data`, which lies at `offset` in the file. -/
def readCommand (number : UInt32) (data : Bytes) (offset : Nat) :
    Except Error Command :=
  if number = segmentNumber .bits64 then
    (readSegment .bits64 data offset).map .segment
  else if number = segmentNumber .bits32 then
    (readSegment .bits32 data offset).map .segment
  else if number = 0x00000022 ∨ number = 0x80000022 then
    (require (.parse offset .shortDyldInfoCommand) (DyldInfo.decode? data)).map
      .dyldInfo
  else if number = 0x80000033 then
    (require (.parse offset .shortLinkeditCommand)
      (DataCommand.decode? data)).map .exportsTrie
  else if number = 0x80000034 then
    (require (.parse offset .shortLinkeditCommand)
      (DataCommand.decode? data)).map .chainedFixups
  else if isDependency number then
    (require (.parse offset .shortDylibCommand)
      (DylibCommand.decode? data)).map fun command =>
        .library (command.nameText data)
  else .ok (.other number)

/-- The size of the number and size that begin every load command. -/
def commandStart : Nat := 8

/-- Reads `count` load commands from `offset` on. The first bytes of each must
lie before `limit`. -/
def readCommands (data : Bytes) (limit offset : Nat) :
    (count : Nat) → Except Error (List LoadCommand)
  | 0 => .ok []
  | count + 1 => do
      if offset + commandStart > limit ∨ offset + commandStart > data.size then
        throw (.loadCommandOverflow offset)
      let number ← require (.parse offset .shortLoadCommand) (data.word32? offset)
      let size ← require (.parse offset .shortLoadCommand)
        (data.word32? (offset + 4))
      let size := size.toNat
      if size < commandStart ∨ offset + size > data.size then
        throw (.loadCommandOverflow offset)
      let body ← readCommand number (data.extract offset (offset + size)) offset
      let rest ← readCommands data limit (offset + size) count
      return ⟨offset, size, body⟩ :: rest

/-- Reads an image. Universal files and big-endian images are refused. -/
def parse (data : Bytes) : Except Error Image := do
  let magic ← require (.bufferTooSmall 4 data.size) (data.word32? 0)
  match Magic.ofWord magic with
  | .fat => throw .unsupportedFatFile
  | .unknown => throw (.invalidMagic magic)
  | .thin width =>
      let start := Header.size width
      let header ← require (.bufferTooSmall start data.size)
        (Header.decode? width data)
      let commands ← readCommands data (start + header.commandSize.toNat) start
        header.commandCount.toNat
      return ⟨data, width, header, commands⟩

end Image

end Linkedit
