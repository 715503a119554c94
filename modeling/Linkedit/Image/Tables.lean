import Linkedit.Bind.Interpret
import Linkedit.Image.Basic
import Linkedit.Trie.Lookup

/-!
# Tables of an image

What the load commands of an image say about its linkedit data: segments and
libraries in the order of the commands, and the file ranges of the bind program
and the export trie. Of several commands that give the same range the last one
counts. A range that reaches past the end of the file is an error.
-/

namespace Linkedit

namespace Image

/-! ## Views of single commands -/

/-- The segment of a segment command. -/
def LoadCommand.segment? (command : LoadCommand) : Option Segment :=
  match command.body with
  | .segment segment => some segment
  | _ => none

/-- The library that a command names. -/
def LoadCommand.library? (command : LoadCommand) : Option String :=
  match command.body with
  | .library name => some name
  | _ => none

/-- The ranges of the compressed tables. -/
def LoadCommand.dyldInfo? (command : LoadCommand) : Option DyldInfo :=
  match command.body with
  | .dyldInfo info => some info
  | _ => none

/-- The range of a separate export trie. -/
def LoadCommand.exportsTrie? (command : LoadCommand) : Option DataCommand :=
  match command.body with
  | .exportsTrie range => some range
  | _ => none

/-- The range of chained fixups. -/
def LoadCommand.chainedFixups? (command : LoadCommand) : Option DataCommand :=
  match command.body with
  | .chainedFixups range => some range
  | _ => none

/-! ## Tables -/

/-- The segments of an image. -/
def segments (image : Image) : List Segment :=
  image.commands.filterMap LoadCommand.segment?

/-- The first segment of a given name. -/
def segment? (image : Image) (name : String) : Option Segment :=
  image.segments.find? (·.name = name)

/-- The names of the libraries an image depends on, by ordinal. -/
def libraries (image : Image) : List String :=
  image.commands.filterMap LoadCommand.library?

/-- The ranges of the compressed tables of an image. -/
def dyldInfo? (image : Image) : Option DyldInfo :=
  (image.commands.filterMap LoadCommand.dyldInfo?).getLast?

/-- The command of a separate export trie. -/
def exportsCommand? (image : Image) : Option DataCommand :=
  (image.commands.filterMap LoadCommand.exportsTrie?).getLast?

/-- The command of chained fixups. -/
def chainedFixups? (image : Image) : Option DataCommand :=
  (image.commands.filterMap LoadCommand.chainedFixups?).getLast?

/-- A range of positions in a file. -/
structure Range where
  start : Nat
  stop : Nat
deriving DecidableEq, Repr

/-- The number of bytes in a range. -/
def Range.size (range : Range) : Nat := range.stop - range.start

/-- The range of `size` bytes from `offset` on, if it lies in the file. -/
def fileRange (image : Image) (offset size : UInt32) : Except Error Range :=
  let start := offset.toNat
  let stop := start + size.toNat
  if stop ≤ image.data.size then .ok ⟨start, stop⟩
  else .error (.bufferTooSmall stop image.data.size)

/-- The bytes of a range. -/
def bytesIn (image : Image) (range : Range) : Bytes :=
  image.data.extract range.start range.stop

/-- The bind program of an image. -/
def bindOpcodes (image : Image) : Except Error Bytes :=
  match image.dyldInfo? with
  | some info =>
      (image.fileRange info.bindOffset info.bindSize).map image.bytesIn
  | none => .error (.missingLoadCommand "LC_DYLD_INFO")

/-- The range of the export trie, if the image has one. The command of a
separate trie goes before the compressed tables. -/
def exportsRange? (image : Image) : Except Error (Option Range) :=
  match image.exportsCommand?, image.dyldInfo? with
  | some command, _ =>
      (image.fileRange command.dataOffset command.dataSize).map some
  | none, some info =>
      if 0 < info.exportSize then
        (image.fileRange info.exportOffset info.exportSize).map some
      else .ok none
  | none, none => .ok none

/-- The export trie of an image; an image without one has an empty trie. -/
def exportsTrie (image : Image) : Except Error Bytes :=
  image.exportsRange?.map fun range? =>
    match range? with
    | some range => image.bytesIn range
    | none => #[]

/-- The bind program of an image with all that it is run on. -/
def bindProgram (image : Image) : Except Error Bind.Program :=
  image.bindOpcodes.map fun opcodes =>
    ⟨opcodes, image.libraries, image.segments, image.width, image.data⟩

/-! ## What the tables hold -/

/-- The exports of an image. -/
def exports (image : Image) : Except Error (List Export) := do
  Trie.exports (← image.exportsTrie)

/-- The export of a given name. -/
def lookup (image : Image) (name : Name) : Except Error (Option Export) := do
  Trie.lookup (← image.exportsTrie) name

/-- What the bind program of an image binds. There is no outcome if the count of its
records overflows. -/
def binds (image : Image) (memory : Bind.Memory) (limit : Nat) :
    Except Error (Option Bind.Outcome) :=
  image.bindProgram.map fun program => Bind.interpret memory program limit

end Image

end Linkedit
