import Linkedit.Proofs.Image.Layout
import Linkedit.Proofs.Image.Locality
import Mathlib.Data.List.Forall2

/-!
# Load commands as they are written

What the bytes of a load command say is settled without reading them: the fixed fields
of its kind come first, then what belongs to them, then anything. An image whose load
commands are written one behind the other is parsed as these commands, whatever comes
behind them.
-/

namespace Linkedit.Image

variable {width : Width} {data : Bytes} {offset limit : Nat}

/-! ## What the bytes of a command say -/

/-- Some fields are those of a section. -/
structure SectionEntry.Describes (width : Width) (fields : SectionEntry)
    (part : Section) :
    Prop where
  fits : fields.Fits width
  name : IsNameField fields.name part.name
  address_eq : fields.address = part.address
  size_eq : fields.size = part.size

/-- Some fields, with those of the sections that follow, are those of a segment. -/
structure SegmentCommand.Describes (width : Width) (fields : SegmentCommand)
    (parts : List SectionEntry) (segment : Segment) : Prop where
  number_eq : fields.number = segmentNumber width
  fits : fields.Fits width
  name : IsNameField fields.name segment.name
  address_eq : fields.address = segment.address
  size_eq : fields.addressSize = segment.size
  fileOffset_eq : fields.fileOffset = segment.fileOffset
  fileSize_eq : fields.fileSize = segment.fileSize
  count_eq : fields.sectionCount.toNat = parts.length
  sections : List.Forall₂ (SectionEntry.Describes width) parts segment.sections

/-- Whether a load command with this number is none of those that concern linkedit
data. -/
def IsOther (number : UInt32) : Prop :=
  number ∉ [segmentNumber .bits64, segmentNumber .bits32, 0x00000022,
    0x80000022, 0x80000033, 0x80000034] ∧ isDependency number = false

instance (number : UInt32) : Decidable (IsOther number) :=
  inferInstanceAs (Decidable (_ ∧ _))

/-- Some bytes are a load command. Its size is that of all the bytes, and behind its
fields there may be others that mean nothing. The name of a library begins at the offset
that the command gives and ends at a zero byte or with the command. -/
inductive Command.WrittenAs : Command → List UInt8 → Prop where
  | segment {width : Width} {fields : SegmentCommand} {parts : List SectionEntry}
      {segment : Segment} {rest : List UInt8}
      (describes : fields.Describes width parts segment)
      (size_eq : fields.size.toNat =
        (fields.encode width ++ parts.flatMap (SectionEntry.encode width) ++
          rest).length) :
      WrittenAs (.segment segment)
        (fields.encode width ++ parts.flatMap (SectionEntry.encode width) ++ rest)
  | library {fields : DylibCommand} {name : String} {rest : List UInt8}
      (dependency : isDependency fields.number)
      (size_eq : fields.size.toNat = (fields.encode ++ rest).length)
      (name_eq :
        ((fields.encode ++ rest).drop fields.nameOffset.toNat).takeWhile (· ≠ 0) =
          Text.bytes name) :
      WrittenAs (.library name) (fields.encode ++ rest)
  | dyldInfo {info : DyldInfo} {rest : List UInt8}
      (number : info.number = 0x00000022 ∨ info.number = 0x80000022)
      (size_eq : info.size.toNat = (info.encode ++ rest).length) :
      WrittenAs (.dyldInfo info) (info.encode ++ rest)
  | exportsTrie {range : DataCommand} {rest : List UInt8}
      (number : range.number = 0x80000033)
      (size_eq : range.size.toNat = (range.encode ++ rest).length) :
      WrittenAs (.exportsTrie range) (range.encode ++ rest)
  | chainedFixups {range : DataCommand} {rest : List UInt8}
      (number : range.number = 0x80000034)
      (size_eq : range.size.toNat = (range.encode ++ rest).length) :
      WrittenAs (.chainedFixups range) (range.encode ++ rest)
  | other {number size : UInt32} {rest : List UInt8} (isOther : IsOther number)
      (size_eq : size.toNat =
        (encodeWord32 number ++ encodeWord32 size ++ rest).length) :
      WrittenAs (.other number) (encodeWord32 number ++ encodeWord32 size ++ rest)

/-! ## Reading one command -/

theorem SectionEntry.Describes.toSection_eq {fields : SectionEntry} {part : Section}
    (describes : fields.Describes width part) : fields.toSection = part := by
  rw [toSection, describes.name.fieldText_eq, describes.address_eq, describes.size_eq]

theorem SegmentCommand.Describes.toSegment_eq {fields : SegmentCommand}
    {parts : List SectionEntry} {segment : Segment}
    (describes : fields.Describes width parts segment) :
    fields.toSegment parts = segment := by
  have sections : parts.map SectionEntry.toSection = segment.sections := by
    rw [← List.forall₂_eq_eq_eq, List.forall₂_map_left_iff]
    exact describes.sections.imp fun _ _ part => part.toSection_eq
  rw [toSegment, describes.name.fieldText_eq, describes.address_eq, describes.size_eq,
    describes.fileOffset_eq, describes.fileSize_eq, sections]

/-- Sections are read where they lie one behind the other. -/
theorem readSections_of_holdsAt (offset : Nat) {start : Nat} {parts : List SectionEntry}
    (holds : data.HoldsAt start (parts.flatMap (SectionEntry.encode width)))
    (fits : ∀ part ∈ parts, part.Fits width) :
    readSections width data offset start parts.length = .ok parts := by
  induction parts generalizing start with
  | nil => rfl
  | cons part parts ih =>
      rcases List.forall_mem_cons.mp fits with ⟨partFits, restFit⟩
      rw [List.flatMap_cons] at holds
      rcases Bytes.holdsAt_append.mp holds with ⟨first, rest⟩
      rw [SectionEntry.length_encode partFits] at rest
      rw [List.length_cons, readSections,
        require_eq_ok.mpr (SectionEntry.decode?_of_holdsAt first partFits), ok_bind,
        ih rest restFit, ok_bind]
      rfl

theorem length_flatMap_parts {parts : List SectionEntry}
    (fits : ∀ part ∈ parts, part.Fits width) :
    (parts.flatMap (SectionEntry.encode width)).length =
      parts.length * SectionEntry.bytes width := by
  induction parts with
  | nil => simp
  | cons part parts ih =>
      rcases List.forall_mem_cons.mp fits with ⟨partFits, restFit⟩
      rw [List.flatMap_cons, List.length_append, SectionEntry.length_encode partFits,
        ih restFit, List.length_cons]
      ring

theorem SegmentCommand.Describes.parts_fit {fields : SegmentCommand}
    {parts : List SectionEntry} {segment : Segment}
    (describes : fields.Describes width parts segment) :
    ∀ part ∈ parts, part.Fits width := by
  have both := describes.sections.imp fun _ _ part => And.intro part.fits part
  exact ((List.forall₂_and_left _ _).mp both).1

theorem readSegment_of_describes {fields : SegmentCommand} {parts : List SectionEntry}
    {segment : Segment} (describes : fields.Describes width parts segment)
    (holds :
      data.HoldsAt 0
      (fields.encode width ++ parts.flatMap (SectionEntry.encode width))) :
    readSegment width data offset = .ok segment := by
  have named := describes.name.length_eq
  have fits := describes.parts_fit
  have positive : 0 < SectionEntry.bytes width := by cases width <;> decide
  have nonempty :
      fields.encode width ++ parts.flatMap (SectionEntry.encode width) ≠ [] := by
    rw [← List.length_pos_iff, List.length_append, SegmentCommand.length_encode named]
    exact Nat.lt_of_lt_of_le (by decide : 0 < 40) (by rw [SegmentCommand.bytes]; omega)
  have inside := holds.length_le nonempty
  rw [List.length_append, SegmentCommand.length_encode named, length_flatMap_parts fits]
    at inside
  have room :
      parts.length ≤
        (data.size - SegmentCommand.bytes width) / SectionEntry.bytes width := by
    rw [Nat.le_div_iff_mul_le positive]
    omega
  rcases Bytes.holdsAt_append.mp holds with ⟨fixed, following⟩
  rw [SegmentCommand.length_encode named, Nat.zero_add] at following
  have decoded := SegmentCommand.decode?_of_holdsAt fixed describes.fits named
  have partsRead := readSections_of_holdsAt offset following fits
  rw [← describes.count_eq] at room partsRead
  exact readSegment_eq_ok.mpr
    ⟨fields, parts, decoded, room, partsRead, describes.toSegment_eq⟩

theorem readCommand_segment :
    readCommand (segmentNumber width) data offset =
      (readSegment width data offset).map .segment := by
  cases width with
  | bits32 => rw [readCommand, if_neg (by decide), if_pos rfl]
  | bits64 => rw [readCommand, if_pos rfl]

theorem readCommand_dependency {number : UInt32} (dependency : isDependency number) :
    readCommand number data offset =
      (require (.parse offset .shortDylibCommand) (DylibCommand.decode? data)).map
        fun command => .library (command.nameText data) := by
  have numbers : number = 0x0000000C ∨ number = 0x80000018 ∨ number = 0x8000001F ∨
      number = 0x00000020 ∨ number = 0x80000023 := by
    simpa [isDependency, or_assoc] using dependency
  rcases numbers with rfl | rfl | rfl | rfl | rfl <;> rfl

theorem readCommand_other {number : UInt32} (isOther : IsOther number) :
    readCommand number data offset = .ok (.other number) := by
  rcases isOther with ⟨unknown, independent⟩
  simp only [List.mem_cons, List.not_mem_nil, or_false, not_or] at unknown
  rcases unknown with ⟨segment64, segment32, optional, required, trie, fixups⟩
  rw [readCommand, if_neg segment64, if_neg segment32,
    if_neg (not_or.mpr ⟨optional, required⟩), if_neg trie, if_neg fixups,
    if_neg (Bool.eq_false_iff.mp independent)]

/-- A command is read from its bytes, which begin with its number and size. -/
theorem Command.WrittenAs.reads {command : Command} {bytes : List UInt8}
    (written : command.WrittenAs bytes) (offset : Nat) :
    ∃ number size, encodeWord32 number ++ encodeWord32 size <+: bytes ∧
      size.toNat = bytes.length ∧ readCommand number bytes.toArray offset =
        .ok command := by
  cases written with
  | @segment width fields parts segment rest describes size_eq =>
      refine ⟨fields.number, fields.size, ?_, size_eq, ?_⟩
      · simp only [SegmentCommand.encode, List.append_assoc]
        exact ⟨_, List.append_assoc _ _ _⟩
      · rw [describes.number_eq, readCommand_segment,
          readSegment_of_describes describes (Bytes.holdsAt_toArray _ rest)]
        rfl
  | @library fields name rest dependency size_eq name_eq =>
      refine ⟨fields.number, fields.size, ?_, size_eq, ?_⟩
      · simp only [DylibCommand.encode, List.append_assoc]
        exact ⟨_, List.append_assoc _ _ _⟩
      · rw [readCommand_dependency dependency,
          DylibCommand.decode?_of_holdsAt (Bytes.holdsAt_toArray fields.encode rest),
          require, map_ok, DylibCommand.nameText, Bytes.untilZero_eq, name_eq,
          Text.lossy_bytes]
  | @dyldInfo info rest number size_eq =>
      refine ⟨info.number, info.size, ?_, size_eq, ?_⟩
      · simp only [DyldInfo.encode, List.append_assoc]
        exact ⟨_, List.append_assoc _ _ _⟩
      · have decoded :=
          DyldInfo.decode?_of_holdsAt (Bytes.holdsAt_toArray info.encode rest)
        rcases number with number | number <;>
          simp [readCommand, number, segmentNumber, decoded, require]
  | @exportsTrie range rest number size_eq =>
      refine ⟨range.number, range.size, ?_, size_eq, ?_⟩
      · simp only [DataCommand.encode, List.append_assoc]
        exact ⟨_, List.append_assoc _ _ _⟩
      · have decoded :=
          DataCommand.decode?_of_holdsAt (Bytes.holdsAt_toArray range.encode rest)
        simp [readCommand, number, segmentNumber, decoded, require]
  | @chainedFixups range rest number size_eq =>
      refine ⟨range.number, range.size, ?_, size_eq, ?_⟩
      · simp only [DataCommand.encode, List.append_assoc]
        exact ⟨_, List.append_assoc _ _ _⟩
      · have decoded :=
          DataCommand.decode?_of_holdsAt (Bytes.holdsAt_toArray range.encode rest)
        simp [readCommand, number, segmentNumber, decoded, require]
  | @other number size rest isOther size_eq =>
      exact ⟨number, size, List.prefix_append _ _, size_eq, readCommand_other isOther⟩

/-! ## Reading all commands -/

theorem Command.WrittenAs.announces {command : Command} {bytes : List UInt8}
    (written : command.WrittenAs bytes) (holds : data.HoldsAt offset bytes)
    (area : offset + bytes.length ≤ limit) :
    ∃ number size, Announces data limit offset number size ∧ size.toNat = bytes.length ∧
      readCommand number (data.extract offset (offset + size.toNat)) offset =
        .ok command := by
  rcases written.reads offset with ⟨number, size, start, size_eq, read⟩
  have begins : data.HoldsAt offset (encodeWord32 number ++ encodeWord32 size) :=
    start.trans holds
  rcases Bytes.holdsAt_append.mp begins with ⟨numberHolds, sizeHolds⟩
  rw [length_encodeWord32] at sizeHolds
  have long := start.length_le
  rw [List.length_append, length_encodeWord32, length_encodeWord32] at long
  have nonempty : bytes ≠ [] := by
    rw [← List.length_pos_iff]
    omega
  have inside := holds.length_le nonempty
  have part : data.extract offset (offset + bytes.length) = bytes.toArray :=
    congrArg List.toArray holds.slice_eq
  refine ⟨number, size, ?_, size_eq, ?_⟩
  · constructor
    case start_le_limit => exact Nat.le_trans (Nat.add_le_add_left long offset) area
    case start_le_size => exact Nat.le_trans (Nat.add_le_add_left long offset) inside
    case number_eq => exact Bytes.holdsAt_encodeWord32.mp numberHolds
    case size_eq => exact Bytes.holdsAt_encodeWord32.mp sizeHolds
    case commandStart_le => exact size_eq ▸ long
    case stop_le_size => rwa [size_eq]
  · rw [size_eq, part, read]

/-- Commands that are written one behind the other are read in order. -/
theorem readCommands_of_written {commands : List Command} {pieces : List (List UInt8)}
    (written : List.Forall₂ Command.WrittenAs commands pieces)
    (holds : data.HoldsAt offset pieces.flatten)
    (area : offset + pieces.flatten.length ≤ limit) :
    ∃ loaded, readCommands data limit offset commands.length = .ok loaded ∧
      loaded.map LoadCommand.body = commands := by
  induction written generalizing offset with
  | nil => exact ⟨[], rfl, rfl⟩
  | @cons command bytes commands pieces first rest ih =>
      rw [List.flatten_cons] at holds area
      rw [List.length_append] at area
      rcases Bytes.holdsAt_append.mp holds with ⟨firstHolds, restHolds⟩
      have firstArea : offset + bytes.length ≤ limit := by omega
      rcases first.announces firstHolds firstArea with
        ⟨number, size, announces, size_eq, read⟩
      rcases ih restHolds (by omega) with ⟨loaded, loadedRead, same⟩
      refine ⟨⟨offset, size.toNat, command⟩ :: loaded, ?_, by rw [List.map_cons, same]⟩
      apply readCommands_succ_eq_ok.mpr
      rw [← size_eq] at loadedRead
      exact ⟨number, size, command, loaded, announces, read, loadedRead, rfl⟩

/-! ## Tables of commands -/

/-- The segment that a command describes. -/
def Command.segment? : Command → Option Segment
  | .segment found => some found
  | _ => none

/-- The library that a command names. -/
def Command.library? : Command → Option String
  | .library name => some name
  | _ => none

/-- The ranges of compressed tables that a command gives. -/
def Command.dyldInfo? : Command → Option DyldInfo
  | .dyldInfo info => some info
  | _ => none

/-- The range of a separate export trie that a command gives. -/
def Command.exportsTrie? : Command → Option DataCommand
  | .exportsTrie range => some range
  | _ => none

/-- The range of chained fixups that a command gives. -/
def Command.chainedFixups? : Command → Option DataCommand
  | .chainedFixups range => some range
  | _ => none

theorem filterMap_body {α : Type} {view : LoadCommand → Option α}
    {content : Command → Option α}
    (same : ∀ command : LoadCommand, view command = content command.body)
    (commands : List LoadCommand) :
    commands.filterMap view = (commands.map LoadCommand.body).filterMap content := by
  rw [List.filterMap_map]
  exact congrArg (List.filterMap · commands) (funext same)

section Tables

variable (image : Image)

/-- What the load commands of an image say. -/
def contents : List Command := image.commands.map LoadCommand.body

theorem segments_eq : image.segments = image.contents.filterMap Command.segment? :=
  filterMap_body (fun ⟨_, _, body⟩ => by cases body <;> rfl) _

theorem libraries_eq : image.libraries = image.contents.filterMap Command.library? :=
  filterMap_body (fun ⟨_, _, body⟩ => by cases body <;> rfl) _

theorem dyldInfo?_eq :
    image.dyldInfo? = (image.contents.filterMap Command.dyldInfo?).getLast? :=
  congrArg List.getLast? (filterMap_body (fun ⟨_, _, body⟩ => by cases body <;> rfl) _)

theorem exportsCommand?_eq :
    image.exportsCommand? = (image.contents.filterMap Command.exportsTrie?).getLast? :=
  congrArg List.getLast? (filterMap_body (fun ⟨_, _, body⟩ => by cases body <;> rfl) _)

theorem chainedFixups?_eq :
    image.chainedFixups? = (image.contents.filterMap Command.chainedFixups?).getLast? :=
  congrArg List.getLast? (filterMap_body (fun ⟨_, _, body⟩ => by cases body <;> rfl) _)

end Tables

/-! ## Whole images -/

/-- The number that an image for pointers of some width begins with. -/
def Magic.number : Width → UInt32
  | .bits32 => 0xFEEDFACE
  | .bits64 => 0xFEEDFACF

/-- A header is that of an image with some load commands. -/
structure Header.Heads (header : Header) (width : Width) (pieces : List (List UInt8)) :
    Prop where
  magic_eq : header.magic = Magic.number width
  commandCount_eq : header.commandCount.toNat = pieces.length
  commandSize_eq : header.commandSize.toNat = pieces.flatten.length
  reserved_eq : width = .bits32 → header.reserved = 0

theorem parse_of_written {header : Header} {commands : List Command}
    {pieces : List (List UInt8)} (heads : header.Heads width pieces)
    (written : List.Forall₂ Command.WrittenAs commands pieces) (behind : List UInt8) :
    ∃ image, parse (header.encode width ++ pieces.flatten ++ behind).toArray =
      .ok image ∧
      image.data = (header.encode width ++ pieces.flatten ++ behind).toArray ∧
      image.width = width ∧ image.header = header ∧ image.contents = commands := by
  have whole := Bytes.holdsAt_toArray (header.encode width ++ pieces.flatten) behind
  rcases Bytes.holdsAt_append.mp whole with ⟨headerHolds, commandsHold⟩
  rw [Header.length_encode, Nat.zero_add] at commandsHold
  have magic : encodeWord32 header.magic <+: header.encode width := by
    simp only [Header.encode, List.append_assoc]
    exact List.prefix_append _ _
  rcases readCommands_of_written written commandsHold
    (Nat.add_le_add_left heads.commandSize_eq.ge _) with ⟨loaded, read, same⟩
  rw [written.length_eq, ← heads.commandCount_eq] at read
  refine ⟨⟨_, width, header, loaded⟩, ?_, rfl, rfl, rfl, same⟩
  apply parse_eq_ok.mpr
  refine ⟨header.magic, Bytes.holdsAt_encodeWord32.mp (magic.trans headerHolds), ?_,
    Header.decode?_of_holdsAt headerHolds heads.reserved_eq, read, rfl⟩
  rw [heads.magic_eq]
  cases width <;> rfl

/-! ## Ordinals -/

/-- The number of the command that gives the image's own name. -/
def ownNameNumber : UInt32 := 0x0000000D

/-- The command that gives the image's own name names no library that takes an
ordinal. -/
theorem Command.WrittenAs.library?_ownName {command : Command} {bytes : List UInt8}
    (written : command.WrittenAs bytes)
    (ownName : encodeWord32 ownNameNumber <+: bytes) :
    command.library? = none := by
  rcases written.reads 0 with ⟨number, size, start, -, read⟩
  have whole : Bytes.HoldsAt bytes.toArray 0 bytes := List.prefix_rfl
  have first : encodeWord32 number <+: bytes := (List.prefix_append _ _).trans start
  -- The number that is read is the one that the bytes begin with.
  have same : number = ownNameNumber := by
    have numberRead := Bytes.holdsAt_encodeWord32.mp (first.trans whole)
    rw [Bytes.holdsAt_encodeWord32.mp (ownName.trans whole)] at numberRead
    exact (Option.some.inj numberRead).symm
  rw [same, readCommand_other (by decide)] at read
  cases read
  rfl

/-- Libraries are numbered from one. -/
theorem libraryName_of_getElem? {libraries : List String} {place : Nat} {name : String}
    (found : libraries[place]? = some name) :
    Bind.libraryName libraries (place + 1) = name := by
  have positive : 0 < (place : Int) + 1 := by omega
  have index : ((place : Int) + 1 - 1).toNat = place := by omega
  unfold Bind.libraryName
  split
  all_goals first
    | omega
    | rw [if_pos positive, index, found, Option.getD_some]

/-- An image whose load commands are written one behind the other, whatever comes behind
them, is parsed as what the commands say: its segments and libraries in their order, the
libraries numbered from one with the image's own name left out, and of each kind of
table the last place that a command gives. -/
theorem parse_recovers {header : Header} {commands : List Command}
    {pieces : List (List UInt8)} (heads : header.Heads width pieces)
    (written : List.Forall₂ Command.WrittenAs commands pieces) (behind : List UInt8) :
    ∃ image, parse (header.encode width ++ pieces.flatten ++ behind).toArray =
      .ok image ∧ image.width = width ∧ image.header = header ∧
      image.segments = commands.filterMap Command.segment? ∧
      image.libraries = commands.filterMap Command.library? ∧
      (∀ (place : Nat) (name : String),
        (commands.filterMap Command.library?)[place]? = some name →
        Bind.libraryName image.libraries (place + 1) = name) ∧
      List.Forall₂ (fun command bytes =>
        encodeWord32 ownNameNumber <+: bytes → command.library? = none)
          commands pieces ∧
      image.dyldInfo? = (commands.filterMap Command.dyldInfo?).getLast? ∧
      image.exportsCommand? = (commands.filterMap Command.exportsTrie?).getLast? ∧
      image.chainedFixups? = (commands.filterMap Command.chainedFixups?).getLast? := by
  rcases parse_of_written heads written behind with
      ⟨image, parsed, -, width_eq, header_eq, contents⟩
  have libraries : image.libraries = commands.filterMap Command.library? :=
    contents ▸ image.libraries_eq
  refine ⟨image, parsed, width_eq, header_eq, ?_, libraries, ?_, ?_, ?_, ?_, ?_⟩
  case refine_1 => exact contents ▸ image.segments_eq
  case refine_2 =>
    intro place name found
    exact libraryName_of_getElem? (libraries ▸ found)
  case refine_3 => exact written.imp fun _ _ written => written.library?_ownName
  case refine_4 => exact contents ▸ image.dyldInfo?_eq
  case refine_5 => exact contents ▸ image.exportsCommand?_eq
  case refine_6 => exact contents ▸ image.chainedFixups?_eq

/-- The load commands of an image with a segment of one section, its own name, a
library, and three places of tables. -/
def mixedCommands : List Command :=
  [.segment ⟨"__DATA", 0x1000, 0x100, 0, 0, [⟨"__got", 0x1008, 8⟩]⟩,
    .other ownNameNumber,
    .library "b", .dyldInfo DyldInfo.empty, .exportsTrie DataCommand.empty,
    .exportsTrie { DataCommand.empty with dataOffset := 8 }]

/-- The fields of the segment. -/
def mixedSegment : SegmentCommand :=
  { SegmentCommand.empty .bits64 with
    size := 152, name := nameField "__DATA", address := 0x1000, addressSize := 0x100,
    sectionCount := 1 }

/-- The fields of its section. -/
def mixedSection : SectionEntry :=
  { SectionEntry.empty with name := nameField "__got", address := 0x1008, size := 8 }

/-- The bytes of the commands. -/
def mixedPieces : List (List UInt8) :=
  [mixedSegment.encode .bits64 ++
    [mixedSection].flatMap (SectionEntry.encode .bits64) ++ [],
    encodeWord32 ownNameNumber ++ encodeWord32 12 ++ [97, 0, 0, 0],
    DylibCommand.encode ⟨0x0000000C, 28, 24, 0, 0, 0⟩ ++ [98, 0, 99, 0],
    DyldInfo.empty.encode ++ [], DataCommand.empty.encode ++ [],
    DataCommand.encode { DataCommand.empty with dataOffset := 8 } ++ []]

theorem mixedPieces_written :
    List.Forall₂ Command.WrittenAs mixedCommands mixedPieces := by
  have segmentName : IsNameField (nameField "__DATA") "__DATA" :=
    isNameField_nameField (by decide +kernel) (by decide +kernel)
  have sectionName : IsNameField (nameField "__got") "__got" :=
    isNameField_nameField (by decide +kernel) (by decide +kernel)
  have part : mixedSection.Describes .bits64 ⟨"__got", 0x1008, 8⟩ :=
    ⟨⟨sectionName.length_eq, by decide +kernel, Width.fits_bits64 _,
      Width.fits_bits64 _, nofun⟩, sectionName, rfl, rfl⟩
  have segment : mixedSegment.Describes .bits64 [mixedSection]
      ⟨"__DATA", 0x1000, 0x100, 0, 0, [⟨"__got", 0x1008, 8⟩]⟩ :=
    ⟨rfl, ⟨Width.fits_bits64 _, Width.fits_bits64 _, Width.fits_bits64 _,
      Width.fits_bits64 _⟩, segmentName, rfl, rfl, rfl, rfl, rfl, .cons part .nil⟩
  refine .cons (.segment segment ?_) (.cons (.other (by decide) (by decide)) (.cons
    (.library (by decide) (by decide) ?_)
    (.cons (.dyldInfo (by decide) (by decide)) (.cons
    (.exportsTrie (by decide) (by decide))
    (.cons (.exportsTrie (by decide) (by decide)) .nil)))))
  · decide +kernel
  · decide +kernel

theorem parse_recovers_mixed :
    ∃ (header : Header) (image : Image), header.Heads .bits64 mixedPieces ∧
      parse (header.encode .bits64 ++ mixedPieces.flatten ++ [7]).toArray = .ok image ∧
      image.segments = [⟨"__DATA", 0x1000, 0x100, 0, 0, [⟨"__got", 0x1008, 8⟩]⟩] ∧
      image.libraries = ["b"] ∧ Bind.libraryName image.libraries 1 = "b" ∧
      image.dyldInfo? = some DyldInfo.empty ∧
      image.exportsCommand? = some { DataCommand.empty with dataOffset := 8 } ∧
      image.chainedFixups? = none := by
  have heads :
      Header.Heads { Header.empty with commandCount := 6, commandSize := 272 } .bits64
      mixedPieces := ⟨rfl, rfl, by decide +kernel, nofun⟩
  rcases parse_recovers heads mixedPieces_written [7] with
      ⟨image, parsed, -, -, segments, libraries, ordinals, -, info, trie, fixups⟩
  exact ⟨_, image, heads, parsed, segments, libraries, ordinals 0 "b" rfl,
    info, trie, fixups⟩

end Linkedit.Image
