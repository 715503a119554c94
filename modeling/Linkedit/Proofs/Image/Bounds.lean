import Linkedit.Proofs.Image.Checked
import Linkedit.Proofs.Image.WrittenCommands

/-!
# Images stay in their files

Whatever a file holds, no operation of the readers goes wrong, what is read from the
file is no more than the file has room for, and the ranges that an image gives lie in
the file. A place outside the file is an error; no range is cut off at the end of the
file.
-/

namespace Linkedit.Image

variable {width : Width} {data : Bytes} {offset stop limit : Nat} {image : Image}
variable {commands : List LoadCommand}

/-! ## How much can be read -/

/-- The number of bytes that a load command has at least, for what it says. Segments and
their sections are smallest in images for 32-bit pointers. -/
def Command.leastSize : Command → Nat
  | .segment found =>
      SegmentCommand.bytes .bits32 + SectionEntry.bytes .bits32 * found.sections.length
  | .library _ => DylibCommand.bytes
  | _ => 0

theorem leastSize_readSegment {segment : Segment}
    (read : readSegment width data offset = .ok segment) :
    (Command.segment segment).leastSize ≤ data.size := by
  rcases readSegment_eq_ok.mp read with ⟨fields, parts, decoded, fit, partsRead, rfl⟩
  rcases readSegment_of_fit offset decoded fit with ⟨same, sameRead, length_eq, -⟩
  cases sameRead.symm.trans partsRead
  have whole : SegmentCommand.bytes width ≤ data.size :=
    SegmentCommand.isSome_decode?.mp (Option.isSome_of_mem decoded)
  have room := Nat.mul_le_of_le_div _ _ _ fit
  rw [Command.leastSize, SegmentCommand.toSegment, List.length_map, length_eq]
  have least : SegmentCommand.bytes .bits32 ≤ SegmentCommand.bytes width := by
    cases width <;> decide
  have leastSection : SectionEntry.bytes .bits32 * fields.sectionCount.toNat ≤
      fields.sectionCount.toNat * SectionEntry.bytes width := by
    rw [Nat.mul_comm]
    exact Nat.mul_le_mul_left _ (by cases width <;> decide)
  omega

theorem CommandOutcome.leastSize_le {attempt : Except Error Command} {command : Command}
    (outcome : CommandOutcome data offset attempt) (read : attempt = .ok command) :
    command.leastSize ≤ data.size := by
  cases outcome with
  | segment =>
      rcases map_eq_ok.mp read with ⟨segment, segmentRead, rfl⟩
      exact leastSize_readSegment segmentRead
  | dyldInfo =>
      rcases map_eq_ok.mp read with ⟨info, -, rfl⟩
      exact Nat.zero_le _
  | dataCommand kind =>
      rcases map_eq_ok.mp read with ⟨range, -, rfl⟩
      rcases kind with rfl | rfl <;> exact Nat.zero_le _
  | library =>
      rcases map_eq_ok.mp read with ⟨fields, decoded, rfl⟩
      exact DylibCommand.isSome_decode?.mp
        (Option.isSome_of_mem (require_eq_ok.mp decoded))
  | other =>
      cases read
      exact Nat.zero_le _

theorem LoadCommand.ReadFrom.leastSize_le {command : LoadCommand}
    (readFrom : command.ReadFrom data limit) :
    command.body.leastSize ≤ command.size := by
  rcases readFrom.announced with ⟨number, size, -, -, read⟩
  have bound := (commandOutcome_readCommand _ _ _).leastSize_le read
  have cut : Array.size (data.extract command.offset command.range.stop) ≤
      command.size := by
    rw [Array.size_extract, range]
    dsimp only
    omega
  exact Nat.le_trans bound cut

theorem Consecutive.sum_size (consecutive : Consecutive offset commands stop) :
    offset + (commands.map LoadCommand.size).sum = stop := by
  induction consecutive with
  | nil => rfl
  | cons begins following ih =>
      rw [List.map_cons, List.sum_cons, ← ih, ← begins, LoadCommand.range]
      dsimp only
      omega

theorem Consecutive.stop_le (consecutive : Consecutive offset commands stop)
    (start : offset ≤ data.size)
    (inFile : ∀ command ∈ commands, command.range.stop ≤ data.size) :
    stop ≤ data.size := by
  induction consecutive with
  | nil => exact start
  | cons begins following ih =>
      rcases List.forall_mem_cons.mp inFile with ⟨firstInFile, restInFile⟩
      exact ih firstInFile restInFile

/-- The number of bytes that commands have at least, by what they say. -/
theorem sum_leastSize (commands : List Command) :
    (commands.map Command.leastSize).sum =
      SegmentCommand.bytes .bits32 * (commands.filterMap Command.segment?).length +
        SectionEntry.bytes .bits32 *
          ((commands.filterMap Command.segment?).flatMap Segment.sections).length +
        DylibCommand.bytes * (commands.filterMap Command.library?).length := by
  induction commands with
  | nil => rfl
  | cons command commands ih =>
      rw [List.map_cons, List.sum_cons, ih]
      cases command <;>
        simp [Command.leastSize, Command.segment?, Command.library?,
          List.filterMap_cons] <;> ring

/-- Segments, sections and libraries of an image have room in the file behind the
header. -/
theorem tables_fit (parsed : parse data = .ok image) :
    Header.size image.width + SegmentCommand.bytes .bits32 * image.segments.length +
      SectionEntry.bytes .bits32 * (image.segments.flatMap Segment.sections).length +
      DylibCommand.bytes * image.libraries.length ≤ data.size := by
  rcases parse_eq_ok_iff_opens.mp parsed with ⟨opens, read, -⟩
  rcases readCommands_eq_ok.mp read with ⟨-, ⟨stop, consecutive⟩, readFrom⟩
  have headerInFile : Header.size image.width ≤ data.size :=
    Header.isSome_decode?.mp (Option.isSome_of_mem opens.header_eq)
  have inFile := consecutive.stop_le headerInFile fun command member =>
    (readFrom command member).bounds.2.2
  -- The commands lie one behind the other, so that their sizes add up behind the
  -- header.
  have least : (image.commands.map fun command => command.body.leastSize).sum ≤
      (image.commands.map LoadCommand.size).sum :=
    List.sum_le_sum fun command member => (readFrom command member).leastSize_le
  have sized := consecutive.sum_size
  have counted := sum_leastSize image.contents
  rw [contents, List.map_map, ← contents, ← segments_eq, ← libraries_eq] at counted
  change (image.commands.map fun command => command.body.leastSize).sum = _ at counted
  omega

/-! ## Faults that do not occur -/

theorem readCommands_ne_short {count place : Nat} {fault : ParseFault}
    (short : fault = .shortSection ∨ fault = .shortLoadCommand) :
    readCommands data limit offset count ≠ .error (.parse place fault) := by
  induction count generalizing offset with
  | zero => nofun
  | succ count ih =>
      intro failed
      rcases readCommands_succ_eq_error.mp failed with
          ⟨-, same⟩ | ⟨number, size, -, failed | ⟨body, -, failed⟩⟩
      · cases same
      · rcases readCommand_eq_error failed with ⟨other, isFault, same⟩
        cases same
        rcases short with rfl | rfl <;> cases isFault
      · exact ih failed

theorem parse_ne_short {place : Nat} {fault : ParseFault}
    (short : fault = .shortSection ∨ fault = .shortLoadCommand) :
    parse data ≠ .error (.parse place fault) := by
  intro failed
  rcases opens_or_parse_eq_error data with
    ⟨width, header, opens⟩ | ⟨error, other, isFault⟩
  · rw [parse_of_opens opens, map_eq_error] at failed
    exact readCommands_ne_short short failed
  · cases other.symm.trans failed
    cases isFault

/-! ## Where tables lie -/

/-- What is found at a place in a file: the range from `offset` on, if all of it lies in
the file. -/
inductive FoundAt (data : Bytes) (offset size : UInt32) :
    Except Error Range → Prop where
  | inFile (inside : offset.toNat + size.toNat ≤ data.size) :
      FoundAt data offset size (.ok ⟨offset.toNat, offset.toNat + size.toNat⟩)
  | pastEnd (beyond : data.size < offset.toNat + size.toNat) :
      FoundAt data offset size
        (.error (.bufferTooSmall (offset.toNat + size.toNat) data.size))

theorem fileRange_foundAt (image : Image) (offset size : UInt32) :
    FoundAt image.data offset size (image.fileRange offset size) := by
  rw [fileRange]
  split
  next inside => exact .inFile inside
  next outside => exact .pastEnd (Nat.not_le.mp outside)

/-- The offset and size of the export trie that the load commands give. -/
def exportsPlace? (image : Image) : Option (UInt32 × UInt32) :=
  match image.exportsCommand?, image.dyldInfo? with
  | some command, _ => some (command.dataOffset, command.dataSize)
  | none, some info =>
      if 0 < info.exportSize then some (info.exportOffset, info.exportSize) else none
  | none, none => none

theorem exportsRange?_eq (image : Image) :
    image.exportsRange? = match image.exportsPlace? with
      | some (offset, size) => (image.fileRange offset size).map some
      | none => .ok none := by
  rw [exportsRange?, exportsPlace?]
  cases image.exportsCommand? with
  | some command => rfl
  | none =>
      cases image.dyldInfo? with
      | none => rfl
      | some info =>
          dsimp only
          split <;> rfl

/-- What an image gives out of a file lies in the file. No operation on the way goes
wrong, and what lies past the end of the file is an error. -/
structure Confined (data : Bytes) (image : Image) : Prop where
  tables_fit :
    Header.size image.width + SegmentCommand.bytes .bits32 * image.segments.length +
    SectionEntry.bytes .bits32 * (image.segments.flatMap Segment.sections).length +
    DylibCommand.bytes * image.libraries.length ≤ data.size
  bindOpcodes_checked : Checked.bindOpcodes image = image.bindOpcodes.mapError .refused
  bindProgram_checked : Checked.bindProgram image = image.bindProgram.mapError .refused
  exportsRange?_checked :
    Checked.exportsRange? image = image.exportsRange?.mapError .refused
  exportsTrie_checked : Checked.exportsTrie image = image.exportsTrie.mapError .refused
  bindRange_inFile : ∀ range, image.bindRange = .ok range → range.InFile data
  exportsRange?_inFile : ∀ range, image.exportsRange? = .ok (some range) →
    range.InFile data
  bindRange_none : image.dyldInfo? = none →
    image.bindRange = .error (.missingLoadCommand "LC_DYLD_INFO")
  bindRange_foundAt : ∀ info, image.dyldInfo? = some info →
    FoundAt data info.bindOffset info.bindSize image.bindRange
  exportsRange?_none : image.exportsPlace? = none → image.exportsRange? = .ok none
  exportsRange?_foundAt : ∀ offset size, image.exportsPlace? = some (offset, size) →
    ∃ outcome, FoundAt data offset size outcome ∧ image.exportsRange? = outcome.map some
  bindOpcodes_eq : image.bindOpcodes = image.bindRange.map fun range =>
    data.extract range.start range.stop
  bindProgram_eq : image.bindProgram = image.bindOpcodes.map fun opcodes =>
    ⟨opcodes, image.libraries, image.segments, image.width, data⟩
  exportsTrie_eq : image.exportsTrie = image.exportsRange?.map fun range? =>
    match range? with
    | some range => data.extract range.start range.stop
    | none => #[]

theorem confined_of_parse (parsed : parse data = .ok image) : image.Confined data := by
  have fit := image.tables_fit parsed
  rcases parse_eq_ok_iff_opens.mp parsed with ⟨-, -, rfl⟩
  constructor
  case tables_fit => exact fit
  case bindOpcodes_checked => exact Checked.bindOpcodes_eq image
  case bindProgram_checked => exact Checked.bindProgram_eq image
  case exportsRange?_checked => exact Checked.exportsRange?_eq image
  case exportsTrie_checked => exact Checked.exportsTrie_eq image
  case bindRange_inFile =>
    intro range found
    rw [bindRange] at found
    split at found
    next => exact inFile_of_fileRange found
    next => cases found
  case exportsRange?_inFile => exact fun range located => (slot_spec located).1
  case bindRange_none =>
    intro missing
    rw [bindRange, missing]
  case bindRange_foundAt =>
    intro info given
    rw [bindRange, given]
    exact image.fileRange_foundAt _ _
  case exportsRange?_none =>
    intro missing
    rw [exportsRange?_eq, missing]
  case exportsRange?_foundAt =>
    intro offset size given
    refine ⟨_, image.fileRange_foundAt offset size, ?_⟩
    rw [exportsRange?_eq, given]
  case bindOpcodes_eq => exact image.bindOpcodes_eq
  case bindProgram_eq => rfl
  case exportsTrie_eq => rfl

/-- Reading a file of any bytes as an image, no operation goes wrong: the reader that
checks each operation does what the reader does. (No buffer has `2 ^ 63` bytes.) The
sections of a segment are all read if the command has room for them, so that a missing
section or load command is not among the errors. What an accepted image gives lies in
the file. -/
theorem parse_stays_inside (small : data.size < 2 ^ 63) :
    Checked.parse data = (parse data).mapError .refused ∧
    (∀ (width : Width) (command : Bytes) (offset : Nat) (fields : SegmentCommand),
      SegmentCommand.decode? width command = some fields →
      fields.sectionCount.toNat ≤
        (command.size - SegmentCommand.bytes width) / SectionEntry.bytes width →
      ∃ parts, readSections width command offset (SegmentCommand.bytes width)
          fields.sectionCount.toNat = .ok parts ∧
        parts.length = fields.sectionCount.toNat) ∧
    (∀ place, parse data ≠ .error (.parse place .shortSection) ∧
      parse data ≠ .error (.parse place .shortLoadCommand)) ∧
    ∀ image, parse data = .ok image → image.Confined data := by
  refine ⟨Checked.parse_eq small, ?sections, ?faults, fun image => confined_of_parse⟩
  case sections =>
    intro width command offset fields decoded fit
    rcases readSegment_of_fit offset decoded fit with ⟨parts, read, length_eq, -⟩
    exact ⟨parts, read, length_eq⟩
  case faults =>
    intro place
    exact ⟨parse_ne_short (.inl rfl), parse_ne_short (.inr rfl)⟩

theorem parse_stays_inside_tinyImage :
    tinyImage.size < 2 ^ 63 ∧ Checked.parse tinyImage = .ok parsedTinyImage ∧
      (⟨48, 80⟩ : Range).InFile tinyImage ∧
      (∃ parts, readSections .bits64 mixedPieces.head!.toArray 32 72 1 = .ok parts ∧
        parts.length = 1) ∧
      Checked.bindOpcodes parsedTinyImage =
        .error (.refused (.missingLoadCommand "LC_DYLD_INFO")) := by
  have small : tinyImage.size < 2 ^ 63 := by decide +kernel
  have parsed : parse tinyImage = .ok parsedTinyImage := by decide +kernel
  rcases parse_stays_inside small with ⟨checked, sections, -, confined⟩
  have inside := confined parsedTinyImage parsed
  rw [parsed] at checked
  refine ⟨small, checked, ?range, ?parts, ?opcodes⟩
  case range => exact inside.exportsRange?_inFile ⟨48, 80⟩ (by decide +kernel)
  case parts =>
    exact sections .bits64 mixedPieces.head!.toArray 32 mixedSegment (by decide +kernel)
      (by decide +kernel)
  case opcodes =>
    rw [inside.bindOpcodes_checked, inside.bindOpcodes_eq, inside.bindRange_none rfl]
    rfl

end Linkedit.Image
