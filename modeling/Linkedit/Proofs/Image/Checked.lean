import Linkedit.Proofs.Image.CommandArea
import Linkedit.Proofs.Image.Strip

/-!
# Images read with every operation checked

The readers of an image add and subtract positions and cut parts out of buffers. Here
each of these operations is checked: a sum has to fit in a word of 64 bits, a difference
must not fall below zero, and a part has to lie in its buffer. A reader is trapped where
this fails. No file traps it: the checks that the readers make before each operation are
enough.
-/

namespace Linkedit.Image

/-- Why a checked operation has no result. -/
inductive Trap where
  | beyondWord
  | belowZero
  | outOfRange
deriving DecidableEq, Repr

/-- How a checked reader ends without a result. -/
inductive Halt where
  | refused (error : Error)
  | trapped (trap : Trap)
deriving DecidableEq, Repr

theorem inFile_of_fileRange {image : Image} {offset size : UInt32} {range : Range}
    (found : image.fileRange offset size = .ok range) : range.InFile image.data := by
  rcases fileRange_eq_ok.mp found with ⟨inside, rfl⟩
  exact ⟨Nat.le_add_right _ _, inside⟩

namespace Checked

/-! ## Operations -/

/-- The sum of two positions. -/
def add (left right : Nat) : Except Halt Nat :=
  if left + right < 2 ^ 64 then .ok (left + right) else .error (.trapped .beyondWord)

/-- The difference of two positions. -/
def subtract (left right : Nat) : Except Halt Nat :=
  if right ≤ left then .ok (left - right) else .error (.trapped .belowZero)

/-- A part of a buffer. -/
def part (data : Bytes) (start stop : Nat) : Except Halt Bytes :=
  if start ≤ stop ∧ stop ≤ data.size then .ok (data.extract start stop)
  else .error (.trapped .outOfRange)

/-- Ends a reader with an error. -/
def refuse {α : Type} (error : Error) : Except Halt α := .error (.refused error)

/-- Takes a value that a reader may not have found. -/
def require {α : Type} (error : Error) : Option α → Except Halt α
  | some value => .ok value
  | none => refuse error

/-! ## Readers -/

/-- The bytes of a buffer up to the first zero byte, or to the end. -/
def cutAtZero (data : Bytes) : Except Halt (List UInt8) := do
  let kept ← part data 0 ((data.zeroFrom? 0).getD data.size)
  return kept.toList

/-- The text of a name field. -/
def fieldText (field : List UInt8) : Except Halt String := do
  let kept ← cutAtZero field.toArray
  return (Text.utf8? kept).getD ""

/-- Reads `count` sections from `start` on in the segment command `data`. -/
def readSections (width : Width) (data : Bytes) (offset start : Nat) :
    (count : Nat) → Except Halt (List Section)
  | 0 => .ok []
  | count + 1 => do
      match SectionEntry.decode? width data start with
      | none =>
          let place ← add offset start
          refuse (.parse place .shortSection)
      | some entry =>
          let name ← fieldText entry.name
          let next ← add start (SectionEntry.bytes width)
          let sections ← readSections width data offset next count
          return ⟨name, entry.address, entry.size⟩ :: sections

/-- Reads a segment command with its sections. -/
def readSegment (width : Width) (data : Bytes) (offset : Nat) :
    Except Halt Segment := do
  let fields ← require (.parse offset .shortSegmentCommand)
    (SegmentCommand.decode? width data)
  let declared := fields.sectionCount.toNat
  let behind ← subtract data.size (SegmentCommand.bytes width)
  let room := behind / SectionEntry.bytes width
  if declared ≤ room then
    let sections ← readSections width data offset (SegmentCommand.bytes width) declared
    let name ← fieldText fields.name
    return ⟨name, fields.address, fields.addressSize, fields.fileOffset,
      fields.fileSize, sections⟩
  else refuse (.parse offset (.sectionsDoNotFit declared room))

/-- The name in a command that names a library. A name that begins behind the end of the
command is empty. -/
def libraryName (command : DylibCommand) (data : Bytes) : Except Halt String :=
  if command.nameOffset.toNat ≤ data.size then do
    let kept ← cutAtZero (data.extract command.nameOffset.toNat data.size)
    return Text.lossy kept
  else .ok ""

/-- Reads the load command `data`, which lies at `offset` in the file. -/
def readCommand (number : UInt32) (data : Bytes) (offset : Nat) : Except Halt Command :=
  if number = segmentNumber .bits64 then
    (readSegment .bits64 data offset).map .segment
  else if number = segmentNumber .bits32 then
    (readSegment .bits32 data offset).map .segment
  else if number = 0x00000022 ∨ number = 0x80000022 then
    (require (.parse offset .shortDyldInfoCommand) (DyldInfo.decode? data)).map
      .dyldInfo
  else if number = 0x80000033 then
    (require (.parse offset .shortLinkeditCommand) (DataCommand.decode? data)).map
      .exportsTrie
  else if number = 0x80000034 then
    (require (.parse offset .shortLinkeditCommand) (DataCommand.decode? data)).map
      .chainedFixups
  else if isDependency number then do
    let command ← require (.parse offset .shortDylibCommand) (DylibCommand.decode? data)
    (libraryName command data).map .library
  else .ok (.other number)

/-- Reads `count` load commands from `offset` on. -/
def readCommands (data : Bytes) (limit offset : Nat) :
    (count : Nat) → Except Halt (List LoadCommand)
  | 0 => .ok []
  | count + 1 => do
      let start ← add offset commandStart
      if start > limit ∨ start > data.size then
        refuse (.loadCommandOverflow offset)
      else
        let behind ← part data offset data.size
        let number ← require (.parse offset .shortLoadCommand) (behind.word32? 0)
        let size ← require (.parse offset .shortLoadCommand) (behind.word32? 4)
        if size.toNat < commandStart then
          refuse (.loadCommandOverflow offset)
        else
          let stop ← add offset size.toNat
          if stop > data.size then
            refuse (.loadCommandOverflow offset)
          else
            let bytes ← part data offset stop
            let body ← readCommand number bytes offset
            let rest ← readCommands data limit stop count
            return ⟨offset, size.toNat, body⟩ :: rest

/-- Reads an image. -/
def parse (data : Bytes) : Except Halt Image := do
  let magic ← require (.bufferTooSmall 4 data.size) (data.word32? 0)
  match Magic.ofWord magic with
  | .fat => refuse .unsupportedFatFile
  | .unknown => refuse (.invalidMagic magic)
  | .thin width =>
      let header ← require (.bufferTooSmall (Header.size width) data.size)
        (Header.decode? width data)
      let limit ← add (Header.size width) header.commandSize.toNat
      let commands ← readCommands data limit (Header.size width)
        header.commandCount.toNat
      return ⟨data, width, header, commands⟩

/-! ## Tables -/

section Tables

variable (image : Image)

/-- The range of `size` bytes from `offset` on, if it lies in the file. -/
def fileRange (offset size : UInt32) : Except Halt Range := do
  let stop ← add offset.toNat size.toNat
  if stop > image.data.size then refuse (.bufferTooSmall stop image.data.size)
  else return ⟨offset.toNat, stop⟩

/-- The bytes of a range. -/
def bytesIn (range : Range) : Except Halt Bytes :=
  part image.data range.start range.stop

/-- The bind program of an image. -/
def bindOpcodes : Except Halt Bytes := do
  let info ← require (.missingLoadCommand "LC_DYLD_INFO") image.dyldInfo?
  let range ← fileRange image info.bindOffset info.bindSize
  bytesIn image range

/-- The range of the export trie, if the image has one. -/
def exportsRange? : Except Halt (Option Range) :=
  match image.exportsCommand?, image.dyldInfo? with
  | some command, _ => (fileRange image command.dataOffset command.dataSize).map some
  | none, some info =>
      if 0 < info.exportSize then
        (fileRange image info.exportOffset info.exportSize).map some
      else .ok none
  | none, none => .ok none

/-- The export trie of an image. -/
def exportsTrie : Except Halt Bytes := do
  match ← exportsRange? image with
  | some range => bytesIn image range
  | none => return #[]

/-- The bind program of an image with all that it is run on. -/
def bindProgram : Except Halt Bind.Program := do
  let opcodes ← bindOpcodes image
  return ⟨opcodes, image.libraries, image.segments, image.width, image.data⟩

end Tables

/-! ## No operation is trapped -/

section Operations

variable {data : Bytes} {left right start stop : Nat}

theorem add_eq (fits : left + right < 2 ^ 64) : add left right = .ok (left + right) :=
  if_pos fits

theorem subtract_eq (enough : right ≤ left) :
    subtract left right = .ok (left - right) :=
  if_pos enough

theorem part_eq (inOrder : start ≤ stop) (inFile : stop ≤ data.size) :
    part data start stop = .ok (data.extract start stop) := if_pos ⟨inOrder, inFile⟩

theorem require_eq {α : Type} (error : Error) (value? : Option α) :
    require error value? = (Image.require error value?).mapError .refused := by
  cases value? <;> rfl

theorem cutAtZero_eq (data : Bytes) :
    cutAtZero data = .ok (data.toList.takeWhile (· ≠ 0)) := by
  have inFile : (data.zeroFrom? 0).getD data.size ≤ data.size := by
    cases found : data.zeroFrom? 0 with
    | none => exact Nat.le_refl _
    | some stop => exact Nat.le_of_lt (Bytes.zeroFrom?_bounds found).2
  have kept : data.untilZero 0 = data.toList.takeWhile (· ≠ 0) := data.untilZero_eq 0
  rw [Bytes.untilZero, Bytes.slice] at kept
  rw [cutAtZero, part_eq (Nat.zero_le _) inFile, ok_bind, kept]
  rfl

theorem fieldText_eq (field : List UInt8) :
    fieldText field = .ok (Bytes.fieldText field) := by
  rw [fieldText, cutAtZero_eq]
  rfl

theorem libraryName_eq (command : DylibCommand) (data : Bytes) :
    libraryName command data = .ok (command.nameText data) := by
  rw [libraryName, DylibCommand.nameText, Bytes.untilZero_eq]
  split
  next inside =>
    have behind : (data.extract command.nameOffset.toNat data.size).toList =
        data.toList.drop command.nameOffset.toNat := by
      simp [List.extract_eq_take_drop]
    rw [cutAtZero_eq, behind]
    rfl
  next outside =>
    rw [List.drop_eq_nil_of_le (by rw [Array.length_toList]; omega)]
    rfl

end Operations

section Readers

variable {width : Width} {data : Bytes} {offset start limit count : Nat}

theorem readSections_eq {parts : List SectionEntry} (small : data.size < 2 ^ 63)
    (room : start + count * SectionEntry.bytes width ≤ data.size)
    (read : Image.readSections width data offset start count = .ok parts) :
    readSections width data offset start count =
      .ok (parts.map SectionEntry.toSection) := by
  induction count generalizing start parts with
  | zero =>
      cases read
      rfl
  | succ count ih =>
      rw [Nat.succ_mul] at room
      rw [Image.readSections] at read
      rcases bind_eq_ok.mp read with ⟨entry, decoded, read⟩
      rcases bind_eq_ok.mp read with ⟨rest, restRead, read⟩
      cases read
      rw [readSections, require_eq_ok.mp decoded]
      dsimp only
      rw [fieldText_eq, ok_bind, add_eq (by omega), ok_bind, ih (by omega) restRead,
        ok_bind]
      rfl

theorem readSegment_eq (small : data.size < 2 ^ 63) :
    readSegment width data offset =
      (Image.readSegment width data offset).mapError .refused := by
  cases decoded : SegmentCommand.decode? width data with
  | none => rw [readSegment, Image.readSegment, decoded, require_eq, Image.require]; rfl
  | some fields =>
      have whole : SegmentCommand.bytes width ≤ data.size :=
        SegmentCommand.isSome_decode?.mp (Option.isSome_of_mem decoded)
      rw [readSegment, decoded, require_eq, Image.require, mapError_ok, ok_bind]
      dsimp only
      rw [subtract_eq whole, ok_bind]
      by_cases fit : fields.sectionCount.toNat ≤
          (data.size - SegmentCommand.bytes width) / SectionEntry.bytes width
      · rcases readSegment_of_fit offset decoded fit with ⟨parts, partsRead, -, read⟩
        have room := Nat.mul_le_of_le_div _ _ _ fit
        rw [if_pos fit, readSections_eq small (by omega) partsRead, ok_bind,
          fieldText_eq, ok_bind, read]
        rfl
      · rw [if_neg fit, Image.readSegment, decoded, Image.require, ok_bind]
        dsimp only
        rw [if_neg fit]
        rfl

theorem readCommand_eq {number : UInt32} (small : data.size < 2 ^ 63) :
    readCommand number data offset =
      (Image.readCommand number data offset).mapError .refused := by
  have library : (do
      let command ← require (.parse offset .shortDylibCommand)
        (DylibCommand.decode? data)
      (libraryName command data).map Command.library) =
      ((Image.require (.parse offset .shortDylibCommand)
        (DylibCommand.decode? data)).map
        fun command => Command.library (command.nameText data)).mapError .refused := by
    rw [require_eq]
    cases DylibCommand.decode? data with
    | none => rfl
    | some command => rw [Image.require, mapError_ok, ok_bind, libraryName_eq]; rfl
  rw [readCommand, Image.readCommand, readSegment_eq small, readSegment_eq small,
    library, require_eq, require_eq]
  simp only [← map_mapError, apply_ite (Except.mapError Halt.refused), mapError_ok]

theorem word32?_extract (inFile : offset ≤ data.size) (place : Nat) :
    Bytes.word32? (data.extract offset data.size) place =
      data.word32? (offset + place) := by
  rw [Bytes.word32?, Bytes.word32?, Bytes.number?, Bytes.number?, Array.size_extract,
    Nat.min_self, Bytes.slice, Bytes.slice, Array.extract_extract]
  by_cases room : offset + place + 4 ≤ data.size
  · rw [if_pos room, if_pos (by omega), Nat.min_eq_left (by omega), Nat.add_assoc]
  · rw [if_neg room, if_neg (by omega)]

theorem readCommands_of_refused (small : data.size < 2 ^ 63)
    (inFile : offset ≤ data.size) (refused : Refused data limit offset) :
    readCommands data limit offset (count + 1) =
      refuse (.loadCommandOverflow offset) := by
  have wide : offset + commandStart < 2 ^ 64 := by
    rw [commandStart]
    omega
  rw [readCommands, add_eq wide, ok_bind]
  split
  next => rfl
  next begins =>
    rw [not_or, Nat.not_lt, Nat.not_lt] at begins
    rcases refused with before | behind | ⟨size, sizeRead, wrong⟩
    · exact absurd before (Nat.not_lt.mpr begins.1)
    · exact absurd behind (Nat.not_lt.mpr begins.2)
    have room : (data.word32? offset).isSome := by
      apply isSome_word32?.mpr
      rw [commandStart] at begins
      omega
    rcases Option.isSome_iff_exists.mp room with ⟨number, numberRead⟩
    rw [part_eq inFile (Nat.le_refl _), ok_bind, word32?_extract inFile,
      word32?_extract inFile, Nat.add_zero, numberRead, sizeRead, require, require,
      ok_bind, ok_bind]
    split
    next => rfl
    next sized =>
      -- Nothing is known of the size yet but that it is a 32-bit number.
      have sizeSmall : size.toNat < 2 ^ 32 := size.toNat_lt
      rw [add_eq (by omega), ok_bind, if_pos (wrong.resolve_left sized)]

theorem readCommands_of_announces (small : data.size < 2 ^ 63) {number size : UInt32}
    (announces : Announces data limit offset number size) :
    readCommands data limit offset (count + 1) = do
      let body ← readCommand number (data.extract offset (offset + size.toNat)) offset
      let rest ← readCommands data limit (offset + size.toNat) count
      return ⟨offset, size.toNat, body⟩ :: rest := by
  have start := announces.start_le_size
  have stop := announces.stop_le_size
  have inFile : offset ≤ data.size := Nat.le_of_add_right_le start
  have begins : ¬ (offset + commandStart > limit ∨ offset + commandStart > data.size) :=
    not_or.mpr ⟨Nat.not_lt.mpr announces.start_le_limit, Nat.not_lt.mpr start⟩
  rw [readCommands, add_eq (by omega), ok_bind, if_neg begins,
    part_eq inFile (Nat.le_refl _), ok_bind, word32?_extract inFile,
    word32?_extract inFile, Nat.add_zero, announces.number_eq, announces.size_eq,
    require, require, ok_bind, ok_bind,
    if_neg (Nat.not_lt.mpr announces.commandStart_le), add_eq (by omega), ok_bind,
    if_neg (Nat.not_lt.mpr stop), part_eq (Nat.le_add_right _ _) stop, ok_bind]

theorem readCommands_eq (small : data.size < 2 ^ 63) (inFile : offset ≤ data.size) :
    readCommands data limit offset count =
      (Image.readCommands data limit offset count).mapError .refused := by
  induction count generalizing offset with
  | zero => rfl
  | succ count ih =>
      rcases refused_or_announces data limit offset with
        refused | ⟨number, size, announces⟩
      · rw [readCommands_of_refused small inFile refused,
          Image.readCommands_of_refused refused]
        rfl
      · have smallCommand :
            Array.size (data.extract offset (offset + size.toNat)) < 2 ^ 63 := by
          rw [Array.size_extract]
          omega
        rw [readCommands_of_announces small announces,
          Image.readCommands_of_announces announces, readCommand_eq smallCommand,
          ih announces.stop_le_size, mapError_bind]
        simp only [mapError_bind]
        rfl

/-- No file traps the reader of images. -/
theorem parse_eq (small : data.size < 2 ^ 63) :
    parse data = (Image.parse data).mapError .refused := by
  rw [parse, Image.parse, require_eq, mapError_bind]
  congr 1
  funext magic
  cases Magic.ofWord magic with
  | fat => rfl
  | unknown => rfl
  | thin width =>
      dsimp only
      cases decoded : Header.decode? width data with
      | none => rfl
      | some header =>
          have inFile : Header.size width ≤ data.size :=
            Header.isSome_decode?.mp (Option.isSome_of_mem decoded)
          have areaSmall : header.commandSize.toNat < 2 ^ 32 :=
            header.commandSize.toNat_lt
          rw [require, ok_bind, add_eq (by omega), ok_bind,
            readCommands_eq small inFile, Image.require, ok_bind, mapError_bind]
          rfl

end Readers

section Tables

variable (image : Image)

theorem fileRange_eq (offset size : UInt32) :
    fileRange image offset size = (image.fileRange offset size).mapError .refused := by
  have offsetSmall : offset.toNat < 2 ^ 32 := offset.toNat_lt
  have sizeSmall : size.toNat < 2 ^ 32 := size.toNat_lt
  rw [fileRange, add_eq (by omega), ok_bind, Image.fileRange]
  split
  next outside =>
    rw [if_neg (Nat.not_le.mpr outside)]
    rfl
  next inside =>
    rw [if_pos (Nat.not_lt.mp inside)]
    rfl

theorem bytesIn_eq {range : Range} (inFile : range.InFile image.data) :
    bytesIn image range = .ok (image.bytesIn range) :=
  part_eq inFile.start_le_stop inFile.stop_le_size

theorem bindOpcodes_eq :
    bindOpcodes image = image.bindOpcodes.mapError .refused := by
  rw [bindOpcodes, Image.bindOpcodes]
  cases image.dyldInfo? with
  | none => rfl
  | some info =>
      rw [require, ok_bind, fileRange_eq]
      dsimp only
      cases found : image.fileRange info.bindOffset info.bindSize with
      | error error => rfl
      | ok range => exact bytesIn_eq image (inFile_of_fileRange found)

theorem exportsRange?_eq :
    exportsRange? image = image.exportsRange?.mapError .refused := by
  rw [exportsRange?, Image.exportsRange?]
  cases image.exportsCommand? with
  | some command => simp only [fileRange_eq, map_mapError]
  | none =>
      cases image.dyldInfo? with
      | none => rfl
      | some info =>
          simp only [fileRange_eq, ← map_mapError,
            apply_ite (Except.mapError Halt.refused), mapError_ok]

theorem exportsTrie_eq : exportsTrie image = image.exportsTrie.mapError .refused := by
  rw [exportsTrie, exportsRange?_eq, Image.exportsTrie]
  cases located : image.exportsRange? with
  | error error => rfl
  | ok range? =>
      cases range? with
      | none => rfl
      | some range => exact bytesIn_eq image (slot_spec located).1

theorem bindProgram_eq : bindProgram image = image.bindProgram.mapError .refused := by
  rw [bindProgram, bindOpcodes_eq, Image.bindProgram]
  cases image.bindOpcodes <;> rfl

end Tables

end Checked

end Linkedit.Image
