import Linkedit.Proofs.Image.Layout
import Linkedit.Proofs.Image.Locality

/-!
# The area of the load commands

Behind the header lies the area that it announces for the load commands. The commands of
an accepted image follow one another from the end of the header without gaps. Each
begins in the area, and lies in the file as a whole; hence each but the last lies in the
area as a whole. The last one may reach past the end of the area.
-/

namespace Linkedit.Image

variable {data : Bytes} {width : Width} {offset stop limit count place : Nat}
variable {commands : List LoadCommand} {error : Error}

/-! ## Errors of a single command -/

theorem require_eq_error {α : Type} {cause : Error} {value? : Option α} :
    require cause value? = .error error ↔ value? = none ∧ cause = error := by
  cases value? <;> simp [require]

/-- Where there is room for all sections, all are read. -/
theorem exists_readSections_of_room (offset : Nat) {start : Nat}
    (room : start + count * SectionEntry.bytes width ≤ data.size) :
    ∃ parts, readSections width data offset start count = .ok parts ∧
      parts.length = count := by
  induction count generalizing start with
  | zero => exact ⟨[], rfl, rfl⟩
  | succ count ih =>
      rw [Nat.succ_mul] at room
      have first : (SectionEntry.decode? width data start).isSome :=
        SectionEntry.isSome_decode?.mpr (by omega)
      rcases Option.isSome_iff_exists.mp first with ⟨part, decoded⟩
      have behind :
          start + SectionEntry.bytes width + count * SectionEntry.bytes width ≤
            data.size := by omega
      rcases ih behind with ⟨parts, read, length_eq⟩
      refine ⟨part :: parts, ?_, congrArg (· + 1) length_eq⟩
      rw [readSections, decoded, require, ok_bind, read, ok_bind]
      rfl

/-- What can be wrong with a load command whose number and size are read. Its sections
are not among it: they are read only if there is room for them. -/
inductive CommandFault : ParseFault → Prop where
  | shortSegmentCommand : CommandFault .shortSegmentCommand
  | sectionsDoNotFit {declared room : Nat} (beyond : room < declared) :
      CommandFault (.sectionsDoNotFit declared room)
  | shortDyldInfoCommand : CommandFault .shortDyldInfoCommand
  | shortLinkeditCommand : CommandFault .shortLinkeditCommand
  | shortDylibCommand : CommandFault .shortDylibCommand

/-- If its sections fit in a segment command, it is read with as many as it declares. -/
theorem readSegment_of_fit (offset : Nat) {fields : SegmentCommand}
    (decoded : SegmentCommand.decode? width data = some fields)
    (fit : fields.sectionCount.toNat ≤
      (data.size - SegmentCommand.bytes width) / SectionEntry.bytes width) :
    ∃ parts, readSections width data offset (SegmentCommand.bytes width)
        fields.sectionCount.toNat = .ok parts ∧
      parts.length = fields.sectionCount.toNat ∧
      readSegment width data offset = .ok (fields.toSegment parts) := by
  have whole : SegmentCommand.bytes width ≤ data.size :=
    SegmentCommand.isSome_decode?.mp (Option.isSome_of_mem decoded)
  have following := Nat.mul_le_of_le_div _ _ _ fit
  have room :
      SegmentCommand.bytes width +
        fields.sectionCount.toNat * SectionEntry.bytes width ≤
      data.size := by omega
  rcases exists_readSections_of_room offset room with ⟨parts, read, length_eq⟩
  exact ⟨parts, read, length_eq,
    readSegment_eq_ok.mpr ⟨fields, parts, decoded, fit, read, rfl⟩⟩

theorem readSegment_eq_error (failed : readSegment width data offset = .error error) :
    ∃ fault, CommandFault fault ∧ error = .parse offset fault := by
  cases decoded : SegmentCommand.decode? width data with
  | none =>
      rw [readSegment, decoded, require, error_bind] at failed
      cases failed
      exact ⟨_, .shortSegmentCommand, rfl⟩
  | some fields =>
      by_cases fit : fields.sectionCount.toNat ≤
          (data.size - SegmentCommand.bytes width) / SectionEntry.bytes width
      · rcases readSegment_of_fit offset decoded fit with ⟨parts, -, -, read⟩
        cases read.symm.trans failed
      · rw [readSegment, decoded, require, ok_bind] at failed
        dsimp only at failed
        rw [if_neg fit] at failed
        cases failed
        exact ⟨_, .sectionsDoNotFit (Nat.not_le.mp fit), rfl⟩

/-- What reading a load command comes to, by the kind of the command. -/
inductive CommandOutcome (data : Bytes) (offset : Nat) :
    Except Error Command → Prop where
  | segment {width : Width} :
      CommandOutcome data offset ((readSegment width data offset).map .segment)
  | dyldInfo :
      CommandOutcome data offset
        ((require (.parse offset .shortDyldInfoCommand) (DyldInfo.decode? data)).map
          .dyldInfo)
  | dataCommand {content : DataCommand → Command}
      (kind : content = .exportsTrie ∨ content = .chainedFixups) :
      CommandOutcome data offset
        ((require (.parse offset .shortLinkeditCommand) (DataCommand.decode? data)).map
          content)
  | library :
      CommandOutcome data offset
        ((require (.parse offset .shortDylibCommand) (DylibCommand.decode? data)).map
          fun command => .library (command.nameText data))
  | other {number : UInt32} : CommandOutcome data offset (.ok (.other number))

theorem commandOutcome_readCommand (number : UInt32) (data : Bytes) (offset : Nat) :
    CommandOutcome data offset (readCommand number data offset) := by
  rw [readCommand]
  split
  · exact .segment
  split
  · exact .segment
  split
  · exact .dyldInfo
  split
  · exact .dataCommand (.inl rfl)
  split
  · exact .dataCommand (.inr rfl)
  split
  · exact .library
  · exact .other

theorem CommandOutcome.exists_fault {attempt : Except Error Command}
    (outcome : CommandOutcome data offset attempt) (failed : attempt = .error error) :
    ∃ fault, CommandFault fault ∧ error = .parse offset fault := by
  cases outcome with
  | segment => exact readSegment_eq_error (map_eq_error.mp failed)
  | dyldInfo =>
      exact ⟨_, .shortDyldInfoCommand,
        (require_eq_error.mp (map_eq_error.mp failed)).2.symm⟩
  | dataCommand =>
      exact ⟨_, .shortLinkeditCommand,
        (require_eq_error.mp (map_eq_error.mp failed)).2.symm⟩
  | library =>
      exact ⟨_, .shortDylibCommand,
        (require_eq_error.mp (map_eq_error.mp failed)).2.symm⟩
  | other => cases failed

theorem readCommand_eq_error {number : UInt32}
    (failed : readCommand number data offset = .error error) :
    ∃ fault, CommandFault fault ∧ error = .parse offset fault :=
  (commandOutcome_readCommand number data offset).exists_fault failed

/-! ## Where the commands lie -/

/-- Load commands follow one another without gaps, from one place to another. -/
inductive Consecutive : Nat → List LoadCommand → Nat → Prop where
  | nil {place : Nat} : Consecutive place [] place
  | cons {place : Nat} {command : LoadCommand} {rest : List LoadCommand} {stop : Nat}
      (begins : command.offset = place)
      (following : Consecutive command.range.stop rest stop) :
      Consecutive place (command :: rest) stop

/-- A load command is what the bytes say where it lies. Its number and size lie before
`limit`. -/
structure LoadCommand.ReadFrom (data : Bytes) (limit : Nat) (command : LoadCommand) :
    Prop where
  announced : ∃ number size, Announces data limit command.offset number size ∧
    size.toNat = command.size ∧
    readCommand number (data.extract command.offset command.range.stop) command.offset =
      .ok command.body

theorem LoadCommand.ReadFrom.bounds {command : LoadCommand}
    (read : command.ReadFrom data limit) :
    commandStart ≤ command.size ∧ command.offset + commandStart ≤ limit ∧
      command.range.stop ≤ data.size := by
  rcases read.announced with ⟨number, size, announces, size_eq, -⟩
  rw [LoadCommand.range, ← size_eq]
  exact ⟨announces.commandStart_le, announces.start_le_limit, announces.stop_le_size⟩

/-- Reading load commands finds those that lie one behind the other. -/
theorem readCommands_eq_ok :
    readCommands data limit offset count = .ok commands ↔
      commands.length = count ∧ (∃ stop, Consecutive offset commands stop) ∧
        ∀ command ∈ commands, command.ReadFrom data limit := by
  induction count generalizing offset commands with
  | zero =>
      rw [readCommands, Except.ok.injEq, List.length_eq_zero_iff]
      constructor
      · rintro rfl
        exact ⟨rfl, ⟨offset, .nil⟩, List.forall_mem_nil _⟩
      · rintro ⟨rfl, -⟩
        rfl
  | succ count ih =>
      rw [readCommands_succ_eq_ok]
      constructor
      · rintro ⟨number, size, body, rest, announces, bodyRead, restRead, rfl⟩
        rcases ih.mp restRead with ⟨length_eq, ⟨stop, following⟩, restFrom⟩
        refine ⟨congrArg (· + 1) length_eq, ⟨stop, .cons rfl following⟩, ?_⟩
        exact List.forall_mem_cons.mpr
          ⟨⟨number, size, announces, rfl, bodyRead⟩, restFrom⟩
      · rintro ⟨length_eq, ⟨stop, consecutive⟩, readFrom⟩
        cases consecutive with
        | nil => cases length_eq
        | @cons _ command rest stop begins following =>
            cases begins
            rcases List.forall_mem_cons.mp readFrom with
                ⟨⟨number, size, announces, size_eq, bodyRead⟩, restFrom⟩
            have restRead :=
              ih.mpr ⟨Nat.succ.inj length_eq, ⟨stop, following⟩, restFrom⟩
            rw [LoadCommand.range, ← size_eq] at bodyRead restRead
            refine ⟨number, size, command.body, rest, announces, bodyRead, restRead, ?_⟩
            rw [size_eq]

/-- Of commands that follow one another, each but the last ends where another begins. -/
theorem Consecutive.exists_next {command : LoadCommand}
    (consecutive : Consecutive offset commands stop)
    (notLast : command ∈ commands.dropLast) :
    ∃ next ∈ commands, next.offset = command.range.stop := by
  induction consecutive with
  | nil => cases notLast
  | @cons place first rest stop begins following ih =>
      cases following with
      | nil => cases notLast
      | @cons _ second rest stop secondBegins behind =>
          rw [List.dropLast_cons_cons, List.mem_cons] at notLast
          rcases notLast with rfl | notLast
          · exact ⟨second, by simp, secondBegins⟩
          · rcases ih notLast with ⟨next, member, begins⟩
            exact ⟨next, List.mem_cons_of_mem _ member, begins⟩

/-! ## Where the commands do not get through -/

/-- A load command is refused for its place or its size: its number and size do not lie
before `limit` or not in the file, or the size is too small for them or too large for
the file. -/
def Refused (data : Bytes) (limit place : Nat) : Prop :=
  limit < place + commandStart ∨ data.size < place + commandStart ∨
    ∃ size, data.word32? (place + 4) = some size ∧
      (size.toNat < commandStart ∨ data.size < place + size.toNat)

theorem refused_or_announces (data : Bytes) (limit offset : Nat) :
    Refused data limit offset ∨ ∃ number size,
      Announces data limit offset number size := by
  by_cases inside : offset + commandStart ≤ limit ∧ offset + commandStart ≤ data.size
  · have room := inside.2
    rw [commandStart] at room
    have numberRead : (data.word32? offset).isSome := isSome_word32?.mpr (by omega)
    have sizeRead : (data.word32? (offset + 4)).isSome := isSome_word32?.mpr (by omega)
    rcases Option.isSome_iff_exists.mp numberRead with ⟨number, number_eq⟩
    rcases Option.isSome_iff_exists.mp sizeRead with ⟨size, size_eq⟩
    by_cases sized : commandStart ≤ size.toNat ∧ offset + size.toNat ≤ data.size
    · exact .inr ⟨number, size, inside.1, inside.2, number_eq, size_eq,
        sized.1, sized.2⟩
    · exact .inl (.inr (.inr ⟨size, size_eq, by omega⟩))
  · rw [Refused]
    omega

theorem Announces.not_refused {number size : UInt32}
    (announces : Announces data limit offset number size) :
    ¬ Refused data limit offset := by
  rintro (before | behind | ⟨other, read, tooSmall | tooLarge⟩)
  · exact Nat.not_lt.mpr announces.start_le_limit before
  · exact Nat.not_lt.mpr announces.start_le_size behind
  · cases read.symm.trans announces.size_eq
    exact Nat.not_lt.mpr announces.commandStart_le tooSmall
  · cases read.symm.trans announces.size_eq
    exact Nat.not_lt.mpr announces.stop_le_size tooLarge

theorem readCommands_of_refused (refused : Refused data limit offset) :
    readCommands data limit offset (count + 1) =
      .error (.loadCommandOverflow offset) := by
  rw [readCommands]
  split
  next => rfl
  next announced =>
    rw [not_or, Nat.not_lt, Nat.not_lt] at announced
    rcases refused with before | behind | ⟨size, sizeRead, wrong⟩
    · exact absurd before (Nat.not_lt.mpr announced.1)
    · exact absurd behind (Nat.not_lt.mpr announced.2)
    · have room := announced.2
      rw [commandStart] at room
      have numberRead : (data.word32? offset).isSome := isSome_word32?.mpr (by omega)
      rcases Option.isSome_iff_exists.mp numberRead with ⟨number, number_eq⟩
      rw [number_eq, sizeRead, require, require]
      dsimp only [ok_bind]
      rw [if_pos wrong]
      rfl

/-- Reading load commands fails at the first one: it is refused, or there is something
wrong with it. Otherwise it fails behind the first one. -/
theorem readCommands_succ_eq_error :
    readCommands data limit offset (count + 1) = .error error ↔
      (Refused data limit offset ∧ error = .loadCommandOverflow offset) ∨
        ∃ number size, Announces data limit offset number size ∧
          (readCommand number (data.extract offset (offset + size.toNat)) offset =
            .error error ∨
            ∃ body,
                readCommand number (data.extract offset (offset + size.toNat)) offset =
                  .ok body ∧
              readCommands data limit (offset + size.toNat) count = .error error) := by
  rcases refused_or_announces data limit offset with refused | ⟨number, size, announces⟩
  · rw [readCommands_of_refused refused, Except.error.injEq]
    constructor
    · rintro rfl
      exact .inl ⟨refused, rfl⟩
    · rintro (⟨-, rfl⟩ | ⟨number, size, announces, -⟩)
      · rfl
      · exact absurd refused announces.not_refused
  · rw [readCommands_of_announces announces, bind_eq_error]
    constructor
    · rintro (failed | ⟨body, bodyRead, failed⟩)
      · exact .inr ⟨number, size, announces, .inl failed⟩
      · refine .inr ⟨number, size, announces, .inr ⟨body, bodyRead, ?_⟩⟩
        rcases bind_eq_error.mp failed with failed | ⟨rest, -, done⟩
        · exact failed
        · cases done
    · rintro (⟨refused, -⟩ | ⟨otherNumber, otherSize, other, failed⟩)
      · exact absurd refused announces.not_refused
      · cases other.number_eq.symm.trans announces.number_eq
        cases other.size_eq.symm.trans announces.size_eq
        rcases failed with failed | ⟨body, bodyRead, failed⟩
        · exact .inl failed
        · exact .inr ⟨body, bodyRead, bind_eq_error.mpr (.inl failed)⟩

/-- Behind some load commands that are read lies one that is refused. -/
structure RefusedBehind (data : Bytes) (limit offset place : Nat)
    (before : List LoadCommand) :
    Prop where
  consecutive : Consecutive offset before place
  readFrom : ∀ command ∈ before, command.ReadFrom data limit
  refused : Refused data limit place

theorem readCommands_eq_overflow :
    readCommands data limit offset count = .error (.loadCommandOverflow place) ↔
      ∃ before, before.length < count ∧
        RefusedBehind data limit offset place before := by
  induction count generalizing offset with
  | zero =>
      constructor
      · intro failed
        cases failed
      · rintro ⟨before, short, -⟩
        cases short
  | succ count ih =>
      rw [readCommands_succ_eq_error]
      constructor
      · rintro (⟨refused, same⟩ | ⟨number, size, announces,
          failed | ⟨body, bodyRead, failed⟩⟩)
        · cases same
          exact ⟨[], Nat.succ_pos _, .nil, List.forall_mem_nil _, refused⟩
        · rcases readCommand_eq_error failed with ⟨fault, -, same⟩
          cases same
        · rcases ih.mp failed with ⟨before, short, consecutive, readFrom, refused⟩
          let first : LoadCommand := ⟨offset, size.toNat, body⟩
          have firstFrom : first.ReadFrom data limit :=
            ⟨number, size, announces, rfl, bodyRead⟩
          exact ⟨first :: before, Nat.succ_lt_succ short, .cons rfl consecutive,
            List.forall_mem_cons.mpr ⟨firstFrom, readFrom⟩, refused⟩
      · rintro ⟨before, short, consecutive, readFrom, refused⟩
        cases consecutive with
        | nil => exact .inl ⟨refused, rfl⟩
        | @cons _ command rest stop begins following =>
            cases begins
            rcases List.forall_mem_cons.mp readFrom with
                ⟨⟨number, size, announces, size_eq, bodyRead⟩, restFrom⟩
            rw [LoadCommand.range, ← size_eq] at bodyRead following
            refine .inr ⟨number, size, announces,
              .inr ⟨command.body, bodyRead, ih.mpr ?_⟩⟩
            exact ⟨rest, Nat.lt_of_succ_lt_succ short, following, restFrom, refused⟩

/-! ## Whole images -/

/-- The area that a header announces for the load commands. -/
def Header.commandArea (width : Width) (header : Header) : Range :=
  ⟨size width, size width + header.commandSize.toNat⟩

/-- A file begins with the header of an image. -/
structure Opens (data : Bytes) (width : Width) (header : Header) : Prop where
  thin : ∃ magic, data.word32? 0 = some magic ∧ Magic.ofWord magic = .thin width
  header_eq : Header.decode? width data = some header

theorem parse_of_opens {header : Header} (opens : Opens data width header) :
    parse data = (readCommands data (header.commandArea width).stop (Header.size width)
      header.commandCount.toNat).map fun commands =>
        ⟨data, width, header, commands⟩ := by
  rcases opens.thin with ⟨magic, magicRead, thin⟩
  rw [parse, magicRead, require, ok_bind, thin]
  dsimp only
  rw [opens.header_eq, require, ok_bind, Header.commandArea]
  cases readCommands data (Header.size width + header.commandSize.toNat)
    (Header.size width) header.commandCount.toNat <;> rfl

/-- Why a file does not begin with the header of an image. -/
inductive HeaderFault (data : Bytes) : Error → Prop where
  | bufferTooSmall {needed : Nat} (short : data.size < needed) :
      HeaderFault data (.bufferTooSmall needed data.size)
  | unsupportedFatFile : HeaderFault data .unsupportedFatFile
  | invalidMagic {magic : UInt32} : HeaderFault data (.invalidMagic magic)

theorem opens_or_parse_eq_error (data : Bytes) :
    (∃ width header, Opens data width header) ∨
      ∃ error, parse data = .error error ∧ HeaderFault data error := by
  cases magicRead : data.word32? 0 with
  | none =>
      have short : data.size < 4 := by
        rw [← Nat.not_le, ← Nat.zero_add 4, ← isSome_word32?, magicRead]
        exact Bool.false_ne_true
      exact .inr ⟨_, by rw [parse, magicRead, require, error_bind],
        .bufferTooSmall short⟩
  | some magic =>
      cases kind : Magic.ofWord magic with
      | fat =>
          refine .inr ⟨_, ?_, .unsupportedFatFile⟩
          rw [parse, magicRead, require, ok_bind, kind]
          rfl
      | unknown =>
          refine .inr ⟨.invalidMagic magic, ?_, .invalidMagic⟩
          rw [parse, magicRead, require, ok_bind, kind]
          rfl
      | thin width =>
          cases headerRead : Header.decode? width data with
          | none =>
              have short : data.size < Header.size width := by
                rw [← Nat.not_le, ← Header.isSome_decode?, headerRead]
                exact Bool.false_ne_true
              refine .inr ⟨_, ?_, .bufferTooSmall short⟩
              rw [parse, magicRead, require, ok_bind, kind]
              dsimp only
              rw [headerRead, require, error_bind]
          | some header =>
              exact .inl ⟨width, header, ⟨magic, magicRead, kind⟩, headerRead⟩

theorem parse_eq_ok_iff_opens {image : Image} :
    parse data = .ok image ↔ Opens data image.width image.header ∧
      readCommands data (image.header.commandArea image.width).stop
        (Header.size image.width)
        image.header.commandCount.toNat = .ok image.commands ∧ image.data = data := by
  rw [parse_eq_ok]
  constructor
  · rintro ⟨magic, magicRead, thin, headerRead, commandsRead, same⟩
    exact ⟨⟨⟨magic, magicRead, thin⟩, headerRead⟩, commandsRead, same⟩
  · rintro ⟨⟨⟨magic, magicRead, thin⟩, headerRead⟩, commandsRead, same⟩
    exact ⟨magic, magicRead, thin, headerRead, commandsRead, same⟩

/-- The load commands of an image are as many as the header says. They follow one
another from the end of the header, each begins in the area of the commands and lies in
the file, and each but the last lies in the area. An image is refused because of the
place or the size of a command exactly if these are wrong behind the commands that are
read. -/
theorem parse_within_area (data : Bytes) :
    (∀ image, parse data = .ok image →
      image.commands.length = image.header.commandCount.toNat ∧
      (∃ stop, Consecutive (Header.size image.width) image.commands stop) ∧
      (∀ command ∈ image.commands,
        command.ReadFrom data (image.header.commandArea image.width).stop ∧
        commandStart ≤ command.size ∧ command.range.stop ≤ data.size ∧
        command.offset + commandStart ≤ (image.header.commandArea image.width).stop) ∧
      ∀ command ∈ image.commands.dropLast,
        command.range.stop ≤ (image.header.commandArea image.width).stop) ∧
    ∀ place, parse data = .error (.loadCommandOverflow place) ↔
      ∃ width header before, Opens data width header ∧
        before.length < header.commandCount.toNat ∧
        RefusedBehind data (header.commandArea width).stop (Header.size width)
          place before := by
  constructor
  · intro image parsed
    rcases parse_eq_ok_iff_opens.mp parsed with ⟨-, read, -⟩
    rcases readCommands_eq_ok.mp read with ⟨length_eq, ⟨stop, consecutive⟩, readFrom⟩
    refine ⟨length_eq, ⟨stop, consecutive⟩, ?each, ?notLast⟩
    case each =>
      intro command member
      rcases (readFrom command member).bounds with ⟨sized, begins, inFile⟩
      exact ⟨readFrom command member, sized, inFile, begins⟩
    case notLast =>
      intro command member
      -- A command ends where the next one begins, and that one begins in the area.
      rcases consecutive.exists_next member with ⟨next, nextMember, begins⟩
      rw [← begins]
      exact Nat.le_of_add_right_le (readFrom next nextMember).bounds.2.1
  · intro place
    constructor
    · intro refused
      rcases opens_or_parse_eq_error data with
        ⟨width, header, opens⟩ | ⟨error, failed, fault⟩
      · rw [parse_of_opens opens, map_eq_error, readCommands_eq_overflow] at refused
        rcases refused with ⟨before, short, behind⟩
        exact ⟨width, header, before, opens, short, behind⟩
      · cases failed.symm.trans refused
        cases fault
    · rintro ⟨width, header, before, opens, short, behind⟩
      rw [parse_of_opens opens, map_eq_error, readCommands_eq_overflow]
      exact ⟨before, short, behind⟩

/-- An image whose header announces eight bytes for a command that has sixteen. -/
def overrunImage : Bytes :=
  (Header.encode .bits64 { Header.empty with commandCount := 1, commandSize := 8 } ++
    DataCommand.empty.encode).toArray

/-- An image whose header announces a command more than there is. -/
def missingCommandImage : Bytes :=
  (Header.encode .bits64 { Header.empty with commandCount := 2, commandSize := 16 } ++
    DataCommand.empty.encode).toArray

theorem parse_within_area_overrun :
    (∃ image, parse overrunImage = .ok image ∧ image.commands.length = 1 ∧
      ∃ stop, Consecutive 32 image.commands stop) ∧
    parse missingCommandImage = .error (.loadCommandOverflow 48) := by
  constructor
  · let image : Image :=
      ⟨overrunImage, .bits64, { Header.empty with commandCount := 1, commandSize := 8 },
        [⟨32, 16, .exportsTrie DataCommand.empty⟩]⟩
    have parsed : parse overrunImage = .ok image := by decide +kernel
    rcases (parse_within_area overrunImage).1 image parsed with
      ⟨length_eq, consecutive, -⟩
    exact ⟨image, parsed, length_eq, consecutive⟩
  · let first : LoadCommand := ⟨32, 16, .exportsTrie DataCommand.empty⟩
    have announces : Announces missingCommandImage 48 32 0x80000033 16 :=
      ⟨by decide, by decide +kernel, by decide +kernel, by decide +kernel, by decide,
        by decide +kernel⟩
    have read : first.ReadFrom missingCommandImage 48 :=
      ⟨_, _, announces, rfl, by decide +kernel⟩
    have opens : Opens missingCommandImage .bits64
        { Header.empty with commandCount := 2, commandSize := 16 } :=
      ⟨⟨0xFEEDFACF, by decide +kernel, rfl⟩, by decide +kernel⟩
    apply ((parse_within_area missingCommandImage).2 48).mpr
    exact ⟨_, _, [first], opens, by decide, .cons rfl .nil,
      List.forall_mem_singleton.mpr read, .inl (by decide)⟩

/-- The last load command of an image can reach past the area that the header
announces. -/
theorem last_command_past_area :
    ∃ image command, parse overrunImage = .ok image ∧ command ∈ image.commands ∧
      (image.header.commandArea image.width).stop < command.range.stop := by
  refine ⟨⟨overrunImage, .bits64,
    { Header.empty with commandCount := 1, commandSize := 8 },
    [⟨32, 16, .exportsTrie DataCommand.empty⟩]⟩,
      ⟨32, 16, .exportsTrie DataCommand.empty⟩, ?_,
    List.mem_singleton_self _, by decide⟩
  decide +kernel

end Linkedit.Image
