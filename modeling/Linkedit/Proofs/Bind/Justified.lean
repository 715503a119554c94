import Linkedit.Proofs.Bind.Events
import Linkedit.Proofs.Bind.Sound

/-!
# What stands behind a record

Every slot that is bound lies in its segment and has a target from the registers or
from the ordinal table. A slot of a pointer chain also lies in the file, where it holds
the pointer that asked for the bind.
-/

namespace Linkedit

/-- An address lies in a section if it is neither before its start nor behind its
end. -/
theorem Section.contains_iff {part : Section} {address : UInt64} :
    part.contains address = true ↔ part.address.toNat ≤ address.toNat ∧
      address.toNat < part.address.toNat + part.size.toNat := by
  simp only [Section.contains, Bool.and_eq_true, decide_eq_true_eq]
  apply and_congr_right
  intro behind
  have distance : (address - part.address).toNat = address.toNat - part.address.toNat :=
    UInt64.toNat_sub_of_le address part.address behind
  rw [UInt64.le_iff_toNat_le] at behind
  rw [UInt64.lt_iff_toNat_lt, distance]
  omega

namespace Bind

variable {program : Program} {symbols : List Symbol} {registers : Registers}

/-- The file holds a chain pointer in a slot, and the pointer asks for a bind. -/
structure Slot.HoldsPointer (program : Program) (slot : Slot) (raw : UInt64) :
    Prop where
  width : program.width = .bits64
  word : program.image.word64? (slot.segment.fileOffset.toNat + slot.offset.toNat) =
    some raw
  inContent : slot.offset.toNat + 8 ≤ slot.segment.fileSize.toNat
  isBind : raw.toNat.testBit 62 = true

/-- What stands behind a bound slot after these symbols were set. -/
structure Slot.Justified (program : Program) (symbols : List Symbol) (slot : Slot) :
    Prop where
  segment : program.segments[slot.segmentIndex]? = some slot.segment
  inside : slot.offset < slot.segment.size
  target : slot.target.Sound program.libraries.length symbols
  value : ∀ raw ∈ slot.value, slot.HoldsPointer program raw

/-! ## Single binds and runs -/

/-- A slot of a run is as justified as the first one, as long as it does not leave the
segment. -/
theorem Slot.Justified.advance {slot : Slot}
    (justified : slot.Justified program symbols) (plain : slot.value = none)
    {distance : Nat} (inside : slot.offset.toNat + distance < slot.segment.size.toNat) :
    (slot.advance distance).Justified program symbols where
  segment := justified.segment
  inside := by
    have bound := slot.segment.size.toNat_lt
    rw [Slot.advance, UInt64.lt_iff_toNat_lt, UInt64.toNat_add, UInt64.toNat_ofNat']
    dsimp only
    omega
  target := justified.target
  value raw held := by
    rw [Slot.advance, plain] at held
    cases held

/-- The slots of a bind instruction. -/
theorem justified_of_bindRun (sound : registers.Sound program.libraries.length symbols)
    {count stride : Nat} {events : List Event}
    (bound : bindRun program registers count stride = .ok events) :
    ∀ event ∈ events, ∀ slot ∈ event.slots, slot.Justified program symbols := by
  rcases bindRun_eq_ok bound with ⟨index, segment, target, located, held, cases⟩
  rcases locate_eq_ok located with ⟨isSegment, inside⟩
  have first : Slot.Justified program symbols
      ⟨index, segment, registers.offset, target, none⟩ :=
    ⟨isSegment, inside, sound.target held, by simp⟩
  rcases cases with rfl | rfl | ⟨rfl, room⟩
  · simp
  · simpa [Event.slots] using first
  · intro event member slot isSlot
    cases List.mem_singleton.mp member
    rcases List.mem_map.mp isSlot with ⟨place, inRun, rfl⟩
    apply first.advance rfl
    apply Nat.lt_of_le_of_lt ?_ room
    have last : place ≤ count - 1 := Nat.le_sub_one_of_lt (List.mem_range.mp inRun)
    apply Nat.add_le_add_left
    exact Nat.mul_le_mul_right stride last

/-! ## Pointer chains -/

theorem isBind_eq_testBit (pointer : ChainPointer) :
    pointer.isBind = pointer.raw.toNat.testBit 62 := by
  simp [ChainPointer.isBind, ChainPointer.bits, Nat.shiftRight_eq_div_pow,
    Nat.testBit_eq_decide_div_mod_eq]

/-- The slot of a chain link. -/
theorem justified_of_linkEvents {index offset : Nat} {segment : Segment}
    {entries : Array Target} {pointer : ChainPointer}
    (isSegment : program.segments[index]? = some segment)
    (inside : offset < segment.size.toNat)
    (sound : ∀ target ∈ entries, target.Sound program.libraries.length symbols)
    (width : program.width = .bits64)
    (word : program.image.word64? (segment.fileOffset.toNat + offset) =
      some pointer.raw)
    (inContent : offset + 8 ≤ segment.fileSize.toNat) :
    ∀ event ∈ linkEvents index segment entries offset pointer, ∀ slot ∈ event.slots,
      slot.Justified program symbols := by
  have number : (UInt64.ofNat offset).toNat = offset :=
    UInt64.toNat_ofNat_of_lt' (Nat.lt_trans inside segment.size.toNat_lt)
  intro event member slot isSlot
  rcases mem_linkEvents member with ⟨problem, rfl⟩ | ⟨target, isTarget, isBind, rfl⟩
  · cases isSlot
  · cases List.mem_singleton.mp isSlot
    constructor
    case segment => exact isSegment
    case inside =>
      change UInt64.ofNat offset < segment.size
      rwa [UInt64.lt_iff_toNat_lt, number]
    case target => exact sound target (Array.mem_of_getElem? isTarget)
    case value =>
      intro raw held
      cases held
      constructor
      case width => exact width
      case word =>
        dsimp only
        rwa [number]
      case inContent =>
        dsimp only
        rwa [number]
      case isBind => exact (isBind_eq_testBit pointer).symm.trans isBind

theorem word64?_bounds {data : Bytes} {offset : Nat} {word : UInt64}
    (read : data.word64? offset = some word) : offset + 8 ≤ data.size := by
  rw [Bytes.word64?, Bytes.number?] at read
  split at read
  next inBounds => exact inBounds
  next => cases read

/-- The slots of a pointer chain. Offsets that are cut off at the last 64-bit number lie
behind the end of any image. -/
theorem justified_of_walkChain (small : program.image.size < 2 ^ 64) {index : Nat}
    {segment : Segment} {entries : Array Target}
    (isSegment : program.segments[index]? = some segment)
    (sound : ∀ target ∈ entries, target.Sound program.libraries.length symbols)
    (width : program.width = .bits64) {offset : Nat}
    (inside : offset < segment.size.toNat) :
    ∀ event ∈ walkChain program index segment entries offset, ∀ slot ∈ event.slots,
      slot.Justified program symbols := by
  intro event member
  apply forall_mem_walkChain ?problem ?link inside event member
  case problem => simp [Event.slots]
  case link =>
    intro offset raw inside content word
    have inImage := word64?_bounds word
    have inContent : offset + 8 ≤ segment.fileSize.toNat := by
      simp only [chainOffset, chainStride, UInt64.size] at content
      omega
    exact justified_of_linkEvents isSegment inside sound width word inContent

/-- The slots of applying a pointer chain. -/
theorem justified_of_applyChain (small : program.image.size < 2 ^ 64)
    (sound : registers.Sound program.libraries.length symbols) {events : List Event}
    (applied : applyChain program registers = .ok events) :
    ∀ event ∈ events, ∀ slot ∈ event.slots, slot.Justified program symbols := by
  rcases applyChain_eq_ok applied with
    ⟨table, index, segment, width, held, located, rfl⟩
  rcases locate_eq_ok located with ⟨isSegment, inside⟩
  apply justified_of_walkChain small isSegment (sound.table table held).entries width
  exact UInt64.lt_iff_toNat_lt.mp inside

/-! ## Instructions -/

/-- A problem binds no slot. -/
theorem justified_of_eventsOf {attempt : Except Problem (List Event)}
    (justified : ∀ events, attempt = .ok events →
      ∀ event ∈ events, ∀ slot ∈ event.slots, slot.Justified program symbols) :
    ∀ event ∈ eventsOf attempt, ∀ slot ∈ event.slots,
      slot.Justified program symbols := by
  cases attempt with
  | ok events => exact justified events rfl
  | error problem => simp [eventsOf, Event.slots]

/-- The slots of any instruction. -/
theorem justified_of_execute (small : program.image.size < 2 ^ 64)
    (sound : registers.Sound program.libraries.length symbols)
    (instruction : Instruction) :
    ∀ event ∈ (execute program registers instruction).2, ∀ slot ∈ event.slots,
      slot.Justified program symbols := by
  have gives := gives_execute program registers instruction
  generalize (execute program registers instruction).2 = events at gives ⊢
  cases gives with
  | nothing => simp
  | problem problem => simp [Event.slots]
  | binds count stride =>
      apply justified_of_eventsOf
      intro events bound
      exact justified_of_bindRun sound bound
  | chain =>
      apply justified_of_eventsOf
      intro events applied
      exact justified_of_applyChain small sound applied

/-! ## Records -/

/-- The name of the library with an ordinal: one of the special places, or one of the
libraries, which are numbered from one. -/
inductive IsLibrary (libraries : List String) :
    (ordinal : Int) → (name : String) → Prop where
  | thisImage : IsLibrary libraries 0 "this-image"
  | mainExecutable : IsLibrary libraries (-1) "main-executable"
  | flatNamespace : IsLibrary libraries (-2) "flat-namespace"
  | weak : IsLibrary libraries (-3) "weak"
  | listed {index : Nat} {name : String} (found : libraries[index]? = some name) :
      IsLibrary libraries (index + 1) name

/-- An ordinal in range has a library. -/
theorem isLibrary_libraryName {libraries : List String} {ordinal : Int}
    (inRange : -3 ≤ ordinal ∧ ordinal ≤ libraries.length) :
    IsLibrary libraries ordinal (libraryName libraries ordinal) := by
  unfold libraryName
  split
  next => exact .thisImage
  next => exact .mainExecutable
  next => exact .flatNamespace
  next => exact .weak
  next notThis notMain notFlat notWeak =>
    obtain ⟨index, rfl⟩ : ∃ index : Nat, ordinal = index + 1 := by
      exists (ordinal - 1).toNat
      have nonzero : ordinal ≠ 0 := notThis
      have notOne : ordinal ≠ -1 := notMain
      have notTwo : ordinal ≠ -2 := notFlat
      have notThree : ordinal ≠ -3 := notWeak
      omega
    have positive : 0 < (index : Int) + 1 := by omega
    have place : ((index : Int) + 1 - 1).toNat = index := by omega
    have found : libraries[index]? = some libraries[index] :=
      List.getElem?_eq_getElem (by omega)
    simp only [if_pos positive, place, found, Option.getD_some]
    exact .listed found

/-- A record tells of a slot in a segment, and of the pointer in the slot if it has a
value. -/
structure Record.LiesIn (program : Program) (segment : Segment) (record : Record) :
    Prop where
  index : program.segments[record.segmentIndex]? = some segment
  name : record.segmentName = segment.name
  inside : record.segmentOffset < segment.size
  address : record.address.toNat =
    (segment.address.toNat + record.segmentOffset.toNat) % 2 ^ 64
  sectionName : record.sectionName =
    (segment.sections.find? fun part => part.address.toNat ≤ record.address.toNat ∧
      record.address.toNat < part.address.toNat + part.size.toNat).map (·.name)
  value : ∀ raw ∈ record.value, program.width = .bits64 ∧
    program.image.word64? (segment.fileOffset.toNat + record.segmentOffset.toNat) =
      some raw ∧
    record.segmentOffset.toNat + 8 ≤ segment.fileSize.toNat ∧
    raw.toNat.testBit 62 = true

/-- What stands behind a record after these symbols were set. -/
structure Record.Justified (program : Program) (symbols : List Symbol)
    (record : Record) :
    Prop where
  slot : ∃ segment, record.LiesIn program segment
  ordinal : -3 ≤ record.ordinal ∧ record.ordinal ≤ program.libraries.length
  library : IsLibrary program.libraries record.ordinal record.library
  symbol : ∃ symbol ∈ symbols, record.symbol = Text.lossy symbol.name ∧
    record.weakImport = symbol.weakImport

theorem Slot.Justified.record {slot : Slot}
    (justified : slot.Justified program symbols) :
    (slot.record program.libraries).Justified program symbols where
  slot := by
    exists slot.segment
    constructor
    case index => exact justified.segment
    case name => rfl
    case inside => exact justified.inside
    case address => exact UInt64.toNat_add _ _
    case sectionName =>
      have test : (Section.contains · slot.address) = fun part =>
          decide (part.address.toNat ≤ slot.address.toNat ∧
            slot.address.toNat < part.address.toNat + part.size.toNat) := by
        funext part
        rw [Bool.eq_iff_iff, Section.contains_iff, decide_eq_true_eq]
      exact congrArg (fun test => (slot.segment.sections.find? test).map (·.name)) test
    case value =>
      intro raw held
      rcases justified.value raw held with ⟨width, word, inContent, isBind⟩
      exact ⟨width, word, inContent, isBind⟩
  ordinal := justified.target.ordinal
  library := isLibrary_libraryName justified.target.ordinal
  symbol := ⟨slot.target.symbol, justified.target.symbol, rfl, rfl⟩

/-- Every record of a step is justified by the steps before. -/
theorem justified_of_mem_step (small : program.image.size < 2 ^ 64)
    {earlier later : List Step} {step : Step}
    (whole : program.trace = earlier ++ step :: later) :
    ∀ record ∈ step.records program, record.Justified program (symbolsSet earlier) := by
  intro record member
  rcases List.mem_flatMap.mp member with ⟨event, isEvent, isRecord⟩
  rcases List.mem_map.mp isRecord with ⟨slot, isSlot, rfl⟩
  rw [Step.events] at isEvent
  split at isEvent
  next instruction _ =>
    have sound := sound_before whole
    exact (justified_of_execute small sound instruction event isEvent slot
      isSlot).record
  next =>
    cases List.mem_singleton.mp isEvent
    cases isSlot

/-- Whatever the opcodes and the image: every record that is returned was added by a
step of the run and is justified by the program and the symbols set before that step,
and in every state of the run the ordinal and the ordinal table are in bounds. An image
in memory has fewer than `2 ^ 64` bytes. -/
theorem records_justified (memory : Memory) (program : Program) (limit : Nat)
    (small : program.image.size < 2 ^ 64) :
    (∀ outcome ∈ interpret memory program limit, ∀ record ∈ outcome.records,
      ∃ earlier step later, program.trace = earlier ++ step :: later ∧
        record ∈ step.records program ∧
        record.Justified program (symbolsSet earlier)) ∧
      ∀ registers ∈ program.states,
        (∀ ordinal ∈ registers.ordinal, -3 ≤ ordinal ∧
          ordinal ≤ program.libraries.length) ∧
          ∀ table ∈ registers.table, table.entries.size ≤ table.capacity.toNat := by
  constructor
  · intro outcome ends record member
    rcases exists_step_of_mem_records ends member with ⟨step, isStep, isRecord⟩
    rcases List.append_of_mem isStep with ⟨earlier, later, whole⟩
    have justified := justified_of_mem_step small whole record isRecord
    exact ⟨earlier, step, later, whole, isRecord, justified⟩
  · intro registers member
    rcases exists_sound_of_mem_states member with ⟨symbols, sound⟩
    constructor
    · exact sound.ordinal
    · intro table held
      exact (sound.table table held).bounded

/-- A program that puts one target into its table and applies a chain of one link. -/
def oneLink : Program where
  opcodes := #[0xD0, 1, 0x11, 0x40, 95, 97, 0, 0x90, 0x70, 0, 0xD1, 0x00]
  libraries := ["/usr/lib/libSystem.B.dylib"]
  segments := [⟨"__DATA", 4096, 16, 0, 8, [⟨"__got", 4096, 16⟩]⟩]
  width := .bits64
  image := #[0, 0, 0, 0, 0, 0, 0, 0x40]

theorem records_justified_oneLink :
    ∃ outcome ∈ interpret .ofProcess oneLink 20, ∃ record ∈ outcome.records,
      record.value = some 0x4000000000000000 ∧
        ∃ earlier, record.Justified oneLink (symbolsSet earlier) := by
  have bound : (interpret .ofProcess oneLink 20).map (fun outcome =>
      outcome.records.any fun record => record.value = some 0x4000000000000000) =
        some true := by decide +kernel
  rcases Option.map_eq_some_iff.mp bound with ⟨outcome, ends, bound⟩
  rcases List.any_eq_true.mp bound with ⟨record, member, value⟩
  obtain ⟨earlier, -, -, -, -, justified⟩ :=
    (records_justified .ofProcess oneLink 20 (by decide)).1 outcome ends record member
  exact ⟨outcome, ends, record, member, by simpa using value, earlier, justified⟩

end Bind

end Linkedit
