import Linkedit.Segment
import Linkedit.Bind.ChainPointer
import Linkedit.Bind.Instruction
import Linkedit.Bind.Problem

/-!
# The bind machine

The machine holds the registers that a bind program works on. An instruction
changes the registers and gives events in order: slots that are bound, and
problems. A run of slots at equal distances is one event, however long it is.
-/

namespace Linkedit.Bind

/-- What a bind program is run on. `image` is the whole file, which pointer
chains are read from. -/
structure Program where
  opcodes : Bytes
  libraries : List String
  segments : List Segment
  width : Width
  image : Bytes
deriving DecidableEq, Repr

/-- The table that threaded binds index into. -/
structure OrdinalTable where
  capacity : UInt64
  entries : Array Target := #[]
deriving DecidableEq, Repr

/-- The registers of the bind machine. -/
structure Registers where
  kind : Kind := .pointer
  segment : Option Nat := none
  offset : UInt64 := 0
  symbol : Option Symbol := none
  ordinal : Option Int := none
  addend : Int := 0
  table : Option OrdinalTable := none
  done : Bool := false
deriving DecidableEq, Repr

/-- Whether the program uses the threaded format. -/
def Registers.threaded (registers : Registers) : Bool := registers.table.isSome

/-- A slot and what it is bound to. `value` is the chain pointer in the slot of
a threaded bind. -/
structure Slot where
  segmentIndex : Nat
  segment : Segment
  offset : UInt64
  target : Target
  value : Option UInt64 := none
deriving DecidableEq, Repr

/-- What happens while an instruction is run. -/
inductive Event where
  /-- One slot is bound. -/
  | single (slot : Slot)
  /-- `count` slots are bound, `stride` bytes apart. -/
  | run (first : Slot) (count stride : Nat)
  /-- A problem is found. -/
  | problem (problem : Problem)
deriving DecidableEq, Repr

/-! ## Slots and targets -/

/-- The segment that the registers point into, if the offset lies inside it. -/
def locate (program : Program) (registers : Registers) :
    Except Problem (Nat × Segment) :=
  match registers.segment with
  | none => .error .noSegment
  | some index =>
      match program.segments[index]? with
      | none => .error (.segmentOutOfRange index program.segments.length)
      | some segment =>
          if registers.offset < segment.size then .ok (index, segment)
          else
            .error (.offsetPastSegment registers.offset.toNat segment.name
              segment.size.toNat)

/-- The target in the registers. -/
def Registers.target (registers : Registers) : Except Problem Target :=
  match registers.symbol, registers.ordinal with
  | none, _ => .error .noSymbol
  | some _, none => .error .noOrdinal
  | some symbol, some ordinal =>
      .ok ⟨symbol, ordinal, registers.addend, registers.kind⟩

/-- The events of binding `count` slots, `stride` bytes apart, from the one in
the registers on. Either all of them lie in the segment or none is bound. -/
def bindRun (program : Program) (registers : Registers) (count stride : Nat) :
    Except Problem (List Event) := do
  let (index, segment) ← locate program registers
  let target ← registers.target
  if count = 0 then
    return []
  else if 1 < count ∧ stride = 0 then
    throw (.repeatedSlot count)
  else if registers.offset.toNat + (count - 1) * stride < segment.size.toNat then
    let first : Slot := ⟨index, segment, registers.offset, target, none⟩
    return [if count = 1 then .single first else .run first count stride]
  else
    throw (.runPastSegment count stride registers.offset.toNat segment.name)

/-- Turns a problem that prevents an action into an event. -/
def eventsOf : Except Problem (List Event) → List Event
  | .ok events => events
  | .error problem => [.problem problem]

/-! ## Threaded binds -/

/-- The distance unit of pointer chains in bytes. -/
def chainStride : Nat := 8

/-- The size of a page. A chain stays within one page. -/
def chainPage : Nat := 16384

/-- The offset `distance` bytes further on. Offsets of a chain do not go past the
last 64-bit number. -/
def chainOffset (offset distance : Nat) : Nat :=
  min (offset + distance) (UInt64.size - 1)

theorem chainOffset_lt {offset links bound : Nat} (inBounds : bound < UInt64.size)
    (inSegment : chainOffset offset (links * chainStride) < bound)
    (nonzero : links ≠ 0)
    (samePage : chainOffset offset (links * chainStride) / chainPage =
      offset / chainPage) :
    chainPage - chainOffset offset (links * chainStride) % chainPage <
      chainPage - offset % chainPage := by
  simp only [chainOffset, chainPage, chainStride, UInt64.size] at *
  omega

/-- The events of the chain link at `offset` itself. -/
def linkEvents (index : Nat) (segment : Segment) (entries : Array Target)
    (offset : Nat) (pointer : ChainPointer) : List Event :=
  if pointer.isBind then
    match entries[pointer.index]? with
    | some target =>
        [.single ⟨index, segment, UInt64.ofNat offset, target, some pointer.raw⟩]
    | none => [.problem (.indexOutsideTable offset pointer.index entries.size)]
  else []

/-- Walks the pointer chain from `offset` on. Each link must lie in the file
content of its segment and in the image, and the next link in the same page and
segment. -/
def walkChain (program : Program) (index : Nat) (segment : Segment)
    (entries : Array Target) (offset : Nat) : List Event :=
  if chainOffset offset chainStride ≤ segment.fileSize.toNat then
    match program.image.word64? (segment.fileOffset.toNat + offset) with
    | none => [.problem (.linkPastImage offset)]
    | some raw =>
        let pointer : ChainPointer := ⟨raw⟩
        let next := chainOffset offset (pointer.next * chainStride)
        linkEvents index segment entries offset pointer ++
          if _ended : pointer.next = 0 then []
          else if _samePage : next / chainPage = offset / chainPage then
            if _inSegment : next < segment.size.toNat then
              walkChain program index segment entries next
            else [.problem (.linkLeavesSegment offset segment.name)]
          else [.problem (.linkCrossesPage offset)]
  else [.problem (.linkOutsideContent offset segment.name)]
termination_by chainPage - offset % chainPage
decreasing_by
  exact chainOffset_lt segment.size.toNat_lt_size _inSegment _ended _samePage

/-- The events of applying the pointer chain at the registers. -/
def applyChain (program : Program) (registers : Registers) :
    Except Problem (List Event) := do
  match program.width, registers.table with
  | .bits32, _ => throw .threadedNeeds64Bits
  | .bits64, none => throw .applyBeforeTable
  | .bits64, some table =>
      let (index, segment) ← locate program registers
      return walkChain program index segment table.entries registers.offset.toNat

/-- The table with the target in the registers added at its end. -/
def OrdinalTable.push (table : OrdinalTable) (registers : Registers) :
    Except Problem OrdinalTable :=
  match registers.target with
  | .error _ => .error .incompleteTableEntry
  | .ok target =>
      if table.entries.size < table.capacity.toNat then
        .ok { table with entries := table.entries.push target }
      else .error (.tableFull table.capacity.toNat)

/-! ## Instructions -/

/-- Moves the slot by a number of bytes, around the end of the offsets. -/
def Registers.move (registers : Registers) (distance : Nat) : Registers :=
  { registers with offset := registers.offset + UInt64.ofNat distance }

/-- Sets the library, if there is one of that ordinal. -/
def Registers.setOrdinal (registers : Registers) (libraries : Nat)
    (ordinal : Int) : Registers × List Event :=
  if isOrdinal libraries ordinal then
    ({ registers with ordinal := some ordinal }, [])
  else
    ({ registers with ordinal := none },
      [.problem (if 0 < ordinal then .ordinalOutOfRange ordinal libraries
        else .unknownSpecialOrdinal ordinal)])

/-- The problem of registers that do not point into a segment, if they do not. -/
def checkSlot (program : Program) (registers : Registers) : List Event :=
  eventsOf ((locate program registers).map fun _ => [])

/-- Runs one instruction. -/
def execute (program : Program) (registers : Registers) :
    Instruction → Registers × List Event
  | .done => ({ registers with done := true }, [])
  | .setOrdinal ordinal => registers.setOrdinal program.libraries.length ordinal
  | .setSymbol symbol => ({ registers with symbol := some symbol }, [])
  | .setKind number =>
      match Kind.ofNumber? number with
      | some kind => ({ registers with kind }, [])
      | none => (registers, [.problem (.invalidKind number)])
  | .setAddend addend => ({ registers with addend }, [])
  | .setSlot segment offset =>
      let registers := { registers with segment := some segment, offset }
      (registers, checkSlot program registers)
  | .advance distance =>
      let registers := registers.move distance.toNat
      (registers, checkSlot program registers)
  | .bind =>
      match registers.table with
      | some table =>
          match table.push registers with
          | .ok table => ({ registers with table := some table }, [])
          | .error problem => (registers, [.problem problem])
      | none =>
          (registers.move program.width.bytes,
            eventsOf (bindRun program registers 1 0))
  | .bindAdvance distance =>
      (registers.move (program.width.bytes + distance.toNat),
        eventsOf (bindRun program registers 1 0))
  | .bindAdvanceScaled pointers =>
      (registers.move (program.width.bytes + pointers * program.width.bytes),
        eventsOf (bindRun program registers 1 0))
  | .bindRepeated count skip =>
      let stride := skip.toNat + program.width.bytes
      if stride < UInt64.size then
        (registers.move (count.toNat * stride),
          eventsOf (bindRun program registers count.toNat stride))
      else (registers, [.problem (.skipOverflow skip.toNat)])
  | .setTableSize capacity =>
      ({ registers with table := some { capacity } }, [])
  | .applyChain => (registers, eventsOf (applyChain program registers))
  | .unknownThreaded number =>
      (registers, [.problem (.unknownThreadedOpcode number)])

end Linkedit.Bind
