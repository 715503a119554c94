import Linkedit.Bind.Record

/-!
# Interpreting a bind program

A program is run twice. The first pass counts records and collects diagnostics,
and it gives up once there are too many of them. The second pass makes the
records. Both passes run the same machine and differ in what they make of its
events. A few bytes can ask for more records than any memory holds, so room for
the counted records is asked for before the second pass begins.
-/

namespace Linkedit.Bind

/-- What one pass makes of the events, and when it gives up. Giving up is
considered after each instruction. -/
structure Pass (σ : Type) where
  observe : σ → (offset : Nat) → Event → σ
  exhausted : σ → Bool

/-- Observes the events of the instruction at `offset`. -/
def Pass.observeAll {σ : Type} (pass : Pass σ) (state : σ) (offset : Nat)
    (events : List Event) : σ :=
  events.foldl (fun state event => pass.observe state offset event) state

/-- How a pass ends. -/
structure Ending (σ : Type) where
  state : σ
  registers : Registers
  abandoned : Bool

/-- Runs the instructions from `cursor` on. An instruction that cannot be
decoded is a problem and ends the run. -/
def runFrom {σ : Type} (program : Program) (pass : Pass σ) (cursor : Cursor)
    (registers : Registers) (state : σ) : Ending σ :=
  if registers.done || cursor.atEnd then ⟨state, registers, false⟩
  else
    match _decoded : Instruction.decode cursor with
    | .ok (instruction, next) =>
        let (registers, events) := execute program registers instruction
        let state := pass.observeAll state cursor.position events
        if pass.exhausted state then ⟨state, registers, true⟩
        else runFrom program pass next registers state
    | .error error =>
        let state := pass.observe state cursor.position
          (.problem (.undecodable error))
        ⟨state, registers, pass.exhausted state⟩
termination_by cursor.data.size - cursor.position
decreasing_by
  have advances := Instruction.decode_advances _decoded
  rw [advances.data_eq]
  have := advances.position_lt
  have := advances.position_le
  omega

/-- Runs a whole program. -/
def run {σ : Type} (program : Program) (pass : Pass σ) (start : σ) : Ending σ :=
  runFrom program pass ⟨program.opcodes, 0⟩ {} start

/-! ## The first pass -/

/-- The number of records and the diagnostics so far. There is no number once it
has left the 64-bit words. -/
structure Tally where
  records : Option UInt64 := some 0
  diagnostics : Array Diagnostic := #[]
deriving DecidableEq, Repr

/-- One more than a count, unless the count is full. -/
def addOne (records : UInt64) : Option UInt64 :=
  if records.toNat + 1 < UInt64.size then some (records + 1) else none

/-- The sum of a count and the length of a run, at most the largest count. -/
def addRun (records : UInt64) (count : Nat) : UInt64 :=
  UInt64.ofNat (min (records.toNat + count) (UInt64.size - 1))

/-- The count after an event. A run fills the count up at most, but a single bind
does not fit into a full count. -/
def countEvent (records : UInt64) : Event → Option UInt64
  | .single _ => addOne records
  | .run _ count _ => some (addRun records count)
  | .problem _ => some records

/-- Takes an event into a tally. -/
def Tally.observe (tally : Tally) (offset : Nat) (event : Event) : Tally where
  records := tally.records.bind (countEvent · event)
  diagnostics :=
    match event with
    | .problem problem => tally.diagnostics.push ⟨offset, problem⟩
    | .single _ | .run .. => tally.diagnostics

/-- Counts records and collects diagnostics. It gives up once there are `limit`
diagnostics; zero stands for no limit. -/
def counting (limit : Nat) : Pass Tally where
  observe := Tally.observe
  exhausted tally := limit ≠ 0 && limit ≤ tally.diagnostics.size

/-! ## The second pass -/

/-- Collects the records. -/
def collecting (libraries : List String) : Pass (Array Record) where
  observe records _ event :=
    records ++ event.slots.map (Slot.record libraries)
  exhausted _ := false

/-! ## Both passes -/

/-- The memory that records are held in. `reserves` says whether there is room for
a number of records. -/
structure Memory where
  reserves : (records : Nat) → Bool
  /-- An allocation has fewer than 2^63 bytes, and a record takes up at least one. -/
  refuses : ∀ records, 0x8000000000000000 ≤ records → reserves records = false

/-- The number of bytes that a record takes up. -/
def recordSize : Nat := 160

/-- The memory of a process with 2^47 bytes of addresses for its data. -/
def Memory.ofProcess : Memory where
  reserves records := records * recordSize ≤ 0x800000000000
  refuses records large := by
    rw [decide_eq_false_iff_not, recordSize]
    omega

/-- What a bind program binds. -/
structure Outcome where
  records : List Record
  threaded : Bool
  diagnostics : List Diagnostic
  abandoned : Bool
deriving DecidableEq, Repr

/-- Whether a program was given up because of the number of its records. -/
def Outcome.exceedsMemory (outcome : Outcome) : Bool :=
  match outcome.diagnostics.getLast? with
  | some ⟨_, .tooManyRecords _⟩ => true
  | _ => false

/-- The number of diagnostics after which a program is given up, unless another
limit is asked for. -/
def defaultLimit : Nat := 20

/-- What a program binds, after a first pass that counted `count` records. A
program that is given up has no records. -/
def conclude (memory : Memory) (program : Program) (counted : Ending Tally)
    (count : Nat) : Outcome :=
  let threaded := counted.registers.threaded
  let diagnostics := counted.state.diagnostics.toList
  if counted.abandoned then ⟨[], threaded, diagnostics, true⟩
  else if memory.reserves count then
    let collected := run program (collecting program.libraries) #[]
    ⟨collected.state.toList, threaded, diagnostics, false⟩
  else ⟨[], threaded, diagnostics ++ [⟨0, .tooManyRecords count⟩], true⟩

/-- Interprets a bind program. There is no outcome if the count of the records
overflows. -/
def interpret (memory : Memory) (program : Program) (limit : Nat) : Option Outcome :=
  let counted := run program (counting limit) {}
  counted.state.records.map fun count =>
    conclude memory program counted count.toNat

end Linkedit.Bind
