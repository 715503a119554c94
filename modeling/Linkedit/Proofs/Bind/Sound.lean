import Linkedit.Proofs.Bind.Trace
import Linkedit.Proofs.Except

/-!
# What the registers hold

A library ordinal is checked before it is kept, and a symbol only comes from the
program. Both are copied into the ordinal table, which is read much later, so what is
known of the registers is known of the table as well.
-/

namespace Linkedit.Bind

variable {program : Program} {libraries : Nat} {symbols : List Symbol}
  {registers : Registers}

/-- The symbol that an instruction sets. -/
def Instruction.symbol? : Instruction → Option Symbol
  | .setSymbol symbol => some symbol
  | _ => none

/-- The symbol that a step sets. -/
def Step.symbol? (step : Step) : Option Symbol :=
  match step.decoded with
  | .ok instruction => instruction.symbol?
  | .error _ => none

/-- The symbols that were set in some steps. -/
def symbolsSet (steps : List Step) : List Symbol := steps.filterMap Step.symbol?

/-! ## The invariant -/

/-- A target with an ordinal in range and one of these symbols. -/
structure Target.Sound (libraries : Nat) (symbols : List Symbol) (target : Target) :
    Prop where
  ordinal : -3 ≤ target.ordinal ∧ target.ordinal ≤ libraries
  symbol : target.symbol ∈ symbols

/-- A table that is not overfull, with sound entries. -/
structure OrdinalTable.Sound (libraries : Nat) (symbols : List Symbol)
    (table : OrdinalTable) : Prop where
  bounded : table.entries.size ≤ table.capacity.toNat
  entries : ∀ target ∈ table.entries, target.Sound libraries symbols

/-- Registers as they can be after these symbols were set. -/
structure Registers.Sound (libraries : Nat) (symbols : List Symbol)
    (registers : Registers) : Prop where
  ordinal : ∀ ordinal ∈ registers.ordinal, -3 ≤ ordinal ∧ ordinal ≤ libraries
  symbol : ∀ symbol ∈ registers.symbol, symbol ∈ symbols
  table : ∀ table ∈ registers.table, table.Sound libraries symbols

theorem Target.Sound.mono {target : Target} (sound : target.Sound libraries symbols)
    (more : List Symbol) : target.Sound libraries (symbols ++ more) :=
  ⟨sound.ordinal, List.mem_append_left _ sound.symbol⟩

namespace Registers.Sound

theorem start (libraries : Nat) : Registers.Sound libraries [] {} := by
  constructor <;> simp

theorem mono (sound : registers.Sound libraries symbols) (more : List Symbol) :
    registers.Sound libraries (symbols ++ more) where
  ordinal := sound.ordinal
  symbol symbol member := List.mem_append_left _ (sound.symbol symbol member)
  table table member := by
    have tableSound := sound.table table member
    constructor
    · exact tableSound.bounded
    · intro target entry
      exact (tableSound.entries target entry).mono more

theorem target (sound : registers.Sound libraries symbols) {target : Target}
    (held : registers.target = .ok target) : target.Sound libraries symbols := by
  rw [Registers.target] at held
  split at held
  next => cases held
  next => cases held
  next symbol ordinal isSymbol isOrdinal =>
    cases held
    exact ⟨sound.ordinal ordinal isOrdinal, sound.symbol symbol isSymbol⟩

theorem move (sound : registers.Sound libraries symbols) (distance : Nat) :
    (registers.move distance).Sound libraries symbols :=
  ⟨sound.ordinal, sound.symbol, sound.table⟩

/-- An ordinal that is not in range is not kept. -/
theorem setOrdinal (sound : registers.Sound libraries symbols) (ordinal : Int) :
    (registers.setOrdinal libraries ordinal).1.Sound libraries symbols := by
  rw [Registers.setOrdinal]
  split
  next valid =>
    constructor
    · intro kept isKept
      cases isKept
      simpa [isOrdinal] using valid
    · exact sound.symbol
    · exact sound.table
  next =>
    constructor
    · simp
    · exact sound.symbol
    · exact sound.table

/-- A full table takes no entry, and every entry was checked. -/
theorem push (sound : registers.Sound libraries symbols) {table next : OrdinalTable}
    (held : registers.table = some table) (pushed : table.push registers = .ok next) :
    next.Sound libraries symbols := by
  rcases sound.table table held with ⟨bounded, entries⟩
  rw [OrdinalTable.push] at pushed
  split at pushed
  next => cases pushed
  next target isTarget =>
    split at pushed
    next room =>
      cases pushed
      constructor
      · simpa using Nat.succ_le_of_lt room
      · intro other member
        rcases Array.mem_push.mp member with earlier | rfl
        · exact entries other earlier
        · exact sound.target isTarget
    next => cases pushed

/-- An instruction that sets no symbol keeps the registers sound, also if it finds a
problem. -/
theorem execute_other (sound : registers.Sound program.libraries.length symbols)
    {instruction : Instruction} (other : instruction.symbol? = none) :
    (Bind.execute program registers instruction).1.Sound program.libraries.length
      symbols := by
  cases instruction with
  | setSymbol symbol => cases other
  | done | setAddend addend | setSlot segment offset | applyChain
  | unknownThreaded number =>
      exact ⟨sound.ordinal, sound.symbol, sound.table⟩
  | setOrdinal ordinal => exact sound.setOrdinal ordinal
  | setKind number =>
      rw [Bind.execute]
      split <;> exact ⟨sound.ordinal, sound.symbol, sound.table⟩
  | advance distance => exact sound.move distance.toNat
  | bindAdvance distance => exact sound.move _
  | bindAdvanceScaled pointers => exact sound.move _
  | bindRepeated count skip =>
      dsimp only [Bind.execute]
      split
      next => exact sound.move _
      next => exact sound
  | setTableSize capacity =>
      constructor
      · exact sound.ordinal
      · exact sound.symbol
      · intro table isTable
        cases isTable
        constructor <;> simp
  | bind =>
      rw [Bind.execute]
      split
      next table held =>
        split
        next next pushed =>
          constructor
          · exact sound.ordinal
          · exact sound.symbol
          · intro grown isGrown
            cases isGrown
            exact sound.push held pushed
        next => exact sound
      next => exact sound.move _

/-- Every instruction keeps the registers sound. -/
theorem execute (sound : registers.Sound program.libraries.length symbols)
    (instruction : Instruction) :
    (Bind.execute program registers instruction).1.Sound program.libraries.length
      (symbols ++ instruction.symbol?.toList) := by
  cases set : instruction.symbol? with
  | none =>
      rw [Option.toList_none, List.append_nil]
      exact sound.execute_other set
  | some symbol =>
      cases instruction <;> cases set
      have grown := sound.mono [symbol]
      constructor
      · exact grown.ordinal
      · intro kept isKept
        cases isKept
        simp
      · exact grown.table

/-- Every step keeps the registers sound. -/
theorem step {history : List Step} {step : Step}
    (sound : step.before.Sound program.libraries.length (symbolsSet history)) :
    (step.after program).Sound program.libraries.length
      (symbolsSet (history ++ [step])) := by
  have symbols : symbolsSet (history ++ [step]) =
      symbolsSet history ++ step.symbol?.toList := by
    rw [symbolsSet, List.filterMap_append]
    cases found : step.symbol? <;> simp [symbolsSet, found]
  rw [symbols, Step.after, Step.symbol?]
  cases step.decoded with
  | ok instruction => exact sound.execute instruction
  | error => exact sound.mono _

end Registers.Sound

/-- Before every step of a run, the registers are sound for the symbols set so far. -/
theorem sound_before {earlier later : List Step} {step : Step}
    (whole : program.trace = earlier ++ step :: later) :
    step.before.Sound program.libraries.length (symbolsSet earlier) := by
  have linked : Linked program {} program.trace := linked_traceFrom _ _
  apply linked.invariant
    (fun history registers =>
      registers.Sound program.libraries.length (symbolsSet history))
    ?preserved [] ?start whole
  case preserved =>
    intro history step sound
    exact sound.step
  case start => exact .start _

/-- In every state of a run, the registers are sound for some symbols of the program. -/
theorem exists_sound_of_mem_states (member : registers ∈ program.states) :
    ∃ symbols, registers.Sound program.libraries.length symbols := by
  rcases List.mem_cons.mp member with rfl | later
  · exact ⟨[], .start _⟩
  · rcases List.mem_map.mp later with ⟨step, isStep, rfl⟩
    rcases List.append_of_mem isStep with ⟨earlier, later, whole⟩
    exact ⟨_, (sound_before whole).step⟩

end Linkedit.Bind
