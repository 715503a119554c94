import Linkedit.Proofs.Bind.Decoding

/-!
# Sequences of instructions

What a run does is fixed by the instructions that it takes, apart from the bytes that
they are decoded from. So runs of different streams can be compared as lists of
instructions.
-/

namespace Linkedit.Bind

variable {program : Program} {registers : Registers}
  {instruction : Instruction} {instructions left right : List Instruction}

/-! ## Running a list -/

/-- The registers after some instructions, and what happens in them. -/
def executeAll (program : Program) (registers : Registers) :
    List Instruction → Registers × List Event
  | [] => (registers, [])
  | instruction :: instructions =>
      let first := execute program registers instruction
      let others := executeAll program first.1 instructions
      (others.1, first.2 ++ others.2)

/-- The registers after some instructions, and the records of what they bind. -/
def effect (program : Program) (registers : Registers)
    (instructions : List Instruction) :
    Registers × List Record :=
  let (after, events) := executeAll program registers instructions
  (after, events.flatMap fun event => event.slots.map (Slot.record program.libraries))

theorem executeAll_append (program : Program) (registers : Registers)
    (left right : List Instruction) :
    executeAll program registers (left ++ right) =
      ((executeAll program (executeAll program registers left).1 right).1,
        (executeAll program registers left).2 ++
          (executeAll program (executeAll program registers left).1 right).2) := by
  induction left generalizing registers with
  | nil => rfl
  | cons instruction left ih =>
      rw [List.cons_append]
      simp only [executeAll, ih, List.append_assoc]

theorem executeAll_singleton (program : Program) (registers : Registers)
    (instruction : Instruction) :
    executeAll program registers [instruction] =
      execute program registers instruction := by
  simp [executeAll]

theorem effect_append (program : Program) (registers : Registers)
    (left right : List Instruction) :
    effect program registers (left ++ right) =
      ((effect program (effect program registers left).1 right).1,
        (effect program registers left).2 ++
          (effect program (effect program registers left).1 right).2) := by
  simp only [effect, executeAll_append, List.flatMap_append]

theorem effect_singleton (program : Program) (registers : Registers)
    (instruction : Instruction) :
    effect program registers [instruction] =
      ((execute program registers instruction).1,
        (execute program registers instruction).2.flatMap fun event =>
          event.slots.map (Slot.record program.libraries)) := by
  rw [effect, executeAll_singleton]

/-- Parts with the same effect can be put in for each other. -/
theorem effect_append_congr {otherLeft otherRight : List Instruction}
    (first : effect program registers left = effect program registers otherLeft)
    (second : effect program (effect program registers otherLeft).1 right =
      effect program (effect program registers otherLeft).1 otherRight) :
    effect program registers (left ++ right) =
      effect program registers (otherLeft ++ otherRight) := by
  rw [effect_append, effect_append, first, second]

/-! ## Runs as lists -/

/-- What happens in linked steps is what happens in their instructions. -/
theorem Linked.events_eq {steps : List Step} (linked : Linked program registers steps)
    (decodes : steps.map Step.decoded = instructions.map .ok) :
    steps.flatMap (Step.events program) =
      (executeAll program registers instructions).2 := by
  induction steps generalizing registers instructions with
  | nil =>
      rw [List.map_nil, eq_comm, List.map_eq_nil_iff] at decodes
      rw [decodes]
      rfl
  | cons step steps ih =>
      cases instructions with
      | nil => cases decodes
      | cons instruction instructions =>
          rcases List.cons.inj decodes with ⟨decoded, others⟩
          rcases linked with ⟨rfl, further⟩
          have after : step.after program =
              (execute program step.before instruction).1 := by rw [Step.after, decoded]
          have events : step.events program =
              (execute program step.before instruction).2 := by
            rw [Step.events, decoded]
          rw [List.flatMap_cons, ih further others, after, events]
          rfl

/-- Only the last instruction of a program ends the run. -/
theorem done_execute (program : Program) (registers : Registers)
    (instruction : Instruction) :
    (execute program registers instruction).1.done =
      (registers.done || instruction == .done) := by
  cases instruction with
  | done => simp [execute]
  | setOrdinal ordinal =>
      rw [execute, Registers.setOrdinal]
      split <;> simp
  | setKind number =>
      rw [execute]
      split <;> simp
  | bind =>
      rw [execute]
      split
      next => split <;> simp
      next => simp [Registers.move]
  | bindRepeated count skip =>
      dsimp only [execute]
      split <;> simp [Registers.move]
  | setSymbol | setAddend | setSlot | advance | bindAdvance | bindAdvanceScaled |
    setTableSize | applyChain | unknownThreaded => simp [execute, Registers.move]

/-- A run goes through the code of instructions that do not end it. -/
theorem decoded_traceFrom_of_codes {code : List UInt8} {data : Bytes} {place : Nat}
    (codes : Codes code instructions) (holds : data.HoldsAt place code)
    (running : registers.done = false) (goesOn : .done ∉ instructions) :
    ∃ after, after.done = false ∧
      (traceFrom program ⟨data, place⟩ registers).map Step.decoded =
        instructions.map .ok ++
          (traceFrom program ⟨data, place + code.length⟩ after).map Step.decoded := by
  induction codes generalizing place registers with
  | nil => exact ⟨registers, running, rfl⟩
  | @cons code rest instruction instructions first others ih =>
      rcases Bytes.holdsAt_append.mp holds with ⟨firstHolds, restHolds⟩
      rw [List.mem_cons, not_or] at goesOn
      have next : (execute program registers instruction).1.done = false := by
        rw [done_execute, running, Bool.false_or, beq_eq_false_iff_ne]
        exact Ne.symm goesOn.1
      rcases ih restHolds next goesOn.2 with ⟨after, ends, trace⟩
      refine ⟨after, ends, ?_⟩
      rw [traceFrom_of_decode running (first _ _ firstHolds), List.map_cons, trace,
        List.length_append, Nat.add_assoc]
      rfl

end Linkedit.Bind
