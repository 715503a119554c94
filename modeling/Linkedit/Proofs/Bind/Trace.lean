import Linkedit.Bind.Interpret

/-!
# Traces of bind programs

The machine takes the same steps whatever a pass makes of its events, up to the step
after which a pass gives up. The trace of a program lists these steps, so that what
holds of every pass can be stated of the trace.
-/

namespace Linkedit.Bind

variable {program : Program}

/-- One step of a run: where its instruction lies, what was decoded there, and the
registers before it. -/
structure Step where
  offset : Nat
  decoded : Except Error Instruction
  before : Registers

namespace Step

/-- The registers after a step. -/
def after (program : Program) (step : Step) : Registers :=
  match step.decoded with
  | .ok instruction => (execute program step.before instruction).1
  | .error _ => step.before

/-- What happens in a step. -/
def events (program : Program) (step : Step) : List Event :=
  match step.decoded with
  | .ok instruction => (execute program step.before instruction).2
  | .error error => [.problem (.undecodable error)]

/-- The records that a step adds. -/
def records (program : Program) (step : Step) : List Record :=
  (step.events program).flatMap fun event =>
    event.slots.map (Slot.record program.libraries)

end Step

/-- Less is left of the stream behind an instruction. -/
theorem Instruction.left_lt_of_decode {cursor next : Cursor} {instruction : Instruction}
    (decoded : Instruction.decode cursor = .ok (instruction, next)) :
    next.data.size - next.position < cursor.data.size - cursor.position := by
  have advances := Instruction.decode_advances decoded
  rw [advances.data_eq]
  have forward := advances.position_lt
  have inside := advances.position_le
  omega

/-- The steps from `cursor` on. -/
def traceFrom (program : Program) (cursor : Cursor) (registers : Registers) :
    List Step :=
  if registers.done || cursor.atEnd then []
  else
    match _decoded : Instruction.decode cursor with
    | .ok (instruction, next) =>
        ⟨cursor.position, .ok instruction, registers⟩ ::
          traceFrom program next (execute program registers instruction).1
    | .error error => [⟨cursor.position, .error error, registers⟩]
termination_by cursor.data.size - cursor.position
decreasing_by exact Instruction.left_lt_of_decode _decoded

theorem traceFrom_of_decode {cursor next : Cursor} {registers : Registers}
    {instruction : Instruction} (running : registers.done = false)
    (decoded : Instruction.decode cursor = .ok (instruction, next)) :
    traceFrom program cursor registers =
      ⟨cursor.position, .ok instruction, registers⟩ ::
        traceFrom program next (execute program registers instruction).1 := by
  have advances := Instruction.decode_advances decoded
  have inside : cursor.atEnd = false := by
    have forward := advances.position_lt
    have bounded := advances.position_le
    simp only [Cursor.atEnd, decide_eq_false_iff_not]
    omega
  rw [traceFrom, if_neg (by simp [running, inside])]
  split
  next other otherNext otherDecoded =>
    cases decoded.symm.trans otherDecoded
    rfl
  next error failed => cases decoded.symm.trans failed

theorem traceFrom_of_error {cursor : Cursor} {registers : Registers} {opcode : UInt8}
    {error : Error} (running : registers.done = false)
    (found : cursor.data[cursor.position]? = some opcode)
    (failed : Instruction.decode cursor = .error error) :
    traceFrom program cursor registers =
      [⟨cursor.position, .error error, registers⟩] := by
  have inside := (Array.getElem?_eq_some_iff.mp found).1
  rw [traceFrom, if_neg (by simp [running, Cursor.atEnd, inside])]
  split
  next instruction next decoded => cases failed.symm.trans decoded
  next other otherFailed =>
    cases failed.symm.trans otherFailed
    rfl

theorem traceFrom_of_done {registers : Registers} (done : registers.done = true)
    (cursor : Cursor) : traceFrom program cursor registers = [] := by
  rw [traceFrom, if_pos (by simp [done])]

/-- The first step of a trace is that of the instruction at its start. -/
theorem traceFrom_eq_cons {cursor : Cursor} {registers : Registers} {step : Step}
    {later : List Step} (whole : traceFrom program cursor registers = step :: later) :
    step.offset = cursor.position ∧ step.before = registers ∧ registers.done = false ∧
      ((∃ instruction next, Instruction.decode cursor = .ok (instruction, next) ∧
          step.decoded = .ok instruction ∧
          later = traceFrom program next (step.after program)) ∨
        ∃ error, Instruction.decode cursor = .error error ∧
          step.decoded = .error error ∧
          later = []) := by
  rw [traceFrom] at whole
  split at whole
  next => cases whole
  next running =>
    have going : registers.done = false := by
      simp only [Bool.or_eq_true, not_or] at running
      exact Bool.not_eq_true _ |>.mp running.1
    split at whole
    next instruction next decoded =>
      cases whole
      exact ⟨rfl, rfl, going, .inl ⟨instruction, next, decoded, rfl, rfl⟩⟩
    next error failed =>
      cases whole
      exact ⟨rfl, rfl, going, .inr ⟨error, failed, rfl, rfl⟩⟩

/-- The steps of a whole run. -/
def Program.trace (program : Program) : List Step :=
  traceFrom program ⟨program.opcodes, 0⟩ {}

/-! ## Passes over a trace -/

/-- A pass over a list of steps, up to the one after which it gives up. -/
def Pass.follow {σ : Type} (pass : Pass σ) (program : Program) (registers : Registers)
    (state : σ) : List Step → Ending σ
  | [] => ⟨state, registers, false⟩
  | step :: steps =>
      let state := pass.observeAll state step.offset (step.events program)
      if pass.exhausted state then ⟨state, step.after program, true⟩
      else pass.follow program (step.after program) state steps

/-- A run is a pass over the trace. -/
theorem runFrom_eq_follow {σ : Type} (pass : Pass σ) (cursor : Cursor)
    (registers : Registers) (state : σ) :
    runFrom program pass cursor registers state =
      pass.follow program registers state (traceFrom program cursor registers) := by
  fun_induction traceFrom program cursor registers generalizing state with
  | case1 cursor registers stopped =>
      rw [runFrom, if_pos stopped]
      rfl
  | case2 cursor registers running instruction next decoded ih =>
      rw [runFrom, if_neg running]
      split
      next other otherNext otherDecoded =>
        cases decoded.symm.trans otherDecoded
        simp only [ih]
        rfl
      next error failed => cases decoded.symm.trans failed
  | case3 cursor registers running error failed =>
      rw [runFrom, if_neg running]
      split
      next instruction next decoded => cases failed.symm.trans decoded
      next other otherFailed =>
        cases failed.symm.trans otherFailed
        rw [Pass.follow]
        split
        next exhausted => exact congrArg (Ending.mk _ registers) exhausted
        next going =>
          exact congrArg (Ending.mk _ registers) (Bool.not_eq_true _ |>.mp going)

theorem run_eq_follow {σ : Type} (program : Program) (pass : Pass σ) (start : σ) :
    run program pass start = pass.follow program {} start program.trace :=
  runFrom_eq_follow pass _ _ start

/-- The registers at the beginning of a run and after each of its steps. -/
def Program.states (program : Program) : List Registers :=
  {} :: program.trace.map (Step.after program)

/-! ## Records -/

theorem observeAll_collecting (libraries : List String) (found : Array Record)
    (offset : Nat) (events : List Event) :
    (collecting libraries).observeAll found offset events =
      found ++ (events.flatMap fun event =>
        event.slots.map (Slot.record libraries)) := by
  induction events generalizing found with
  | nil => simp [Pass.observeAll]
  | cons event events ih =>
      rw [Pass.observeAll, List.foldl_cons]
      apply (ih _).trans
      apply Array.toList_inj.mp
      simp [collecting]

theorem follow_collecting (registers : Registers) (found : Array Record)
    (steps : List Step) :
    ((collecting program.libraries).follow program registers found steps).state =
      found ++ steps.flatMap (Step.records program) := by
  induction steps generalizing registers found with
  | nil => simp [Pass.follow]
  | cons step steps ih =>
      rw [Pass.follow, observeAll_collecting]
      apply (ih _ _).trans
      apply Array.toList_inj.mp
      simp [Step.records]

/-- The second pass collects the records of the steps, in order. -/
theorem run_collecting (program : Program) :
    (run program (collecting program.libraries) #[]).state.toList =
      program.trace.flatMap (Step.records program) := by
  rw [run_eq_follow, follow_collecting]
  simp

/-- A program that is given up has no records, and any other those of the second
pass. -/
theorem records_of_interpret {memory : Memory} {limit : Nat} {outcome : Outcome}
    (ends : interpret memory program limit = some outcome) :
    (outcome.abandoned = true ∧ outcome.records = []) ∨
      (outcome.abandoned = false ∧ outcome.records =
        (run program (collecting program.libraries) #[]).state.toList) := by
  rcases Option.map_eq_some_iff.mp ends with ⟨count, -, rfl⟩
  rw [conclude]
  split
  next => exact .inl ⟨rfl, rfl⟩
  next =>
    split
    next => exact .inr ⟨rfl, rfl⟩
    next => exact .inl ⟨rfl, rfl⟩

theorem records_interpret_of_going {memory : Memory} {limit : Nat} {outcome : Outcome}
    (ends : interpret memory program limit = some outcome)
    (going : outcome.abandoned = false) :
    outcome.records =
      (run program (collecting program.libraries) #[]).state.toList := by
  rcases records_of_interpret ends with ⟨gaveUp, -⟩ | ⟨-, records⟩
  · cases going.symm.trans gaveUp
  · exact records

/-- Every record that is returned was added by a step of the trace. -/
theorem exists_step_of_mem_records {memory : Memory} {limit : Nat} {outcome : Outcome}
    {record : Record} (ends : interpret memory program limit = some outcome)
    (member : record ∈ outcome.records) :
    ∃ step ∈ program.trace, record ∈ step.records program := by
  rcases records_of_interpret ends with ⟨-, records⟩ | ⟨-, records⟩
  · rw [records] at member
    cases member
  · rw [records, run_collecting] at member
    exact List.mem_flatMap.mp member

/-! ## Invariants -/

/-- Each step goes on from the registers after the one before. -/
def Linked (program : Program) : (registers : Registers) → List Step → Prop
  | _, [] => True
  | registers, step :: steps =>
      step.before = registers ∧ Linked program (step.after program) steps

theorem linked_traceFrom (cursor : Cursor) (registers : Registers) :
    Linked program registers (traceFrom program cursor registers) := by
  fun_induction traceFrom program cursor registers with
  | case1 => trivial
  | case2 cursor registers running instruction next decoded ih =>
      constructor
      · rfl
      · exact ih
  | case3 =>
      constructor
      · rfl
      · trivial

/-- What holds at the start and is kept by each step holds before every step, where it
may speak of the steps taken so far. -/
theorem Linked.invariant {registers : Registers} {steps : List Step}
    (linked : Linked program registers steps) (keeps : List Step → Registers → Prop)
    (preserved : ∀ history step, keeps history step.before →
      keeps (history ++ [step]) (step.after program))
    (history : List Step) (start : keeps history registers)
    {earlier later : List Step} {step : Step}
    (split : steps = earlier ++ step :: later) :
    keeps (history ++ earlier) step.before := by
  induction earlier generalizing registers history steps with
  | nil =>
      subst split
      rw [List.append_nil, linked.1]
      exact start
  | cons first earlier ih =>
      subst split
      rcases linked with ⟨before, rest⟩
      subst before
      have next := ih rest (history ++ [first]) (preserved history first start) rfl
      rwa [List.append_assoc] at next

end Linkedit.Bind
