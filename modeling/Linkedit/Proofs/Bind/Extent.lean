import Linkedit.Proofs.Bind.Alike
import Linkedit.Proofs.Bind.Budget
import Linkedit.Proofs.Bind.Decoding
import Linkedit.Proofs.Bind.Passes
import Linkedit.Proofs.Bind.Undecodable

/-!
# How far a run reads

A run decodes one instruction behind the other, each of at least one byte, so it ends
within the stream. What it has decoded depends on the bytes that it has passed over, and
not on those that come behind. So where it stops for good, the rest of the stream may be
anything.
-/

namespace Linkedit.Bind

variable {program : Program} {opcodes : Bytes}

/-! ## Places of steps -/

/-- Steps that are decoded from a position of a stream on, one behind the other. Each
takes up at least one byte, and one that cannot be decoded is the last. -/
inductive DecodedFrom (opcodes : Bytes) : Nat → List Step → Prop where
  | nil (position : Nat) : DecodedFrom opcodes position []
  | cons {step : Step} {steps : List Step} {instruction : Instruction} {next : Nat}
      (decoded : Instruction.decode ⟨opcodes, step.offset⟩ =
        .ok (instruction, ⟨opcodes, next⟩))
      (held : step.decoded = .ok instruction) (forward : step.offset < next)
      (inside : next ≤ opcodes.size) (rest : DecodedFrom opcodes next steps) :
      DecodedFrom opcodes step.offset (step :: steps)
  | failed {step : Step} {error : Error}
      (failed : Instruction.decode ⟨opcodes, step.offset⟩ = .error error)
      (held : step.decoded = .error error) (inside : step.offset < opcodes.size) :
      DecodedFrom opcodes step.offset [step]

theorem decodedFrom_traceFrom (cursor : Cursor) (registers : Registers) :
    DecodedFrom cursor.data cursor.position (traceFrom program cursor registers) := by
  fun_induction traceFrom program cursor registers with
  | case1 cursor registers stopped => exact .nil cursor.position
  | case2 cursor registers running instruction next decoded ih =>
      have advances := Instruction.decode_advances decoded
      rw [advances.data_eq] at ih
      have whole : next = ⟨cursor.data, next.position⟩ := by rw [← advances.data_eq]
      exact @DecodedFrom.cons cursor.data
        ⟨cursor.position, .ok instruction, registers⟩ _
        instruction next.position (whole ▸ decoded) rfl advances.position_lt
        advances.position_le ih
  | case3 cursor registers running error failed =>
      have inside : cursor.position < cursor.data.size := by
        simp only [Cursor.atEnd, Bool.or_eq_true, decide_eq_true_eq, not_or] at running
        omega
      exact @DecodedFrom.failed cursor.data
        ⟨cursor.position, .error error, registers⟩ error failed rfl inside

namespace DecodedFrom

variable {position : Nat} {steps : List Step}

/-- Each step takes up at least one byte, so there are no more steps than bytes. -/
theorem length_le (decodes : DecodedFrom opcodes position steps) :
    steps.length ≤ opcodes.size - position := by
  induction decodes with
  | nil => exact Nat.zero_le _
  | cons decoded held forward inside rest ih =>
      rw [List.length_cons]
      omega
  | failed failed held inside =>
      rw [List.length_singleton]
      omega

theorem bounds (decodes : DecodedFrom opcodes position steps) :
    ∀ step ∈ steps, position ≤ step.offset ∧ step.offset < opcodes.size := by
  induction decodes with
  | nil => simp
  | cons decoded held forward inside rest ih =>
      intro step member
      rcases List.mem_cons.mp member with rfl | later
      · exact ⟨Nat.le_refl _, Nat.lt_of_lt_of_le forward inside⟩
      · have behind := ih step later
        omega
  | failed failed held inside =>
      intro step member
      rw [List.mem_singleton.mp member]
      exact ⟨Nat.le_refl _, inside⟩

theorem ascending (decodes : DecodedFrom opcodes position steps) :
    steps.Pairwise fun first second => first.offset < second.offset := by
  induction decodes with
  | nil => exact List.Pairwise.nil
  | cons decoded held forward inside rest ih =>
      apply List.pairwise_cons.mpr
      refine ⟨?_, ih⟩
      intro step later
      exact Nat.lt_of_lt_of_le forward (rest.bounds step later).1
  | failed => exact List.pairwise_singleton _ _

theorem of_isPrefix {first : List Step} (isPrefix : first <+: steps)
    (decodes : DecodedFrom opcodes position steps) :
    DecodedFrom opcodes position first := by
  induction decodes generalizing first with
  | nil =>
      rw [List.prefix_nil.mp isPrefix]
      exact .nil _
  | cons decoded held forward inside rest ih =>
      rcases List.prefix_cons_iff.mp isPrefix with rfl | ⟨others, rfl, early⟩
      · exact .nil _
      · exact .cons decoded held forward inside (ih early)
  | failed failed held inside =>
      rcases List.prefix_cons_iff.mp isPrefix with rfl | ⟨others, rfl, early⟩
      · exact .nil _
      · rw [List.prefix_nil.mp early]
        exact .failed failed held inside

/-- A step that cannot be decoded is the last. -/
theorem eq_nil_of_error {earlier later : List Step} {step : Step} {error : Error}
    (decodes : DecodedFrom opcodes position (earlier ++ step :: later))
    (failed : step.decoded = .error error) :
    later = [] ∧ Instruction.decode ⟨opcodes, step.offset⟩ = .error error := by
  induction earlier generalizing position with
  | nil =>
      cases decodes with
      | cons decoded held => cases held.symm.trans failed
      | failed fails held =>
          cases held.symm.trans failed
          exact ⟨rfl, fails⟩
  | cons first earlier ih =>
      rw [List.cons_append] at decodes
      generalize whole : earlier ++ step :: later = others at decodes ih
      cases decodes with
      | cons decoded held forward inside rest => exact ih rest
      | failed => simp at whole

end DecodedFrom

/-! ## Diagnostics of a pass -/

theorem diagnostics_foldl_observeAll (program : Program) (limit : Nat) (tally : Tally)
    (steps : List Step) :
    (steps.foldl (fun tally step =>
        (counting limit).observeAll tally step.offset (step.events program))
      tally).diagnostics.toList = tally.diagnostics.toList ++
          diagnosticsOf program steps := by
  induction steps generalizing tally with
  | nil => simp
  | cons step steps ih =>
      rw [List.foldl_cons, ih, diagnosticsOf_cons, ← List.append_assoc]
      exact congrArg (· ++ diagnosticsOf program steps)
        (diagnostics_observeStep tally step)

/-- The diagnostics of the first pass are those of its steps. -/
theorem diagnostics_run_counting (program : Program) (limit : Nat) :
    (run program (counting limit) {}).state.diagnostics.toList =
      diagnosticsOf program (steps program (counting limit) {}) := by
  rw [run, state_runFrom, diagnostics_foldl_observeAll]
  rfl

theorem offset_of_mem_diagnostics {step : Step} {diagnostic : Diagnostic}
    (member : diagnostic ∈ step.diagnostics program) :
    diagnostic.offset = step.offset := by
  rcases List.mem_filterMap.mp member with ⟨event, -, found⟩
  cases event with
  | single | run => cases found
  | problem problem =>
      cases found
      rfl

/-- Diagnostics of steps that ascend do not descend. -/
theorem pairwise_offset_diagnosticsOf {steps : List Step}
    (ascending : steps.Pairwise fun first second => first.offset < second.offset) :
    (diagnosticsOf program steps).Pairwise fun first second =>
      first.offset ≤ second.offset := by
  apply List.pairwise_flatMap.mpr
  constructor
  · intro step _
    apply List.pairwise_of_forall_mem_list
    intro left inLeft right inRight
    rw [offset_of_mem_diagnostics inLeft, offset_of_mem_diagnostics inRight]
  · apply ascending.imp
    intro first second before left inLeft right inRight
    rw [offset_of_mem_diagnostics inLeft, offset_of_mem_diagnostics inRight]
    exact Nat.le_of_lt before

/-! ## Bytes behind the end of a run -/

/-- A stream that has the same bytes before a step is run alike up to the step. -/
theorem traceFrom_of_agree {cursor : Cursor} {registers : Registers}
    {earlier later : List Step} {step : Step} {other : Bytes}
    (whole : traceFrom program cursor registers = earlier ++ step :: later)
    (same : ∀ index < step.offset, other[index]? = cursor.data[index]?) :
    traceFrom program ⟨other, cursor.position⟩ registers =
      earlier ++ traceFrom program ⟨other, step.offset⟩ step.before := by
  induction earlier generalizing cursor registers with
  | nil =>
      rcases traceFrom_eq_cons whole with ⟨offset, before, -⟩
      rw [offset, before, List.nil_append]
  | cons first earlier ih =>
      rw [List.cons_append] at whole
      rcases traceFrom_eq_cons whole with
        ⟨offset, before, running,
          ⟨instruction, next, decoded, held, rest⟩ | ⟨_, _, _, rest⟩⟩
      · have goesOn :
            DecodedFrom next.data next.position (earlier ++ step :: later) := by
          rw [rest]
          exact decodedFrom_traceFrom next _
        have behind : next.position ≤ step.offset := (goesOn.bounds step (by simp)).1
        have again := Instruction.decode_of_agree decoded fun index before =>
          same index (Nat.lt_of_lt_of_le before behind)
        have firstStep : first = ⟨cursor.position, .ok instruction, registers⟩ := by
          rw [← offset, ← before, ← held]
        have after :
            first.after program = (execute program registers instruction).1 := by
          rw [firstStep]
          rfl
        rw [← (Instruction.decode_advances decoded).data_eq] at same
        rw [traceFrom_of_decode running again, ← after, ih rest.symm same, firstStep]
        rfl
      · simp at rest

/-- A trace goes on from each of its steps. -/
theorem traceFrom_of_split {cursor : Cursor} {registers : Registers}
    {earlier later : List Step} {step : Step}
    (whole : traceFrom program cursor registers = earlier ++ step :: later) :
    traceFrom program ⟨cursor.data, step.offset⟩ step.before = step :: later := by
  have again := traceFrom_of_agree whole fun _ _ => rfl
  exact List.append_cancel_left (again.symm.trans whole)

/-- A step that ends a run by its opcode: the end of the program, or an opcode that
names no operation. -/
def Step.IsFinal (step : Step) : Prop :=
  step.decoded = .ok .done ∨
    ∃ code, step.decoded = .error (.parse step.offset (.unknownBindOpcode code))

/-- Nothing follows such a step, in any stream that has the same opcode there. -/
theorem traceFrom_of_isFinal {data other : Bytes} {registers : Registers} {step : Step}
    {later : List Step} (final : step.IsFinal)
    (whole : traceFrom program ⟨data, step.offset⟩ registers = step :: later)
    (same : other[step.offset]? = data[step.offset]?) :
    traceFrom program ⟨other, step.offset⟩ registers = [step] := by
  rcases step with ⟨offset, decoded, before⟩
  rcases traceFrom_eq_cons whole with
    ⟨-, rfl, running, ⟨instruction, next, reads, rfl, -⟩ | ⟨error, fails, rfl, -⟩⟩
  · rcases final with isDone | ⟨code, failed⟩
    · cases isDone
      rcases Instruction.exists_isEnd_of_decode reads with ⟨opcode, found, isEnd⟩
      have again :=
        @Instruction.decode_of_isEnd ⟨other, offset⟩ opcode (same.trans found) isEnd
      rw [traceFrom_of_decode running again, traceFrom_of_done rfl]
    · cases failed
  · rcases final with isDone | ⟨code, failed⟩
    · cases isDone
    · obtain rfl : error = .parse offset (.unknownBindOpcode code) :=
        Except.error.inj failed
      rcases Instruction.decode_eq_error fails with
        ⟨opcode, found, unknown, sameError⟩ | ⟨place, operand⟩
      · have again :=
          @Instruction.decode_of_isUnknown ⟨other, offset⟩ opcode
            (same.trans found) unknown
        rw [← sameError] at again
        exact traceFrom_of_error running (same.trans found) again
      · rcases operand with cut | large | unended
        · cases cut
        · cases large
        · cases unended

/-- What comes behind such a step makes no difference. -/
theorem trace_of_agree {step : Step} (inTrace : step ∈ program.trace)
    (final : step.IsFinal)
    (same : ∀ index ≤ step.offset, opcodes[index]? = program.opcodes[index]?) :
    ({ program with opcodes } : Program).trace = program.trace := by
  rcases List.append_of_mem inTrace with ⟨earlier, later, whole⟩
  have rest : traceFrom program ⟨program.opcodes, step.offset⟩ step.before =
      step :: later :=
    traceFrom_of_split whole
  have here : traceFrom program ⟨program.opcodes, step.offset⟩ step.before = [step] :=
    traceFrom_of_isFinal final rest rfl
  have there : traceFrom program ⟨opcodes, step.offset⟩ step.before = [step] :=
    traceFrom_of_isFinal final rest (same step.offset (Nat.le_refl _))
  have moved := traceFrom_of_agree whole fun index before =>
    same index (Nat.le_of_lt before)
  calc ({ program with opcodes } : Program).trace
      = traceFrom program ⟨opcodes, 0⟩ {} :=
        (alike_withOpcodes program opcodes).traceFrom_eq _ _
    _ = earlier ++ [step] := by rw [moved, there]
    _ = program.trace := by rw [whole, ← rest, here]

/-! ## Ends of runs -/

/-- A pass takes one instruction behind the other, and no more than there are bytes. -/
theorem decodedFrom_steps {σ : Type} (program : Program) (pass : Pass σ) (start : σ) :
    DecodedFrom program.opcodes 0 (steps program pass start) :=
  .of_isPrefix (stepsFrom_isPrefix pass _ _ _)
    (decodedFrom_traceFrom ⟨program.opcodes, 0⟩ {})

/-- The diagnostics of an outcome are those of the first pass, and maybe that there is
no room for the records. -/
theorem diagnostics_interpret {memory : Memory} {program : Program} {limit : Nat}
    {outcome : Outcome} (ends : interpret memory program limit = some outcome) :
    ∃ rest, outcome.diagnostics =
        (run program (counting limit) {}).state.diagnostics.toList ++ rest ∧
      (rest = [] ∨ ∃ count, memory.reserves count = false ∧
        rest = [⟨0, .tooManyRecords count⟩]) := by
  rcases Option.map_eq_some_iff.mp ends with ⟨count, -, rfl⟩
  rw [conclude]
  split
  next => exact ⟨[], (List.append_nil _).symm, .inl rfl⟩
  next =>
    split
    next => exact ⟨[], (List.append_nil _).symm, .inl rfl⟩
    next full =>
      exact ⟨_, rfl, .inr ⟨_, (Bool.not_eq_true _).mp full, rfl⟩⟩

/-- A first pass that comes upon an instruction that cannot be decoded ends there. It
has one diagnostic for it. Unless this is one too many, the records of all steps before
are kept, if there is room for them. -/
structure EndsAt (memory : Memory) (program : Program) (limit : Nat)
    (earlier : List Step) (step : Step) (error : Error) : Prop where
  cause : IsFailureAt program.opcodes step.offset error
  diagnostics : (run program (counting limit) {}).state.diagnostics.toList =
    diagnosticsOf program earlier ++ [⟨step.offset, .undecodable error⟩]
  collected : (run program (counting limit) {}).abandoned = false →
    (run program (collecting program.libraries) #[]).state.toList =
      earlier.flatMap (Step.records program)
  kept : (run program (counting limit) {}).abandoned = false →
    ∀ count ∈ program.counted, ∃ outcome ∈ interpret memory program limit,
      outcome.abandoned = !memory.reserves count.toNat ∧
      outcome.records = if memory.reserves count.toNat then
        earlier.flatMap (Step.records program) else []

theorem endsAt_of_steps (memory : Memory) {limit : Nat} {earlier later : List Step}
    {step : Step} {error : Error}
    (whole : steps program (counting limit) {} = earlier ++ step :: later)
    (failed : step.decoded = .error error) :
    later = [] ∧ EndsAt memory program limit earlier step error := by
  have decodes := decodedFrom_steps program (counting limit) {}
  rw [whole] at decodes
  rcases decodes.eq_nil_of_error failed with ⟨rfl, fails⟩
  have events : step.events program = [.problem (.undecodable error)] := by
    rw [Step.events, failed]
  have none : step.records program = [] := by
    rw [Step.records, events]
    rfl
  have one : step.diagnostics program = [⟨step.offset, .undecodable error⟩] := by
    rw [Step.diagnostics, events]
    rfl
  have records : (run program (counting limit) {}).abandoned = false →
      program.trace.flatMap (Step.records program) =
        earlier.flatMap (Step.records program) := by
    intro going
    rw [← steps_eq_trace going, whole, List.flatMap_append, List.flatMap_cons, none]
    simp
  refine ⟨rfl, Instruction.decode_eq_error fails, ?diagnostics, ?collected, ?kept⟩
  case diagnostics =>
    rw [diagnostics_run_counting, whole, diagnosticsOf_append, diagnosticsOf_cons, one]
    rfl
  case collected =>
    intro going
    rw [run_collecting, records going]
  case kept =>
    intro going count counts
    rw [interpret_of_going memory going, interpret_zero, Option.mem_def.mp counts,
      Option.map_some, records going]
    refine ⟨_, rfl, ?_⟩
    split
    next room => exact ⟨by rw [room]; rfl, rfl⟩
    next full => exact ⟨by rw [(Bool.not_eq_true _).mp full]; rfl, rfl⟩

/-- A run goes through its program in order and ends for good, whichever pass looks at
the events. What cannot be decoded ends it, and no byte behind the end of the program or
behind an unknown opcode matters. -/
theorem run_ends_for_good (memory : Memory) (program : Program) (limit : Nat) :
    (∀ {σ : Type} (pass : Pass σ) (start : σ),
      (run program pass start).state = (steps program pass start).foldl
        (fun state step =>
          pass.observeAll state step.offset (step.events program)) start ∧
      DecodedFrom program.opcodes 0 (steps program pass start) ∧
      (steps program pass start).length ≤ program.opcodes.size) ∧
    ((run program (counting limit) {}).state.diagnostics.toList.Pairwise
        fun first second => first.offset ≤ second.offset) ∧
    (∀ diagnostic ∈ (run program (counting limit) {}).state.diagnostics.toList,
      diagnostic.offset < program.opcodes.size ∧
      ∃ step ∈ steps program (counting limit) {}, step.offset = diagnostic.offset) ∧
    (∀ outcome ∈ interpret memory program limit, ∃ rest, outcome.diagnostics =
        (run program (counting limit) {}).state.diagnostics.toList ++ rest ∧
      (rest = [] ∨ ∃ count, memory.reserves count = false ∧
        rest = [⟨0, .tooManyRecords count⟩])) ∧
    (∀ earlier step later error,
      steps program (counting limit) {} = earlier ++ step :: later →
      step.decoded = .error error →
        later = [] ∧ EndsAt memory program limit earlier step error) ∧
    (∀ step ∈ program.trace, step.IsFinal → ∀ opcodes : Bytes,
      (∀ index ≤ step.offset, opcodes[index]? = program.opcodes[index]?) →
      interpret memory { program with opcodes } limit =
        interpret memory program limit) := by
  have decodes := decodedFrom_steps program (counting limit) {}
  refine ⟨?passes, ?ordered, ?places, fun _ => diagnostics_interpret, ?undecoded,
    ?final⟩
  case passes =>
    intro σ pass start
    have inOrder := decodedFrom_steps program pass start
    exact ⟨state_runFrom pass _ _ start, inOrder, inOrder.length_le⟩
  case ordered =>
    rw [diagnostics_run_counting]
    exact pairwise_offset_diagnosticsOf decodes.ascending
  case places =>
    intro diagnostic member
    rw [diagnostics_run_counting] at member
    rcases List.mem_flatMap.mp member with ⟨step, inSteps, found⟩
    rw [offset_of_mem_diagnostics found]
    exact ⟨(decodes.bounds step inSteps).2, step, inSteps, rfl⟩
  case undecoded =>
    intro earlier step later error whole failed
    exact endsAt_of_steps memory whole failed
  case final =>
    intro step inTrace final opcodes same
    have sameTrace := trace_of_agree inTrace final same
    exact (alike_withOpcodes program opcodes).interpret_eq_of_trace
      sameTrace memory limit

/-- A program that binds a slot, comes upon an unknown opcode, and would bind another
slot. -/
def brokenOff : Program where
  opcodes := #[0x11, 0x40, 95, 0, 0x70, 0, 0x90, 0xE0, 0x90]
  libraries := ["/usr/lib/libSystem.B.dylib"]
  segments := [⟨"__DATA", 4096, 64, 0, 56, []⟩]
  width := .bits64
  image := #[]

theorem run_ends_for_good_brokenOff :
    (∃ earlier step later, steps brokenOff (counting 20) {} = earlier ++ step :: later ∧
      step.decoded = .error (.parse 7 (.unknownBindOpcode 0xE0)) ∧ later = [] ∧
      ∃ outcome ∈ interpret .ofProcess brokenOff 20, outcome.records.length = 1 ∧
        outcome.records = earlier.flatMap (Step.records brokenOff)) ∧
    interpret .ofProcess
        { brokenOff with opcodes := #[0x11, 0x40, 95, 0, 0x70, 0, 0x90, 0xE0] } 20 =
      interpret .ofProcess brokenOff 20 := by
  have going : (run brokenOff (counting 20) {}).abandoned = false := by decide +kernel
  have one : brokenOff.counted = some 1 := by decide +kernel
  have single : (interpret .ofProcess brokenOff 20).map
      (fun outcome => outcome.records.length) = some 1 := by decide +kernel
  have ends : (steps brokenOff (counting 20) {}).getLast?.map
      (fun step => (step.offset, step.decoded)) =
      some (7, .error (.parse 7 (.unknownBindOpcode 0xE0))) := by decide +kernel
  rcases Option.map_eq_some_iff.mp ends with ⟨step, last, same⟩
  rcases List.getLast?_eq_some_iff.mp last with ⟨earlier, whole⟩
  rcases Prod.mk.inj same with ⟨offset, failed⟩
  obtain ⟨-, -, -, -, undecoded, final⟩ := run_ends_for_good .ofProcess brokenOff 20
  refine ⟨⟨earlier, step, [], whole, failed, rfl, ?kept⟩, ?cut⟩
  case kept =>
    have kept := (undecoded earlier step [] _ whole failed).2.kept going
    rcases kept 1 one with ⟨outcome, ends, -, records⟩
    rw [Option.mem_def.mp ends] at single
    exact ⟨outcome, ends, Option.some.inj single, records⟩
  case cut =>
    have inTrace : step ∈ brokenOff.trace := by
      rw [← steps_eq_trace going, whole]
      simp
    apply final step inTrace (.inr ⟨0xE0, by rw [offset, failed]⟩)
    rw [offset]
    decide

end Linkedit.Bind
