import Linkedit.Proofs.Bind.Events
import Linkedit.Proofs.Bind.Tally
import Linkedit.Proofs.Bind.Trace
import Mathlib.Data.List.Infix

/-!
# The two passes over a program

A pass only watches the machine, so two passes that do not give up take the same steps
and see the same events. The first pass counts what the second collects, as long as
there are fewer binds than a full count.
-/

namespace Linkedit.Bind

variable {program : Program} {σ : Type}

/-! ## Steps of a pass -/

/-- The steps that a pass takes from `cursor` on. -/
def stepsFrom (program : Program) (pass : Pass σ) (cursor : Cursor)
    (registers : Registers) (state : σ) : List Step :=
  if registers.done || cursor.atEnd then []
  else
    match _decoded : Instruction.decode cursor with
    | .ok (instruction, next) =>
        let (after, events) := execute program registers instruction
        let state := pass.observeAll state cursor.position events
        ⟨cursor.position, .ok instruction, registers⟩ ::
          if pass.exhausted state then [] else stepsFrom program pass next after state
    | .error error => [⟨cursor.position, .error error, registers⟩]
termination_by cursor.data.size - cursor.position
decreasing_by exact Instruction.left_lt_of_decode _decoded

/-- The steps that a pass takes over a whole program. -/
def steps (program : Program) (pass : Pass σ) (start : σ) : List Step :=
  stepsFrom program pass ⟨program.opcodes, 0⟩ {} start

theorem stepsFrom_of_decode {pass : Pass σ} {cursor next : Cursor}
    {registers : Registers} {state : σ} {instruction : Instruction}
    (running : ¬ (registers.done || cursor.atEnd) = true)
    (decoded : Instruction.decode cursor = .ok (instruction, next))
    (going : ¬ pass.exhausted (pass.observeAll state cursor.position
      (execute program registers instruction).2) = true) :
    stepsFrom program pass cursor registers state =
      ⟨cursor.position, .ok instruction, registers⟩ ::
        stepsFrom program pass next (execute program registers instruction).1
          (pass.observeAll state cursor.position
            (execute program registers instruction).2) := by
  rw [stepsFrom, if_neg running]
  split
  next other otherNext otherDecoded =>
    cases decoded.symm.trans otherDecoded
    dsimp only
    rw [if_neg going]
  next error failed => cases decoded.symm.trans failed

/-- The step after which a pass gives up is its last. -/
theorem stepsFrom_of_exhausted {pass : Pass σ} {cursor next : Cursor}
    {registers : Registers} {state : σ} {instruction : Instruction}
    (running : ¬ (registers.done || cursor.atEnd) = true)
    (decoded : Instruction.decode cursor = .ok (instruction, next))
    (exhausted : pass.exhausted (pass.observeAll state cursor.position
      (execute program registers instruction).2) = true) :
    stepsFrom program pass cursor registers state =
      [⟨cursor.position, .ok instruction, registers⟩] := by
  rw [stepsFrom, if_neg running]
  split
  next other otherNext otherDecoded =>
    cases decoded.symm.trans otherDecoded
    dsimp only
    rw [if_pos exhausted]
  next error failed => cases decoded.symm.trans failed

theorem stepsFrom_of_error {pass : Pass σ} {cursor : Cursor} {registers : Registers}
    {state : σ} {error : Error} (running : ¬ (registers.done || cursor.atEnd) = true)
    (failed : Instruction.decode cursor = .error error) :
    stepsFrom program pass cursor registers state =
      [⟨cursor.position, .error error, registers⟩] := by
  rw [stepsFrom, if_neg running]
  split
  next instruction next decoded => cases failed.symm.trans decoded
  next other otherFailed =>
    cases failed.symm.trans otherFailed
    rfl

/-- A pass that does not give up takes every step of the trace. -/
theorem stepsFrom_eq_traceFrom (pass : Pass σ) {cursor : Cursor} {registers : Registers}
    {state : σ}
    (going : (pass.follow program registers state
      (traceFrom program cursor registers)).abandoned = false) :
    stepsFrom program pass cursor registers state =
      traceFrom program cursor registers := by
  fun_induction traceFrom program cursor registers generalizing state with
  | case1 cursor registers stopped => rw [stepsFrom, if_pos stopped]
  | case2 cursor registers running instruction next decoded ih =>
      rw [Pass.follow] at going
      split at going
      next => cases going
      next more =>
        rw [stepsFrom_of_decode running decoded more]
        exact congrArg _ (ih going)
  | case3 cursor registers running error failed =>
      exact stepsFrom_of_error running failed

/-- A pass takes the first steps of the trace. -/
theorem stepsFrom_isPrefix (pass : Pass σ) (cursor : Cursor)
    (registers : Registers) (state : σ) :
    stepsFrom program pass cursor registers state <+:
      traceFrom program cursor registers := by
  fun_induction traceFrom program cursor registers generalizing state with
  | case1 cursor registers stopped =>
      rw [stepsFrom, if_pos stopped]
  | case2 cursor registers running instruction next decoded ih =>
      by_cases exhausted : pass.exhausted (pass.observeAll state cursor.position
          (execute program registers instruction).2) = true
      · rw [stepsFrom_of_exhausted running decoded exhausted]
        exact (List.prefix_cons_inj _).mpr List.nil_prefix
      · rw [stepsFrom_of_decode running decoded exhausted]
        exact (List.prefix_cons_inj _).mpr (ih _)
  | case3 cursor registers running error failed =>
      rw [stepsFrom_of_error running failed]

/-- What a pass makes of a run it makes of the events of its steps. -/
theorem state_runFrom (pass : Pass σ) (cursor : Cursor)
    (registers : Registers) (state : σ) :
    (runFrom program pass cursor registers state).state =
      (stepsFrom program pass cursor registers state).foldl
        (fun state step => pass.observeAll state step.offset (step.events program))
        state := by
  rw [runFrom_eq_follow]
  fun_induction traceFrom program cursor registers generalizing state with
  | case1 cursor registers stopped =>
      rw [stepsFrom, if_pos stopped]
      rfl
  | case2 cursor registers running instruction next decoded ih =>
      rw [Pass.follow]
      by_cases exhausted : pass.exhausted (pass.observeAll state cursor.position
          (execute program registers instruction).2) = true
      · rw [stepsFrom_of_exhausted running decoded exhausted]
        exact congrArg Ending.state (if_pos exhausted)
      · rw [stepsFrom_of_decode running decoded exhausted]
        exact (congrArg Ending.state (if_neg exhausted)).trans (ih _)
  | case3 cursor registers running error failed =>
      rw [stepsFrom_of_error running failed, Pass.follow]
      split
      next => rfl
      next => rfl

/-- A pass over some steps that does not give up sees all their events. -/
theorem follow_of_going (pass : Pass σ) {registers : Registers} {state : σ}
    {steps : List Step}
    (going : (pass.follow program registers state steps).abandoned = false) :
    pass.follow program registers state steps =
      ⟨steps.foldl (fun state step =>
          pass.observeAll state step.offset (step.events program)) state,
        steps.foldl (fun _ step => step.after program) registers, false⟩ := by
  induction steps generalizing registers state with
  | nil => rfl
  | cons step steps ih =>
      rw [Pass.follow] at going ⊢
      split at going
      next => cases going
      next more =>
        rw [if_neg more]
        exact ih going

/-- The second pass never gives up. -/
theorem going_collecting (program : Program) (libraries : List String)
    (found : Array Record) :
    (run program (collecting libraries) found).abandoned = false := by
  rw [run_eq_follow]
  generalize ({} : Registers) = registers
  induction program.trace generalizing registers found with
  | nil => rfl
  | cons step steps ih =>
      rw [Pass.follow]
      exact ih _ _

theorem steps_eq_trace {pass : Pass σ} {start : σ}
    (going : (run program pass start).abandoned = false) :
    steps program pass start = program.trace := by
  rw [run_eq_follow] at going
  exact stepsFrom_eq_traceFrom pass going

/-- Passes that do not give up end with the same registers. -/
theorem registers_run_of_going {pass : Pass σ} {start : σ}
    (going : (run program pass start).abandoned = false) :
    (run program pass start).registers =
      program.trace.foldl (fun _ step => step.after program) {} := by
  rw [run_eq_follow] at going ⊢
  rw [follow_of_going pass going]

/-! ## Events of a run -/

/-- What happens in a run, in order. -/
def Program.events (program : Program) : List Event :=
  program.trace.flatMap (Step.events program)

theorem inSegment_of_mem_events {event : Event} (member : event ∈ program.events) :
    event.InSegment := by
  rcases List.mem_flatMap.mp member with ⟨step, -, isEvent⟩
  rw [Step.events] at isEvent
  split at isEvent
  next instruction _ =>
    exact (gives_execute program step.before instruction).inSegment event isEvent
  next =>
    cases List.mem_singleton.mp isEvent
    trivial

/-- The first pass counts the events of the run, if it does not give up. -/
theorem records_run_counting {limit : Nat}
    (going : (run program (counting limit) {}).abandoned = false) :
    (run program (counting limit) {}).state.records =
      program.events.foldlM countEvent 0 := by
  rw [run_eq_follow] at going ⊢
  rw [follow_of_going _ going]
  exact records_foldl_observeStep program {} program.trace

/-- The second pass collects a record for each slot that is bound. -/
theorem records_run_collecting (program : Program) :
    (run program (collecting program.libraries) #[]).state.toList =
      program.events.flatMap fun event =>
        event.slots.map (Slot.record program.libraries) := by
  rw [run_collecting, Program.events, List.flatMap_assoc]
  rfl

theorem size_run_collecting (program : Program) :
    (run program (collecting program.libraries) #[]).state.size =
      bindCount program.events := by
  rw [← Array.length_toList, records_run_collecting, length_flatMap_slots]

/-! ## Agreement -/

/-- The records that an event stands for. A run stands for one record at each of its
offsets. -/
def Event.expansion (libraries : List String) : Event → List Record
  | .single slot => [slot.record libraries]
  | .run first count stride =>
      (List.range count).map fun index =>
        let offset := UInt64.ofNat (first.offset.toNat + index * stride)
        { first with offset }.record libraries
  | .problem _ => []

/-- The record at a place of a run has the offset of that place, which is not cut off at
64 bits. -/
theorem expansion_run_getElem? {libraries : List String} {first : Slot}
    {count stride index : Nat} (inSegment : (Event.run first count stride).InSegment)
    (inRun : index < count) :
    first.offset.toNat + index * stride < 2 ^ 64 ∧
      ∃ record, ((Event.run first count stride).expansion libraries)[index]? =
        some record ∧
        record.segmentOffset.toNat = first.offset.toNat + index * stride := by
  have fits := (inSegment.offset_advance inRun).1
  have found : ((Event.run first count stride).expansion libraries)[index]? =
      some (Slot.record libraries
        { first with
          offset := UInt64.ofNat (first.offset.toNat + index * stride) }) := by
    rw [Event.expansion, List.getElem?_map, List.getElem?_range inRun, Option.map_some]
  exact ⟨fits, _, found, UInt64.toNat_ofNat_of_lt' fits⟩

theorem expansion_eq_slots {event : Event} (libraries : List String)
    (inSegment : event.InSegment) :
    event.expansion libraries = event.slots.map (Slot.record libraries) := by
  cases event with
  | single slot => rfl
  | problem problem => rfl
  | run first count stride =>
      rw [Event.expansion, Event.slots, List.map_map]
      apply List.map_congr_left
      intro index inRange
      have advanced := inSegment.offset_advance (List.mem_range.mp inRange)
      have same : first.advance (index * stride) =
          { first with
            offset := UInt64.ofNat (first.offset.toNat + index * stride) } := by
        rw [← advanced.2, UInt64.ofNat_toNat]
        rfl
      rw [Function.comp_apply, same]

/-- What the first pass counts, the second collects: if the first pass does not give up
and counts fewer than `2 ^ 64 - 1` binds, both take the same steps with the same
registers, and the records are those that the events stand for, in order, as many as
were counted. -/
theorem passes_agree (memory : Memory) (program : Program) (limit : Nat)
    (going : (run program (counting limit) {}).abandoned = false)
    (few : bindCount program.events < 2 ^ 64 - 1) :
    steps program (counting limit) {} = program.trace ∧
      steps program (collecting program.libraries) #[] = program.trace ∧
      (run program (collecting program.libraries) #[]).registers =
        (run program (counting limit) {}).registers ∧
      (∃ count, (run program (counting limit) {}).state.records = some count ∧
        count.toNat = bindCount program.events ∧
        (run program (collecting program.libraries) #[]).state.size = count.toNat) ∧
      (run program (collecting program.libraries) #[]).state.toList =
        program.events.flatMap (Event.expansion program.libraries) ∧
      (∀ first count stride, Event.run first count stride ∈ program.events →
        ∀ index < count, first.offset.toNat + index * stride < 2 ^ 64 ∧
          ∃ record,
              ((Event.run first count stride).expansion program.libraries)[index]? =
                some record ∧
            record.segmentOffset.toNat = first.offset.toNat + index * stride) ∧
      (memory.reserves (bindCount program.events) = true →
        ∃ outcome ∈ interpret memory program limit, outcome.abandoned = false ∧
          outcome.records =
            (run program (collecting program.libraries) #[]).state.toList) := by
  have collects := going_collecting program program.libraries #[]
  rcases foldlM_countEvent_zero (singlesFit_of_bindCount_lt few) with
      ⟨count, counts, total⟩
  have counted := (records_run_counting going).trans counts
  rw [Nat.min_eq_left (by omega)] at total
  refine ⟨steps_eq_trace going, steps_eq_trace collects, ?registers, ?count, ?records,
    ?runs, ?outcome⟩
  case registers => rw [registers_run_of_going collects, registers_run_of_going going]
  case count => exact ⟨count, counted, total, by rw [size_run_collecting, total]⟩
  case records =>
    rw [records_run_collecting]
    apply List.flatMap_congr
    intro event member
    exact (expansion_eq_slots _ (inSegment_of_mem_events member)).symm
  case runs =>
    intro first count stride member index inRun
    exact expansion_run_getElem? (inSegment_of_mem_events member) inRun
  case outcome =>
    intro room
    refine ⟨_, Option.map_eq_some_iff.mpr ⟨count, counted, rfl⟩, ?_⟩
    rw [conclude, going, if_neg Bool.false_ne_true, total, if_pos room]
    exact ⟨rfl, rfl⟩

/-- A program that binds a slot, then a run of two, finds a problem and applies a chain
of one link. -/
def mixed : Program where
  opcodes :=
    #[0x11, 0x40, 95, 0, 0x70, 0, 0x90, 0xC0, 2, 8, 0x5F, 0xD0, 1, 0x90, 0x70, 48,
      0xD1, 0x00]
  libraries := ["/usr/lib/libSystem.B.dylib"]
  segments := [⟨"__DATA", 4096, 64, 0, 56, []⟩]
  width := .bits64
  image := Array.replicate 55 0 ++ #[0x40]

theorem passes_agree_mixed :
    (run mixed (counting 20) {}).abandoned = false ∧ bindCount mixed.events = 4 ∧
      (mixed.events.flatMap (Event.expansion mixed.libraries)).map
        (·.segmentOffset.toNat) = [0, 8, 24, 48] ∧
      ∃ outcome ∈ interpret .ofProcess mixed 20,
        outcome.records.map (·.segmentOffset.toNat) = [0, 8, 24, 48] := by
  have going : (run mixed (counting 20) {}).abandoned = false := by decide +kernel
  have four : bindCount mixed.events = 4 := by decide +kernel
  have few : bindCount mixed.events < 2 ^ 64 - 1 := by
    rw [four]
    decide
  have room : Memory.ofProcess.reserves (bindCount mixed.events) = true := by
    rw [four]
    decide
  have offsets : (mixed.events.flatMap (Event.expansion mixed.libraries)).map
      (·.segmentOffset.toNat) = [0, 8, 24, 48] := by decide +kernel
  obtain ⟨-, -, -, -, expanded, -, outcome⟩ :=
    passes_agree .ofProcess mixed 20 going few
  rcases outcome room with ⟨outcome, ends, -, records⟩
  refine ⟨going, four, offsets, outcome, ends, ?_⟩
  rw [records, expanded]
  exact offsets

end Linkedit.Bind
