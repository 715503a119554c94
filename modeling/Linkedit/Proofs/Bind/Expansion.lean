import Linkedit.Proofs.Bind.Alike
import Linkedit.Proofs.Bind.Passes
import Linkedit.Proofs.Bind.Requests
import Linkedit.Proofs.Bind.Sequences
import Linkedit.Proofs.Bind.Table

/-!
# Compressed bind instructions

Three instructions bind slots and move on in one. Each stands for copies of a plain bind
that is followed by a move. A stream in which the copies are written out binds the same,
as long as no ordinal table is begun: in the threaded format a plain bind does something
else.
-/

namespace Linkedit.Bind

variable {program : Program} {registers : Registers} {index : Nat} {segment : Segment}
  {target : Target}

/-! ## Moves -/

theorem move_move (registers : Registers) (first second : Nat) :
    (registers.move first).move second = registers.move (first + second) := by
  simp [Registers.move, UInt64.ofNat_add, UInt64.add_assoc]

@[simp] theorem move_zero (registers : Registers) : registers.move 0 = registers := by
  simp [Registers.move]

/-- Only the lowest 64 bits of a distance count. -/
theorem move_add_ofNat (registers : Registers) (first second : Nat) :
    registers.move (first + (UInt64.ofNat second).toNat) =
      registers.move (first + second) := by
  rw [Registers.move, Registers.move, UInt64.ofNat_add, UInt64.ofNat_toNat,
    UInt64.ofNat_add]

/-! ## Scaled distances -/

/-- A distance in pointers is one in bytes. -/
theorem execute_bindAdvanceScaled (program : Program) (registers : Registers)
    (pointers : Nat) :
    execute program registers (.bindAdvanceScaled pointers) =
      execute program registers
        (.bindAdvance (UInt64.ofNat (pointers * program.width.bytes))) := by
  simp only [execute, move_add_ofNat]

/-! ## Repeated binds -/

theorem effect_of_grants {instruction : Instruction} {request : Request}
    (asks : instruction.request? program.width registers = some request)
    (grants : Grants program registers request index segment target) :
    effect program registers [instruction] =
      (registers.move request.distance,
        (request.slots registers index segment target).map
          (Slot.record program.libraries)) := by
  rcases bindRun_of_grants grants (stride_ne_zero asks) with ⟨events, bound, slots, -⟩
  have fits : request.stride < UInt64.size := grants.fits
  rw [effect_singleton, execute_of_request asks, if_pos fits, bound, ← slots,
    List.map_flatMap]
  rfl

section Copies

variable {count stride distance place : Nat}

/-- No copy of a bind that is granted goes around the end of the offsets. -/
theorem Grants.offset_copy
    (grants : Grants program registers ⟨count, stride, distance⟩ index segment target)
    (inRun : place < count) :
    registers.offset.toNat + place * stride < segment.size.toNat ∧
      (registers.move (place * stride)).offset.toNat =
        registers.offset.toNat + place * stride := by
  have last : registers.offset.toNat + (count - 1) * stride < segment.size.toNat :=
    grants.last (Nat.one_le_of_lt inRun)
  have before : place * stride ≤ (count - 1) * stride :=
    Nat.mul_le_mul_right _ (Nat.le_sub_one_of_lt inRun)
  have bound := segment.size.toNat_lt
  rw [offset_move]
  omega

/-- Each copy is granted on its own. -/
theorem Grants.copy
    (grants : Grants program registers ⟨count, stride, distance⟩ index segment target)
    (inRun : place < count) (moved : Nat) :
    Grants program (registers.move (place * stride)) ⟨1, 0, moved⟩
      index segment target := by
  rcases grants.offset_copy inRun with ⟨inside, offset⟩
  refine ⟨{ grants.toReady with inside := ?_ }, by simp, ?_⟩
  · rw [offset]
    exact inside
  · intro _
    rw [offset]
    exact inside

/-- The first copies of a bind have the first of its records. -/
theorem effect_copies {skip : UInt64}
    (grants :
      Grants program registers ⟨count, skip.toNat + program.width.bytes, distance⟩
      index segment target) {copies : Nat} (few : copies ≤ count) :
    effect program registers (List.replicate copies (.bindAdvance skip)) =
      (registers.move (copies * (skip.toNat + program.width.bytes)),
        (Request.slots ⟨copies, skip.toNat + program.width.bytes, distance⟩
          registers index segment target).map (Slot.record program.libraries)) := by
  induction copies with
  | zero => simp [effect, executeAll, Request.slots]
  | succ copies ih =>
      have asks : (Instruction.bindAdvance skip).request? program.width
          (registers.move (copies * (skip.toNat + program.width.bytes))) =
        some ⟨1, 0, program.width.bytes + skip.toNat⟩ := rfl
      -- The last copy is split off, as it begins where the others have moved the slot.
      rw [List.replicate_succ', effect_append, ih (Nat.le_of_succ_le few),
        effect_of_grants asks (grants.copy few _), move_move, Nat.succ_mul,
        Nat.add_comm program.width.bytes]
      simp [Request.slots, List.range_succ, (grants.offset_copy few).2]

end Copies

/-- A repeated bind that gives no problem is so many binds, one after the other. -/
theorem effect_bindRepeated {count skip : UInt64}
    (clean : ∀ problem,
      .problem problem ∉ (execute program registers (.bindRepeated count skip)).2) :
    effect program registers [.bindRepeated count skip] =
      effect program registers (List.replicate count.toNat (.bindAdvance skip)) := by
  have asks : (Instruction.bindRepeated count skip).request? program.width registers =
    some ⟨count.toNat, skip.toNat + program.width.bytes,
      count.toNat * (skip.toNat + program.width.bytes)⟩ := rfl
  rcases exists_grants asks clean with ⟨index, segment, target, grants⟩
  rw [effect_of_grants asks grants, effect_copies grants (Nat.le_refl _)]

/-! ## Binds that move on -/

theorem records_checkSlot (program : Program) (registers : Registers) :
    ((checkSlot program registers).flatMap fun event =>
      event.slots.map (Slot.record program.libraries)) = [] := by
  rw [checkSlot]
  cases locate program registers <;> rfl

/-- Without an ordinal table, binding a slot and moving on is a plain bind and a
move. -/
theorem effect_bindAdvance (plain : registers.table = none) (distance : UInt64) :
    effect program registers [.bindAdvance distance] =
      effect program registers [.bind, .advance distance] := by
  rw [← List.singleton_append (l := [Instruction.advance distance]), effect_append]
  simp only [effect_singleton, execute, plain, records_checkSlot, move_move,
    List.append_nil]

theorem effect_pairs (plain : registers.table = none) (distance : UInt64)
    (count : Nat) :
    effect program registers (List.replicate count (.bindAdvance distance)) =
      effect program registers
        (List.replicate count [.bind, .advance distance]).flatten := by
  induction count generalizing registers with
  | zero => rfl
  | succ count ih =>
      have first := @effect_bindAdvance program registers plain distance
      -- No table is begun on the way, so the next bind is plain again.
      have after :
          (effect program registers [.bind, .advance distance]).1.table = none := by
        rw [← first, effect_singleton]
        exact table_execute_none plain (fun _ => nofun)
      rw [List.replicate_succ, ← List.singleton_append, List.replicate_succ,
        List.flatten_cons]
      exact effect_append_congr first (ih after)

/-! ## Expanding instructions -/

/-- The number of plain binds that a compressed instruction stands for, and how far each
of them is moved further. -/
def Instruction.copies? (width : Width) : Instruction → Option (Nat × UInt64)
  | .bindAdvance distance => some (1, distance)
  | .bindAdvanceScaled pointers => some (1, UInt64.ofNat (pointers * width.bytes))
  | .bindRepeated count skip => some (count.toNat, skip)
  | _ => none

/-- An instruction with plain binds and moves in place of a compressed one. -/
def Instruction.expand (width : Width) (instruction : Instruction) : List Instruction :=
  match instruction.copies? width with
  | some (count, distance) => (List.replicate count [.bind, .advance distance]).flatten
  | none => [instruction]

variable {instruction : Instruction} {instructions : List Instruction}

theorem not_done_of_mem_copies {count : Nat} {distance : UInt64} :
    Instruction.done ∉ (List.replicate count [.bind, .advance distance]).flatten := by
  simp

/-- No compressed instruction is left. -/
theorem copies?_of_mem_expand {width : Width} {other : Instruction}
    (member : other ∈ instruction.expand width) : other.copies? width = none := by
  rw [Instruction.expand] at member
  split at member
  next =>
    rcases List.mem_flatten.mp member with ⟨pair, isPair, member⟩
    rw [List.eq_of_mem_replicate isPair] at member
    simp only [List.mem_cons, List.not_mem_nil, or_false] at member
    rcases member with rfl | rfl
    all_goals rfl
  next plain =>
    rw [List.mem_singleton.mp member]
    exact plain

theorem effect_expand (plain : registers.table = none)
    (clean : ∀ problem, .problem problem ∉ (execute program registers instruction).2) :
    effect program registers (instruction.expand program.width) =
      effect program registers [instruction] := by
  cases instruction with
  | bindAdvance distance => exact (effect_bindAdvance plain distance).symm
  | bindAdvanceScaled pointers =>
      rw [effect_singleton, execute_bindAdvanceScaled, ← effect_singleton]
      exact (effect_bindAdvance plain _).symm
  | bindRepeated count skip =>
      rw [effect_bindRepeated clean]
      exact (effect_pairs plain skip count.toNat).symm
  | _ => rfl

/-- Instructions that begin no ordinal table and give no problem bind the same when all
of them are expanded. -/
theorem effect_flatMap_expand (plain : registers.table = none)
    (noSize : ∀ capacity, .setTableSize capacity ∉ instructions)
    (clean : ∀ problem,
      .problem problem ∉ (executeAll program registers instructions).2) :
    effect program registers (instructions.flatMap (Instruction.expand program.width)) =
      effect program registers instructions := by
  induction instructions generalizing registers with
  | nil => rfl
  | cons instruction instructions ih =>
      have first : ∀ problem,
          .problem problem ∉ (execute program registers instruction).2 :=
        fun problem member => clean problem (List.mem_append_left _ member)
      have others : ∀ problem, .problem problem ∉ (executeAll program
          (execute program registers instruction).1 instructions).2 :=
        fun problem member => clean problem (List.mem_append_right _ member)
      have stillPlain : (execute program registers instruction).1.table = none := by
        apply table_execute_none plain
        rintro capacity rfl
        exact noSize capacity List.mem_cons_self
      rw [List.flatMap_cons, ← List.singleton_append (l := instructions)]
      apply effect_append_congr (effect_expand plain first)
      rw [effect_singleton]
      apply ih stillPlain ?_ others
      intro capacity member
      exact noSize capacity (List.mem_cons_of_mem _ member)

/-! ## Expanding streams -/

/-- The code of a plain bind and a move. -/
def bindAndAdvance (distance : UInt64) : List UInt8 :=
  0x90 :: 0x80 :: Leb128.encodeUnsigned distance.toNat

theorem codes_bindAndAdvance (distance : UInt64) :
    Codes (bindAndAdvance distance) [.bind, .advance distance] := by
  have pair := Codes.cons isCode_bind (.cons (isCode_advance distance) .nil)
  rwa [List.append_nil] at pair

/-- The code of an instruction, or that of plain binds and moves if it is compressed. -/
def Instruction.expandCode (width : Width) (instruction : Instruction)
    (code : List UInt8) :
    List UInt8 :=
  match instruction.copies? width with
  | some (count, distance) => (List.replicate count (bindAndAdvance distance)).flatten
  | none => code

/-- The stream from `cursor` on, where every instruction is expanded that can be
decoded. What is left behind them stays as it is. -/
def expandFrom (width : Width) (cursor : Cursor) : List UInt8 :=
  match _decoded : Instruction.decode cursor with
  | .ok (instruction, next) =>
      instruction.expandCode width (cursor.between next) ++ expandFrom width next
  | .error _ => cursor.data.slice cursor.position cursor.data.size
termination_by cursor.data.size - cursor.position
decreasing_by exact Instruction.left_lt_of_decode _decoded

/-- The program with plain binds and moves in place of compressed instructions. -/
def Program.expanded (program : Program) : Program :=
  { program with opcodes := (expandFrom program.width ⟨program.opcodes, 0⟩).toArray }

variable {width : Width} {cursor next : Cursor}

theorem expandFrom_of_decode
    (decoded : Instruction.decode cursor = .ok (instruction, next)) :
    expandFrom width cursor =
      instruction.expandCode width (cursor.between next) ++ expandFrom width next := by
  rw [expandFrom]
  split
  next other otherNext otherDecoded =>
    cases decoded.symm.trans otherDecoded
    rfl
  next error failed => cases decoded.symm.trans failed

theorem expandFrom_of_atEnd (ended : cursor.atEnd = true) :
    expandFrom width cursor = [] := by
  have none : cursor.data.size ≤ cursor.position := of_decide_eq_true ended
  rw [expandFrom]
  split
  next instruction next decoded =>
    have advances := Instruction.decode_advances decoded
    have forward := advances.position_lt
    have inside := advances.position_le
    omega
  next => simp [Bytes.slice, none]

/-- A run goes through the expansion of an instruction, and ends if the instruction ends
it. -/
theorem decoded_traceFrom_expandCode {code : List UInt8} {data : Bytes} {place : Nat}
    (isCode : IsCode code instruction)
    (holds : data.HoldsAt place (instruction.expandCode width code))
    (running : registers.done = false) :
    ∃ after, after.done = (instruction == .done) ∧
      (traceFrom program ⟨data, place⟩ registers).map Step.decoded =
        (instruction.expand width).map .ok ++
          (traceFrom program
            ⟨data, place + (instruction.expandCode width code).length⟩ after).map
              Step.decoded := by
  rw [Instruction.expandCode] at holds ⊢
  rw [Instruction.expand]
  cases compressed : instruction.copies? width with
  | some copies =>
      rw [compressed] at holds
      have codes := (codes_bindAndAdvance copies.2).replicate copies.1
      rcases decoded_traceFrom_of_codes codes holds running not_done_of_mem_copies with
        ⟨after, goesOn, trace⟩
      refine ⟨after, ?_, trace⟩
      rw [goesOn, eq_comm, beq_eq_false_iff_ne]
      rintro rfl
      cases compressed
  | none =>
      rw [compressed] at holds
      refine ⟨(execute program registers instruction).1, ?_, ?_⟩
      · rw [done_execute, running, Bool.false_or]
      · rw [traceFrom_of_decode running (isCode _ _ holds)]
        rfl

/-- The expanded stream is decoded as the expansion of what the stream is decoded as.
The run may belong to any program, as only the end of a run depends on the registers. -/
theorem decoded_traceFrom_expandFrom {other : Program} {data : Bytes} {place : Nat}
    {otherRegisters : Registers}
    (decodes : (traceFrom program cursor registers).map Step.decoded =
      instructions.map .ok)
    (left : data.toList.drop place = expandFrom width cursor)
    (sameEnd : otherRegisters.done = registers.done) :
    (traceFrom other ⟨data, place⟩ otherRegisters).map Step.decoded =
      (instructions.flatMap (Instruction.expand width)).map .ok := by
  fun_induction traceFrom program cursor registers
    generalizing place otherRegisters instructions with
  | case1 cursor registers stopped =>
      rw [List.map_nil, eq_comm, List.map_eq_nil_iff] at decodes
      have stops : (otherRegisters.done || (Cursor.mk data place).atEnd) = true := by
        rw [Bool.or_eq_true] at stopped ⊢
        rcases stopped with done | ended
        · exact .inl (sameEnd.trans done)
        · rw [expandFrom_of_atEnd ended, List.drop_eq_nil_iff] at left
          exact .inr (decide_eq_true left)
      rw [decodes, traceFrom, if_pos stops]
      rfl
  | case2 cursor registers running instruction next decoded =>
      rename_i ih
      cases instructions with
      | nil => cases decodes
      | cons first instructions =>
          rcases List.cons.inj decodes with ⟨same, others⟩
          cases Except.ok.inj same
          rw [Bool.or_eq_true, not_or, Bool.not_eq_true] at running
          rw [expandFrom_of_decode decoded] at left
          rcases Bytes.holdsAt_of_drop left with ⟨holds, rest⟩
          rcases decoded_traceFrom_expandCode (isCode_between decoded) holds
            (sameEnd.trans running.1) with ⟨after, ends, trace⟩
          rw [List.flatMap_cons, List.map_append, trace, ih others rest ?sameEnd]
          rw [ends, done_execute, running.1, Bool.false_or]
  | case3 cursor registers running error failed =>
      cases instructions with
      | nil => cases decodes
      | cons => cases (List.cons.inj decodes).1

/-! ## Expanding programs -/

/-- The instructions of a run. -/
def Program.executed (program : Program) : List Instruction :=
  program.trace.filterMap (·.decoded.toOption)

theorem Alike.executeAll_eq {left right : Program} (alike : Alike left right)
    (registers : Registers) (instructions : List Instruction) :
    executeAll right registers instructions =
      executeAll left registers instructions := by
  induction instructions generalizing registers with
  | nil => rfl
  | cons instruction instructions ih => simp only [executeAll, alike.execute_eq, ih]

theorem problem_notMem_events (quiet : program.diagnostics = []) (problem : Problem) :
    .problem problem ∉ program.events := by
  intro member
  rcases List.mem_flatMap.mp member with ⟨step, isStep, isEvent⟩
  have found : (⟨step.offset, problem⟩ : Diagnostic) ∈ program.diagnostics :=
    List.mem_flatMap.mpr ⟨step, isStep, List.mem_filterMap.mpr ⟨_, isEvent, rfl⟩⟩
  rw [quiet] at found
  cases found

/-- Everything is decoded in a run without a diagnostic. -/
theorem decoded_trace (quiet : program.diagnostics = []) :
    program.trace.map Step.decoded = program.executed.map .ok := by
  have allDecoded : ∀ step ∈ program.trace, ∃ instruction,
      step.decoded = .ok instruction := by
    intro step isStep
    cases decoded : step.decoded with
    | ok instruction => exact ⟨instruction, rfl⟩
    | error error =>
        apply absurd _ (problem_notMem_events quiet (.undecodable error))
        apply List.mem_flatMap.mpr
        exact ⟨step, isStep, by simp [Step.events, decoded]⟩
  rw [Program.executed]
  generalize program.trace = steps at allDecoded ⊢
  induction steps with
  | nil => rfl
  | cons step steps ih =>
      rcases allDecoded step List.mem_cons_self with ⟨instruction, decoded⟩
      rw [List.map_cons, ih fun other isOther =>
        allDecoded other (List.mem_cons_of_mem _ isOther)]
      simp [decoded, Except.toOption]

theorem setTableSize_notMem_executed
    (noTable : ∀ step ∈ program.trace, step.beginsTable = false)
    (capacity : UInt64) : .setTableSize capacity ∉ program.executed := by
  intro member
  rcases List.mem_filterMap.mp member with ⟨step, isStep, isSize⟩
  have decoded : step.decoded = .ok (.setTableSize capacity) := by
    cases whole : step.decoded with
    | error => simp [whole, Except.toOption] at isSize
    | ok instruction =>
        rw [whole] at isSize
        cases isSize
        rfl
  exact Bool.false_ne_true
    ((noTable step isStep).symm.trans (Step.beginsTable_iff.mpr ⟨capacity, decoded⟩))

/-- The second pass collects the records of the instructions. -/
theorem collected_eq_effect
    (decodes : program.trace.map Step.decoded = instructions.map .ok) :
    (run program (collecting program.libraries) #[]).state.toList =
      (effect program {} instructions).2 := by
  have linked : Linked program {} program.trace := linked_traceFrom _ _
  rw [records_run_collecting, Program.events, linked.events_eq decodes]
  rfl

/-- A program without a limit is not given up if there is room for its binds. -/
theorem exists_going_of_reserves {memory : Memory}
    (room : memory.reserves (bindCount program.events) = true) :
    ∃ outcome ∈ interpret memory program 0, outcome.abandoned = false := by
  have few : bindCount program.events < 2 ^ 63 := by
    by_contra many
    cases room.symm.trans (memory.refuses _ (Nat.not_lt.mp many))
  have fit : SinglesFit 0 program.events := singlesFit_of_bindCount_lt (by omega)
  rcases foldlM_countEvent_zero fit with ⟨count, counts, total⟩
  rw [Nat.min_eq_left (by omega)] at total
  have counted : program.counted = some count :=
    (records_run_counting (run_counting_zero program).1).trans counts
  have ends := interpret_zero memory program
  rw [counted, Option.map_some, total, if_pos room] at ends
  exact ⟨_, ends, rfl⟩

/-- The expanded program runs the expansion of what the program runs. -/
theorem decoded_trace_expanded (quiet : program.diagnostics = []) :
    program.expanded.trace.map Step.decoded =
      (program.executed.flatMap (Instruction.expand program.width)).map .ok :=
  decoded_traceFrom_expandFrom (decoded_trace quiet) rfl rfl

theorem plain_of_mem_trace_expanded (quiet : program.diagnostics = []) {step : Step}
    (isStep : step ∈ program.expanded.trace) :
    ∃ instruction, step.decoded = .ok instruction ∧
      instruction.copies? program.width = none := by
  have decoded : step.decoded ∈ program.expanded.trace.map Step.decoded :=
    List.mem_map_of_mem isStep
  rw [decoded_trace_expanded quiet] at decoded
  rcases List.mem_map.mp decoded with ⟨instruction, member, isDecoded⟩
  rcases List.mem_flatMap.mp member with ⟨_, -, expanded⟩
  exact ⟨instruction, isDecoded.symm, copies?_of_mem_expand expanded⟩

/-- The second pass over the expanded program collects the same records. -/
theorem collected_expanded (quiet : program.diagnostics = [])
    (noTable : ∀ step ∈ program.trace, step.beginsTable = false) :
    (run program.expanded (collecting program.libraries) #[]).state.toList =
      (run program (collecting program.libraries) #[]).state.toList := by
  have decodes := decoded_trace quiet
  have linked : Linked program {} program.trace := linked_traceFrom _ _
  have alike : Alike program program.expanded := alike_withOpcodes program _
  have clean : ∀ problem,
      .problem problem ∉ (executeAll program {} program.executed).2 := by
    rw [← linked.events_eq decodes]
    exact problem_notMem_events quiet
  calc (run program.expanded (collecting program.libraries) #[]).state.toList
      = (effect program.expanded {}
          (program.executed.flatMap (Instruction.expand program.width))).2 :=
        collected_eq_effect (decoded_trace_expanded quiet)
    _ = (effect program {}
          (program.executed.flatMap (Instruction.expand program.width))).2 := by
        rw [effect, alike.executeAll_eq]
        rfl
    _ = (effect program {} program.executed).2 := by
        rw [effect_flatMap_expand rfl (setTableSize_notMem_executed noTable) clean]
    _ = (run program (collecting program.libraries) #[]).state.toList :=
        (collected_eq_effect decodes).symm

/-- Compressed bind instructions are short for plain ones, whatever the registers.
Within an ordinal table that is not so, since there a plain bind makes an entry of the
table. A program that begins no table and gives no diagnostic can be written out as a
whole. -/
theorem compressed_binds_expand (memory : Memory) (program : Program) :
    (∀ registers pointers, execute program registers (.bindAdvanceScaled pointers) =
      execute program registers
        (.bindAdvance (UInt64.ofNat (pointers * program.width.bytes)))) ∧
    (∀ registers count skip,
      (∀ problem,
        .problem problem ∉ (execute program registers (.bindRepeated count skip)).2) →
      effect program registers [.bindRepeated count skip] =
        effect program registers (List.replicate count.toNat (.bindAdvance skip))) ∧
    (∀ registers distance, registers.table = none →
      effect program registers [.bindAdvance distance] =
        effect program registers [.bind, .advance distance]) ∧
    ∀ limit, ∀ outcome ∈ interpret memory program limit, outcome.diagnostics = [] →
      (∀ step ∈ program.trace, step.beginsTable = false) →
      program.expanded.trace.map Step.decoded =
          (program.executed.flatMap (Instruction.expand program.width)).map .ok ∧
        (∀ step ∈ program.expanded.trace, ∃ instruction,
          step.decoded = .ok instruction ∧
          instruction.copies? program.width = none) ∧
        (memory.reserves (bindCount program.events) = true →
          ∃ expanded ∈ interpret memory program.expanded 0,
            expanded.abandoned = false) ∧
        (∀ expanded ∈ interpret memory program.expanded 0,
          expanded.abandoned = false → expanded.records = outcome.records) := by
  refine ⟨execute_bindAdvanceScaled program, fun _ _ _ => effect_bindRepeated,
    fun _ distance plain => effect_bindAdvance plain distance, ?stream⟩
  intro limit outcome ends noDiagnostic noTable
  rcases going_of_no_diagnostics ends noDiagnostic with ⟨quiet, going⟩
  have sameRecords := collected_expanded quiet noTable
  refine ⟨decoded_trace_expanded quiet, fun _ =>
    plain_of_mem_trace_expanded quiet, ?fits, ?records⟩
  case fits =>
    intro room
    apply exists_going_of_reserves
    have sameSize := congrArg List.length sameRecords
    rw [Array.length_toList, Array.length_toList, size_run_collecting] at sameSize
    rw [← size_run_collecting]
    exact (congrArg memory.reserves sameSize).trans room
  case records =>
    intro expanded expandedEnds expandedGoes
    rw [records_interpret_of_going ends going,
      records_interpret_of_going expandedEnds expandedGoes]
    exact sameRecords

/-- A program with each of the compressed instructions. The last bind moves the slot to
the end of the segment. -/
def packed : Program where
  opcodes := #[0x11, 0x40, 95, 120, 0, 0x70, 0, 0xA0, 8, 0xB1, 0xC0, 2, 8, 0x00]
  libraries := ["/usr/lib/libSystem.B.dylib"]
  segments := [⟨"__DATA", 4096, 64, 0, 64, []⟩]
  width := .bits64
  image := #[]

/-- The move that stands for the last one is a problem, and the records are the same. -/
theorem compressed_binds_expand_packed :
    (∃ outcome ∈ interpret .ofProcess packed 20, ∃ expanded ∈
        interpret .ofProcess packed.expanded 0, outcome.diagnostics = [] ∧
        outcome.records.length = 4 ∧ expanded.diagnostics.length = 1 ∧
        expanded.records = outcome.records) ∧
      packed.expanded.opcodes = #[0x11, 0x40, 95, 120, 0, 0x70, 0, 0x90, 0x80, 8,
        0x90, 0x80, 8, 0x90, 0x80, 8, 0x90, 0x80, 8, 0x00] := by
  have finishes : (interpret .ofProcess packed 20).map (fun outcome =>
      (outcome.diagnostics, outcome.records.length)) = some ([], 4) := by decide +kernel
  have one : (interpret .ofProcess packed.expanded 0).map
      (fun expanded => expanded.diagnostics.length) = some 1 := by decide +kernel
  have noTable : ∀ step ∈ packed.trace, step.beginsTable = false := by decide +kernel
  have room : Memory.ofProcess.reserves (bindCount packed.events) = true := by
    decide +kernel
  rcases Option.map_eq_some_iff.mp finishes with ⟨outcome, ends, same⟩
  rcases Prod.mk.inj same with ⟨noDiagnostic, four⟩
  obtain ⟨-, -, -, stream⟩ := compressed_binds_expand .ofProcess packed
  obtain ⟨-, -, fits, records⟩ := stream 20 outcome ends noDiagnostic noTable
  rcases fits room with ⟨expanded, expandedEnds, going⟩
  rw [Option.mem_def.mp expandedEnds] at one
  exact ⟨⟨outcome, ends, expanded, expandedEnds, noDiagnostic, four,
    Option.some.inj one, records expanded expandedEnds going⟩, by decide +kernel⟩

end Linkedit.Bind
