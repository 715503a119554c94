import Linkedit.Proofs.Bind.Budget
import Linkedit.Proofs.Bind.Chain

/-!
# What bind instructions ask for

A bind instruction asks for a number of slots at equal distances, and moves the slot
behind them. It binds all of them, or none with a problem that says why.
-/

namespace Linkedit.Bind

variable {program : Program} {registers : Registers} {index : Nat}
  {segment : Segment} {target : Target}

/-- A number of slots that lie `stride` bytes apart, and how far the slot is moved. -/
structure Request where
  count : Nat
  stride : Nat
  distance : Nat
deriving DecidableEq, Repr

/-- What an instruction asks for that binds slots. In the threaded format the plain bind
instruction binds none. -/
def Instruction.request? (width : Width) (registers : Registers) :
    Instruction → Option Request
  | .bind => if registers.threaded then none else some ⟨1, 0, width.bytes⟩
  | .bindAdvance distance => some ⟨1, 0, width.bytes + distance.toNat⟩
  | .bindAdvanceScaled pointers => some ⟨1, 0, width.bytes + pointers * width.bytes⟩
  | .bindRepeated count skip =>
      some ⟨count.toNat, skip.toNat + width.bytes,
        count.toNat * (skip.toNat + width.bytes)⟩
  | _ => none

/-! ## Registers that can bind -/

/-- The registers point into a segment and hold a target. -/
structure Ready (program : Program) (registers : Registers) (index : Nat)
    (segment : Segment) (target : Target) : Prop where
  position : registers.segment = some index
  isSegment : program.segments[index]? = some segment
  inside : registers.offset.toNat < segment.size.toNat
  symbol : registers.symbol = some target.symbol
  ordinal : registers.ordinal = some target.ordinal
  addend : registers.addend = target.addend
  kind : registers.kind = target.kind

theorem target_iff : registers.target = .ok target ↔
    registers.symbol = some target.symbol ∧ registers.ordinal = some target.ordinal ∧
      registers.addend = target.addend ∧ registers.kind = target.kind := by
  rw [Registers.target]
  constructor
  · intro held
    split at held
    next => cases held
    next => cases held
    next symbol ordinal isSymbol isOrdinal =>
      cases held
      exact ⟨isSymbol, isOrdinal, rfl, rfl⟩
  · rintro ⟨symbol, ordinal, addend, kind⟩
    rw [symbol, ordinal, addend, kind]

theorem ready_iff : Ready program registers index segment target ↔
    locate program registers = .ok (index, segment) ∧
      registers.target = .ok target := by
  rw [locate_iff, target_iff]
  constructor
  · intro ready
    exact ⟨⟨ready.position, ready.isSegment, ready.inside⟩,
      ready.symbol, ready.ordinal, ready.addend, ready.kind⟩
  · rintro ⟨⟨held, found, inside⟩, symbol, ordinal, addend, kind⟩
    exact ⟨held, found, inside, symbol, ordinal, addend, kind⟩

/-! ## Requests that are granted -/

variable {instruction : Instruction} {request : Request}

/-- The registers can bind, the distance of the slots fits in a word, and the last slot
lies in the segment. -/
structure Grants (program : Program) (registers : Registers) (request : Request)
    (index : Nat) (segment : Segment) (target : Target) : Prop
    extends Ready program registers index segment target where
  fits : request.stride < 2 ^ 64
  last : 1 ≤ request.count →
    registers.offset.toNat + (request.count - 1) * request.stride < segment.size.toNat

/-- The slots of a request, in order. -/
def Request.slots (request : Request) (registers : Registers) (index : Nat)
    (segment : Segment) (target : Target) : List Slot :=
  (List.range request.count).map fun place =>
    ⟨index, segment, UInt64.ofNat (registers.offset.toNat + place * request.stride),
      target, none⟩

/-- No offset of a request that is granted is cut off at 64 bits. -/
theorem Grants.offsets
    (grants : Grants program registers request index segment target) :
    (request.slots registers index segment target).map (·.offset.toNat) =
      (List.range request.count).map fun place =>
        registers.offset.toNat + place * request.stride := by
  rw [Request.slots, List.map_map]
  apply List.map_congr_left
  intro place member
  have inRun := List.mem_range.mp member
  have inside := grants.last (by omega)
  have distance : place * request.stride ≤ (request.count - 1) * request.stride :=
    Nat.mul_le_mul_right _ (Nat.le_sub_one_of_lt inRun)
  have bound := segment.size.toNat_lt
  apply UInt64.toNat_ofNat_of_lt'
  simp only [UInt64.size]
  omega

/-- A request that is granted gives its slots and no problem. -/
theorem bindRun_of_grants
    (grants : Grants program registers request index segment target)
    (apart : 1 < request.count → request.stride ≠ 0) :
    ∃ events, bindRun program registers request.count request.stride = .ok events ∧
      events.flatMap Event.slots = request.slots registers index segment target ∧
      ∀ position, events.filterMap (Event.diagnostic? position) = [] := by
  rcases ready_iff.mp grants.toReady with ⟨located, held⟩
  rw [bindRun, located, held]
  simp only [ok_bind]
  by_cases none : request.count = 0
  · rw [if_pos none]
    exact ⟨[], rfl, by simp [Request.slots, none], fun _ => rfl⟩
  have inside := grants.last (Nat.one_le_iff_ne_zero.mpr none)
  rw [if_neg none, if_neg (fun repeats => apart repeats.1 repeats.2), if_pos inside]
  by_cases single : request.count = 1
  · rw [if_pos single]
    exact ⟨_, rfl, by simp [Event.slots, Request.slots, single], fun _ => rfl⟩
  · rw [if_neg single]
    exact ⟨_, rfl, by simp [Event.slots, Request.slots, Slot.advance], fun _ => rfl⟩

/-- A request that is not granted is one problem. -/
theorem bindRun_of_not_grants (fits : request.stride < 2 ^ 64)
    (refused : ∀ index segment target,
      ¬ Grants program registers request index segment target) :
    ∃ problem, bindRun program registers request.count request.stride =
      .error problem := by
  rw [bindRun]
  cases located : locate program registers with
  | error problem => exact ⟨problem, rfl⟩
  | ok place =>
      cases held : registers.target with
      | error problem => exact ⟨problem, rfl⟩
      | ok target =>
          have ready := ready_iff.mpr ⟨located, held⟩
          have leaves : ¬ (1 ≤ request.count →
              registers.offset.toNat + (request.count - 1) * request.stride <
                place.2.size.toNat) := by
            intro last
            exact refused place.1 place.2 target ⟨ready, fits, last⟩
          rw [Classical.not_imp] at leaves
          simp only [ok_bind]
          rw [if_neg (Nat.one_le_iff_ne_zero.mp leaves.1)]
          split
          next => exact ⟨_, rfl⟩
          next =>
            rw [if_neg leaves.2]
            exact ⟨_, rfl⟩

/-! ## Instructions -/

/-- Slots that repeat one another are never asked for. -/
theorem stride_ne_zero
    (asks : instruction.request? program.width registers = some request)
    (many : 1 < request.count) : request.stride ≠ 0 := by
  cases instruction with
  | bindRepeated count skip =>
      cases asks
      cases program.width <;> simp [Width.bytes]
  | bind =>
      rw [Instruction.request?] at asks
      split at asks
      next => cases asks
      next =>
        cases asks
        exact absurd many (Nat.lt_irrefl 1)
  | bindAdvance | bindAdvanceScaled =>
      cases asks
      exact absurd many (Nat.lt_irrefl 1)
  | _ => cases asks

/-- An instruction does what it asks for, unless the distance of its slots does not fit
in a word. -/
theorem execute_of_request
    (asks : instruction.request? program.width registers = some request) :
    execute program registers instruction =
      if request.stride < UInt64.size then
        (registers.move request.distance,
          eventsOf (bindRun program registers request.count request.stride))
      else (registers,
        [.problem (.skipOverflow (request.stride - program.width.bytes))]) := by
  have fits : 0 < UInt64.size := by decide
  cases instruction with
  | bind =>
      rw [Instruction.request?] at asks
      split at asks
      next => cases asks
      next plain =>
        cases asks
        have noTable : registers.table = none := by
          simpa [Registers.threaded] using plain
        simp only [execute, noTable, if_pos fits]
  | bindRepeated count skip =>
      cases asks
      simp only [execute, Nat.add_sub_cancel]
  | bindAdvance | bindAdvanceScaled =>
      cases asks
      simp only [execute, if_pos fits]
  | _ => cases asks

theorem offset_move (registers : Registers) (distance : Nat) :
    (registers.move distance).offset.toNat =
      (registers.offset.toNat + distance) % 2 ^ 64 := by
  rw [Registers.move, UInt64.toNat_add, UInt64.toNat_ofNat']
  omega

/-- An instruction that gives no problem is granted what it asks for. -/
theorem exists_grants
    (asks : instruction.request? program.width registers = some request)
    (clean : ∀ problem, .problem problem ∉ (execute program registers instruction).2) :
    ∃ index segment target, Grants program registers request index segment target := by
  by_contra never
  have refused : ∀ index segment target,
      ¬ Grants program registers request index segment target :=
    fun index segment target grants => never ⟨index, segment, target, grants⟩
  rw [execute_of_request asks] at clean
  split at clean
  next fits =>
    rcases bindRun_of_not_grants fits refused with ⟨problem, failed⟩
    apply clean problem
    simp [failed, eventsOf]
  next => exact clean _ (List.mem_singleton.mpr rfl)

/-! ## No slot is repeated -/

/-- Whether a problem says that a slot is bound more than once. -/
def Problem.isRepeatedSlot : Problem → Bool
  | .repeatedSlot _ => true
  | _ => false

/-- None of the events is the problem that a slot is bound more than once. -/
def Unrepeated (events : List Event) : Prop :=
  ∀ problem, .problem problem ∈ events → problem.isRepeatedSlot = false

theorem unrepeated_nil : Unrepeated [] := by simp [Unrepeated]

theorem unrepeated_problem {problem : Problem} :
    Unrepeated [.problem problem] ↔ problem.isRepeatedSlot = false := by
  simp [Unrepeated]

theorem not_repeatedSlot_of_locate {problem : Problem}
    (failed : locate program registers = .error problem) :
    problem.isRepeatedSlot = false := by
  rw [locate] at failed
  split at failed
  next =>
    cases failed
    rfl
  next =>
    split at failed
    next =>
      cases failed
      rfl
    next =>
      split at failed
      next => cases failed
      next =>
        cases failed
        rfl

theorem unrepeated_checkSlot (program : Program) (registers : Registers) :
    Unrepeated (checkSlot program registers) := by
  rw [checkSlot]
  cases located : locate program registers with
  | ok place => exact unrepeated_nil
  | error problem => exact unrepeated_problem.mpr (not_repeatedSlot_of_locate located)

theorem unrepeated_bindRun {count stride : Nat} (apart : 1 < count → stride ≠ 0) :
    Unrepeated (eventsOf (bindRun program registers count stride)) := by
  rw [bindRun]
  cases located : locate program registers with
  | error problem => exact unrepeated_problem.mpr (not_repeatedSlot_of_locate located)
  | ok place =>
      cases held : registers.target with
      | error problem =>
          apply unrepeated_problem.mpr
          rw [Registers.target] at held
          split at held
          next =>
            cases held
            rfl
          next =>
            cases held
            rfl
          next => cases held
      | ok target =>
          simp only [ok_bind]
          rw [if_neg (show ¬ (1 < count ∧ stride = 0) from fun repeats =>
            apart repeats.1 repeats.2)]
          split
          next => exact unrepeated_nil
          next =>
            split
            next =>
              simp only [Unrepeated, eventsOf, pure, Except.pure, List.mem_singleton]
              split <;> simp
            next => exact unrepeated_problem.mpr rfl

theorem unrepeated_walkChain (program : Program) (index : Nat) (segment : Segment)
    (entries : Array Target) (offset : Nat) :
    Unrepeated (walkChain program index segment entries offset) := by
  rcases walkChain_eq program index segment entries offset with ⟨ending, walk, -, ends⟩
  rw [walk]
  intro problem member
  rcases List.mem_append.mp member with onLink | atEnd
  · rcases List.mem_flatMap.mp onLink with ⟨link, -, onLink⟩
    rw [linkEvents] at onLink
    split at onLink
    next =>
      split at onLink
      next => simp at onLink
      next =>
        cases List.mem_singleton.mp onLink
        rfl
    next => cases onLink
  · rcases Option.mem_toList.mp atEnd |> Option.map_eq_some_iff.mp with
      ⟨_, isEnding, same⟩
    cases same
    have endsChain := ends problem isEnding
    cases problem with
    | repeatedSlot count => cases endsChain
    | _ => rfl

theorem unrepeated_applyChain (program : Program) (registers : Registers) :
    Unrepeated (eventsOf (applyChain program registers)) := by
  rw [applyChain]
  split
  next => exact unrepeated_problem.mpr rfl
  next => exact unrepeated_problem.mpr rfl
  next table width held =>
    cases located : locate program registers with
    | error problem => exact unrepeated_problem.mpr (not_repeatedSlot_of_locate located)
    | ok place => exact unrepeated_walkChain program _ _ _ _

/-- No instruction gives the problem that a slot is repeated. -/
theorem unrepeated_execute (program : Program) (registers : Registers)
    (instruction : Instruction) :
    Unrepeated (execute program registers instruction).2 := by
  cases asks : instruction.request? program.width registers with
  | some request =>
      rw [execute_of_request asks]
      split
      next => exact unrepeated_bindRun (stride_ne_zero asks)
      next => exact unrepeated_problem.mpr rfl
  | none =>
      cases instruction with
      | bindAdvance | bindAdvanceScaled | bindRepeated => cases asks
      | done | setSymbol | setAddend | setTableSize => exact unrepeated_nil
      | setOrdinal ordinal =>
          rw [execute, Registers.setOrdinal]
          split
          next => exact unrepeated_nil
          next =>
            apply unrepeated_problem.mpr
            split <;> rfl
      | setKind number =>
          rw [execute]
          split
          next => exact unrepeated_nil
          next => exact unrepeated_problem.mpr rfl
      | setSlot | advance => exact unrepeated_checkSlot program _
      | unknownThreaded => exact unrepeated_problem.mpr rfl
      | applyChain => exact unrepeated_applyChain program registers
      | bind =>
          rw [execute]
          split
          next table held =>
            split
            next => exact unrepeated_nil
            next problem refused =>
              apply unrepeated_problem.mpr
              rw [OrdinalTable.push] at refused
              split at refused
              next =>
                cases refused
                rfl
              next =>
                split at refused
                next => cases refused
                next =>
                  cases refused
                  rfl
          next plain =>
            rw [Instruction.request?, Registers.threaded, plain] at asks
            cases asks

/-- No run reports that a slot is repeated. -/
theorem not_repeatedSlot_of_mem_diagnostics {memory : Memory} {limit : Nat}
    {outcome : Outcome} {diagnostic : Diagnostic}
    (ends : interpret memory program limit = some outcome)
    (member : diagnostic ∈ outcome.diagnostics) :
    diagnostic.problem.isRepeatedSlot = false := by
  rcases mem_diagnostics_interpret ends member with found | ⟨count, rfl⟩
  · rcases List.mem_flatMap.mp found with ⟨step, -, found⟩
    rcases List.mem_filterMap.mp found with ⟨event, isEvent, isDiagnostic⟩
    cases event with
    | single | run => cases isDiagnostic
    | problem problem =>
        cases isDiagnostic
        rw [Step.events] at isEvent
        split at isEvent
        next instruction _ =>
          exact unrepeated_execute program _ instruction problem isEvent
        next =>
          cases List.mem_singleton.mp isEvent
          rfl
  · rfl

/-! ## No bind is lost -/

section Steps

variable {step : Step} (decoded : step.decoded = .ok instruction)
  (asks : instruction.request? program.width step.before = some request)

include decoded asks

theorem events_of_request :
    step.events program =
      if request.stride < 2 ^ 64 then
        eventsOf (bindRun program step.before request.count request.stride)
      else [.problem (.skipOverflow (request.stride - program.width.bytes))] := by
  rw [Step.events, decoded]
  dsimp only
  rw [execute_of_request asks, apply_ite Prod.snd]
  rfl

theorem after_of_request :
    step.after program =
      if request.stride < 2 ^ 64 then
        step.before.move request.distance else step.before := by
  rw [Step.after, decoded]
  dsimp only
  rw [execute_of_request asks, apply_ite Prod.fst]
  rfl

theorem step_of_grants
    (grants : Grants program step.before request index segment target) :
    step.diagnostics program = [] ∧
      step.records program = (request.slots step.before index segment target).map
        (Slot.record program.libraries) := by
  rcases bindRun_of_grants grants (stride_ne_zero asks) with
    ⟨events, bound, slots, noProblem⟩
  have gives : step.events program = events := by
    rw [events_of_request decoded asks, if_pos grants.fits, bound]
    rfl
  rw [Step.diagnostics, Step.records, ← List.map_flatMap, gives]
  exact ⟨noProblem step.offset, congrArg _ slots⟩

theorem step_of_not_grants
    (refused : ∀ index segment target,
      ¬ Grants program step.before request index segment target) :
    step.records program = [] ∧
      ∃ problem, step.diagnostics program = [⟨step.offset, problem⟩] := by
  have gives : ∃ problem, step.events program = [.problem problem] := by
    rw [events_of_request decoded asks]
    split
    next fits =>
      rcases bindRun_of_not_grants fits refused with ⟨problem, failed⟩
      exact ⟨problem, by rw [failed]; rfl⟩
    next => exact ⟨_, rfl⟩
  rcases gives with ⟨problem, gives⟩
  rw [Step.records, Step.diagnostics, gives]
  exact ⟨rfl, problem, rfl⟩

end Steps

/-- An instruction that binds slots does all that it asks for or says that it does not.
The offset moves on even if nothing is bound, and around the end of the offsets, unless
the distance from slot to slot does not fit in a word. -/
theorem binds_all_or_reports (program : Program) :
    (∀ step : Step, ∀ instruction request, step.decoded = .ok instruction →
      instruction.request? program.width step.before = some request →
      (∀ index segment target, Grants program step.before request index segment target →
        step.diagnostics program = [] ∧
        step.records program = (request.slots step.before index segment target).map
          (Slot.record program.libraries) ∧
        (step.records program).length = request.count ∧
        (step.records program).map (·.segmentOffset.toNat) =
          (List.range request.count).map fun place =>
            step.before.offset.toNat + place * request.stride) ∧
      ((∀ index segment target,
          ¬ Grants program step.before request index segment target) →
        step.records program = [] ∧
        ∃ problem, step.diagnostics program = [⟨step.offset, problem⟩]) ∧
      (request.stride < 2 ^ 64 →
        step.after program =
          { step.before with offset := (step.after program).offset } ∧
        (step.after program).offset.toNat =
          (step.before.offset.toNat + request.distance) % 2 ^ 64) ∧
      (2 ^ 64 ≤ request.stride → step.after program = step.before)) ∧
    ∀ memory limit, ∀ outcome ∈ interpret memory program limit,
      ∀ diagnostic ∈ outcome.diagnostics,
        ∀ count, diagnostic.problem ≠ .repeatedSlot count := by
  constructor
  · intro step instruction request decoded asks
    refine ⟨?granted, ?refused, ?moved, ?stays⟩
    case granted =>
      intro index segment target grants
      rcases step_of_grants decoded asks grants with ⟨noProblem, records⟩
      refine ⟨noProblem, records, ?_, ?_⟩
      · rw [records, Request.slots, List.length_map, List.length_map, List.length_range]
      · rw [records, List.map_map, ← grants.offsets]
        rfl
    case refused =>
      intro refused
      exact step_of_not_grants decoded asks refused
    case moved =>
      intro fits
      rw [after_of_request decoded asks, if_pos fits]
      exact ⟨rfl, offset_move _ _⟩
    case stays =>
      intro overflows
      rw [after_of_request decoded asks, if_neg (Nat.not_lt.mpr overflows)]
  · intro memory limit outcome ends diagnostic member count isRepeated
    have never := not_repeatedSlot_of_mem_diagnostics ends member
    rw [isRepeated] at never
    cases never

/-- A segment as large as a word allows. -/
def hugeSegment : Segment := ⟨"__HUGE", 0, 0xFFFFFFFFFFFFFFFF, 0, 0, []⟩

/-- A program that binds slots 16 bytes apart, two at first and then three. -/
def nearEnd : Program where
  opcodes := #[0xC0, 2, 8, 0xC0, 3, 8]
  libraries := ["/usr/lib/libSystem.B.dylib"]
  segments := [hugeSegment]
  width := .bits64
  image := #[]

/-- Registers with an offset 25 bytes before the last one. -/
def nearEndRegisters : Registers where
  segment := some 0
  offset := 0xFFFFFFFFFFFFFFE7
  symbol := some ⟨[95, 120], false⟩
  ordinal := some 1

/-- Two slots have room there, and the offset after them goes around. Three have
none. -/
theorem binds_all_or_reports_nearEnd :
    Grants nearEnd nearEndRegisters ⟨2, 16, 32⟩ 0 hugeSegment
        ⟨⟨[95, 120], false⟩, 1, 0, .pointer⟩ ∧
      ((Step.mk 0 (.ok (.bindRepeated 2 8)) nearEndRegisters).records nearEnd).map
        (·.segmentOffset.toNat) = [2 ^ 64 - 25, 2 ^ 64 - 9] ∧
      ((Step.mk 0 (.ok (.bindRepeated 2 8)) nearEndRegisters).after
        nearEnd).offset.toNat = 7 ∧
      ∃ problem,
        (Step.mk 3 (.ok (.bindRepeated 3 8)) nearEndRegisters).diagnostics nearEnd =
          [⟨3, problem⟩] := by
  have grants : Grants nearEnd nearEndRegisters ⟨2, 16, 32⟩ 0 hugeSegment
      ⟨⟨[95, 120], false⟩, 1, 0, .pointer⟩ :=
    ⟨⟨rfl, rfl, by decide, rfl, rfl, rfl, rfl⟩, by decide, by decide⟩
  have refused : ∀ index segment target,
      ¬ Grants nearEnd nearEndRegisters ⟨3, 16, 48⟩ index segment target := by
    intro index segment target grants
    cases Option.some_inj.mp grants.position
    cases Option.some_inj.mp grants.isSegment
    exact absurd (grants.last (by decide)) (by decide)
  obtain ⟨steps, -⟩ := binds_all_or_reports nearEnd
  obtain ⟨granted, -, moved, -⟩ :=
    steps ⟨0, .ok (.bindRepeated 2 8), nearEndRegisters⟩ _ ⟨2, 16, 32⟩ rfl rfl
  obtain ⟨-, reports, -, -⟩ :=
    steps ⟨3, .ok (.bindRepeated 3 8), nearEndRegisters⟩ _ ⟨3, 16, 48⟩ rfl rfl
  refine ⟨grants, ?_, ?_, (reports refused).2⟩
  · rw [(granted 0 hugeSegment _ grants).2.2.2]
    decide
  · rw [(moved (by decide)).2]
    decide

end Linkedit.Bind
