import Linkedit.Proofs.Bind.Chain
import Linkedit.Proofs.Bind.Trace
import Mathlib.Data.List.DropRight

/-!
# What the ordinal table holds

In the threaded format a bind instruction adds the target in the registers to the
ordinal table, and chains refer to it by its place there. An instruction without a
symbol or a library adds nothing. The places behind it are then one lower than the
places of their instructions.
-/

namespace Linkedit.Bind

variable {program : Program} {registers : Registers}

/-! ## Instructions that fill the table -/

/-- Whether a step begins an ordinal table. -/
def Step.beginsTable (step : Step) : Bool := step.decoded matches .ok (.setTableSize _)

/-- Whether a step runs a plain bind instruction. -/
def Step.isBind (step : Step) : Bool := step.decoded matches .ok .bind

/-- The target in the registers before a step, if they hold a symbol and a library. -/
def Step.target? (step : Step) : Option Target := step.before.target.toOption

/-- The plain bind instructions since an ordinal table was last begun. -/
def tableBinds (steps : List Step) : List Step :=
  (steps.rtakeWhile fun step => !step.beginsTable).filter Step.isBind

theorem Step.beginsTable_iff {step : Step} :
    step.beginsTable = true ↔
      ∃ capacity, step.decoded = .ok (.setTableSize capacity) := by
  rw [beginsTable]
  split
  next capacity decoded => simp [decoded]
  next other => simpa using other

theorem Step.isBind_iff {step : Step} :
    step.isBind = true ↔ step.decoded = .ok .bind := by
  rw [isBind]
  split
  next decoded => simp [decoded]
  next other => simpa using other

theorem tableBinds_concat (steps : List Step) (step : Step) :
    tableBinds (steps ++ [step]) =
      if step.beginsTable then []
      else if step.isBind then tableBinds steps ++ [step]
      else tableBinds steps := by
  rw [tableBinds, List.rtakeWhile_concat]
  cases step.beginsTable with
  | true => rfl
  | false =>
      simp only [Bool.not_false, if_true, List.filter_append, List.filter_singleton]
      cases step.isBind <;> simp [tableBinds]

/-- What these instructions leave in a table with room for `capacity` entries. -/
def tableTargets (capacity : Nat) (steps : List Step) : List Target :=
  ((tableBinds steps).filterMap Step.target?).take capacity

/-- The table in the registers is what the steps so far have left in it. -/
def Registers.HoldsTable (steps : List Step) (registers : Registers) : Prop :=
  ∀ table ∈ registers.table,
    table.entries.toList = tableTargets table.capacity.toNat steps

/-! ## Other instructions -/

/-- Only two instructions change the table. -/
theorem table_execute (program : Program) (registers : Registers)
    {instruction : Instruction} (noBind : instruction ≠ .bind)
    (noSize : ∀ capacity, instruction ≠ .setTableSize capacity) :
    (execute program registers instruction).1.table = registers.table := by
  cases instruction with
  | bind => exact (noBind rfl).elim
  | setTableSize capacity => exact (noSize capacity rfl).elim
  | setOrdinal ordinal =>
      rw [execute, Registers.setOrdinal]
      split <;> rfl
  | setKind number =>
      rw [execute]
      split <;> rfl
  | bindRepeated count skip =>
      dsimp only [execute]
      split <;> rfl
  | done | setSymbol | setAddend | setSlot | advance | bindAdvance | bindAdvanceScaled |
    applyChain | unknownThreaded => rfl

/-! ## Bind instructions -/

variable {targets : List Target} {table next : OrdinalTable}

/-- A bind instruction that is refused leaves the table as it is. -/
theorem table_bind (program : Program) (registers : Registers) :
    (execute program registers .bind).1.table = registers.table.map fun table =>
      match table.push registers with
      | .ok next => next
      | .error _ => table := by
  rw [execute]
  cases held : registers.table with
  | none => exact held
  | some table =>
      dsimp only [Option.map_some]
      cases table.push registers with
      | ok next => rfl
      | error problem => exact held

/-- No table comes about but by an instruction that begins one. -/
theorem table_execute_none (plain : registers.table = none) {instruction : Instruction}
    (noSize : ∀ capacity, instruction ≠ .setTableSize capacity) :
    (execute program registers instruction).1.table = none := by
  by_cases isBind : instruction = .bind
  · rw [isBind, table_bind, plain]
    rfl
  · rw [table_execute program registers isBind noSize, plain]

theorem filterMap_target?_singleton (step : Step) :
    [step].filterMap Step.target? = step.before.target.toOption.toList := by
  rw [List.filterMap_cons, Step.target?]
  cases step.before.target <;> rfl

/-- An instruction that is accepted adds the target in the registers. -/
theorem entries_of_push
    (entries : table.entries.toList = targets.take table.capacity.toNat)
    (pushed : table.push registers = .ok next) :
    next.entries.toList =
      (targets ++ registers.target.toOption.toList).take next.capacity.toNat := by
  rw [OrdinalTable.push] at pushed
  split at pushed
  next => cases pushed
  next target held =>
    split at pushed
    next room =>
      cases pushed
      have few : targets.length < table.capacity.toNat := by
        rw [← Array.length_toList, entries, List.length_take] at room
        omega
      rw [List.take_of_length_le (Nat.le_of_lt few)] at entries
      simp only [Array.toList_push, entries, held, Except.toOption, Option.toList_some]
      symm
      apply List.take_of_length_le
      rw [List.length_append]
      exact few
    next => cases pushed

/-- An instruction that is refused has no target to add, or there is no room for it. -/
theorem entries_of_refused {problem : Problem}
    (entries : table.entries.toList = targets.take table.capacity.toNat)
    (refused : table.push registers = .error problem) :
    table.entries.toList =
      (targets ++ registers.target.toOption.toList).take table.capacity.toNat := by
  rw [OrdinalTable.push] at refused
  split at refused
  next cause held => simpa [held, Except.toOption] using entries
  next target held =>
    split at refused
    next => cases refused
    next full =>
      have many : table.capacity.toNat ≤ targets.length := by
        rw [← Array.length_toList, entries, List.length_take] at full
        omega
      rw [entries, List.take_append_of_le_length many]

/-! ## The table of a run -/

/-- A step leaves the table as its instruction says. -/
theorem Registers.HoldsTable.step {steps : List Step} {step : Step}
    (holds : step.before.HoldsTable steps) :
    (step.after program).HoldsTable (steps ++ [step]) := by
  intro table held
  rw [tableTargets, tableBinds_concat]
  rw [Step.after] at held
  split at held
  next instruction decoded =>
    by_cases begins : step.beginsTable = true
    · rcases Step.beginsTable_iff.mp begins with ⟨capacity, isSize⟩
      cases decoded.symm.trans isSize
      cases held
      rw [if_pos begins, List.filterMap_nil, List.take_nil]
    rw [if_neg begins]
    by_cases binds : step.isBind = true
    · cases decoded.symm.trans (Step.isBind_iff.mp binds)
      rw [table_bind] at held
      rcases Option.map_eq_some_iff.mp held with ⟨old, oldHeld, rfl⟩
      rw [if_pos binds, List.filterMap_append, filterMap_target?_singleton]
      cases pushed : old.push step.before with
      | ok next => exact entries_of_push (holds old oldHeld) pushed
      | error problem => exact entries_of_refused (holds old oldHeld) pushed
    · rw [if_neg binds]
      apply holds table
      rwa [table_execute] at held
      · rintro rfl
        exact binds (Step.isBind_iff.mpr decoded)
      · rintro capacity rfl
        exact begins (Step.beginsTable_iff.mpr ⟨capacity, decoded⟩)
  next error failed =>
    have noBind : ¬ step.isBind = true := by simp [Step.isBind_iff, failed]
    have noSize : ¬ step.beginsTable = true := by simp [Step.beginsTable_iff, failed]
    rw [if_neg noSize, if_neg noBind]
    exact holds table held

/-- Before every step of a run, the table is what the steps so far have left in it. -/
theorem holdsTable_before {earlier later : List Step} {step : Step}
    (whole : program.trace = earlier ++ step :: later) :
    step.before.HoldsTable earlier := by
  have linked : Linked program {} program.trace := linked_traceFrom _ _
  apply linked.invariant Registers.HoldsTable ?preserved [] ?start whole
  case preserved =>
    intro history step holds
    exact holds.step
  case start =>
    intro table held
    cases held

/-! ## Records of a chain -/

/-- A record tells of the target in some registers. -/
structure Record.Copies (registers : Registers) (record : Record) : Prop where
  symbol : ∃ symbol, registers.symbol = some symbol ∧
    record.symbol = Text.lossy symbol.name ∧ record.weakImport = symbol.weakImport
  ordinal : registers.ordinal = some record.ordinal
  addend : record.addend = registers.addend
  kind : record.kind = registers.kind

theorem copies_of_target {slot : Slot} (held : registers.target = .ok slot.target)
    (libraries : List String) : (slot.record libraries).Copies registers := by
  rw [Registers.target] at held
  split at held
  next => cases held
  next => cases held
  next symbol ordinal isSymbol isOrdinal =>
    have target := Except.ok.inj held
    constructor
    case symbol =>
      exists symbol
      rw [Slot.record, ← target]
      exact ⟨isSymbol, rfl, rfl⟩
    case ordinal => rw [isOrdinal, Slot.record, ← target]
    case addend => rw [Slot.record, ← target]
    case kind => rw [Slot.record, ← target]

/-- The element that is kept in some place, with those before it. -/
theorem exists_split_of_getElem?_filterMap {α β : Type} {keep : α → Option β}
    {list : List α} {place : Nat} {kept : β}
    (found : (list.filterMap keep)[place]? = some kept) :
    ∃ before element after, list = before ++ element :: after ∧
      keep element = some kept ∧
      (before.countP fun other => (keep other).isSome) = place := by
  induction list generalizing place with
  | nil => cases found
  | cons first rest ih =>
      rw [List.filterMap_cons] at found
      split at found
      next dropped =>
        rcases ih found with ⟨before, element, after, rfl, isKept, count⟩
        refine ⟨first :: before, element, after, rfl, isKept, ?_⟩
        rw [List.countP_cons_of_neg (by simp [dropped]), count]
      next other isOther =>
        cases place with
        | zero =>
            cases found
            exact ⟨[], first, rest, rfl, isOther, rfl⟩
        | succ place =>
            rcases ih found with ⟨before, element, after, rfl, isKept, count⟩
            refine ⟨first :: before, element, after, rfl, isKept, ?_⟩
            rw [List.countP_cons_of_pos (by simp [isOther]), count]

/-- The links of the chain at the registers, if a chain can be applied there. -/
def chainAt (program : Program) (registers : Registers) : List Link :=
  match program.width, registers.table, locate program registers with
  | .bits64, some _, .ok (_, segment) =>
      chainLinks program segment registers.offset.toNat
  | _, _, _ => []

theorem target?_eq_some {step : Step} {target : Target} :
    step.target? = some target ↔ step.before.target = .ok target := by
  rw [Step.target?]
  cases step.before.target <;> simp [Except.toOption]

/-- A link that is bound has a place in the table, and an instruction has put its target
there. -/
theorem copies_of_linkEvents {steps : List Step} {segment : Segment}
    {index offset : Nat} {pointer : ChainPointer} {event : Event} {slot : Slot}
    (entries : table.entries.toList = tableTargets table.capacity.toNat steps)
    (member : event ∈ linkEvents index segment table.entries offset pointer)
    (isSlot : slot ∈ event.slots) (libraries : List String) :
    ∃ before bind after, slot.value = some pointer.raw ∧
      tableBinds steps = before ++ bind :: after ∧
      before.countP (·.target?.isSome) = pointer.index ∧
      (slot.record libraries).Copies bind.before := by
  rcases mem_linkEvents member with ⟨problem, rfl⟩ | ⟨target, isTarget, -, rfl⟩
  · cases isSlot
  · cases List.mem_singleton.mp isSlot
    have inTable : ((tableBinds steps).filterMap Step.target?)[pointer.index]? =
      some target := by
      rw [← Array.getElem?_toList, entries, tableTargets, List.getElem?_take]
        at isTarget
      split at isTarget
      next => exact isTarget
      next => cases isTarget
    rcases exists_split_of_getElem?_filterMap inTable with
      ⟨before, bind, after, split, isTarget, count⟩
    refine ⟨before, bind, after, rfl, split, count, ?_⟩
    exact copies_of_target (target?_eq_some.mp isTarget) libraries

/-- Applying a chain gives the events of its links and a problem at its end, or only the
problem that it cannot be applied. -/
theorem eventsOf_applyChain (program : Program) (registers : Registers) :
    (chainAt program registers = [] ∧
      ∃ problem, eventsOf (applyChain program registers) = [.problem problem]) ∨
    ∃ table index segment, ∃ ending : Option Problem, registers.table = some table ∧
      eventsOf (applyChain program registers) =
        ((chainAt program registers).flatMap fun link =>
          linkEvents index segment table.entries link.offset link.pointer) ++
          (ending.map Event.problem).toList := by
  cases applied : applyChain program registers with
  | error problem =>
      left
      refine ⟨?_, problem, rfl⟩
      rw [applyChain] at applied
      rw [chainAt]
      split
      next table index segment width held located =>
        rw [width, held, located] at applied
        cases applied
      next => rfl
  | ok events =>
      right
      rcases applyChain_eq_ok applied with
        ⟨table, index, segment, width, held, located, rfl⟩
      rcases walkChain_eq program index segment table.entries
          registers.offset.toNat with
        ⟨ending, isWalk, -⟩
      refine ⟨table, index, segment, ending, held, ?_⟩
      rw [chainAt, width, held, located]
      exact isWalk

theorem events_of_applyChain {step : Step} (applies : step.decoded = .ok .applyChain) :
    step.events program = eventsOf (applyChain program step.before) := by
  rw [Step.events, applies]
  rfl

/-- A record of a chain tells of the bind with as many complete ones before it as its
index says. -/
theorem exists_bind_of_mem_records {earlier : List Step} {step : Step}
    (holds : step.before.HoldsTable earlier)
    (applies : step.decoded = .ok .applyChain) :
    ∀ record ∈ step.records program, ∃ pointer before bind after,
      record.value = some (ChainPointer.raw pointer) ∧
      tableBinds earlier = before ++ bind :: after ∧
      before.countP (·.target?.isSome) = pointer.index ∧
      record.Copies bind.before := by
  intro record member
  rcases List.mem_flatMap.mp member with ⟨event, isEvent, isRecord⟩
  rcases List.mem_map.mp isRecord with ⟨slot, isSlot, rfl⟩
  rw [events_of_applyChain applies] at isEvent
  rcases eventsOf_applyChain program step.before with
    ⟨-, problem, isProblem⟩ | ⟨table, index, segment, ending, held, isWalk⟩
  · rw [isProblem, List.mem_singleton] at isEvent
    subst isEvent
    cases isSlot
  rw [isWalk, List.mem_append] at isEvent
  rcases isEvent with onLink | atEnd
  · rcases List.mem_flatMap.mp onLink with ⟨link, -, onLink⟩
    exists link.pointer
    exact copies_of_linkEvents (holds table held) onLink isSlot program.libraries
  · rcases Option.mem_toList.mp atEnd |> Option.map_eq_some_iff.mp with
      ⟨problem, -, rfl⟩
    cases isSlot

/-- What a link gives happens in the step that applies its chain. -/
theorem mem_events_of_link {step : Step} (applies : step.decoded = .ok .applyChain)
    (held : step.before.table = some table) {link : Link}
    (isLink : link ∈ chainAt program step.before) :
    ∃ index segment, ∀ event ∈
      linkEvents index segment table.entries link.offset link.pointer,
        event ∈ step.events program := by
  rw [events_of_applyChain applies]
  rcases eventsOf_applyChain program step.before with
    ⟨noLinks, -⟩ | ⟨other, index, segment, ending, otherHeld, isWalk⟩
  · rw [noLinks] at isLink
    cases isLink
  cases held.symm.trans otherHeld
  refine ⟨index, segment, ?_⟩
  intro event member
  rw [isWalk]
  apply List.mem_append_left
  exact List.mem_flatMap_of_mem isLink member

theorem Registers.HoldsTable.size_eq {steps : List Step}
    (holds : registers.HoldsTable steps) (held : registers.table = some table) :
    table.entries.size = (tableTargets table.capacity.toNat steps).length := by
  rw [← Array.length_toList, holds table held]

/-- A link whose index is in the table gives a record. -/
theorem exists_record_of_link {earlier : List Step} {step : Step}
    (holds : step.before.HoldsTable earlier) (applies : step.decoded = .ok .applyChain)
    (held : step.before.table = some table) {link : Link}
    (isLink : link ∈ chainAt program step.before) (isBind : link.pointer.isBind)
    (inside : link.pointer.index < (tableTargets table.capacity.toNat earlier).length) :
    ∃ record ∈ step.records program, record.value = some link.pointer.raw ∧
      record.segmentOffset = UInt64.ofNat link.offset := by
  rcases mem_events_of_link applies held isLink with ⟨index, segment, happens⟩
  rw [← holds.size_eq held] at inside
  have found : table.entries[link.pointer.index]? =
      some table.entries[link.pointer.index] :=
    Array.getElem?_eq_getElem inside
  rw [linkEvents, if_pos isBind, found] at happens
  have bound := happens _ (List.mem_singleton_self _)
  exact ⟨_, List.mem_flatMap_of_mem bound List.mem_cons_self, rfl, rfl⟩

/-- A link whose index is not in the table gives a problem. -/
theorem indexOutsideTable_mem_events {earlier : List Step} {step : Step}
    (holds : step.before.HoldsTable earlier) (applies : step.decoded = .ok .applyChain)
    (held : step.before.table = some table) {link : Link}
    (isLink : link ∈ chainAt program step.before) (isBind : link.pointer.isBind)
    (outside : (tableTargets table.capacity.toNat earlier).length ≤
      link.pointer.index) :
    .problem (.indexOutsideTable link.offset link.pointer.index
      (tableTargets table.capacity.toNat earlier).length) ∈ step.events program := by
  rcases mem_events_of_link applies held isLink with ⟨index, segment, happens⟩
  rw [← holds.size_eq held] at outside ⊢
  have missing : table.entries[link.pointer.index]? = none :=
    Array.getElem?_eq_none outside
  rw [linkEvents, if_pos isBind, missing] at happens
  exact happens _ (List.mem_singleton_self _)

/-- A record of a chain tells of one of the binds that filled the table. For index `i`
that is the bind with `i` complete ones before it, where a bind is complete if it has a
symbol and a library: as long as all of them are, it is the one at place `i`. A link
with an index in the table gives a record, and one with an index behind it gives a
problem. -/
theorem chain_follows_table {earlier later : List Step} {step : Step}
    (whole : program.trace = earlier ++ step :: later)
    (applies : step.decoded = .ok .applyChain) :
    (∀ record ∈ step.records program, ∃ pointer before bind after,
      record.value = some (ChainPointer.raw pointer) ∧
      tableBinds earlier = before ++ bind :: after ∧
      before.countP (·.target?.isSome) = pointer.index ∧
      record.Copies bind.before ∧
      ((∀ other ∈ before, other.target?.isSome) →
        (tableBinds earlier)[pointer.index]? = some bind)) ∧
    ∀ table ∈ step.before.table, ∀ link ∈ chainAt program step.before,
      link.pointer.isBind →
      (link.pointer.index < (tableTargets table.capacity.toNat earlier).length →
        ∃ record ∈ step.records program, record.value = some link.pointer.raw ∧
          record.segmentOffset = UInt64.ofNat link.offset) ∧
      ((tableTargets table.capacity.toNat earlier).length ≤ link.pointer.index →
        .problem (.indexOutsideTable link.offset link.pointer.index
          (tableTargets table.capacity.toNat earlier).length) ∈
            step.events program) := by
  have holds := holdsTable_before whole
  constructor
  · intro record member
    rcases exists_bind_of_mem_records holds applies record member with
      ⟨pointer, before, bind, after, value, split, count, copies⟩
    refine ⟨pointer, before, bind, after, value, split, count, copies, ?_⟩
    intro complete
    rw [← count, List.countP_eq_length.mpr complete, split]
    simp
  · intro table held link isLink isBind
    constructor
    · intro inside
      exact exists_record_of_link holds applies held isLink isBind inside
    · intro outside
      exact indexOutsideTable_mem_events holds applies held isLink isBind outside

/-- A program whose first bind has no symbol, so that the table starts with the target
of the second one. The chain asks for index 1. -/
def shifted : Program where
  opcodes :=
    #[0xD0, 3, 0x11, 0x90, 0x40, 95, 97, 0, 0x90, 0x40, 95, 98, 0, 0x90, 0x70, 0,
      0xD1, 0x00]
  libraries := ["/usr/lib/libSystem.B.dylib"]
  segments := [⟨"__DATA", 4096, 16, 0, 8, []⟩]
  width := .bits64
  image := #[1, 0, 0, 0, 0, 0, 0, 0x40]

theorem exists_apply_shifted :
    ∃ earlier step later record, shifted.trace = earlier ++ step :: later ∧
      step.decoded = .ok .applyChain ∧ step.records shifted = [record] ∧
      record.symbol = "_b" ∧
      (∀ pointer : ChainPointer, record.value = some pointer.raw → pointer.index = 1) ∧
      (tableBinds earlier).map (·.before.symbol) =
        [none, some ⟨[95, 97], false⟩, some ⟨[95, 98], false⟩] := by
  have records : ((shifted.trace.get ⟨8, by decide +kernel⟩).records shifted).map
      (fun record => (record.symbol, record.value)) =
        [("_b", some 0x4000000000000001)] := by
    decide +kernel
  rcases List.map_eq_singleton_iff.mp records with ⟨record, only, found⟩
  refine ⟨shifted.trace.take 8, shifted.trace.get ⟨8, by decide +kernel⟩,
    shifted.trace.drop 9, record, ?_, ?_, only, congrArg Prod.fst found, ?_, ?_⟩
  · rw [List.get_eq_getElem, List.getElem_cons_drop, List.take_append_drop]
  · decide +kernel
  · intro pointer value
    have raw : pointer.raw = 0x4000000000000001 :=
      Option.some_inj.mp (value.symm.trans (congrArg Prod.snd found))
    rw [ChainPointer.index, ChainPointer.bits, raw]
    rfl
  · decide +kernel

theorem chain_follows_table_shifted :
    ∃ earlier step later, shifted.trace = earlier ++ step :: later ∧
      step.decoded = .ok .applyChain ∧
      ∃ record ∈ step.records shifted, record.symbol = "_b" ∧
        ∃ before bind after, tableBinds earlier = before ++ bind :: after ∧
          before.countP (·.target?.isSome) = 1 ∧ record.Copies bind.before := by
  rcases exists_apply_shifted with
    ⟨earlier, step, later, record, whole, applies, only, symbol, index, -⟩
  have member : record ∈ step.records shifted := by simp [only]
  rcases (chain_follows_table whole applies).1 record member with
    ⟨pointer, before, bind, after, value, split, count, copies, -⟩
  rw [index pointer value] at count
  exact ⟨earlier, step, later, whole, applies, record, member, symbol,
    before, bind, after, split, count, copies⟩

/-- The bind at index 1 has the symbol `_a`, and the record does not tell of it. -/
theorem record_not_of_bind_at_index :
    ¬ ∀ earlier step later, shifted.trace = earlier ++ step :: later →
      step.decoded = .ok .applyChain →
      ∀ record ∈ step.records shifted, ∃ pointer bind,
        record.value = some (ChainPointer.raw pointer) ∧
        (tableBinds earlier)[pointer.index]? = some bind ∧
        record.Copies bind.before := by
  intro always
  rcases exists_apply_shifted with
    ⟨earlier, step, later, record, whole, applies, only, isB, index, binds⟩
  have member : record ∈ step.records shifted := by simp [only]
  rcases always earlier step later whole applies record member with
    ⟨pointer, bind, value, found, copies⟩
  have isA : bind.before.symbol = some ⟨[95, 97], false⟩ := by
    have atIndex := congrArg (fun symbols => symbols[1]?) binds
    rw [index pointer value] at found
    rw [List.getElem?_map, found] at atIndex
    exact Option.some_inj.mp atIndex
  rcases copies.symbol with ⟨symbol, held, named, -⟩
  cases isA.symm.trans held
  rw [isB] at named
  exact absurd named (by decide +kernel)

end Linkedit.Bind
