import Linkedit.Bind.Record
import Linkedit.Proofs.Except
import Mathlib.Algebra.Group.Nat.Defs

/-!
# What an instruction gives

Slots are bound by two kinds of instruction: those that bind slots at equal distances
and those that walk a pointer chain. All others give a problem or nothing. A run of
slots is checked against the end of its segment before it is given, so the offsets in
it are never cut off at 64 bits.
-/

namespace Linkedit.Bind

variable {program : Program} {registers : Registers}

/-! ## Kinds of instruction -/

/-- How the events of an instruction come about. -/
inductive Gives (program : Program) (registers : Registers) : List Event → Prop where
  | nothing : Gives program registers []
  | problem (problem : Problem) : Gives program registers [.problem problem]
  | binds (count stride : Nat) :
      Gives program registers (eventsOf (bindRun program registers count stride))
  | chain : Gives program registers (eventsOf (applyChain program registers))

theorem gives_checkSlot (program : Program) (registers moved : Registers) :
    Gives program registers (checkSlot program moved) := by
  rw [checkSlot]
  cases locate program moved with
  | ok => exact .nothing
  | error problem => exact .problem problem

theorem gives_execute (program : Program) (registers : Registers)
    (instruction : Instruction) :
    Gives program registers (execute program registers instruction).2 := by
  cases instruction with
  | done | setSymbol symbol | setAddend addend | setTableSize capacity => exact .nothing
  | unknownThreaded number => exact .problem _
  | setOrdinal ordinal =>
      rw [execute, Registers.setOrdinal]
      split
      next => exact .nothing
      next => exact .problem _
  | setKind number =>
      rw [execute]
      split
      next => exact .nothing
      next => exact .problem _
  | setSlot segment offset => exact gives_checkSlot program registers _
  | advance distance => exact gives_checkSlot program registers _
  | bind =>
      rw [execute]
      split
      next =>
        split
        next => exact .nothing
        next => exact .problem _
      next => exact .binds 1 0
  | bindAdvance distance => exact .binds 1 0
  | bindAdvanceScaled pointers => exact .binds 1 0
  | bindRepeated count skip =>
      dsimp only [execute]
      split
      next => exact .binds _ _
      next => exact .problem _
  | applyChain => exact .chain

/-! ## Runs of slots -/

/-- Binding slots at equal distances gives one event, unless there are none to bind. -/
theorem bindRun_eq_ok {count stride : Nat} {events : List Event}
    (bound : bindRun program registers count stride = .ok events) :
    ∃ index segment target, locate program registers = .ok (index, segment) ∧
      registers.target = .ok target ∧
      (events = [] ∨
        events = [.single ⟨index, segment, registers.offset, target, none⟩] ∨
        events = [.run ⟨index, segment, registers.offset, target, none⟩ count stride] ∧
          registers.offset.toNat + (count - 1) * stride < segment.size.toNat) := by
  rw [bindRun] at bound
  rcases bind_eq_ok.mp bound with ⟨⟨index, segment⟩, located, bound⟩
  rcases bind_eq_ok.mp bound with ⟨target, held, bound⟩
  refine ⟨index, segment, target, located, held, ?_⟩
  dsimp only at bound
  split at bound
  next =>
    cases bound
    exact .inl rfl
  next =>
    split at bound
    next => cases bound
    next =>
      split at bound
      next room =>
        cases bound
        right
        split
        next => exact .inl rfl
        next => exact .inr ⟨rfl, room⟩
      next => cases bound

/-- The last slot of a run lies in the segment of the first one. -/
def Event.InSegment : Event → Prop
  | .run first count stride =>
      first.offset.toNat + (count - 1) * stride < first.segment.size.toNat
  | .single _ | .problem _ => True

theorem inSegment_of_bindRun {count stride : Nat} {events : List Event}
    (bound : bindRun program registers count stride = .ok events) :
    ∀ event ∈ events, event.InSegment := by
  rcases bindRun_eq_ok bound with
      ⟨index, segment, target, -, -, rfl | rfl | ⟨rfl, room⟩⟩
  · simp
  · simp [Event.InSegment]
  · simpa [Event.InSegment] using room

/-- What holds of every problem, and of the events of every link that lies in the
segment, its file content and the image, holds of the events of a pointer chain. -/
theorem forall_mem_walkChain {holds : Event → Prop} {index : Nat} {segment : Segment}
    {entries : Array Target} (problem : ∀ problem, holds (.problem problem))
    (link : ∀ offset raw, offset < segment.size.toNat →
      chainOffset offset chainStride ≤ segment.fileSize.toNat →
      program.image.word64? (segment.fileOffset.toNat + offset) = some raw →
      ∀ event ∈ linkEvents index segment entries offset ⟨raw⟩, holds event)
    {offset : Nat} (inside : offset < segment.size.toNat) :
    ∀ event ∈ walkChain program index segment entries offset, holds event := by
  fun_induction walkChain program index segment entries offset with
  | case1 => simpa using problem _
  | case2 offset content raw word pointer next ih =>
      intro event member
      rcases List.mem_append.mp member with own | further
      · exact link offset raw inside content word event own
      · split at further
        next => cases further
        next more =>
          split at further
          next samePage =>
            split at further
            next inSegment => exact ih more samePage inSegment inSegment event further
            next =>
              cases List.mem_singleton.mp further
              exact problem _
          next =>
            cases List.mem_singleton.mp further
            exact problem _
  | case3 => simpa using problem _

theorem mem_linkEvents {index offset : Nat} {segment : Segment} {entries : Array Target}
    {pointer : ChainPointer} {event : Event}
    (member : event ∈ linkEvents index segment entries offset pointer) :
    (∃ problem, event = .problem problem) ∨
      ∃ target, entries[pointer.index]? = some target ∧ pointer.isBind = true ∧
        event = .single ⟨index, segment, UInt64.ofNat offset, target,
          some pointer.raw⟩ := by
  rw [linkEvents] at member
  split at member
  next isBind =>
    split at member
    next target isTarget =>
      right
      exact ⟨target, isTarget, isBind, List.mem_singleton.mp member⟩
    next =>
      left
      exact ⟨_, List.mem_singleton.mp member⟩
  next => cases member

theorem locate_iff {index : Nat} {segment : Segment} :
    locate program registers = .ok (index, segment) ↔
      registers.segment = some index ∧ program.segments[index]? = some segment ∧
        registers.offset.toNat < segment.size.toNat := by
  rw [locate]
  constructor
  · intro located
    split at located
    next => cases located
    next position held =>
      split at located
      next => cases located
      next other found =>
        split at located
        next inside =>
          cases located
          exact ⟨held, found, UInt64.lt_iff_toNat_lt.mp inside⟩
        next => cases located
  · rintro ⟨held, found, inside⟩
    rw [held]
    dsimp only
    rw [found]
    exact if_pos (UInt64.lt_iff_toNat_lt.mpr inside)

theorem locate_eq_ok {index : Nat} {segment : Segment}
    (located : locate program registers = .ok (index, segment)) :
    program.segments[index]? = some segment ∧ registers.offset < segment.size := by
  rcases locate_iff.mp located with ⟨-, isSegment, inside⟩
  exact ⟨isSegment, UInt64.lt_iff_toNat_lt.mpr inside⟩

/-- A chain that is applied is walked from the slot in the registers on. -/
theorem applyChain_eq_ok {events : List Event}
    (applied : applyChain program registers = .ok events) :
    ∃ table index segment, program.width = .bits64 ∧ registers.table = some table ∧
      locate program registers = .ok (index, segment) ∧
      events =
        walkChain program index segment table.entries registers.offset.toNat := by
  rw [applyChain] at applied
  split at applied
  next => cases applied
  next => cases applied
  next table width held =>
    rcases bind_eq_ok.mp applied with ⟨⟨index, segment⟩, located, applied⟩
    cases applied
    exact ⟨table, index, segment, width, held, located, rfl⟩

theorem Gives.inSegment {events : List Event} (gives : Gives program registers events) :
    ∀ event ∈ events, event.InSegment := by
  cases gives with
  | nothing => simp
  | problem problem => simp [Event.InSegment]
  | binds count stride =>
      cases bound : bindRun program registers count stride with
      | error problem => simp [eventsOf, Event.InSegment]
      | ok events => exact inSegment_of_bindRun bound
  | chain =>
      cases applied : applyChain program registers with
      | error problem => simp [eventsOf, Event.InSegment]
      | ok events =>
          rcases applyChain_eq_ok applied with
            ⟨table, index, segment, -, -, located, rfl⟩
          apply forall_mem_walkChain
          case problem => exact fun _ => trivial
          case inside => exact UInt64.lt_iff_toNat_lt.mp (locate_eq_ok located).2
          case link =>
            intro offset raw _ _ _ event member
            rcases mem_linkEvents member with ⟨problem, rfl⟩ | ⟨target, -, -, rfl⟩
            all_goals trivial

/-- The offset of each slot of a run is the offset of the first one and so many times
the stride, as a number. -/
theorem Event.InSegment.offset_advance {first : Slot} {count stride : Nat}
    (inSegment : (Event.run first count stride).InSegment) {index : Nat}
    (inRun : index < count) :
    first.offset.toNat + index * stride < 2 ^ 64 ∧
      (first.advance (index * stride)).offset.toNat =
        first.offset.toNat + index * stride := by
  have last : index ≤ count - 1 := Nat.le_sub_one_of_lt inRun
  have distance : index * stride ≤ (count - 1) * stride :=
    Nat.mul_le_mul_right stride last
  have bound := first.segment.size.toNat_lt
  have small : first.offset.toNat + index * stride < 2 ^ 64 := by
    simp only [Event.InSegment] at inSegment
    omega
  constructor
  · exact small
  · rw [Slot.advance, UInt64.toNat_add, UInt64.toNat_ofNat']
    omega

end Linkedit.Bind
