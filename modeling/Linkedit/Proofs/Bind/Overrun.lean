import Linkedit.Proofs.Bind.ChainBounds

/-!
# Diagnostics beyond the limit

An instruction gives one problem at most, unless it applies a pointer chain: then each
link can give one. The limit on diagnostics is considered between instructions. So it is
exceeded by the last instruction of a run alone, if that applies a chain, and by no more
problems than a page has room for links.
-/

namespace Linkedit.Bind

variable {program : Program} {registers : Registers}

/-! ## Problems of one instruction -/

theorem length_diagnostics_checkSlot_le (program : Program) (registers : Registers)
    (offset : Nat) :
    ((checkSlot program registers).filterMap (Event.diagnostic? offset)).length ≤
      1 := by
  rw [checkSlot]
  cases locate program registers with
  | ok found => simp [eventsOf]
  | error problem => simp [eventsOf]

theorem length_diagnostics_bindRun_le (program : Program) (registers : Registers)
    (count stride offset : Nat) :
    ((eventsOf (bindRun program registers count stride)).filterMap
      (Event.diagnostic? offset)).length ≤ 1 := by
  cases bound : bindRun program registers count stride with
  | error problem => simp [eventsOf]
  | ok events =>
      rcases bindRun_eq_ok bound with
        ⟨index, segment, target, -, -, rfl | rfl | ⟨rfl, -⟩⟩
      · simp [eventsOf]
      · simp [eventsOf, List.filterMap_cons]
      · simp [eventsOf, List.filterMap_cons]

/-- An instruction that does not apply a chain gives one problem at most. -/
theorem length_diagnostics_execute_le {instruction : Instruction}
    (notChain : instruction ≠ .applyChain) (offset : Nat) :
    ((execute program registers instruction).2.filterMap
      (Event.diagnostic? offset)).length ≤ 1 := by
  cases instruction with
  | applyChain => exact (notChain rfl).elim
  | done | setSymbol symbol | setAddend addend | setTableSize capacity => simp [execute]
  | unknownThreaded number => simp [execute]
  | setOrdinal ordinal =>
      rw [execute, Registers.setOrdinal]
      split
      next => simp
      next => simp
  | setKind number =>
      rw [execute]
      split
      next => simp
      next => simp
  | setSlot segment place => exact length_diagnostics_checkSlot_le program _ offset
  | advance distance => exact length_diagnostics_checkSlot_le program _ offset
  | bind =>
      rw [execute]
      split
      next =>
        split
        next => simp
        next => simp
      next => exact length_diagnostics_bindRun_le program registers 1 0 offset
  | bindAdvance distance =>
      exact length_diagnostics_bindRun_le program registers 1 0 offset
  | bindAdvanceScaled pointers =>
      exact length_diagnostics_bindRun_le program registers 1 0 offset
  | bindRepeated count skip =>
      dsimp only [execute]
      split
      next => exact length_diagnostics_bindRun_le program registers _ _ offset
      next => simp

/-- The problems of a walk are those of its links, and one at its end. -/
theorem length_diagnostics_walkChain_le {index offset : Nat} {segment : Segment}
    {entries : Array Target} (inside : offset < segment.size.toNat) (position : Nat) :
    ((walkChain program index segment entries offset).filterMap
      (Event.diagnostic? position)).length ≤ 2049 := by
  rcases walkChain_eq program index segment entries offset with
    ⟨ending, walk, places, -⟩
  have stays : StaysInPage segment offset (chainPlaces program segment offset) :=
    staysInPage_chainPlaces inside
  have few := stays.length_le
  have links : (chainLinks program segment offset).length ≤
      (chainPlaces program segment offset).length := by
    rw [places, List.length_append, List.length_map]
    exact Nat.le_add_right _ _
  have outside := List.length_filter_le (Link.isOutside entries.size)
    (chainLinks program segment offset)
  have last : ((ending.map Event.problem).toList.filterMap
      (Event.diagnostic? position)).length ≤ 1 := by
    cases ending <;> simp
  rw [walk, List.filterMap_append, problems_links, List.length_append, List.length_map]
  omega

/-- Applying a chain gives one problem for each link that a page has room for, and one
for the end of the walk, at most. -/
theorem length_diagnostics_applyChain_le (program : Program) (registers : Registers)
    (position : Nat) :
    ((eventsOf (applyChain program registers)).filterMap
      (Event.diagnostic? position)).length ≤ 2049 := by
  cases applied : applyChain program registers with
  | error problem => simp [eventsOf]
  | ok events =>
      rcases applyChain_eq_ok applied with ⟨table, index, segment, -, -, located, rfl⟩
      apply length_diagnostics_walkChain_le
      exact UInt64.lt_iff_toNat_lt.mp (locate_eq_ok located).2

/-! ## Problems of one step -/

namespace Step

theorem length_diagnostics_le_one {step : Step}
    (notChain : step.decoded ≠ .ok .applyChain) :
    (step.diagnostics program).length ≤ 1 := by
  rw [Step.diagnostics, Step.events]
  split
  next instruction decoded =>
    apply length_diagnostics_execute_le
    rintro rfl
    exact notChain decoded
  next => simp

theorem length_diagnostics_le (program : Program) (step : Step) :
    (step.diagnostics program).length ≤ 2049 := by
  by_cases chain : step.decoded = .ok .applyChain
  · rw [Step.diagnostics, Step.events, chain]
    exact length_diagnostics_applyChain_le program step.before step.offset
  · have few : (step.diagnostics program).length ≤ 1 := length_diagnostics_le_one chain
    omega

end Step

/-! ## Problems of a run -/

variable {memory : Memory} {limit : Nat} {outcome : Outcome}

/-- A program that does not reach the limit stays within it, also with the diagnostic
that there is no room for its records. -/
theorem length_diagnostics_of_lt_limit (few : program.diagnostics.length < limit)
    (ends : interpret memory program limit = some outcome) :
    outcome.diagnostics.length ≤ limit := by
  rw [interpret_of_lt_limit memory few, interpret_zero] at ends
  rcases Option.map_eq_some_iff.mp ends with ⟨count, -, rfl⟩
  split
  next => exact Nat.le_of_lt few
  next =>
    rw [List.length_append, List.length_singleton]
    exact few

/-- A program stays within its limit unless the last instruction that is run applies a
chain with several problems. -/
theorem length_diagnostics_cases (positive : 0 < limit)
    (ends : interpret memory program limit = some outcome) :
    outcome.diagnostics.length ≤ limit ∨
      ∃ earlier step later, ReachesLimit program limit earlier step later ∧
        step.decoded = .ok .applyChain ∧
        outcome.diagnostics =
          diagnosticsOf program earlier ++ step.diagnostics program := by
  by_cases few : program.diagnostics.length < limit
  · exact .inl (length_diagnostics_of_lt_limit few ends)
  rcases exists_reachesLimit positive (Nat.not_lt.mp few) with
    ⟨earlier, step, later, reaches⟩
  rw [reaches.interpret_eq] at ends
  rcases Option.map_eq_some_iff.mp ends with ⟨count, -, rfl⟩
  by_cases chain : step.decoded = .ok .applyChain
  · right
    exact ⟨earlier, step, later, reaches, chain, rfl⟩
  · left
    have before := reaches.before
    have one : (step.diagnostics program).length ≤ 1 :=
      Step.length_diagnostics_le_one chain
    rw [List.length_append]
    omega

/-- The limit on diagnostics is exceeded by one pointer chain at most. It is looked at
before an instruction and not within one, and only a chain gives several problems. -/
theorem diagnostics_within_limit (program : Program) (positive : 0 < limit)
    (ends : interpret memory program limit = some outcome) :
    outcome.diagnostics.length ≤ limit + 2048 ∧
    (limit < outcome.diagnostics.length →
      ∃ earlier step later, program.trace = earlier ++ step :: later ∧
        (diagnosticsOf program earlier).length < limit ∧
        step.decoded = .ok .applyChain ∧
        1 < (step.diagnostics program).length ∧
        outcome.diagnostics =
          diagnosticsOf program earlier ++ step.diagnostics program) ∧
    ((∀ step ∈ program.trace, step.decoded = .ok .applyChain →
        (step.diagnostics program).length ≤ 1) →
      outcome.diagnostics.length ≤ limit) := by
  rcases length_diagnostics_cases positive ends with
    within | ⟨earlier, step, later, reaches, chain, found⟩
  · refine ⟨Nat.le_add_right_of_le within, ?_, fun _ => within⟩
    intro beyond
    exact (Nat.not_lt.mpr within beyond).elim
  · have before := reaches.before
    have most := step.length_diagnostics_le program
    rw [found, List.length_append]
    refine ⟨by omega, ?_, ?_⟩
    · intro beyond
      exact ⟨earlier, step, later, reaches.whole, before, chain, by omega, rfl⟩
    · intro quiet
      have member : step ∈ program.trace := by
        rw [reaches.whole]
        simp
      have one := quiet step member chain
      omega

/-- A chain of two links that both ask for an entry of an empty table. -/
def twoOutside : Program where
  opcodes := #[0xD0, 0, 0x70, 0, 0xD1]
  libraries := []
  segments := [⟨"__DATA", 4096, 16, 0, 16, []⟩]
  width := .bits64
  image := #[0, 0, 0, 0, 0, 0, 0x08, 0x40, 0, 0, 0, 0, 0, 0, 0, 0x40]

theorem diagnostics_within_limit_twoOutside :
    (0 < 1 ∧ ∃ outcome ∈ interpret .ofProcess twoOutside 1,
      1 < outcome.diagnostics.length ∧
        ∃ step ∈ twoOutside.trace, step.decoded = .ok .applyChain ∧
          1 < (step.diagnostics twoOutside).length) ∧
    0 < 3 ∧ ∃ outcome ∈ interpret .ofProcess threeProblems 3,
      outcome.diagnostics.length ≤ 3 := by
  constructor
  · have two : (interpret .ofProcess twoOutside 1).map
        (fun outcome => outcome.diagnostics.length) = some 2 := by decide +kernel
    rcases Option.map_eq_some_iff.mp two with ⟨outcome, ends, length⟩
    have beyond : 1 < outcome.diagnostics.length := by
      rw [length]
      decide
    obtain ⟨-, exceeds, -⟩ := diagnostics_within_limit twoOutside (by decide) ends
    rcases exceeds beyond with ⟨earlier, step, later, whole, -, chain, several, -⟩
    refine ⟨by decide, outcome, ends, beyond, step, ?_, chain, several⟩
    rw [whole]
    simp
  · have finishes : (interpret .ofProcess threeProblems 3).isSome = true := by
      decide +kernel
    rcases Option.isSome_iff_exists.mp finishes with ⟨outcome, ends⟩
    obtain ⟨-, -, within⟩ := diagnostics_within_limit threeProblems (by decide) ends
    refine ⟨by decide, outcome, ends, within ?_⟩
    decide +kernel

/-- Both links are reported, although the limit is one. -/
theorem limit_exceeded_twoOutside :
    ¬ ∀ limit, 0 < limit → ∀ outcome ∈ interpret .ofProcess twoOutside limit,
      outcome.diagnostics.length ≤ limit := by
  intro within
  have two : (interpret .ofProcess twoOutside 1).map
      (fun outcome => outcome.diagnostics.length) = some 2 := by decide +kernel
  rcases Option.map_eq_some_iff.mp two with ⟨outcome, ends, length⟩
  have one := within 1 (by decide) outcome ends
  rw [length] at one
  revert one
  decide

end Linkedit.Bind
