import Linkedit.Proofs.Bind.Tally
import Mathlib.Data.List.Induction

/-!
# The limit on diagnostics

The first pass looks at the number of its diagnostics after each instruction, also after
the last one and after one that cannot be decoded. It gives up after the first at which
the limit is reached, with all diagnostics up to there. A program with fewer diagnostics
is run as if there were no limit.
-/

namespace Linkedit.Bind

variable {program : Program}

/-! ## Diagnostics of a run -/

/-- The diagnostic of an event in the instruction at `offset`. -/
def Event.diagnostic? (offset : Nat) : Event → Option Diagnostic
  | .problem found => some ⟨offset, found⟩
  | .single _ | .run .. => none

@[simp] theorem Event.diagnostic?_problem (offset : Nat) (found : Problem) :
    (Event.problem found).diagnostic? offset = some ⟨offset, found⟩ := rfl

@[simp] theorem Event.diagnostic?_single (offset : Nat) (slot : Slot) :
    (Event.single slot).diagnostic? offset = none := rfl

@[simp] theorem Event.diagnostic?_run (offset : Nat) (first : Slot)
    (count stride : Nat) :
    (Event.run first count stride).diagnostic? offset = none := rfl

/-- The diagnostics of a step, in order. -/
def Step.diagnostics (program : Program) (step : Step) : List Diagnostic :=
  (step.events program).filterMap (Event.diagnostic? step.offset)

/-- The diagnostics of some steps, in order. -/
def diagnosticsOf (program : Program) (steps : List Step) : List Diagnostic :=
  steps.flatMap (Step.diagnostics program)

/-- The diagnostics of a whole run, however many there are. -/
def Program.diagnostics (program : Program) : List Diagnostic :=
  diagnosticsOf program program.trace

@[simp] theorem diagnosticsOf_nil : diagnosticsOf program [] = [] := rfl

@[simp] theorem diagnosticsOf_cons (step : Step) (steps : List Step) :
    diagnosticsOf program (step :: steps) =
      step.diagnostics program ++ diagnosticsOf program steps := rfl

@[simp] theorem diagnosticsOf_append (left right : List Step) :
    diagnosticsOf program (left ++ right) =
      diagnosticsOf program left ++ diagnosticsOf program right :=
  List.flatMap_append

theorem diagnostics_observeAll (tally : Tally) (offset : Nat) (events : List Event) :
    ((counting 0).observeAll tally offset events).diagnostics.toList =
      tally.diagnostics.toList ++ events.filterMap (Event.diagnostic? offset) := by
  induction events generalizing tally with
  | nil => simp [Pass.observeAll]
  | cons event events ih =>
      rw [Pass.observeAll, List.foldl_cons]
      apply (ih _).trans
      cases event with
      | single | run => rfl
      | problem => simp [counting, Tally.observe]

theorem diagnostics_observeStep (tally : Tally) (step : Step) :
    (tally.observeStep program step).diagnostics.toList =
      tally.diagnostics.toList ++ step.diagnostics program :=
  diagnostics_observeAll tally step.offset (step.events program)

theorem size_observeStep (program : Program) (tally : Tally) (step : Step) :
    (tally.observeStep program step).diagnostics.size =
      tally.diagnostics.size + (step.diagnostics program).length := by
  rw [← Array.length_toList, diagnostics_observeStep, List.length_append,
    Array.length_toList]

theorem diagnostics_foldl_observeStep (program : Program) (tally : Tally)
    (steps : List Step) :
    (steps.foldl (Tally.observeStep program) tally).diagnostics.toList =
      tally.diagnostics.toList ++ diagnosticsOf program steps := by
  induction steps generalizing tally with
  | nil => exact (List.append_nil _).symm
  | cons step steps ih =>
      rw [List.foldl_cons, ih, diagnostics_observeStep, diagnosticsOf_cons,
        List.append_assoc]

/-! ## The first pass under a limit -/

variable {limit : Nat} {registers : Registers} {tally : Tally} {steps : List Step}

theorem exhausted_counting :
    (counting limit).exhausted tally = true ↔ limit ≠ 0 ∧
      limit ≤ tally.diagnostics.size := by
  simp [counting]

/-- The limit has no part in what is counted, only in when the pass gives up. -/
theorem follow_counting_cons (step : Step) :
    (counting limit).follow program registers tally (step :: steps) =
      if (counting limit).exhausted (tally.observeStep program step) then
        ⟨tally.observeStep program step, step.after program, true⟩
      else
        (counting limit).follow program (step.after program)
          (tally.observeStep program step) steps := rfl

/-- Without a limit a pass sees every step. -/
theorem follow_counting_zero (program : Program) (registers : Registers) (tally : Tally)
    (steps : List Step) :
    ∃ last, (counting 0).follow program registers tally steps =
      ⟨steps.foldl (Tally.observeStep program) tally, last, false⟩ := by
  induction steps generalizing registers tally with
  | nil => exact ⟨registers, rfl⟩
  | cons step steps ih =>
      have going :
          ¬ (counting 0).exhausted (tally.observeStep program step) = true := by
        simp [exhausted_counting]
      rw [follow_counting_cons, if_neg going]
      exact ih _ _

/-- A pass whose limit is not reached is a pass without a limit. -/
theorem follow_counting_of_lt
    (few : tally.diagnostics.size + (diagnosticsOf program steps).length < limit) :
    (counting limit).follow program registers tally steps =
      (counting 0).follow program registers tally steps := by
  induction steps generalizing registers tally with
  | nil => rfl
  | cons step steps ih =>
      have size := size_observeStep program tally step
      rw [diagnosticsOf_cons, List.length_append] at few
      have going :
          ¬ (counting limit).exhausted (tally.observeStep program step) = true := by
        rw [exhausted_counting]
        omega
      have unlimited :
          ¬ (counting 0).exhausted (tally.observeStep program step) = true := by
        simp [exhausted_counting]
      rw [follow_counting_cons, follow_counting_cons, if_neg going, if_neg unlimited]
      apply ih
      omega

/-- A pass gives up after the step at which the limit is reached. -/
theorem follow_counting_of_reached (registers : Registers) (later : List Step)
    {earlier : List Step} {step : Step}
    (before : tally.diagnostics.size + (diagnosticsOf program earlier).length < limit)
    (reached : limit ≤ tally.diagnostics.size +
      (diagnosticsOf program earlier ++ step.diagnostics program).length) :
    (counting limit).follow program registers tally (earlier ++ step :: later) =
      ⟨(earlier ++ [step]).foldl (Tally.observeStep program) tally,
        step.after program, true⟩ := by
  induction earlier generalizing registers tally with
  | nil =>
      have size := size_observeStep program tally step
      rw [diagnosticsOf_nil, List.nil_append] at reached
      have exhausted :
          (counting limit).exhausted (tally.observeStep program step) = true := by
        rw [exhausted_counting]
        omega
      rw [List.nil_append, follow_counting_cons, if_pos exhausted]
      rfl
  | cons first earlier ih =>
      have size := size_observeStep program tally first
      simp only [diagnosticsOf_cons, List.length_append] at before reached
      have going :
          ¬ (counting limit).exhausted (tally.observeStep program first) = true := by
        rw [exhausted_counting]
        omega
      rw [List.cons_append, follow_counting_cons, if_neg going]
      apply ih
      · omega
      · rw [List.length_append]
        omega

/-! ## Where the limit is reached -/

/-- The first step of a run at which the diagnostics reach the limit. -/
structure ReachesLimit (program : Program) (limit : Nat)
    (earlier : List Step) (step : Step) (later : List Step) : Prop where
  whole : program.trace = earlier ++ step :: later
  before : (diagnosticsOf program earlier).length < limit
  reached : limit ≤ (diagnosticsOf program earlier ++ step.diagnostics program).length

theorem ReachesLimit.diagnostics_ne_nil {earlier later : List Step} {step : Step}
    (reaches : ReachesLimit program limit earlier step later) :
    step.diagnostics program ≠ [] := by
  intro none
  have reached := reaches.reached
  rw [none, List.append_nil] at reached
  exact Nat.not_lt.mpr reached reaches.before

theorem ReachesLimit.isPrefix {earlier later : List Step} {step : Step}
    (reaches : ReachesLimit program limit earlier step later) :
    diagnosticsOf program earlier ++ step.diagnostics program <+:
      program.diagnostics := by
  rw [Program.diagnostics, reaches.whole, diagnosticsOf_append, diagnosticsOf_cons,
    ← List.append_assoc]
  exact List.prefix_append _ _

theorem exists_split_of_le_length (positive : 0 < limit)
    (many : limit ≤ (diagnosticsOf program steps).length) :
    ∃ earlier step later, steps = earlier ++ step :: later ∧
      (diagnosticsOf program earlier).length < limit ∧
      limit ≤ (diagnosticsOf program earlier ++ step.diagnostics program).length := by
  induction steps using List.reverseRecOn with
  | nil =>
      rw [diagnosticsOf_nil] at many
      exact (Nat.not_lt.mpr many positive).elim
  | append_singleton steps last ih =>
      by_cases early : limit ≤ (diagnosticsOf program steps).length
      · rcases ih early with ⟨earlier, step, later, rfl, found⟩
        exact ⟨earlier, step, later ++ [last], by simp, found⟩
      · rw [diagnosticsOf_append, diagnosticsOf_cons, diagnosticsOf_nil,
          List.append_nil] at many
        exact ⟨steps, last, [], rfl, Nat.not_le.mp early, many⟩

theorem exists_reachesLimit (positive : 0 < limit)
    (many : limit ≤ program.diagnostics.length) :
    ∃ earlier step later, ReachesLimit program limit earlier step later := by
  rcases exists_split_of_le_length positive many with
      ⟨earlier, step, later, whole, before, reached⟩
  exact ⟨earlier, step, later, whole, before, reached⟩

/-! ## Outcomes -/

/-- Without a limit the first pass sees every step of the run. -/
theorem run_counting_zero (program : Program) :
    (run program (counting 0) {}).abandoned = false ∧
      (run program (counting 0) {}).state =
        program.trace.foldl (Tally.observeStep program) {} := by
  rw [run_eq_follow]
  rcases follow_counting_zero program {} {} program.trace with ⟨last, ran⟩
  rw [ran]
  exact ⟨rfl, rfl⟩

/-- Without a limit the first pass finds all diagnostics of the run. -/
theorem diagnostics_run_counting_zero (program : Program) :
    (run program (counting 0) {}).state.diagnostics.toList = program.diagnostics := by
  rw [(run_counting_zero program).2, diagnostics_foldl_observeStep]
  rfl

/-- The number of records that the first pass counts, unless the count overflows. -/
def Program.counted (program : Program) : Option UInt64 :=
  (run program (counting 0) {}).state.records

theorem counted_eq_countOf (program : Program) :
    program.counted = countOf program program.trace := by
  rw [Program.counted, (run_counting_zero program).2, records_foldl_observeStep]
  rfl

/-- What a program binds without a limit. -/
theorem interpret_zero (memory : Memory) (program : Program) :
    interpret memory program 0 = program.counted.map fun count =>
      if memory.reserves count.toNat then
        ⟨program.trace.flatMap (Step.records program),
          (run program (counting 0) {}).registers.threaded, program.diagnostics, false⟩
      else
        ⟨[], (run program (counting 0) {}).registers.threaded,
          program.diagnostics ++ [⟨0, .tooManyRecords count.toNat⟩], true⟩ := by
  have going := (run_counting_zero program).1
  simp only [interpret, conclude, going, diagnostics_run_counting_zero, run_collecting]
  rfl

theorem interpret_of_lt_limit (memory : Memory)
    (few : program.diagnostics.length < limit) :
    interpret memory program limit = interpret memory program 0 := by
  have same : run program (counting limit) {} = run program (counting 0) {} := by
    rw [run_eq_follow, run_eq_follow]
    apply follow_counting_of_lt
    simpa [Program.diagnostics] using few
  rw [interpret, interpret, same]

/-- The first pass gives up at the step at which the limit is reached. -/
theorem ReachesLimit.run_eq {earlier later : List Step} {step : Step}
    (reaches : ReachesLimit program limit earlier step later) :
    run program (counting limit) {} =
      ⟨(earlier ++ [step]).foldl (Tally.observeStep program) {},
        step.after program, true⟩ := by
  rw [run_eq_follow, reaches.whole]
  apply follow_counting_of_reached
  · simpa using reaches.before
  · simpa using reaches.reached

theorem ReachesLimit.interpret_eq (memory : Memory) {earlier later : List Step}
    {step : Step} (reaches : ReachesLimit program limit earlier step later) :
    interpret memory program limit =
      (countOf program (earlier ++ [step])).map fun _ =>
        ⟨[], (step.after program).threaded,
          diagnosticsOf program earlier ++ step.diagnostics program, true⟩ := by
  have counts := records_foldl_observeStep program {} (earlier ++ [step])
  have found := diagnostics_foldl_observeStep program {} (earlier ++ [step])
  rw [interpret, reaches.run_eq]
  simp only [conclude, counts, found, diagnosticsOf_append, diagnosticsOf_cons]
  simp [countOf]

/-- A limit that is not reached makes no difference. -/
theorem interpret_cases (memory : Memory) (program : Program) (limit : Nat) :
    interpret memory program limit = interpret memory program 0 ∨
      ∃ earlier step later, ReachesLimit program limit earlier step later := by
  by_cases positive : 0 < limit
  · by_cases few : program.diagnostics.length < limit
    · exact .inl (interpret_of_lt_limit memory few)
    · exact .inr (exists_reachesLimit positive (Nat.not_lt.mp few))
  · rw [Nat.eq_zero_of_not_pos positive]
    exact .inl rfl

/-- A first pass that does not give up is one without a limit. -/
theorem interpret_of_going (memory : Memory)
    (going : (run program (counting limit) {}).abandoned = false) :
    interpret memory program limit = interpret memory program 0 := by
  rcases interpret_cases memory program limit with same | ⟨_, _, _, reaches⟩
  · exact same
  · rw [reaches.run_eq] at going
    cases going

/-- What is reported was found in the run, or says that there is no room for the
records. -/
theorem mem_diagnostics_interpret {memory : Memory} {outcome : Outcome}
    {diagnostic : Diagnostic} (ends : interpret memory program limit = some outcome)
    (member : diagnostic ∈ outcome.diagnostics) :
    diagnostic ∈ program.diagnostics ∨
      ∃ count, diagnostic = ⟨0, .tooManyRecords count⟩ := by
  rcases interpret_cases memory program limit with same | ⟨_, _, _, reaches⟩
  · rw [same, interpret_zero] at ends
    rcases Option.map_eq_some_iff.mp ends with ⟨count, -, rfl⟩
    split at member
    next => exact .inl member
    next =>
      rcases List.mem_append.mp member with inRun | last
      · exact .inl inRun
      · exact .inr ⟨_, List.mem_singleton.mp last⟩
  · rw [reaches.interpret_eq] at ends
    rcases Option.map_eq_some_iff.mp ends with ⟨count, -, rfl⟩
    exact .inl (reaches.isPrefix.subset member)

/-- A program without a diagnostic has none in its run, and it is not given up. -/
theorem going_of_no_diagnostics {memory : Memory} {outcome : Outcome}
    (ends : interpret memory program limit = some outcome)
    (quiet : outcome.diagnostics = []) :
    program.diagnostics = [] ∧ outcome.abandoned = false := by
  rcases interpret_cases memory program limit with same | ⟨_, _, _, reaches⟩
  · rw [same, interpret_zero] at ends
    rcases Option.map_eq_some_iff.mp ends with ⟨count, -, rfl⟩
    split at quiet
    next room => exact ⟨quiet, by rw [if_pos room]⟩
    next => cases (List.append_eq_nil_iff.mp quiet).2
  · rw [reaches.interpret_eq] at ends
    rcases Option.map_eq_some_iff.mp ends with ⟨count, -, rfl⟩
    exact absurd (List.append_eq_nil_iff.mp quiet).2 reaches.diagnostics_ne_nil

/-- A limit only cuts a run short. A program with fewer diagnostics has the outcome that
it has without a limit. Any other is given up, without records, after the first step at
which the limit is reached, whatever the step and whether or not others follow. -/
theorem interpret_limit (memory : Memory) (program : Program) {limit : Nat}
    (positive : 0 < limit) :
    (run program (counting 0) {}).state.diagnostics.toList = program.diagnostics ∧
      (∀ count, (run program (counting 0) {}).state.records = some count →
        memory.reserves count.toNat = true →
          ∃ outcome, interpret memory program 0 = some outcome ∧
            outcome.diagnostics = program.diagnostics) ∧
      (program.diagnostics.length < limit →
        interpret memory program limit = interpret memory program 0) ∧
      (limit ≤ program.diagnostics.length → ∃ earlier step later,
        ReachesLimit program limit earlier step later ∧
          interpret memory program limit =
            (countOf program (earlier ++ [step])).map (fun _ =>
              ⟨[], (step.after program).threaded,
                diagnosticsOf program earlier ++ step.diagnostics program, true⟩) ∧
          ((interpret memory program 0).isSome →
            (countOf program (earlier ++ [step])).isSome) ∧
          diagnosticsOf program earlier ++ step.diagnostics program <+:
            program.diagnostics ∧
          step.diagnostics program ≠ []) := by
  refine ⟨diagnostics_run_counting_zero program, ?whole, interpret_of_lt_limit memory,
    ?cut⟩
  case whole =>
    intro count counts room
    have ends := interpret_zero memory program
    rw [Program.counted, counts, Option.map_some, if_pos room] at ends
    exact ⟨_, ends, rfl⟩
  case cut =>
    intro many
    rcases exists_reachesLimit positive many with ⟨earlier, step, later, reaches⟩
    refine ⟨earlier, step, later, reaches, reaches.interpret_eq memory, ?_,
      reaches.isPrefix, reaches.diagnostics_ne_nil⟩
    intro finishes
    rw [interpret_zero, Option.isSome_map, counted_eq_countOf, reaches.whole,
      ← List.singleton_append, ← List.append_assoc] at finishes
    exact isSome_countOf_left finishes

/-- A program that binds two slots and finds three problems: a kind that does not exist,
a library that does not exist, and at the end of the stream an opcode that does not
exist. -/
def threeProblems : Program where
  opcodes := #[0x11, 0x40, 95, 97, 0, 0x70, 0, 0x90, 0x5F, 0x90, 0x12, 0xF0]
  libraries := ["/usr/lib/libSystem.B.dylib"]
  segments := [⟨"__DATA", 4096, 64, 0, 56, []⟩]
  width := .bits64
  image := #[]

/-- The last opcode cannot be decoded, and with it a limit of three is reached. A limit
of four is not, and both slots are bound. -/
theorem interpret_limit_threeProblems :
    threeProblems.diagnostics.length = 3 ∧
      (∃ outcome ∈ interpret .ofProcess threeProblems 3, outcome.abandoned = true ∧
        outcome.records = [] ∧ outcome.diagnostics = threeProblems.diagnostics) ∧
      interpret .ofProcess threeProblems 4 = interpret .ofProcess threeProblems 0 ∧
      ∃ outcome ∈ interpret .ofProcess threeProblems 4, outcome.abandoned = false ∧
        outcome.records.map (·.address) = [4096, 4104] := by
  have three : threeProblems.diagnostics.length = 3 := by decide +kernel
  have binds : (interpret .ofProcess threeProblems 0).map
      (fun outcome => (outcome.abandoned, outcome.records.map (·.address))) =
        some (false, [4096, 4104]) := by decide +kernel
  obtain ⟨-, -, -, cuts⟩ := @interpret_limit .ofProcess threeProblems 3 (by decide)
  obtain ⟨-, -, same, -⟩ := @interpret_limit .ofProcess threeProblems 4 (by decide)
  refine ⟨three, ?cut, ?same, ?binds⟩
  case cut =>
    rcases cuts (Nat.le_of_eq three.symm) with
        ⟨earlier, step, later, reaches, cut, counts, start, -⟩
    have all : diagnosticsOf threeProblems earlier ++ step.diagnostics threeProblems =
        threeProblems.diagnostics := by
      apply start.eq_of_length_le
      rw [three]
      exact reaches.reached
    rcases Option.isSome_iff_exists.mp (counts (by decide +kernel)) with
      ⟨count, counted⟩
    rw [counted] at cut
    exact ⟨_, cut, rfl, rfl, all⟩
  case same => exact same (by rw [three]; decide)
  case binds =>
    rw [same (by rw [three]; decide)]
    rcases Option.map_eq_some_iff.mp binds with ⟨outcome, ends, found⟩
    rcases Prod.mk.inj found with ⟨going, addresses⟩
    exact ⟨outcome, ends, going, addresses⟩

end Linkedit.Bind
