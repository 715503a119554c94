import Linkedit.Proofs.Bind.Passes

/-!
# Programs that ask for too many records

A few opcodes can ask for more binds than a word can count. As long as no single bind
meets a full count, the count stays at the largest word, and the program is given up
before the second pass. A single bind that meets a full count overflows it, and the
program has no outcome.
-/

namespace Linkedit.Bind

variable {program : Program}

theorem SinglesFit.left {counted : Nat} {left right : List Event}
    (fit : SinglesFit counted (left ++ right)) : SinglesFit counted left := by
  rintro before slot after rfl
  exact fit before slot (after ++ right) (by simp)

/-- Beyond `2 ^ 64 - 1` binds there is no room for the records. -/
theorem interpret_of_full {memory : Memory} {limit : Nat} {count : UInt64}
    (going : (run program (counting limit) {}).abandoned = false)
    (counted : (run program (counting limit) {}).state.records = some count)
    (full : count.toNat = 2 ^ 64 - 1) :
    interpret memory program limit =
      some ⟨[], (run program (counting limit) {}).registers.threaded,
        (run program (counting limit) {}).state.diagnostics.toList ++
          [⟨0, .tooManyRecords (2 ^ 64 - 1)⟩], true⟩ := by
  have refused := memory.refuses (2 ^ 64 - 1) (by decide)
  rw [interpret, counted, Option.map_some, conclude, going, if_neg Bool.false_ne_true,
    full, refused, if_neg Bool.false_ne_true]

/-- If a program asks for `2 ^ 64 - 1` binds or more, the count grows up to that number
and stays there, and the program is given up with it. If a single bind comes after so
many, the count overflows at the first that does. -/
theorem count_saturates (memory : Memory) (program : Program) (limit : Nat)
    (going : (run program (counting limit) {}).abandoned = false)
    (many : 2 ^ 64 - 1 ≤ bindCount program.events) :
    (SinglesFit 0 program.events →
      (∀ before after, program.events = before ++ after →
        ∃ count, before.foldlM countEvent 0 = some count ∧
          count.toNat = min (bindCount before) (2 ^ 64 - 1)) ∧
      (run program (counting limit) {}).state.records =
        some (UInt64.ofNat (2 ^ 64 - 1)) ∧
      interpret memory program limit =
        some ⟨[], (run program (counting limit) {}).registers.threaded,
          (run program (counting limit) {}).state.diagnostics.toList ++
            [⟨0, .tooManyRecords (2 ^ 64 - 1)⟩], true⟩ ∧
      (Problem.tooManyRecords (2 ^ 64 - 1)).message =
        "18446744073709551615 bind records do not fit in memory") ∧
    (¬ SinglesFit 0 program.events →
      interpret memory program limit = none ∧
      ∃ before slot after, program.events = before ++ .single slot :: after ∧
        SinglesFit 0 before ∧ 2 ^ 64 - 1 ≤ bindCount before ∧
        before.foldlM countEvent 0 = some (UInt64.ofNat (2 ^ 64 - 1)) ∧
        countEvent (UInt64.ofNat (2 ^ 64 - 1)) (.single slot) = none) := by
  have counted := records_run_counting going
  constructor
  case left =>
    intro fit
    have counts : ∀ before after, program.events = before ++ after →
        ∃ count, before.foldlM countEvent 0 = some count ∧
          count.toNat = min (bindCount before) (2 ^ 64 - 1) := by
      intro before after whole
      rw [whole] at fit
      exact foldlM_countEvent_zero fit.left
    rw [foldlM_countEvent_full fit many] at counted
    exact ⟨counts, counted, interpret_of_full going counted rfl, by decide⟩
  case right =>
    intro late
    rcases exists_late_of_not_singlesFit late with
        ⟨before, slot, after, whole, early, full⟩
    rw [Nat.zero_add] at full
    rw [whole, foldlM_countEvent_of_late early full] at counted
    refine ⟨?_, before, slot, after, whole, early, full,
      foldlM_countEvent_full early full, rfl⟩
    rw [interpret, counted, Option.map_none]

/-! ## Counts that are full -/

/-- A program of some binds in a segment as large as a word allows. -/
def hugeProgram (binds : List UInt8) : Program where
  opcodes := ([0x11, 0x40, 95, 120, 0, 0x70, 0] ++ binds ++ [0x00]).toArray
  libraries := ["/usr/lib/libSystem.B.dylib"]
  segments := [⟨"__HUGE", 0, 0xFFFFFFFFFFFFFFFF, 0, 0, []⟩]
  width := .bits64
  image := #[]

/-- The opcodes of a run of `2 ^ 61` binds, which ends at the offset it began at. -/
def hugeRun : List UInt8 :=
  [0xC0, 0x80, 0x80, 0x80, 0x80, 0x80, 0x80, 0x80, 0x80, 0x20, 0x00]

/-- The opcodes of a run of `2 ^ 60` binds. -/
def largeRun : List UInt8 :=
  [0xC0, 0x80, 0x80, 0x80, 0x80, 0x80, 0x80, 0x80, 0x80, 0x10, 0x00]

/-- A single bind and then eight runs. -/
def fullProgram : Program :=
  hugeProgram (0xB0 :: 0x70 :: 0 :: (List.replicate 8 hugeRun).flatten)

/-- Eight runs, then a single bind and another run. -/
def overfullProgram : Program :=
  hugeProgram ((List.replicate 8 hugeRun).flatten ++ 0x90 :: largeRun)

theorem count_saturates_full :
    ((run fullProgram (counting 20) {}).abandoned = false ∧
      bindCount fullProgram.events = 2 ^ 64 + 1 ∧
      (run fullProgram (counting 20) {}).state.records =
        some (UInt64.ofNat (2 ^ 64 - 1)) ∧
      ∃ outcome ∈ interpret .ofProcess fullProgram 20, outcome.records = []) ∧
    (run overfullProgram (counting 20) {}).abandoned = false ∧
      bindCount overfullProgram.events = 2 ^ 64 + 2 ^ 60 + 1 ∧
      interpret .ofProcess overfullProgram 20 = none := by
  constructor
  · have going : (run fullProgram (counting 20) {}).abandoned = false := by
      decide +kernel
    have count : bindCount fullProgram.events = 2 ^ 64 + 1 := by decide +kernel
    have fit : SinglesFit 0 fullProgram.events := by decide +kernel
    obtain ⟨fits, -⟩ :=
      count_saturates .ofProcess fullProgram 20 going (by rw [count]; decide)
    obtain ⟨-, full, outcome, -⟩ := fits fit
    exact ⟨going, count, full, _, outcome, rfl⟩
  · have going : (run overfullProgram (counting 20) {}).abandoned = false := by
      decide +kernel
    have count : bindCount overfullProgram.events = 2 ^ 64 + 2 ^ 60 + 1 := by
      decide +kernel
    obtain ⟨-, overflows⟩ :=
      count_saturates .ofProcess overfullProgram 20 going (by rw [count]; decide)
    have late : ¬ SinglesFit 0 overfullProgram.events := by decide +kernel
    exact ⟨going, count, (overflows late).1⟩

/-- A single bind that meets a full count overflows it, so that there is no outcome,
although the pass was not given up. -/
theorem count_overflows :
    (run overfullProgram (counting 20) {}).abandoned = false ∧
      2 ^ 64 - 1 ≤ bindCount overfullProgram.events ∧
      (run overfullProgram (counting 20) {}).state.records = none ∧
      interpret .ofProcess overfullProgram 20 = none := by
  decide +kernel

end Linkedit.Bind
