import Linkedit.Proofs.Bind.Events
import Linkedit.Proofs.Bind.Trace

/-!
# Programs that run alike

An instruction looks at the libraries and segments of its program, and at the image only
through the words of pointer chains. Programs that agree on these do the same in every
instruction, and if they have the same opcodes, in every run.
-/

namespace Linkedit.Bind

/-- The programs have the same libraries and segments, and the same words wherever a
pointer chain is read. -/
structure Alike (left right : Program) : Prop where
  libraries : right.libraries = left.libraries
  segments : right.segments = left.segments
  width : right.width = left.width
  words : ∀ segment ∈ left.segments, ∀ offset,
    chainOffset offset chainStride ≤ segment.fileSize.toNat →
    right.image.word64? (segment.fileOffset.toNat + offset) =
      left.image.word64? (segment.fileOffset.toNat + offset)

theorem alike_withOpcodes (program : Program) (opcodes : Bytes) :
    Alike program { program with opcodes } where
  libraries := rfl
  segments := rfl
  width := rfl
  words _ _ _ _ := rfl

namespace Alike

variable {left right : Program}

theorem locate_eq (alike : Alike left right) (registers : Registers) :
    locate right registers = locate left registers := by
  rw [locate, locate, alike.segments]

theorem bindRun_eq (alike : Alike left right) (registers : Registers)
    (count stride : Nat) :
    bindRun right registers count stride = bindRun left registers count stride := by
  rw [bindRun, bindRun, alike.locate_eq]

theorem checkSlot_eq (alike : Alike left right) (registers : Registers) :
    checkSlot right registers = checkSlot left registers := by
  rw [checkSlot, checkSlot, alike.locate_eq]

theorem walkChain_eq (alike : Alike left right) (index : Nat) {segment : Segment}
    (isSegment : segment ∈ left.segments) (entries : Array Target) (offset : Nat) :
    walkChain right index segment entries offset =
      walkChain left index segment entries offset := by
  fun_induction walkChain left index segment entries offset with
  | case1 offset content missing =>
      rw [walkChain, if_pos content, alike.words segment isSegment offset content,
        missing]
  | case2 offset content raw word pointer next ih =>
      rw [walkChain, if_pos content, alike.words segment isSegment offset content, word]
      dsimp only
      congr 1
      split
      next => rfl
      next more =>
        split
        next samePage =>
          split
          next inSegment => exact ih more samePage inSegment
          next => rfl
        next => rfl
  | case3 offset outside => rw [walkChain, if_neg outside]

theorem applyChain_eq (alike : Alike left right) (registers : Registers) :
    applyChain right registers = applyChain left registers := by
  rw [applyChain, applyChain, alike.width, alike.locate_eq]
  split
  next => rfl
  next => rfl
  next table width held =>
    cases located : locate left registers with
    | error problem => rfl
    | ok found =>
        have isSegment := List.mem_of_getElem? (locate_eq_ok located).1
        exact congrArg Except.ok (alike.walkChain_eq found.1 isSegment _ _)

/-- Every instruction does the same in both programs. -/
theorem execute_eq (alike : Alike left right) (registers : Registers)
    (instruction : Instruction) :
    execute right registers instruction = execute left registers instruction := by
  cases instruction with
  | done | setSymbol | setKind | setAddend | setTableSize | unknownThreaded => rfl
  | setOrdinal ordinal => rw [execute, execute, alike.libraries]
  | setSlot | advance => simp only [execute, alike.checkSlot_eq]
  | bind | bindAdvance | bindAdvanceScaled | bindRepeated =>
      simp only [execute, alike.bindRun_eq, alike.width]
  | applyChain => rw [execute, execute, alike.applyChain_eq]

/-! ## Runs -/

theorem after_eq (alike : Alike left right) (step : Step) :
    step.after right = step.after left := by
  rw [Step.after, Step.after]
  simp only [alike.execute_eq]

theorem events_eq (alike : Alike left right) (step : Step) :
    step.events right = step.events left := by
  rw [Step.events, Step.events]
  simp only [alike.execute_eq]

theorem traceFrom_eq (alike : Alike left right) (cursor : Cursor)
    (registers : Registers) :
    traceFrom right cursor registers = traceFrom left cursor registers := by
  fun_induction traceFrom left cursor registers with
  | case1 cursor registers stopped => rw [traceFrom, if_pos stopped]
  | case2 cursor registers running instruction next decoded ih =>
      rw [traceFrom, if_neg running]
      split
      next other otherNext otherDecoded =>
        cases decoded.symm.trans otherDecoded
        rw [alike.execute_eq, ih]
      next error failed => cases decoded.symm.trans failed
  | case3 cursor registers running error failed =>
      rw [traceFrom, if_neg running]
      split
      next instruction next decoded => cases failed.symm.trans decoded
      next other otherFailed =>
        cases failed.symm.trans otherFailed
        rfl

theorem follow_eq {σ : Type} (alike : Alike left right) (pass : Pass σ)
    (registers : Registers) (state : σ) (steps : List Step) :
    pass.follow right registers state steps =
      pass.follow left registers state steps := by
  induction steps generalizing registers state with
  | nil => rfl
  | cons step steps ih =>
      rw [Pass.follow, Pass.follow, alike.events_eq, alike.after_eq]
      simp only [ih]

theorem trace_eq (alike : Alike left right) (opcodes : right.opcodes = left.opcodes) :
    right.trace = left.trace := by
  rw [Program.trace, alike.traceFrom_eq, opcodes, Program.trace]

/-- Programs that are alike and take the same steps have the same outcome. -/
theorem interpret_eq_of_trace (alike : Alike left right)
    (trace : right.trace = left.trace) (memory : Memory) (limit : Nat) :
    interpret memory right limit = interpret memory left limit := by
  have same : ∀ {σ : Type} (pass : Pass σ) (start : σ),
      run right pass start = run left pass start := by
    intro σ pass start
    rw [run_eq_follow, run_eq_follow, alike.follow_eq, trace]
  simp only [interpret, conclude, alike.libraries, same]

/-- Programs that are alike and have the same opcodes have the same outcome. -/
theorem interpret_eq (alike : Alike left right) (opcodes : right.opcodes = left.opcodes)
    (memory : Memory) (limit : Nat) :
    interpret memory right limit = interpret memory left limit :=
  alike.interpret_eq_of_trace (alike.trace_eq opcodes) memory limit

end Alike

end Linkedit.Bind
