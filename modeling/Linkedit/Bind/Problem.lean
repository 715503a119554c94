import Linkedit.Error

/-!
# Problems of a bind program

A bind program is run on a best effort. A problem is reported at the opcode that
shows it, the bind in question is left out, and the run goes on unless the next
opcode cannot be found.
-/

namespace Linkedit.Bind

/-- What is wrong with an opcode of a bind program. -/
inductive Problem where
  | undecodable (error : Error)
  | invalidKind (number : Nat)
  | ordinalOutOfRange (ordinal : Int) (libraries : Nat)
  | unknownSpecialOrdinal (ordinal : Int)
  | noSegment
  | segmentOutOfRange (index segments : Nat)
  | offsetPastSegment (offset : Nat) (segment : String) (size : Nat)
  | noSymbol
  | noOrdinal
  | repeatedSlot (count : Nat)
  | runPastSegment (count stride offset : Nat) (segment : String)
  | skipOverflow (skip : Nat)
  | incompleteTableEntry
  | tableFull (capacity : Nat)
  | unknownThreadedOpcode (number : Nat)
  | threadedNeeds64Bits
  | applyBeforeTable
  | linkOutsideContent (offset : Nat) (segment : String)
  | linkPastImage (offset : Nat)
  | indexOutsideTable (offset index entries : Nat)
  | linkCrossesPage (offset : Nat)
  | linkLeavesSegment (offset : Nat) (segment : String)
  | tooManyRecords (count : Nat)
deriving DecidableEq, Repr

open Text (hex)

/-- The wording of a problem. -/
def Problem.message : Problem → String
  | .undecodable error => error.message
  | .invalidKind number => s!"invalid bind type {number}"
  | .ordinalOutOfRange ordinal libraries =>
      s!"library ordinal {ordinal} out of range ({libraries} dylibs)"
  | .unknownSpecialOrdinal ordinal =>
      s!"unknown special library ordinal {ordinal}"
  | .noSegment => "bind location used before any segment was set"
  | .segmentOutOfRange index segments =>
      s!"segment index {index} out of range ({segments} segments)"
  | .offsetPastSegment offset segment size =>
      s!"offset {hex offset} is past the end of segment {segment} " ++
        s!"(vmsize {hex size})"
  | .noSymbol => "bind without a symbol name"
  | .noOrdinal => "bind without a library ordinal"
  | .repeatedSlot count => s!"{count} binds repeat the same slot"
  | .runPastSegment count stride offset segment =>
      s!"{count} binds every {hex stride} bytes from {hex offset} " ++
        s!"run past the end of segment {segment}"
  | .skipOverflow skip => s!"bind skip {hex skip} overflows the address space"
  | .incompleteTableEntry =>
      "ordinal table entry needs a symbol name and library ordinal"
  | .tableFull capacity => s!"ordinal table is full ({capacity} entries)"
  | .unknownThreadedOpcode number =>
      s!"unknown threaded bind subopcode {hex number}"
  | .threadedNeeds64Bits => "threaded binds require 64-bit segments"
  | .applyBeforeTable =>
      "threaded apply before the ordinal table size was set"
  | .linkOutsideContent offset segment =>
      s!"chain link at {hex offset} is outside the file content " ++
        s!"of segment {segment}"
  | .linkPastImage offset =>
      s!"chain link at {hex offset} is past the end of the image"
  | .indexOutsideTable offset index entries =>
      s!"chain bind at {hex offset} uses ordinal index {index} " ++
        s!"but the table has {entries} entries"
  | .linkCrossesPage offset =>
      s!"chain link at {hex offset} crosses a 16 KiB page boundary"
  | .linkLeavesSegment offset segment =>
      s!"chain link at {hex offset} leaves segment {segment}"
  | .tooManyRecords count => s!"{count} bind records do not fit in memory"

/-- A problem with the position of the opcode that shows it. -/
structure Diagnostic where
  offset : Nat
  problem : Problem
deriving DecidableEq, Repr

/-- A diagnostic as one line of text. -/
def Diagnostic.line (diagnostic : Diagnostic) : String :=
  s!"bind opcode at {hex diagnostic.offset}: {diagnostic.problem.message}"

end Linkedit.Bind
