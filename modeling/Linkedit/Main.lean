import Linkedit.Tool.Run

/-!
# The command line tool

The tool on the real system: its files, its output and its clock.
-/

namespace Linkedit.Tool

/-- The fault behind a failed operation of the system. -/
def FileFault.ofSystem (error : IO.Error) : FileFault :=
  match error with
  | .noFileOrDirectory .. => .notFound
  | .permissionDenied .. => .permissionDenied
  | .alreadyExists .. => .fileExists
  | .inappropriateType _ 20 _ => .notADirectory
  | .inappropriateType _ 21 _ => .isADirectory
  | .invalidArgument _ 36 _ => .nameTooLong
  | other => .other 0 (toString other)

/-- Runs an operation of the system and keeps its fault. -/
def attempt {α : Type} (action : IO α) : IO (Except FileFault α) := do
  match ← action.toBaseIO with
  | .ok value => return .ok value
  | .error error => return .error (FileFault.ofSystem error)

/-- The real system, with the time at which the tool was started. -/
def systemHost (started : Nat) : Host IO where
  readFile path := do
    match ← attempt (IO.FS.readBinFile path) with
    | .ok content => return .ok content.data
    | .error .isADirectory => return .error (.memoryMap path .noDevice)
    | .error fault => return .error (.fileOpen path fault)
  createDirectories path := attempt (IO.FS.createDirAll path)
  createFile path := attempt (IO.FS.writeBinFile path ⟨#[]⟩)
  writeContent path content := attempt do
    let file ← IO.FS.Handle.mk path .readWrite
    file.write ⟨content⟩
    file.flush
  printLine line := IO.println line
  elapsed := do
    let hundredths := ((← IO.monoMsNow) - started) / 10
    let fraction := toString (hundredths % 100)
    let filled := if fraction.length = 1 then "0" ++ fraction else fraction
    return s!"{hundredths / 100}.{filled}s"

end Linkedit.Tool

/-- Runs the tool on the real system. -/
def main (arguments : List String) : IO UInt32 := do
  let host := Linkedit.Tool.systemHost (← IO.monoMsNow)
  let exit ← Linkedit.Tool.run host .ofProcess arguments
  IO.eprint exit.errors
  return UInt32.ofNat exit.code
