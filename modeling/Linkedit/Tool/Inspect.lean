import Linkedit.Tool.Listing
import Linkedit.Tool.Session

/-!
# Inspecting images

The commands that show what images hold: their exports, a single export, and
their binds.
-/

namespace Linkedit.Tool.Session

variable {m : Type → Type} [Monad m]

/-! ## Exports -/

/-- Reads the exports of the image in a file. -/
def readExports (session : Session m) (path : String) :
    Action m (List Export) := do
  let image ← session.readImage path
  take (some s!"Failed to read exports: {path}") image.exports

/-- Shows the exports read from one of several files, or reports why there are
none. The answer tells whether it failed. -/
def showExports (session : Session m) (several : Bool) (path : String) :
    Except Failure (List Export) → m Bool
  | .ok symbols => do
      if several then session.print s!"{path}:"
      for symbol in symbols do session.print (exportLine symbol)
      session.report .info s!"{path}: {symbols.length} exports"
      return false
  | .error failure => do
      if failure.isRecoverable then
        session.report .warn s!"{path}: malformed export data: {failure.line}"
      else session.report .error failure.line
      return true

/-- Fails if some of the files failed. -/
def checkAll (failed total : Nat) : Action m Unit := do
  if 0 < failed then throw (.plain s!"{failed} of {total} files failed")

/-- Shows the exports of files. All files are read before the first is shown. -/
def listExports (session : Session m) (files : List String) : Action m Unit := do
  let results ← forEachFile (m := m) files session.readExports
  let failures ← results.mapM fun (path, result) =>
    session.showExports (1 < files.length) path result
  checkAll (failures.count true) files.length

/-! ## Single exports -/

/-- Shows the export of a given name. -/
def lookup (session : Session m) (path symbol : String) : Action m Unit := do
  let image ← session.readImage path
  match ← take none (image.lookup (Text.bytes symbol)) with
  | some found => session.print (exportLine found)
  | none => throw (.plain s!"Symbol not exported: {symbol}")

/-! ## Binds -/

/-- Reports how the interpretation of a bind program went. -/
def reportOutcome (session : Session m) (outcome : Bind.Outcome) : m Unit := do
  if 2 ≤ session.verbosity then
    for diagnostic in outcome.diagnostics do
      session.report .warn diagnostic.line
  if !outcome.abandoned then
    session.report .debug (s!"Decoded {outcome.records.length} bind records " ++
      s!"({outcome.diagnostics.length} diagnostics, " ++
      s!"threaded: {outcome.threaded})")
  else if !outcome.exceedsMemory then
    session.report .warn
      s!"Abandoned bind info after {outcome.diagnostics.length} errors"

/-- Shows the binds of the image in a file. -/
def listBinds (session : Session m) (memory : Bind.Memory) (path : String)
    (limit : Nat) : Action m Unit := do
  let image ← session.readImage path
  session.report .info (s!"{path}: {image.header.architecture} image with " ++
    s!"{image.libraries.length} dependent dylibs")
  if image.dyldInfo?.isNone && image.chainedFixups?.isSome then
    session.report .warn s!"{path} binds through chained fixups, not opcodes"
  else
    let some outcome ← take none (image.binds memory limit)
      | throw .overflow
    session.reportOutcome outcome
    session.print bindHeading
    for record in outcome.records do session.print (bindLine record)
    let problems := outcome.diagnostics.length
    if outcome.threaded then
      session.report .info "Bind info uses threaded binds"
    if outcome.abandoned then
      throw (.plain s!"Gave up after {problems} malformed bind opcodes")
    if 0 < problems then
      session.report .warn
        s!"{problems} bind opcode problems (use -v 2 to list them)"

end Linkedit.Tool.Session
