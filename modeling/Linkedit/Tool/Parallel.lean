import Linkedit.Tool.Script
import Linkedit.Tool.Strip

/-!
# Stripping files in parallel

Files are stripped by jobs that share one host. The order of their operations is open:
the jobs take turns, one operation at a time. Their results are merged when all of them
have ended.
-/

namespace Linkedit.Tool

/-- The session in which the tool writes down what it asks its host for. -/
def Session.scripted (verbosity : Nat) : Session Script := ⟨Script.host, verbosity⟩

/-- The job that strips a file, for a given verbosity. -/
def StripRequest.job (request : StripRequest) (verbosity : Nat) (path : String) :
    Script (Except Failure Nat) :=
  ((Session.scripted verbosity).stripFile request path).run

/-- Strips files by jobs that take turns. There is no outcome if a job has not ended
after all turns. -/
def Session.stripInTurns {m : Type → Type} [Monad m] (session : Session m)
    (request : StripRequest) (turns : List Nat) : m (Option (Except Failure Unit)) := do
  if request.isEmpty then return some (.error nothingToRemove)
  let jobs ← Script.takeTurns session.host
    (request.files.map (request.job session.verbosity)) turns
  match jobs.mapM Script.value? with
  | some results =>
      return some (← (session.mergeResults (request.files.zip results)).run)
  | none => return none

end Linkedit.Tool
