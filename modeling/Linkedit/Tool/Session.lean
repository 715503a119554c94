import Linkedit.Image.Tables
import Linkedit.Text.Column
import Linkedit.Text.Control
import Linkedit.Tool.Failure
import Linkedit.Tool.Host

/-!
# Sessions

A session is one run of the tool: the host it runs on and how much it reports.
Reports go to the output between the lines of the listings, each with its level
at the front and without controls of a terminal. Listings are printed as they are.
-/

namespace Linkedit.Tool

/-- How much a report matters. -/
inductive Level where
  | error
  | warn
  | info
  | debug
deriving DecidableEq, Repr

/-- The label of a level. -/
def Level.label : Level → String
  | .error => "ERROR"
  | .warn => "WARN"
  | .info => "INFO"
  | .debug => "DEBUG"

/-- The least verbosity at which a level is reported. -/
def Level.threshold : Level → Nat
  | .error => 0
  | .warn => 1
  | .info => 2
  | .debug => 3

/-- One run of the tool. -/
structure Session (m : Type → Type) where
  host : Host m
  verbosity : Nat

/-- An action of the tool that may fail. -/
abbrev Action (m : Type → Type) := ExceptT Failure m

namespace Session

variable {m : Type → Type} [Monad m]

/-- Prints a line of a listing. -/
def print (session : Session m) (line : String) : m Unit :=
  session.host.printLine line

/-- Reports a message, if it matters enough. -/
def report (session : Session m) (level : Level) (message : String) : m Unit :=
  if level.threshold ≤ session.verbosity then
    session.print s!"{Text.flushRight 5 level.label} {Text.shown message}"
  else pure ()

/-- Takes the result of an operation on an image. -/
def take {α : Type} (context? : Option String) (result : Except Error α) :
    Action m α :=
  ExceptT.mk (pure (result.mapError (Failure.error context?)))

/-- Runs an action on each of several files and keeps what came of it, so that
one file that fails does not stop the others. -/
def forEachFile {α : Type} (files : List String) (action : String → Action m α) :
    m (List (String × Except Failure α)) :=
  files.mapM fun path => do return (path, ← (action path).run)

/-- Reads the content of a file. -/
def readFile (session : Session m) (path : String) : Action m Bytes := do
  take none (← session.host.readFile path)

/-- Reads an image that was found in a file. -/
def parseImage (session : Session m) (context : String) (data : Bytes) :
    Action m Image := do
  let image ← take (some context) (Image.parse data)
  session.report .debug (s!"Parsed {image.header.architecture} image with " ++
    s!"{image.segments.length} segments and {image.libraries.length} dylibs")
  return image

/-- Reads the image in a file. -/
def readImage (session : Session m) (path : String) : Action m Image := do
  session.parseImage s!"Failed to parse: {path}" (← session.readFile path)

end Session

end Linkedit.Tool
