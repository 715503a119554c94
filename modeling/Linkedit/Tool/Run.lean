import Linkedit.Tool.Strip

/-!
# Running the tool

The whole tool: a command line is read, its command is run, and the exit code
and the error output tell how it went.
-/

namespace Linkedit.Tool

/-- How the tool ends: its exit code and its error output. -/
structure Exit where
  code : Nat
  errors : String := ""
deriving DecidableEq, Repr

/-- The name of the tool with its version. -/
def version : String := "dyldmeta 0.1.0"

/-- How the tool is used. -/
def usage : List String := [
  "Usage: dyldmeta [-v LEVEL] COMMAND",
  "",
  "  exports FILE... [-j JOBS]             list the exports of images",
  "  lookup FILE SYMBOL                    look up one export",
  "  binds FILE [--error-limit COUNT]      decode the bind opcodes of an image",
  "  strip-exports FILE... [-r SYMBOL] [-p PREFIX] [-o DIRECTORY] [-j JOBS]",
  "                                        remove exports from images"]

/-- Runs a command. -/
def Session.run {m : Type → Type} [Monad m] (session : Session m)
    (memory : Bind.Memory) : Command → Action m Unit
  | .exports files => session.listExports files
  | .lookup file symbol => session.lookup file symbol
  | .binds file limit => session.listBinds memory file limit
  | .stripExports request => session.stripExports request

/-- Runs the tool on a command line. -/
def run {m : Type → Type} [Monad m] (host : Host m) (memory : Bind.Memory)
    (arguments : List String) : m Exit := do
  match Invocation.parse arguments with
  | .ok invocation =>
      let session : Session m := ⟨host, invocation.verbosity⟩
      match ← (session.run memory invocation.command).run with
      | .ok () => return { code := 0 }
      | .error failure =>
          return { code := failure.exitCode, errors := failure.report ++ "\n" }
  | .error .version =>
      host.printLine version
      return { code := 0 }
  | .error .help =>
      usage.forM host.printLine
      return { code := 0 }
  | .error .refused =>
      return { code := 2, errors := "\n".intercalate usage ++ "\n" }

end Linkedit.Tool
