import Linkedit.Error

/-!
# Failures of the tool

The tool fails with a message of its own or with an error in an image. An error
may come with the context in which it arose, and an error of the host comes with
the fault behind it. Together they are a chain from the outermost message to the
cause.
-/

namespace Linkedit.Tool

/-- Why a command of the tool fails. -/
inductive Failure where
  | plain (message : String)
  | error (context? : Option String) (error : Error)
  /-- A count left the numbers that it can hold, and the tool stops on the spot. -/
  | overflow
deriving DecidableEq, Repr

namespace Failure

/-- The messages of a failure, from the outermost to the cause. -/
def chain : Failure → List String
  | .plain message => [message]
  | .error context? cause =>
      context?.toList ++ [cause.message] ++
        (cause.fileFault?.map FileFault.message).toList
  | .overflow => ["attempt to add with overflow"]

/-- A failure on one line. -/
def line (failure : Failure) : String := ": ".intercalate failure.chain

/-- The numbered or single causes below the outermost message. -/
def causes : List String → String
  | [] => ""
  | [cause] => s!"\n\nCaused by:\n    {cause}"
  | several => "\n\nCaused by:" ++ String.join
      (several.zipIdx.map fun (cause, index) =>
        "\n" ++ String.ofList (List.replicate (5 - (toString index).length) ' ') ++
          s!"{index}: {cause}")

/-- A failure as the tool reports it at its end. -/
def report (failure : Failure) : String :=
  match failure.chain with
  | [] => ""
  | message :: rest => s!"Error: {message}{causes rest}"

/-- Whether the failure lies in the input, so that other files may be fine. -/
def isRecoverable : Failure → Bool
  | .plain _ | .overflow => false
  | .error _ cause => cause.isRecoverable

/-- The exit code of a tool that ends with a failure. -/
def exitCode : Failure → Nat
  | .plain _ | .error .. => 1
  | .overflow => 101

end Failure

end Linkedit.Tool
