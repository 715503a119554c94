import Linkedit.Tool.Host

/-!
# Scripts

A script is what the tool does, cut at the operations that it asks its host for. It may
be carried out one operation at a time, so several scripts can take turns on one host.
-/

namespace Linkedit.Tool

/-- An operation of a host. -/
inductive Operation where
  | readFile (path : String)
  | createDirectories (path : String)
  | createFile (path : String)
  | writeContent (path : String) (content : Bytes)
  | printLine (line : String)
  | elapsed

/-- What a host answers to an operation. -/
def Operation.Answer : Operation → Type
  | .readFile _ => Except Error Bytes
  | .createDirectories _ => Except FileFault Unit
  | .createFile _ => Except FileFault Unit
  | .writeContent _ _ => Except FileFault Unit
  | .printLine _ => Unit
  | .elapsed => String

/-- Carries out an operation. -/
def Host.perform {m : Type → Type} (host : Host m) :
    (operation : Operation) → m operation.Answer
  | .readFile path => host.readFile path
  | .createDirectories path => host.createDirectories path
  | .createFile path => host.createFile path
  | .writeContent path content => host.writeContent path content
  | .printLine line => host.printLine line
  | .elapsed => host.elapsed

/-- What is left to do: nothing, or an operation and what follows its answer. -/
inductive Script (α : Type) where
  | done (value : α)
  | ask (operation : Operation) (next : operation.Answer → Script α)

namespace Script

variable {α β : Type} {m : Type → Type} [Monad m]

/-- Goes on with the value that a script ends with. -/
def andThen (next : α → Script β) : Script α → Script β
  | .done value => next value
  | .ask operation rest => .ask operation fun answer => (rest answer).andThen next

instance : Monad Script where
  pure := .done
  bind script next := script.andThen next

/-- The script of one operation. -/
def single (operation : Operation) : Script operation.Answer := .ask operation .done

/-- The host on which the tool writes down what it asks for. -/
def host : Host Script where
  readFile path := single (.readFile path)
  createDirectories path := single (.createDirectories path)
  createFile path := single (.createFile path)
  writeContent path content := single (.writeContent path content)
  printLine line := single (.printLine line)
  elapsed := single .elapsed

/-- The value of a script that has ended. -/
def value? : Script α → Option α
  | .done value => some value
  | .ask _ _ => none

/-- Carries out one operation of a script. -/
def advance (host : Host m) : Script α → m (Script α)
  | .done value => return .done value
  | .ask operation next => return next (← host.perform operation)

/-- Lets the script with a given index carry out one operation. -/
def takeTurn (host : Host m) (scripts : List (Script α)) (turn : Nat) :
    m (List (Script α)) :=
  match scripts[turn]? with
  | some script => return scripts.set turn (← script.advance host)
  | none => return scripts

/-- Lets scripts carry out operations in turns. -/
def takeTurns (host : Host m) (scripts : List (Script α)) (turns : List Nat) :
    m (List (Script α)) :=
  turns.foldlM (takeTurn host) scripts

end Script

end Linkedit.Tool
