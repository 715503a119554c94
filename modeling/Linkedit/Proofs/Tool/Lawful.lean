import Linkedit.Tool.Path
import Linkedit.Proofs.Tool.Exchange

/-!
# Hosts that keep files

What the tool relies on in a host. A host may refuse any operation, and a file that
could not be written may hold anything. But a host that says that it did something has
done it, and it changes no other file.
-/

namespace Linkedit.Tool

/-- How the files of a host are looked at. -/
structure FileView (σ ι : Type) where
  /-- The place that a path leads to. -/
  place : (path : String) → ι
  /-- The content of the file at a place, if a file is there. -/
  content? : σ → ι → Option Bytes
  /-- Whether a device is at a place. It takes what is written and keeps none of it. -/
  device : σ → ι → Prop

variable {σ ι : Type}

/-- A host that keeps its files. Nobody else changes them, and they have one name
each. -/
structure Host.Lawful (host : Host (StateM σ)) (view : FileView σ ι) : Prop where
  /-- An operation changes no file but the one that it makes or writes to. -/
  frame : ∀ {operation answer state later place},
    host.perform operation state = (answer, later) →
    (∀ path, operation.written? = some path → view.place path ≠ place) →
    view.content? later place = view.content? state place
  /-- No operation makes a device. -/
  devices : ∀ {operation answer state later place},
    host.perform operation state = (answer, later) →
    view.device later place → view.device state place
  /-- What is read is the content of the file. -/
  read : ∀ {path content state later},
    host.readFile path state = (.ok content, later) →
    view.content? state (view.place path) = some content
  /-- A file that was made is empty, whether or not it was there. -/
  create : ∀ {path state later}, host.createFile path state = (.ok (), later) →
    view.content? later (view.place path) = some #[] ∨
      view.device later (view.place path)
  /-- An empty file that was written to holds what was written. -/
  write : ∀ {path content state later},
    host.writeContent path content state = (.ok (), later) →
    view.content? state (view.place path) = some #[] →
    view.content? later (view.place path) = some content
  /-- Files of different names are at different places. -/
  names : ∀ {left right leftName rightName}, Path.fileName? left = some leftName →
    Path.fileName? right = some rightName → view.place left = view.place right →
    leftName = rightName

/-! ## What happens to the files -/

/-- What a host does, from a state to a state. -/
inductive Host.Does (host : Host (StateM σ)) : σ → Log → σ → Prop where
  | nothing {state : σ} : host.Does state [] state
  | exchange {state middle final : σ} {script : Nat} {operation : Operation}
      {answer : operation.Answer} {log : Log}
      (performed : host.perform operation state = (answer, middle))
      (later : host.Does middle log final) :
      host.Does state ((script, ⟨operation, answer⟩) :: log) final

variable {host : Host (StateM σ)} {view : FileView σ ι} {state final : σ} {log : Log}

theorem Script.Turns.does {α : Type} {scripts last : List (Script α)} {turns : List Nat}
    (run : Turns host scripts state turns log last final) :
    host.Does state log final := by
  induction run with
  | finish => exact .nothing
  | idle _ _ ih => exact ih
  | exchange _ performed _ ih => exact .exchange performed ih

/-- A script that does not exist exchanges nothing. -/
theorem Script.Turns.lt_length {α : Type} {scripts last : List (Script α)}
    {turns : List Nat} (run : Turns host scripts state turns log last final)
    {script : Nat} {exchange : Exchange} (member : (script, exchange) ∈ log) :
    script < scripts.length := by
  induction run with
  | finish => cases member
  | idle _ _ ih => exact ih member
  | exchange asks _ _ ih =>
      rcases List.mem_cons.mp member with same | later
      · cases same
        exact (List.getElem?_eq_some_iff.mp asks).1
      · simpa using ih later

namespace Host.Does

/-- What a host does before, at and after an exchange. -/
theorem exists_split {before after : Log} {script : Nat} {operation : Operation}
    {answer : operation.Answer}
    (does : host.Does state (before ++ (script, ⟨operation, answer⟩) :: after) final) :
    ∃ start middle, host.Does state before start ∧
      host.perform operation start = (answer, middle) ∧
        host.Does middle after final := by
  induction before generalizing state with
  | nil =>
      cases does with
      | exchange performed later => exact ⟨state, _, .nothing, performed, later⟩
  | cons first before ih =>
      cases does with
      | exchange performed later =>
          rcases ih later with ⟨start, middle, earlier, own, rest⟩
          exact ⟨start, middle, .exchange performed earlier, own, rest⟩

/-- A file keeps its content while no other is made or written to at its place. -/
theorem content?_eq (does : host.Does state log final) (lawful : host.Lawful view)
    {place : ι} (elsewhere : ∀ entry ∈ log, ∀ path,
      entry.2.operation.written? = some path → view.place path ≠ place) :
    view.content? final place = view.content? state place := by
  induction does with
  | nothing => rfl
  | @exchange state middle final script operation answer log performed _ ih =>
      rw [List.forall_mem_cons] at elsewhere
      rw [ih elsewhere.2]
      exact lawful.frame performed elsewhere.1

theorem device (does : host.Does state log final)
    (lawful : host.Lawful view) {place : ι} (device : view.device final place) :
    view.device state place := by
  induction does with
  | nothing => exact device
  | @exchange state middle final script operation answer log performed _ ih =>
      exact lawful.devices performed (ih device)

end Host.Does

end Linkedit.Tool
