import Linkedit.Tool.Script
import Mathlib.Control.Basic

/-!
# Carrying out scripts

A script that is carried out to its end on a host does what the host does with the
operations one after the other. Scripts that take all their turns at once do the same.
-/

namespace Linkedit.Tool.Script

variable {α β : Type} {m : Type → Type} [Monad m]

@[simp] theorem pure_eq (value : α) : (pure value : Script α) = .done value := rfl

@[simp] theorem done_bind (value : α) (next : α → Script β) :
    (Script.done value) >>= next = next value := rfl

@[simp] theorem ask_bind (operation : Operation) (rest : operation.Answer → Script α)
    (next : α → Script β) :
    (Script.ask operation rest) >>= next = .ask operation fun answer =>
      rest answer >>= next := rfl

/-! ## Carrying out a script to its end -/

/-- Carries out all operations of a script. -/
def carryOut (host : Host m) : Script α → m α
  | .done value => return value
  | .ask operation next => do (next (← host.perform operation)).carryOut host

theorem carryOut_single [LawfulMonad m] (host : Host m) (operation : Operation) :
    (single operation).carryOut host = host.perform operation := by
  rw [single, carryOut]
  exact bind_pure _

theorem carryOut_bind [LawfulMonad m] (host : Host m) (script : Script α)
    (next : α → Script β) :
    (script >>= next).carryOut host =
      script.carryOut host >>= fun value => (next value).carryOut host := by
  induction script with
  | done value => simp [carryOut]
  | ask operation rest ih => simp [carryOut, ih]

/-- Scripts have values if they have ended. -/
theorem mapM_value?_eq_some {scripts : List (Script α)} {values : List α} :
    scripts.mapM value? = some values ↔ scripts = values.map .done := by
  induction scripts generalizing values with
  | nil => cases values <;> simp
  | cons script scripts ih =>
      rw [List.mapM_cons]
      cases script with
      | ask operation next => cases values <;> simp [value?]
      | done value =>
          rw [value?, Option.bind_eq_bind, Option.bind_some, Option.bind_eq_bind,
            Option.bind_eq_some_iff]
          simp only [ih]
          constructor
          · rintro ⟨others, rfl, same⟩
            cases same
            rfl
          · intro whole
            cases values with
            | nil => cases whole
            | cons first others =>
                rw [List.map_cons] at whole
                cases whole
                exact ⟨others, rfl, rfl⟩

/-! ## Scripts of a bounded length -/

/-- A script ends after at most so many operations, whatever the answers are. -/
inductive EndsWithin : Nat → Script α → Prop where
  | done {bound : Nat} (value : α) : EndsWithin bound (.done value)
  | ask {bound : Nat} {operation : Operation} {next : operation.Answer → Script α}
      (further : ∀ answer, EndsWithin bound (next answer)) :
      EndsWithin (bound + 1) (.ask operation next)

theorem takeTurns_cons (host : Host m) (scripts : List (Script α)) (turn : Nat)
    (turns : List Nat) :
    takeTurns host scripts (turn :: turns) =
      takeTurn host scripts turn >>= fun scripts => takeTurns host scripts turns :=
  List.foldlM_cons

theorem takeTurns_append [LawfulMonad m] (host : Host m) (scripts : List (Script α))
    (turns later : List Nat) :
    takeTurns host scripts (turns ++ later) =
      takeTurns host scripts turns >>= fun scripts => takeTurns host scripts later :=
  List.foldlM_append

theorem set_of_getElem? {scripts : List (Script α)} {index : Nat} {script : Script α}
    (found : scripts[index]? = some script) : scripts.set index script = scripts := by
  rcases List.getElem?_eq_some_iff.mp found with ⟨inBounds, rfl⟩
  exact List.set_getElem_self inBounds

theorem takeTurn_of_done [LawfulMonad m] (host : Host m)
    {scripts : List (Script α)} {turn : Nat} {value : α}
    (ended : scripts[turn]? = some (.done value)) :
    takeTurn host scripts turn = pure scripts := by
  simp [takeTurn, ended, advance, set_of_getElem? ended]

/-- A script that takes enough turns in a row is carried out. -/
theorem takeTurns_replicate [LawfulMonad m] (host : Host m) {scripts : List (Script α)}
    {index bound : Nat} {script : Script α} (found : scripts[index]? = some script)
    (ends : EndsWithin bound script) :
    takeTurns host scripts (List.replicate bound index) =
      (script.carryOut host >>= fun value =>
        return scripts.set index (.done value)) := by
  induction ends generalizing scripts with
  | @done bound value =>
      rw [carryOut, pure_bind, set_of_getElem? found]
      induction bound with
      | zero => rfl
      | succ bound ih =>
          rw [List.replicate_succ, takeTurns_cons, takeTurn_of_done host found,
            pure_bind, ih]
  | @ask bound operation next further ih =>
      have inBounds := (List.getElem?_eq_some_iff.mp found).1
      rw [List.replicate_succ, takeTurns_cons, takeTurn, found, carryOut, bind_assoc]
      simp only [advance, bind_assoc, pure_bind]
      apply bind_congr
      intro answer
      have set : (scripts.set index (next answer))[index]? = some (next answer) := by
        simp [inBounds]
      rw [ih answer set]
      simp

/-- Turns in which scripts are carried out one after the other, from a given one on. -/
def oneByOne (bound first count : Nat) : List Nat :=
  (List.range' first count).flatMap (List.replicate bound)

/-- Scripts that take all their turns at once are carried out one after the other. -/
theorem takeTurns_oneByOne [LawfulMonad m] (host : Host m) (before : List α)
    {scripts : List (Script α)} {bound : Nat}
    (ends : ∀ script ∈ scripts, EndsWithin bound script) :
    takeTurns host (before.map .done ++ scripts)
      (oneByOne bound before.length scripts.length) =
        (scripts.mapM (carryOut host) >>= fun values =>
        return (before ++ values).map .done) := by
  induction scripts generalizing before with
  | nil => simp [oneByOne, takeTurns]
  | cons script scripts ih =>
      rw [List.forall_mem_cons] at ends
      have found : (before.map Script.done ++ script :: scripts)[before.length]? =
          some script := by
        simp
      rw [oneByOne, List.length_cons, List.range'_succ, List.flatMap_cons,
        takeTurns_append, takeTurns_replicate host found ends.1, List.mapM_cons]
      simp only [bind_assoc, pure_bind]
      apply bind_congr
      intro value
      have further := ih (before ++ [value]) ends.2
      have scriptsLeft : (before.map Script.done ++ script :: scripts).set before.length
          (.done value) = (before ++ [value]).map .done ++ scripts := by
        rw [List.set_append_right _ _ (by simp)]
        simp
      rw [List.length_append, List.length_singleton] at further
      rw [scriptsLeft, ← oneByOne, further]
      simp only [List.append_assoc, List.singleton_append]

end Linkedit.Tool.Script
