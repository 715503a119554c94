import Linkedit.Proofs.Tool.Script

/-!
# Exchanges with a host

Scripts exchange operations for answers with their host. What a script is to do can be
said of its exchanges alone. So it holds whichever other scripts take turns with it, and
whatever the host answers.
-/

namespace Linkedit.Tool

/-- A chain of actions on a state goes on from where the first of them ends. -/
theorem bind_apply {σ α β : Type} {first : StateM σ α} {next : α → StateM σ β}
    {start later : σ} {value : α} (ran : first start = (value, later)) :
    (first >>= next) start = next value later := by
  change StateT.bind first next start = _
  rw [StateT.bind, ran]
  rfl

namespace Operation

/-- Whether an operation is one on files. -/
def onFiles : Operation → Bool
  | .readFile _ | .createDirectories _ | .createFile _ | .writeContent _ _ => true
  | .printLine _ | .elapsed => false

/-- The path of the file that an operation makes or writes to. -/
def written? : Operation → Option String
  | .createFile path | .writeContent path _ => some path
  | .readFile _ | .createDirectories _ | .printLine _ | .elapsed => none

theorem onFiles_of_written? {operation : Operation} {path : String}
    (writes : operation.written? = some path) : operation.onFiles = true := by
  cases operation <;> first | rfl | cases writes

end Operation

/-- An operation and what the host answered to it. -/
structure Exchange where
  operation : Operation
  answer : operation.Answer

/-- What several scripts exchanged with a host, with the index of the script each
time. -/
abbrev Log := List (Nat × Exchange)

namespace Log

/-- What one script exchanged on files. -/
def filesOf (log : Log) (index : Nat) : List Exchange :=
  log.filterMap fun (script, exchange) =>
    if script = index ∧ exchange.operation.onFiles = true then some exchange else none

variable {log : Log} {index : Nat} {exchange : Exchange}

theorem filesOf_append (first second : Log) (index : Nat) :
    filesOf (first ++ second) index = filesOf first index ++ filesOf second index :=
  List.filterMap_append

theorem filesOf_cons_self (log : Log) (onFiles : exchange.operation.onFiles = true) :
    filesOf ((index, exchange) :: log) index = exchange :: log.filesOf index :=
  List.filterMap_cons_some (if_pos ⟨rfl, onFiles⟩)

theorem filesOf_cons_of_aside {script : Nat} (log : Log)
    (aside : exchange.operation.onFiles = false) :
    filesOf ((script, exchange) :: log) index = log.filesOf index :=
  List.filterMap_cons_none (if_neg (by simp [aside]))

theorem filesOf_cons_of_ne {script : Nat} (log : Log) (exchange : Exchange)
    (other : script ≠ index) :
    filesOf ((script, exchange) :: log) index = log.filesOf index :=
  List.filterMap_cons_none (if_neg (by simp [other]))

theorem mem_filesOf :
    exchange ∈ log.filesOf index ↔
      (index, exchange) ∈ log ∧ exchange.operation.onFiles = true := by
  rw [filesOf, List.mem_filterMap]
  constructor
  · rintro ⟨⟨script, other⟩, member, same⟩
    rcases Option.ite_none_right_eq_some.mp same with ⟨⟨rfl, onFiles⟩, isExchange⟩
    cases isExchange
    exact ⟨member, onFiles⟩
  · rintro ⟨member, onFiles⟩
    exact ⟨(index, exchange), member, if_pos ⟨rfl, onFiles⟩⟩

/-- Around an exchange of a script are those before and those after it. -/
theorem exists_split_of_filesOf {earlier later : List Exchange}
    (exchanged : log.filesOf index = earlier ++ exchange :: later) :
    ∃ before after, log = before ++ (index, exchange) :: after ∧
      filesOf before index = earlier ∧ filesOf after index = later := by
  rcases List.filterMap_eq_append_iff.mp exchanged with ⟨front, back, rfl, first, rest⟩
  rcases List.filterMap_eq_cons_iff.mp rest with
      ⟨between, ⟨script, own⟩, after, rfl, others, same, last⟩
  rcases Option.ite_none_right_eq_some.mp same with ⟨⟨rfl, -⟩, isExchange⟩
  cases isExchange
  refine ⟨front ++ between, after, by simp, ?_, last⟩
  have none : filesOf between script = [] := List.filterMap_eq_nil_iff.mpr others
  rw [filesOf_append, none, List.append_nil]
  exact first

end Log

/-! ## What scripts are to do -/

namespace Script

variable {α β : Type}

/-- A script ends after at most so many operations. Whatever the answers are, what it
exchanges on files and its value are as they should be. -/
inductive Meets : Nat → (List Exchange → α → Prop) → Script α → Prop where
  | done {bound : Nat} {post : List Exchange → α → Prop} {value : α}
      (holds : post [] value) : Meets bound post (.done value)
  | aside {bound : Nat} {post : List Exchange → α → Prop} {operation : Operation}
      {next : operation.Answer → Script α} (aside : operation.onFiles = false)
      (further : ∀ answer, Meets bound post (next answer)) :
      Meets (bound + 1) post (.ask operation next)
  | ask {bound : Nat} {post : List Exchange → α → Prop} {operation : Operation}
      {next : operation.Answer → Script α} (onFiles : operation.onFiles = true)
      (further : ∀ answer,
        Meets bound (fun later => post (⟨operation, answer⟩ :: later)) (next answer)) :
      Meets (bound + 1) post (.ask operation next)

namespace Meets

variable {bound other : Nat} {post : List Exchange → α → Prop} {script : Script α}

theorem weaken (extra : Nat) (meets : Meets bound post script) :
    Meets (bound + extra) post script := by
  induction meets with
  | done holds => exact .done holds
  | aside aside _ ih =>
      rw [Nat.add_right_comm]
      exact .aside aside ih
  | ask onFiles _ ih =>
      rw [Nat.add_right_comm]
      exact .ask onFiles ih

theorem mono {weaker : List Exchange → α → Prop} (meets : Meets bound post script)
    (implies : ∀ exchanges value, post exchanges value → weaker exchanges value) :
    Meets bound weaker script := by
  induction meets generalizing weaker with
  | done holds => exact .done (implies _ _ holds)
  | aside aside _ ih => exact .aside aside fun answer => ih answer implies
  | ask onFiles _ ih =>
      exact .ask onFiles fun answer => ih answer fun later => implies (_ :: later)

theorem bind {next : α → Script β} {last : List Exchange → β → Prop}
    (meets : Meets bound post script)
    (further : ∀ exchanges value, post exchanges value →
      Meets other (fun later => last (exchanges ++ later)) (next value)) :
    Meets (bound + other) last (script >>= next) := by
  induction meets generalizing last with
  | @done bound post value holds =>
      rw [Nat.add_comm]
      exact (further [] value holds).weaken bound
  | aside aside _ ih =>
      rw [Nat.add_right_comm]
      exact .aside aside fun answer => ih answer further
  | ask onFiles _ ih =>
      rw [Nat.add_right_comm]
      apply Meets.ask onFiles
      intro answer
      apply ih answer
      intro exchanges value holds
      exact further _ value holds

theorem endsWithin (meets : Meets bound post script) : EndsWithin bound script := by
  induction meets with
  | done => exact .done _
  | aside _ _ ih => exact .ask ih
  | ask _ _ ih => exact .ask ih

/-- A script without operations left has ended. -/
theorem exists_value (meets : Meets 0 post script) :
    ∃ value, script = .done value ∧ post [] value := by
  cases meets with
  | done holds => exact ⟨_, rfl, holds⟩

end Meets

/-! ## Runs of scripts that take turns -/

variable {σ : Type} {host : Host (StateM σ)}

/-- A run of scripts that take turns: the scripts and the state of the host at first,
whose turn it is, what is exchanged, and the scripts and the state at last. The turn of
a script that has ended is idle. -/
inductive Turns (host : Host (StateM σ)) :
    List (Script α) → σ → List Nat → Log → List (Script α) → σ → Prop where
  | finish {scripts : List (Script α)} {state : σ} :
      Turns host scripts state [] [] scripts state
  | idle {scripts last : List (Script α)} {state final : σ} {turn : Nat}
      {turns : List Nat} {log : Log}
      (ended : ∀ operation next, scripts[turn]? ≠ some (.ask operation next))
      (later : Turns host scripts state turns log last final) :
      Turns host scripts state (turn :: turns) log last final
  | exchange {scripts last : List (Script α)} {state middle final : σ} {turn : Nat}
      {turns : List Nat} {log : Log} {operation : Operation}
      {next : operation.Answer → Script α} {answer : operation.Answer}
      (asks : scripts[turn]? = some (.ask operation next))
      (performed : host.perform operation state = (answer, middle))
      (later : Turns host (scripts.set turn (next answer))
        middle turns log last final) :
      Turns host scripts state (turn :: turns)
        ((turn, ⟨operation, answer⟩) :: log) last final

/-- What the host does when a script takes its turn. -/
theorem takeTurn_of_ask {scripts : List (Script α)} {state middle : σ} {turn : Nat}
    {operation : Operation} {next : operation.Answer → Script α}
    {answer : operation.Answer} (asks : scripts[turn]? = some (.ask operation next))
    (performed : host.perform operation state = (answer, middle)) :
    takeTurn host scripts turn state = (scripts.set turn (next answer), middle) := by
  rw [takeTurn, asks]
  exact congrArg (fun answer => (scripts.set turn (next answer.1), answer.2)) performed

theorem takeTurn_of_ended {scripts : List (Script α)} {turn : Nat}
    (ended : ∀ operation next, scripts[turn]? ≠ some (.ask operation next)) :
    takeTurn host scripts turn = pure scripts := by
  rcases isScript : scripts[turn]? with _ | (value | ⟨operation, next⟩)
  · rw [takeTurn, isScript]
  · exact takeTurn_of_done host isScript
  · exact absurd isScript (ended operation next)

/-- Scripts that take turns make a run. -/
theorem exists_turns (host : Host (StateM σ)) (scripts : List (Script α))
    (turns : List Nat) (state : σ) :
    ∃ log last final, takeTurns host scripts turns state = (last, final) ∧
      Turns host scripts state turns log last final := by
  induction turns generalizing scripts state with
  | nil => exact ⟨[], scripts, state, rfl, .finish⟩
  | cons turn turns ih =>
      rw [takeTurns_cons]
      by_cases asks : ∃ operation next, scripts[turn]? = some (.ask operation next)
      · rcases asks with ⟨operation, next, asks⟩
        rcases performed : host.perform operation state with ⟨answer, middle⟩
        rcases ih (scripts.set turn (next answer)) middle with
            ⟨log, last, final, ran, run⟩
        refine ⟨_, last, final, ?_, .exchange asks performed run⟩
        exact (bind_apply (takeTurn_of_ask asks performed)).trans ran
      · simp only [not_exists] at asks
        rcases ih scripts state with ⟨log, last, final, ran, run⟩
        refine ⟨log, last, final, ?_, .idle asks run⟩
        rw [takeTurn_of_ended asks, pure_bind]
        exact ran

namespace Turns

variable {scripts last : List (Script α)} {state final : σ}
  {turns : List Nat} {log : Log}

theorem length_eq (run : Turns host scripts state turns log last final) :
    last.length = scripts.length := by
  induction run with
  | finish => rfl
  | idle _ _ ih => exact ih
  | exchange _ _ _ ih => rw [ih, List.length_set]

/-- In a run a script does what it is to do, and each of its turns lowers the number of
operations that are left. -/
theorem meets (run : Turns host scripts state turns log last final) {index bound : Nat}
    {post : List Exchange → α → Prop} {script : Script α}
    (isScript : scripts[index]? = some script) (meets : Meets bound post script) :
    ∃ rest, last[index]? = some rest ∧
      Meets (bound - turns.count index)
        (fun later => post (log.filesOf index ++ later)) rest := by
  induction run generalizing bound post script with
  | finish => exact ⟨script, isScript, meets⟩
  | @idle scripts last state final turn turns log ended later ih =>
      by_cases own : turn = index
      · subst own
        cases meets with
        | done holds =>
            rw [List.count_cons_self, Nat.add_comm, ← Nat.sub_sub]
            exact ih isScript (.done holds)
        | aside | ask => exact absurd isScript (ended _ _)
      · rw [List.count_cons_of_ne own]
        exact ih isScript meets
  | @exchange scripts last state middle final turn turns log operation next answer asks
      performed later ih =>
      by_cases own : turn = index
      · subst own
        cases asks.symm.trans isScript
        have inBounds := (List.getElem?_eq_some_iff.mp asks).1
        have moved : (scripts.set turn (next answer))[turn]? = some (next answer) :=
          List.getElem?_set_self inBounds
        cases meets with
        | aside aside further =>
            rcases ih moved (further answer) with ⟨rest, found, left⟩
            refine ⟨rest, found, ?_⟩
            rwa [List.count_cons_self, Nat.add_sub_add_right,
              Log.filesOf_cons_of_aside log aside]
        | ask onFiles further =>
            rcases ih moved (further answer) with ⟨rest, found, left⟩
            refine ⟨rest, found, ?_⟩
            rwa [List.count_cons_self, Nat.add_sub_add_right,
              Log.filesOf_cons_self log onFiles]
      · have stays : (scripts.set turn (next answer))[index]? = some script := by
          rwa [List.getElem?_set_ne own]
        rcases ih stays meets with ⟨rest, found, left⟩
        refine ⟨rest, found, ?_⟩
        rwa [List.count_cons_of_ne own, Log.filesOf_cons_of_ne log _ own]

end Turns

end Script

end Linkedit.Tool
