import Linkedit.Tool.Strip
import Linkedit.Proofs.Tool.Lawful

/-!
# Merging results

The report on a run of jobs prints lines and changes no file, and it fails if a job
failed.
-/

namespace Linkedit.Tool

variable {σ ι α β : Type}

/-- What a command that failed on some files comes to. -/
def outcomeOf (failed total : Nat) : Except Failure Unit :=
  match failed with
  | 0 => .ok ()
  | failed + 1 => .error (.plain s!"{failed + 1} of {total} files failed")

theorem failures_eq_nil {results : List (String × Except Failure Nat)} :
    Session.failures results = [] ↔
      ∀ result ∈ results, ∃ removed, result.2 = .ok removed := by
  rw [Session.failures, List.filterMap_eq_nil_iff]
  apply forall₂_congr
  rintro ⟨path, failure | removed⟩ _ <;> simp

theorem outcomeOf_eq_ok {results : List (String × Except Failure Nat)} {total : Nat} :
    outcomeOf (Session.failures results).length total = .ok () ↔
      ∀ result ∈ results, ∃ removed, result.2 = .ok removed := by
  rw [← failures_eq_nil, ← List.length_eq_zero_iff]
  cases (Session.failures results).length <;> simp [outcomeOf]

/-- An action with a given outcome that changes no file. -/
def FileView.Keeps (view : FileView σ ι) (action : Action (StateM σ) α)
    (outcome : Except Failure α) : Prop :=
  ∀ state, ∃ later, action.run state = (outcome, later) ∧
    ∀ place, view.content? later place = view.content? state place

namespace FileView.Keeps

variable {view : FileView σ ι} {host : Host (StateM σ)}

theorem bind {action : Action (StateM σ) α} {value : α} {next : α → Action (StateM σ) β}
    {outcome : Except Failure β} (first : view.Keeps action (.ok value))
    (second : view.Keeps (next value) outcome) :
    view.Keeps (action >>= next) outcome := by
  intro state
  rcases first state with ⟨middle, ran, same⟩
  rcases second middle with ⟨later, ranOn, still⟩
  refine ⟨later, ?_, fun place => (still place).trans (same place)⟩
  rw [ExceptT.run_bind, bind_apply ran]
  exact ranOn

theorem pure (view : FileView σ ι) (value : α) :
    view.Keeps (Pure.pure value) (.ok value) :=
  fun state => ⟨state, rfl, fun _ => rfl⟩

theorem report (lawful : host.Lawful view) {verbosity : Nat} (level : Level)
    (message : String) :
    view.Keeps (liftM ((Session.mk host verbosity).report level message)) (.ok ()) := by
  intro state
  rw [Session.report]
  split
  · refine ⟨_, rfl, fun place => ?_⟩
    exact @lawful.frame (.printLine _) _ state _ place rfl nofun
  · exact ⟨state, rfl, fun _ => rfl⟩

theorem elapsed_bind (lawful : host.Lawful view) {next : String → Action (StateM σ) α}
    {outcome : Except Failure α}
    (further : ∀ elapsed, view.Keeps (next elapsed) outcome) :
    view.Keeps (liftM host.elapsed >>= next) outcome := by
  intro state
  rcases asked : host.elapsed state with ⟨elapsed, middle⟩
  rcases further elapsed middle with ⟨later, ran, same⟩
  refine ⟨later, ?_, fun place => (same place).trans ?_⟩
  · have opened : (liftM host.elapsed >>= next).run =
        host.elapsed >>= fun elapsed => (next elapsed).run := ExceptT.run_bind_lift _ _
    rw [opened, bind_apply asked]
    exact ran
  · exact @lawful.frame .elapsed _ _ _ place asked nofun

theorem forIn {values : List α} {step : α → Unit → Action (StateM σ) (ForInStep Unit)}
    (each : ∀ value, view.Keeps (step value ()) (.ok (.yield ()))) :
    view.Keeps (ForIn.forIn values () step) (.ok ()) := by
  induction values with
  | nil => exact pure view ()
  | cons value values ih =>
      rw [List.forIn_cons]
      exact (each value).bind ih

theorem checkAll (view : FileView σ ι) (failed total : Nat) :
    view.Keeps (Session.checkAll failed total) (outcomeOf failed total) := by
  intro state
  cases failed <;> exact ⟨state, rfl, fun _ => rfl⟩

theorem summary (lawful : host.Lawful view) {verbosity : Nat}
    (message : String → String) (failed total : Nat) :
    view.Keeps (do
      let elapsed ← (Session.mk host verbosity).host.elapsed
      (Session.mk host verbosity).report .info (message elapsed)
      Session.checkAll failed total) (outcomeOf failed total) := by
  apply elapsed_bind lawful
  intro elapsed
  exact (report lawful .info (message elapsed)).bind (checkAll view failed total)

/-- Merging results fails if there was a failure. -/
theorem mergeResults (lawful : host.Lawful view) (verbosity : Nat)
    (results : List (String × Except Failure Nat)) :
    view.Keeps ((Session.mk host verbosity).mergeResults results)
      (outcomeOf (Session.failures results).length results.length) := by
  rw [Session.mergeResults]
  dsimp only
  split
  · apply (report lawful .warn _).bind
    apply (forIn _).bind (summary lawful _ _ _)
    rintro ⟨path, failure⟩
    exact (report lawful .error _).bind (pure view _)
  · exact summary lawful _ _ _

end FileView.Keeps

end Linkedit.Tool
