import Linkedit.Proofs.Bind.Trace
import Mathlib.Algebra.Group.Nat.Defs

/-!
# Counting records

The first pass counts records in a 64-bit word, and a run of binds fills the word up at
most. A single bind that meets a full count overflows it. Up to there the count is the
number of binds, cut off at the largest word.
-/

namespace Linkedit.Bind

/-- The number of slots that an event binds. -/
def Event.count : Event → Nat
  | .single _ => 1
  | .run _ count _ => count
  | .problem _ => 0

@[simp] theorem Event.length_slots (event : Event) :
    event.slots.length = event.count := by
  cases event <;> simp [Event.slots, Event.count]

/-- Whether an event is a single bind. -/
def Event.isSingle : Event → Bool
  | .single _ => true
  | _ => false

/-- The number of slots that some events bind. -/
def bindCount : List Event → Nat
  | [] => 0
  | event :: events => event.count + bindCount events

@[simp] theorem bindCount_nil : bindCount [] = 0 := rfl

@[simp] theorem bindCount_cons (event : Event) (events : List Event) :
    bindCount (event :: events) = event.count + bindCount events := rfl

@[simp] theorem bindCount_append (left right : List Event) :
    bindCount (left ++ right) = bindCount left + bindCount right := by
  induction left with
  | nil => simp
  | cons event left ih => simp [ih, Nat.add_assoc]

theorem length_flatMap_slots {α : Type} (events : List Event) (image : Slot → α) :
    (events.flatMap fun event => event.slots.map image).length = bindCount events := by
  induction events with
  | nil => rfl
  | cons event events ih => simp [ih]

/-! ## The count after some events -/

theorem addOne_of_lt {records : UInt64} (room : records.toNat < 2 ^ 64 - 1) :
    ∃ next, addOne records = some next ∧ next.toNat = records.toNat + 1 := by
  refine ⟨records + 1, if_pos (by simp only [UInt64.size]; omega), ?_⟩
  rw [UInt64.toNat_add, UInt64.toNat_one]
  omega

theorem toNat_addRun (records : UInt64) (count : Nat) :
    (addRun records count).toNat = min (records.toNat + count) (2 ^ 64 - 1) := by
  rw [addRun, UInt64.toNat_ofNat_of_lt' (by simp only [UInt64.size]; omega)]
  rfl

theorem records_observeAll (limit : Nat) (tally : Tally) (offset : Nat)
    (events : List Event) :
    ((counting limit).observeAll tally offset events).records =
      tally.records.bind fun records => events.foldlM countEvent records := by
  induction events generalizing tally with
  | nil => exact (Option.bind_fun_some tally.records).symm
  | cons event events ih =>
      apply (ih _).trans
      exact Option.bind_assoc tally.records _ _

/-- No single bind comes after `2 ^ 64 - 1` binds, of which `counted` are made before
these events. -/
def SinglesFit (counted : Nat) (events : List Event) : Prop :=
  ∀ before slot after, events = before ++ .single slot :: after →
    counted + bindCount before < 2 ^ 64 - 1

theorem singlesFit_nil (counted : Nat) : SinglesFit counted [] := by
  intro before slot after whole
  simp at whole

theorem singlesFit_cons {counted : Nat} {event : Event} {events : List Event} :
    SinglesFit counted (event :: events) ↔
      (event.isSingle = true → counted < 2 ^ 64 - 1) ∧
        SinglesFit (counted + event.count) events := by
  constructor
  · intro fit
    constructor
    · intro isSingle
      cases event with
      | single slot => exact fit [] slot events rfl
      | run | problem => cases isSingle
    · rintro before slot after rfl
      have bound := fit (event :: before) slot after rfl
      rwa [bindCount_cons, ← Nat.add_assoc] at bound
  · rintro ⟨head, rest⟩ before slot after whole
    cases before with
    | nil =>
        cases whole
        exact head rfl
    | cons first before =>
        cases whole
        rw [bindCount_cons, ← Nat.add_assoc]
        exact rest before slot after rfl

instance SinglesFit.decide : (counted : Nat) → (events : List Event) →
    Decidable (SinglesFit counted events)
  | counted, [] => .isTrue (singlesFit_nil counted)
  | counted, event :: events =>
      have := decide (counted + event.count) events
      decidable_of_iff _ singlesFit_cons.symm

theorem singlesFit_of_bindCount_lt {events : List Event}
    (few : bindCount events < 2 ^ 64 - 1) : SinglesFit 0 events := by
  rintro before slot after rfl
  rw [bindCount_append] at few
  omega

theorem countEvent_of_fit {counted : Nat} {event : Event} {records : UInt64}
    (start : records.toNat = min counted (2 ^ 64 - 1))
    (fit : event.isSingle = true → counted < 2 ^ 64 - 1) :
    ∃ next, countEvent records event = some next ∧
      next.toNat = min (counted + event.count) (2 ^ 64 - 1) := by
  cases event with
  | single slot =>
      have room := fit rfl
      rcases @addOne_of_lt records (by omega) with ⟨next, added, larger⟩
      exact ⟨next, added, by simp only [Event.count]; omega⟩
  | run first count stride =>
      refine ⟨_, rfl, ?_⟩
      rw [toNat_addRun, Event.count]
      omega
  | problem problem => exact ⟨records, rfl, start⟩

/-- If every single bind comes in time, the count is the number of binds, cut off at the
largest word. -/
theorem foldlM_countEvent {counted : Nat} {events : List Event} {records : UInt64}
    (start : records.toNat = min counted (2 ^ 64 - 1))
    (fit : SinglesFit counted events) :
    ∃ count, events.foldlM countEvent records = some count ∧
      count.toNat = min (counted + bindCount events) (2 ^ 64 - 1) := by
  induction events generalizing counted records with
  | nil => exact ⟨records, rfl, start⟩
  | cons event events ih =>
      rcases singlesFit_cons.mp fit with ⟨head, rest⟩
      rcases countEvent_of_fit start head with ⟨next, counts, atNext⟩
      rcases ih atNext rest with ⟨count, others, total⟩
      refine ⟨count, ?_, ?_⟩
      · rw [List.foldlM_cons, counts]
        exact others
      · rw [total, bindCount_cons, Nat.add_assoc]

/-- The count of events whose single binds all come in time. -/
theorem foldlM_countEvent_zero {events : List Event} (fit : SinglesFit 0 events) :
    ∃ count, events.foldlM countEvent 0 = some count ∧
      count.toNat = min (bindCount events) (2 ^ 64 - 1) := by
  have start : (0 : UInt64).toNat = min 0 (2 ^ 64 - 1) := rfl
  rcases foldlM_countEvent start fit with ⟨count, counts, total⟩
  exact ⟨count, counts, by rw [total, Nat.zero_add]⟩

/-- If not every single bind comes in time, there is a first that does not. -/
theorem exists_late_of_not_singlesFit {counted : Nat} {events : List Event}
    (late : ¬ SinglesFit counted events) :
    ∃ before slot after, events = before ++ .single slot :: after ∧
      SinglesFit counted before ∧ 2 ^ 64 - 1 ≤ counted + bindCount before := by
  induction events generalizing counted with
  | nil => exact absurd (singlesFit_nil counted) late
  | cons event events ih =>
      by_cases head : event.isSingle = true → counted < 2 ^ 64 - 1
      · rcases ih (fun rest => late (singlesFit_cons.mpr ⟨head, rest⟩)) with
            ⟨before, slot, after, rfl, early, many⟩
        refine ⟨event :: before, slot, after, rfl,
          singlesFit_cons.mpr ⟨head, early⟩, ?_⟩
        rwa [bindCount_cons, ← Nat.add_assoc]
      · rcases Classical.not_imp.mp head with ⟨isSingle, many⟩
        cases event with
        | single slot =>
            exact ⟨[], slot, events, rfl, singlesFit_nil counted, Nat.not_lt.mp many⟩
        | run | problem => cases isSingle

/-- Enough binds fill the count up. -/
theorem foldlM_countEvent_full {events : List Event} (fit : SinglesFit 0 events)
    (many : 2 ^ 64 - 1 ≤ bindCount events) :
    events.foldlM countEvent 0 = some (UInt64.ofNat (2 ^ 64 - 1)) := by
  rcases foldlM_countEvent_zero fit with ⟨count, counts, total⟩
  rw [Nat.min_eq_right many] at total
  rw [counts, Option.some_inj]
  exact UInt64.toNat_inj.mp total

/-- The count overflows at a single bind that comes too late. -/
theorem foldlM_countEvent_of_late {before after : List Event} {slot : Slot}
    (early : SinglesFit 0 before) (many : 2 ^ 64 - 1 ≤ bindCount before) :
    (before ++ .single slot :: after).foldlM countEvent 0 = none := by
  rw [List.foldlM_append, foldlM_countEvent_full early many]
  rfl

/-! ## The tally of a run -/

/-- The tally after a step. -/
def Tally.observeStep (program : Program) (tally : Tally) (step : Step) : Tally :=
  (counting 0).observeAll tally step.offset (step.events program)

/-- The number of records after some steps, unless the count has overflowed. -/
def countOf (program : Program) (steps : List Step) : Option UInt64 :=
  (steps.flatMap (Step.events program)).foldlM countEvent 0

theorem records_foldl_observeStep (program : Program) (tally : Tally)
    (steps : List Step) :
    (steps.foldl (Tally.observeStep program) tally).records =
      tally.records.bind fun records =>
        (steps.flatMap (Step.events program)).foldlM countEvent records := by
  induction steps generalizing tally with
  | nil => exact (Option.bind_fun_some tally.records).symm
  | cons step steps ih =>
      rw [List.foldl_cons, ih, Tally.observeStep, records_observeAll, Option.bind_assoc]
      simp only [List.flatMap_cons, List.foldlM_append]
      rfl

/-- A count of all steps is a count of the first of them. -/
theorem isSome_countOf_left {program : Program} {left right : List Step}
    (counts : (countOf program (left ++ right)).isSome) :
    (countOf program left).isSome := by
  rw [countOf, List.flatMap_append, List.foldlM_append] at counts
  exact Option.isSome_of_isSome_bind counts

end Linkedit.Bind
