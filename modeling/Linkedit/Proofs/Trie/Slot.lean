import Linkedit.Proofs.Export.Relocation
import Linkedit.Proofs.InPlace
import Linkedit.Proofs.Trie.Bindings
import Linkedit.Proofs.Trie.FirstUse
import Linkedit.Proofs.Trie.Lookup
import Linkedit.Trie.Slot

/-!
# A slot stands for a map

Names are removed from a slot and added to it as from a map. What is kept from step to
step is that a canonical tree is written at the start of the slot, whatever lies behind
it, and that the entries of the tree are the bindings of the map.
-/

namespace Linkedit.Trie

variable {slot after : Bytes} {bindings : Bindings} {stored added : List Entry}
  {remove : Name → Bool}

/-! ## Slots and maps -/

/-- A slot holds a map: reading it lists every binding once, looking up a bound name
decodes its payload, and looking up another name finds nothing. -/
structure Holds (slot : Bytes) (bindings : Bindings) : Prop where
  listed : ∃ found, entries slot = .ok found ∧ bindings.ListedBy found
  decoded : ∀ name payload symbol, bindings name = some payload →
    Export.decodePayload name payload.toArray 0 = .ok symbol →
    lookup slot name = .ok (some symbol)
  faulty : ∀ name payload error, bindings name = some payload →
    Export.decodePayload name payload.toArray 0 = .error error →
    ∃ offset fault, lookup slot name = .error (.invalidExportTrie offset fault)
  unbound : ∀ name, bindings name = none → lookup slot name = .ok none

/-- A canonical tree is written in a slot, with anything behind it, and its entries are
the bindings of a map. -/
def Represents (slot : Bytes) (bindings : Bindings) : Prop :=
  ∃ (tree : Tree) (offset : Name → Nat), tree.Canonical ∧ tree.WrittenIn slot offset ∧
    (∀ entry ∈ tree.entries, entry.payload ≠ []) ∧ bindings.ListedBy tree.entries

/-- A lookup that reaches a payload decodes it as if it lay alone in a buffer. -/
theorem reportPayload_alike (start stop : Nat) (name : Name) :
    (∀ symbol, Export.decodePayload name (slot.slice start stop).toArray 0 =
      .ok symbol → reportPayload slot name (some (start, stop)) = .ok (some symbol)) ∧
    ∀ error, Export.decodePayload name (slot.slice start stop).toArray 0 =
      .error error →
      ∃ offset fault, reportPayload slot name (some (start, stop)) =
        .error (.invalidExportTrie offset fault) := by
  rw [reportPayload, Export.decodePayload_range]
  constructor
  · intro symbol decodes
    rw [decodes]
    rfl
  · intro error fails
    rcases Export.isFault_of_decodePayload (Nat.zero_le _) fails with
      ⟨offset, -, fault, same⟩
    refine ⟨start + offset, fault, ?_⟩
    rw [fails, mapError_error, mapError_error, Error.inTrie_movedBy, same, map_error]
    rfl

theorem Represents.holds (represents : Represents slot bindings) :
    Holds slot bindings := by
  rcases represents with ⟨tree, offset, canonical, written, nonempty, listed⟩
  have found : ∀ name payload, bindings name = some payload → ∃ start stop,
      slot.slice start stop = payload ∧
        lookup slot name = reportPayload slot name (some (start, stop)) := by
    intro name payload bound
    have stored := (listed.mem_iff ⟨name, payload⟩).mpr bound
    rcases canonical.lookup_of_mem written stored (nonempty _ stored) with
        ⟨start, stop, slice, reached⟩
    exact ⟨start, stop, slice, reached⟩
  constructor
  case listed =>
    refine ⟨_, canonical.entries_of_writtenIn written, ?_⟩
    rw [List.filter_eq_self.mpr]
    · exact listed
    · simpa using nonempty
  case decoded =>
    intro name payload symbol bound decodes
    rcases found name payload bound with ⟨start, stop, rfl, reached⟩
    rw [reached]
    exact (reportPayload_alike start stop name).1 symbol decodes
  case faulty =>
    intro name payload error bound fails
    rcases found name payload bound with ⟨start, stop, rfl, reached⟩
    rw [reached]
    exact (reportPayload_alike start stop name).2 error fails
  case unbound =>
    intro name free
    apply canonical.lookup_of_notMem written
    rintro entry member rfl
    cases free.symm.trans ((listed.mem_iff entry).mp member)

/-! ## Building -/

/-- Which entries a trie can be built from. -/
theorem exists_build_iff :
    (∃ bytes, build stored = .ok bytes) ↔
      (∀ entry ∈ stored, 0 ∉ entry.name) ∧ (stored.map (·.name)).Nodup := by
  rw [← Tree.exists_ofEntries_iff, build, Layout.ofEntries]
  cases Tree.ofEntries stored <;> simp

/-- A trie that is built holds the map of its entries. -/
theorem represents_of_build {bytes : List UInt8} (built : build stored = .ok bytes)
    (nonempty : ∀ entry ∈ stored, entry.payload ≠ [])
    (listed : bindings.ListedBy stored) (small : bytes.length < 2 ^ 64) :
    Represents bytes.toArray bindings := by
  rcases exists_written_of_build built small with
    ⟨tree, offset, canonical, whole, written⟩
  refine ⟨tree, offset, canonical, written, ?_, listed.perm whole⟩
  intro entry member
  exact nonempty entry (whole.mem_iff.mp member)

/-! ## Operations -/

theorem on_pruneInPlace (remove : Name → Bool) (slot : Bytes) :
    (pruneInPlace remove).on slot =
      match prune slot remove with
      | .ok pruned =>
          (.ok pruned.size, if 0 < pruned.removed then pruned.bytes else slot)
      | .error error => (.error error, slot) := by
  simp only [pruneInPlace, InPlace.on_bind, InPlace.on_get, InPlace.on_lift]
  cases prune slot remove with
  | error error => rfl
  | ok pruned =>
      dsimp only
      split <;> simp only [InPlace.on_bind, InPlace.on_set, InPlace.on_pure]

theorem on_rebuildInPlace (order : Arrangement) (added : List Entry) (slot : Bytes) :
    (rebuildInPlace order added).on slot =
      match entries slot >>= fun stored => build (order.arrange stored ++ added) with
      | .ok bytes => (.ok (), bytes.toArray)
      | .error error => (.error error, slot) := by
  simp only [rebuildInPlace, InPlace.on_bind, InPlace.on_get, InPlace.on_lift,
    InPlace.on_set]
  cases entries slot with
  | error error => rfl
  | ok stored =>
      rw [ok_bind]
      dsimp only
      cases build (order.arrange stored ++ added) <;> rfl

namespace Represents

/-- Removing names from a slot drops them from the map, unless there is no room. -/
theorem prune (represents : Represents slot bindings) (small : slot.size < 2 ^ 64)
    (remove : Name → Bool) :
    (∃ size, slot.size < size ∧
      (pruneInPlace remove).on slot = (.error (.trieTooLarge size slot.size), slot)) ∨
      ∃ size after, (pruneInPlace remove).on slot = (.ok size, after) ∧
        Represents after (bindings.drop remove) := by
  rcases represents.holds.listed with ⟨found, read, listed⟩
  rw [on_pruneInPlace, prune_of_entries read]
  by_cases none : removedCount remove found = 0
  · right
    rw [if_pos none, listed.drop_eq_self none]
    exact ⟨_, slot, rfl, represents⟩
  rcases Layout.ofEntries_of_nodup (zeroFree_survivors read)
      (listed.drop remove).distinct with
      ⟨tree, layout, laidOut, canonical, whole, written⟩
  rw [if_neg none, laidOut, ok_bind, Rewrite.apply]
  by_cases room : (layout.forSlot slot.size).length ≤ slot.size
  · right
    rw [if_pos room]
    dsimp only
    rw [if_pos (Nat.pos_of_ne_zero none)]
    rcases layout.exists_tail_forSlot slot.size
        (slot.size - (layout.forSlot slot.size).length) with ⟨tail, whole_eq⟩
    refine ⟨_, _, rfl, tree, layout.offsets.at, canonical, ?written, ?nonempty,
      (listed.drop remove).perm whole⟩
    case written =>
      have short := layout.length_encode_le_forSlot slot.size
      rw [whole_eq]
      exact written (by omega) tail
    case nonempty =>
      intro entry member
      exact (survivors_spec read entry (whole.mem_iff.mp member)).2
  · left
    rw [if_neg room]
    exact ⟨_, Nat.not_le.mp room, rfl⟩

/-- Building a slot again binds the names that are added, unless they are refused. -/
theorem rebuild (represents : Represents slot bindings) (order : Arrangement)
    (nonempty : ∀ entry ∈ added, entry.payload ≠ []) :
    ((∃ error, (rebuildInPlace order added).on slot = (.error error, slot)) ∧
      bindings.Refuses added) ∨
      ∃ after, (rebuildInPlace order added).on slot = (.ok (), after) ∧
        ¬ bindings.Refuses added ∧
        (after.size < 2 ^ 64 → Represents after (bindings.bindAll added)) := by
  rcases represents.holds.listed with ⟨found, read, listed⟩
  have arranged := listed.perm (order.perm found)
  have foundSpec : ∀ entry ∈ order.arrange found, 0 ∉ entry.name ∧
      entry.payload ≠ [] := by
    intro entry member
    rcases entry_spec_of_entries read entry ((order.perm found).mem_iff.mp member) with
        ⟨zeroFree, positive, -⟩
    exact ⟨zeroFree, positive⟩
  have builds : (∃ bytes, build (order.arrange found ++ added) = .ok bytes) ↔
      ¬ bindings.Refuses added := by
    rw [exists_build_iff, arranged.nodup_append_iff, Bindings.not_refuses_iff,
      List.forall_mem_append]
    constructor
    · rintro ⟨⟨-, zeroFree⟩, fresh⟩
      exact ⟨zeroFree, fresh⟩
    · rintro ⟨zeroFree, fresh⟩
      exact ⟨⟨fun entry member => (foundSpec entry member).1, zeroFree⟩, fresh⟩
  rw [on_rebuildInPlace, read, ok_bind]
  cases built : build (order.arrange found ++ added) with
  | error error =>
      left
      refine ⟨⟨error, rfl⟩, ?_⟩
      by_contra accepted
      rcases builds.mpr accepted with ⟨bytes, succeeded⟩
      cases built.symm.trans succeeded
  | ok bytes =>
      right
      have accepted := builds.mp ⟨bytes, built⟩
      rcases Bindings.not_refuses_iff.mp accepted with ⟨-, distinct, fresh⟩
      refine ⟨_, rfl, accepted, ?_⟩
      intro small
      apply represents_of_build built ?_ (arranged.bindAll distinct fresh)
        (by simpa using small)
      intro entry member
      rcases List.mem_append.mp member with old | new
      · exact (foundSpec entry old).2
      · exact nonempty entry new

end Represents

/-! ## Steps -/

/-- What a step that succeeds does to the map. -/
def SlotStep.change (bindings : Bindings) : SlotStep → Bindings
  | .prune remove => bindings.drop remove
  | .rebuild _ added _ => bindings.bindAll added

/-- A slot with the map that it stands for. -/
structure SlotState where
  slot : Bytes
  bindings : Bindings

/-- The slot and the map after a step. The map changes if the step succeeds. -/
def SlotState.step (state : SlotState) (step : SlotStep) : SlotState :=
  match step.operation.on state.slot with
  | (.ok _, slot) => ⟨slot, step.change state.bindings⟩
  | (.error _, slot) => ⟨slot, state.bindings⟩

/-- The slot and the map after some steps. -/
def SlotState.run (start : SlotState) (steps : List SlotStep) : SlotState :=
  steps.foldl SlotState.step start

theorem SlotStep.on_prune (remove : Name → Bool) (slot : Bytes) :
    (SlotStep.prune remove).operation.on slot =
      (((pruneInPlace remove).on slot).1.map fun _ =>
        (), ((pruneInPlace remove).on slot).2) := by
  rw [operation, InPlace.on_bind]
  rcases (pruneInPlace remove).on slot with ⟨outcome, after⟩
  cases outcome <;> rfl

/-- A step fails and leaves the slot as it is, or it changes slot and map alike. -/
theorem Represents.step_cases (represents : Represents slot bindings)
    (small : slot.size < 2 ^ 64) (step : SlotStep) :
    (∃ error, step.operation.on slot = (.error error, slot)) ∨
      ∃ after, step.operation.on slot = (.ok (), after) ∧
        (after.size < 2 ^ 64 → Represents after (step.change bindings)) := by
  cases step with
  | prune remove =>
      rw [SlotStep.on_prune]
      rcases represents.prune small remove with
          ⟨size, -, failed⟩ | ⟨size, after, succeeded, kept⟩
      · rw [failed]
        exact .inl ⟨_, rfl⟩
      · rw [succeeded]
        exact .inr ⟨after, rfl, fun _ => kept⟩
  | rebuild order added nonempty =>
      rcases represents.rebuild order nonempty with
          ⟨⟨error, failed⟩, -⟩ | ⟨after, succeeded, -, kept⟩
      · exact .inl ⟨error, failed⟩
      · exact .inr ⟨after, succeeded, kept⟩

namespace SlotState

variable {state : SlotState} {step : SlotStep}

theorem step_of_error {error : Error}
    (failed : step.operation.on state.slot = (.error error, state.slot)) :
    state.step step = state := by
  rw [SlotState.step, failed]

theorem step_of_ok (succeeded : step.operation.on state.slot = (.ok (), after)) :
    state.step step = ⟨after, step.change state.bindings⟩ := by
  rw [SlotState.step, succeeded]

/-- A slot that stands for its map does so after a step. -/
theorem represents_step (represents : Represents state.slot state.bindings)
    (small : state.slot.size < 2 ^ 64) (step : SlotStep)
    (stillSmall : (state.step step).slot.size < 2 ^ 64) :
    Represents (state.step step).slot (state.step step).bindings := by
  rcases represents.step_cases small step with
    ⟨error, failed⟩ | ⟨after, succeeded, kept⟩
  · rwa [step_of_error failed]
  · rw [step_of_ok succeeded] at stillSmall ⊢
    exact kept stillSmall

/-- No slot on the way has `2 ^ 64` bytes or more. -/
def Small (start : SlotState) (steps : List SlotStep) : Prop :=
  ∀ before, before <+: steps → (start.run before).slot.size < 2 ^ 64

theorem Small.run {start : SlotState} {steps : List SlotStep}
    (small : start.Small steps) :
    (start.run steps).slot.size < 2 ^ 64 :=
  small steps List.prefix_rfl

theorem Small.nil {start : SlotState} (small : start.slot.size < 2 ^ 64) :
    start.Small [] := by
  intro before begins
  rwa [List.prefix_nil.mp begins]

theorem small_cons_iff {start : SlotState} {steps : List SlotStep} :
    start.Small (step :: steps) ↔ start.slot.size < 2 ^ 64 ∧
      (start.step step).Small steps := by
  constructor
  · intro small
    refine ⟨small [] List.nil_prefix, ?_⟩
    intro before begins
    exact small (step :: before) ((List.prefix_cons_inj step).mpr begins)
  · rintro ⟨atStart, later⟩ before begins
    rcases List.prefix_cons_iff.mp begins with rfl | ⟨rest, rfl, inside⟩
    · exact atStart
    · exact later rest inside

theorem run_cons_of_ok {steps : List SlotStep}
    (succeeded : step.operation.on slot = (.ok (), after)) :
    run ⟨slot, bindings⟩ (step :: steps) = run ⟨after, step.change bindings⟩ steps := by
  have stepped : SlotState.step ⟨slot, bindings⟩ step = ⟨after, step.change bindings⟩ :=
    step_of_ok succeeded
  rw [run, List.foldl_cons, stepped, run]

theorem Small.cons_of_ok {steps : List SlotStep} (small : slot.size < 2 ^ 64)
    (succeeded : step.operation.on slot = (.ok (), after))
    (later : Small ⟨after, step.change bindings⟩ steps) :
    Small ⟨slot, bindings⟩ (step :: steps) := by
  have stepped : SlotState.step ⟨slot, bindings⟩ step = ⟨after, step.change bindings⟩ :=
    step_of_ok succeeded
  exact small_cons_iff.mpr ⟨small, stepped ▸ later⟩

/-- A slot that stands for its map does so after any run. -/
theorem represents_run {steps : List SlotStep}
    (represents : Represents state.slot state.bindings) (small : state.Small steps) :
    Represents (state.run steps).slot (state.run steps).bindings := by
  induction steps generalizing state with
  | nil => exact represents
  | cons step steps ih =>
      obtain ⟨before, later⟩ := small_cons_iff.mp small
      have behind := later [] List.nil_prefix
      exact ih (represents_step represents before step behind) later

/-- What holds of a slot and its map at any time. The slot holds the map. A step that
fails changes neither of them. Removing names fails only if there is no room, and
building again fails exactly if the map refuses the names that are added. -/
structure Sound (state : SlotState) : Prop where
  holds : Holds state.slot state.bindings
  unchanged : ∀ (step : SlotStep) error after,
    step.operation.on state.slot = (.error error, after) →
    after = state.slot ∧ state.step step = state
  prune_error : ∀ remove error after,
    (pruneInPlace remove).on state.slot = (.error error, after) →
    ∃ size, state.slot.size < size ∧ error = .trieTooLarge size state.slot.size
  rebuild_fails_iff : ∀ order added, (∀ entry ∈ added, entry.payload ≠ []) →
    ((∃ error after, (rebuildInPlace order added).on state.slot =
      (.error error, after)) ↔
        state.bindings.Refuses added)

theorem sound (represents : Represents state.slot state.bindings)
    (small : state.slot.size < 2 ^ 64) : state.Sound where
  holds := represents.holds
  unchanged := by
    intro step error after ran
    rcases represents.step_cases small step with ⟨cause, failed⟩ | ⟨other, succeeded, -⟩
    · cases failed.symm.trans ran
      exact ⟨rfl, step_of_error failed⟩
    · cases succeeded.symm.trans ran
  prune_error := by
    intro remove error after ran
    rcases represents.prune small remove with
        ⟨size, larger, failed⟩ | ⟨size, other, succeeded, -⟩
    · cases failed.symm.trans ran
      exact ⟨size, larger, rfl⟩
    · cases succeeded.symm.trans ran
  rebuild_fails_iff := by
    intro order added nonempty
    rcases represents.rebuild order nonempty with
        ⟨⟨error, failed⟩, refused⟩ | ⟨other, succeeded, accepted, -⟩
    · exact iff_of_true ⟨error, _, failed⟩ refused
    · refine iff_of_false ?_ accepted
      rintro ⟨error, after, failed⟩
      cases succeeded.symm.trans failed

end SlotState

/-- A slot refines a map from names to payloads. It starts as the trie of some entries,
and any steps remove names in place or build the trie again with others. At any time the
slot holds the map that the steps make of the entries, as long as it is smaller than `2
^ 64` bytes, as any slot in memory is. -/
theorem slot_refines_map {stored : List Entry} (distinct : (stored.map (·.name)).Nodup)
    (zeroFree : ∀ entry ∈ stored, 0 ∉ entry.name)
    (nonempty : ∀ entry ∈ stored, entry.payload ≠ []) :
    ∃ bytes, build stored = .ok bytes ∧ ∀ steps : List SlotStep,
      SlotState.Small ⟨bytes.toArray, Bindings.empty.bindAll stored⟩ steps →
        (SlotState.run ⟨bytes.toArray, Bindings.empty.bindAll stored⟩ steps).Sound := by
  rcases exists_build_iff.mpr ⟨zeroFree, distinct⟩ with ⟨bytes, built⟩
  refine ⟨bytes, built, ?_⟩
  intro steps small
  have listed : (Bindings.empty.bindAll stored).ListedBy stored :=
    Bindings.ListedBy.nil.bindAll distinct fun _ _ => rfl
  have start := small [] List.nil_prefix
  have represents := represents_of_build built nonempty listed
    (by simpa [SlotState.run] using start)
  exact SlotState.sound (SlotState.represents_run represents small) small.run

/-! ## A slot that is read in order -/

/-- Removing names from a slot that has room leaves the others in their order. -/
theorem Lists.on_prune (lists : Lists slot stored) (small : slot.size < 2 ^ 64)
    (remove : Name → Bool)
    (room : ∀ tree, Tree.ofEntries (survivors remove stored) = .ok tree →
      tree.sizeBound + 8 ≤ slot.size) :
    ∃ after, (SlotStep.prune remove).operation.on slot = (.ok (), after) ∧
      Lists after (survivors remove stored) ∧ after.size = slot.size := by
  rcases lists.exists_prune small remove room with ⟨pruned, succeeded, kept, size⟩
  refine ⟨pruned.bytes, ?_, kept, size⟩
  rw [SlotStep.on_prune, on_pruneInPlace, succeeded]
  by_cases hit : removedCount remove stored = 0
  · rw [prune_of_removedCount_eq_zero lists.read hit] at succeeded
    cases succeeded
    rfl
  · rcases (prune_eq_ok_iff lists.read hit).mp succeeded with ⟨layout, -, -, rfl⟩
    dsimp only
    rw [if_pos (Nat.pos_of_ne_zero hit)]
    rfl

/-- The entries of a list in the order in which they stand. -/
def Arrangement.asStored : Arrangement := ⟨id, fun _ => .refl _⟩

/-- Adding entries behind the others keeps them in order if they are in depth-first
order. -/
theorem Lists.on_rebuild (lists : Lists slot stored) (added : List Entry)
    (nonempty : ∀ entry ∈ added, entry.payload ≠ [])
    (ordered : DepthFirst ((stored ++ added).map (·.name)))
    (zeroFree : ∀ entry ∈ added, 0 ∉ entry.name)
    (room : ∀ tree, Tree.ofEntries (stored ++ added) = .ok tree →
      tree.sizeBound + 8 < 2 ^ 64) :
    ∃ bytes, build (stored ++ added) = .ok bytes ∧ bytes.length < 2 ^ 64 ∧
      (SlotStep.rebuild .asStored added nonempty).operation.on slot =
        (.ok (), bytes.toArray) ∧
      Lists bytes.toArray (stored ++ added) := by
  have spec : ∀ entry ∈ stored ++ added, 0 ∉ entry.name ∧ entry.payload ≠ [] := by
    intro entry member
    rcases List.mem_append.mp member with old | new
    · rcases entry_spec_of_entries lists.read entry old with ⟨free, filled, -⟩
      exact ⟨free, filled⟩
    · exact ⟨zeroFree entry new, nonempty entry new⟩
  rcases exists_build_of_depthFirst ordered (fun entry member => (spec entry member).1)
      (fun entry member => (spec entry member).2) room with
        ⟨bytes, built, small, listed⟩
  refine ⟨bytes, built, small, ?_, listed⟩
  have same : Arrangement.asStored.arrange stored = stored := rfl
  rw [SlotStep.operation, on_rebuildInPlace, lists.read, ok_bind, same, built]

/-- An entry that a slot starts with. -/
def firstEntry : Entry := ⟨[97], [0, 5]⟩

/-- An entry that is added to it. -/
def secondEntry : Entry := ⟨[98], [0, 7]⟩

/-- An entry that is added after that. -/
def thirdEntry : Entry := ⟨[99], [0, 9]⟩

/-- The entries of a slot, two of them below the first one and with long payloads. -/
def nestedEntries : List Entry :=
  [firstEntry, ⟨[97, 97], List.replicate 40 1⟩, ⟨[97, 98], List.replicate 40 2⟩]

/-- Builds the trie again with the second entry. -/
def addSecond : SlotStep := .rebuild .asStored [secondEntry] (by decide)

/-- A run that removes and adds names in turns. -/
def mixedRun : List SlotStep :=
  [.prune (· = [97, 98]), addSecond, .prune (· = [97, 97]),
    .rebuild .asStored [thirdEntry] (by decide)]

/-- The map of the three entries after this run. -/
def mixedBindings : Bindings :=
  mixedRun.foldl SlotStep.change (Bindings.empty.bindAll nestedEntries)

theorem listedBy_mixedBindings :
    mixedBindings.ListedBy [firstEntry, secondEntry, thirdEntry] := by
  have start : (Bindings.empty.bindAll nestedEntries).ListedBy nestedEntries :=
    Bindings.ListedBy.nil.bindAll (by decide) fun _ _ => rfl
  have withSecond :=
    @Bindings.ListedBy.bindAll _ _ [secondEntry] (start.drop (· = [97, 98]))
      (by decide) (by decide)
  exact @Bindings.ListedBy.bindAll _ _ [thirdEntry] (withSecond.drop (· = [97, 97]))
    (by decide) (by decide)

/-- All steps of the run succeed. There is room for the entries that stay, since each
time a long payload goes. -/
theorem exists_mixedRun :
    ∃ bytes last, build nestedEntries = .ok bytes ∧
      SlotState.Small ⟨bytes.toArray, Bindings.empty.bindAll nestedEntries⟩ mixedRun ∧
      SlotState.run ⟨bytes.toArray, Bindings.empty.bindAll nestedEntries⟩ mixedRun =
        ⟨last, mixedBindings⟩ := by
  have ordered : DepthFirst (nestedEntries.map (·.name)) :=
    .of_sorted (by decide) (by decide)
  rcases exists_build_of_depthFirst ordered (by decide) (by decide)
      (by rintro tree ⟨⟩; decide) with ⟨bytes, built, small, lists⟩
  have long : 99 ≤ bytes.length :=
    (by decide : 99 ≤ _).trans (le_length_build built rfl)
  rcases lists.on_prune small (· = [97, 98])
      (by rintro tree ⟨⟩; exact (by decide : _ ≤ 99).trans long) with
    ⟨fewer, dropped, fewerLists, fewerSize⟩
  rcases fewerLists.on_rebuild [secondEntry] (by decide)
      (.of_sorted (by decide) (by decide)) (by decide) (by rintro tree ⟨⟩; decide) with
    ⟨more, rebuilt, moreSmall, (added : addSecond.operation.on fewer = _), moreLists⟩
  have enough : 61 ≤ more.length :=
    (by decide : 61 ≤ _).trans (le_length_build rebuilt rfl)
  rcases moreLists.on_prune moreSmall (· = [97, 97])
      (by rintro tree ⟨⟩; exact (by decide : _ ≤ 61).trans enough) with
    ⟨pair, droppedAgain, pairLists, pairSize⟩
  rcases pairLists.on_rebuild [thirdEntry] (by decide)
      (.of_sorted (by decide) (by decide)) (by decide) (by rintro tree ⟨⟩; decide) with
    ⟨last, -, lastSmall, addedAgain, -⟩
  refine ⟨bytes, last.toArray, built, ?inMemory, ?ended⟩
  case inMemory =>
    exact .cons_of_ok small dropped (.cons_of_ok (fewerSize ▸ small) added
      (.cons_of_ok moreSmall droppedAgain
        (.cons_of_ok (pairSize ▸ moreSmall) addedAgain (.nil lastSmall))))
  case ended =>
    rw [mixedRun, SlotState.run_cons_of_ok dropped, SlotState.run_cons_of_ok added,
      SlotState.run_cons_of_ok droppedAgain, SlotState.run_cons_of_ok addedAgain]
    rfl

theorem slot_refines_map_second :
    ∃ bytes, build nestedEntries = .ok bytes ∧
      ∃ slot bindings, SlotState.run
          ⟨bytes.toArray, Bindings.empty.bindAll nestedEntries⟩
          mixedRun = ⟨slot, bindings⟩ ∧
        (∃ found, entries slot = .ok found ∧
          found.Perm [firstEntry, secondEntry, thirdEntry]) ∧
        lookup slot [98] = .ok (some ⟨[98], 0, 7, 0, none⟩) ∧
        lookup slot [97, 98] = .ok none ∧
        ∃ error after, addSecond.operation.on slot = (.error error, after) := by
  rcases exists_mixedRun with ⟨bytes, last, built, small, ended⟩
  rcases @slot_refines_map nestedEntries (by decide) (by decide) (by decide) with
      ⟨_, builtAgain, sound⟩
  cases built.symm.trans builtAgain
  have atEnd := sound mixedRun small
  rw [ended] at atEnd
  rcases atEnd.holds.listed with ⟨found, read, foundListed⟩
  refine ⟨bytes, built, _, _, ended,
    ⟨found, read, listedBy_mixedBindings.perm_of_listedBy foundListed⟩, ?_, ?_, ?_⟩
  · exact atEnd.holds.decoded [98] [0, 7] _ rfl (by decide +kernel)
  · exact atEnd.holds.unbound [97, 98] rfl
  · apply (atEnd.rebuild_fails_iff .asStored [secondEntry] (by decide)).mpr
    exact .bound List.mem_cons_self (Option.some_ne_none [0, 7])

end Linkedit.Trie
