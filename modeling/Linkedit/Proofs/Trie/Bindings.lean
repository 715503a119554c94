import Linkedit.Proofs.Trie.Prune

/-!
# Maps from names to payloads

The map that a trie stands for, without regard to the order in which its names are
listed. It has the operations that tries have: names are dropped and names are bound.
-/

namespace Linkedit.Trie

/-- A map from names to payloads. -/
def Bindings : Type := Name → Option (List UInt8)

namespace Bindings

/-- The map that binds no name. -/
def empty : Bindings := fun _ => none

/-- The map without the names that `remove` holds of. -/
def drop (bindings : Bindings) (remove : Name → Bool) : Bindings :=
  fun name => if remove name then none else bindings name

/-- Binds the name of an entry to its payload. -/
def bind (bindings : Bindings) (entry : Entry) : Bindings :=
  Function.update bindings entry.name (some entry.payload)

/-- Binds the names of some entries, one after the other. -/
def bindAll (bindings : Bindings) (added : List Entry) : Bindings :=
  added.foldl bind bindings

@[simp] theorem bind_name (bindings : Bindings) (entry : Entry) :
    bindings.bind entry entry.name = some entry.payload :=
  Function.update_self ..

theorem bind_of_ne (bindings : Bindings) {entry : Entry} {name : Name}
    (other : name ≠ entry.name) : bindings.bind entry name = bindings name :=
  Function.update_of_ne other _ _

/-- Names that cannot be added to a map: one of them has a zero byte or is bound, or
they are not distinct. -/
inductive Refuses (bindings : Bindings) (added : List Entry) : Prop where
  | zero {entry : Entry} (member : entry ∈ added) (zero : 0 ∈ entry.name)
  | bound {entry : Entry} (member : entry ∈ added) (bound : bindings entry.name ≠ none)
  | repeated (repeated : ¬ (added.map (·.name)).Nodup)

theorem not_refuses_iff {bindings : Bindings} {added : List Entry} :
    ¬ bindings.Refuses added ↔ (∀ entry ∈ added, 0 ∉ entry.name) ∧
      (added.map (·.name)).Nodup ∧ ∀ entry ∈ added, bindings entry.name = none := by
  constructor
  · intro accepted
    refine ⟨?_, ?_, ?_⟩
    · intro entry member zero
      exact accepted (.zero member zero)
    · by_contra repeated
      exact accepted (.repeated repeated)
    · intro entry member
      by_contra bound
      exact accepted (.bound member bound)
  · rintro ⟨zeroFree, distinct, fresh⟩ refused
    cases refused with
    | zero member zero => exact zeroFree _ member zero
    | bound member bound => exact bound (fresh _ member)
    | repeated repeated => exact repeated distinct

/-- A list holds every binding of a map once, and nothing else. -/
structure ListedBy (bindings : Bindings) (stored : List Entry) : Prop where
  distinct : (stored.map (·.name)).Nodup
  mem_iff : ∀ entry : Entry, entry ∈ stored ↔ bindings entry.name = some entry.payload

namespace ListedBy

variable {bindings : Bindings} {stored added : List Entry}

theorem nil : empty.ListedBy [] where
  distinct := List.nodup_nil
  mem_iff entry := by simp [empty]

theorem perm (listed : bindings.ListedBy stored) {other : List Entry}
    (reordered : other.Perm stored) : bindings.ListedBy other where
  distinct := (reordered.map _).nodup_iff.mpr listed.distinct
  mem_iff entry := reordered.mem_iff.trans (listed.mem_iff entry)

/-- The lists of a map differ in their order only. -/
theorem perm_of_listedBy (listed : bindings.ListedBy stored) {other : List Entry}
    (otherListed : bindings.ListedBy other) : other.Perm stored := by
  apply (List.perm_ext_iff_of_nodup otherListed.distinct.of_map
    listed.distinct.of_map).mpr
  intro entry
  rw [otherListed.mem_iff, listed.mem_iff]

theorem eq_none_iff (listed : bindings.ListedBy stored) {name : Name} :
    bindings name = none ↔ name ∉ stored.map (·.name) := by
  constructor
  · intro unbound member
    rcases List.mem_map.mp member with ⟨entry, isEntry, rfl⟩
    cases unbound.symm.trans ((listed.mem_iff entry).mp isEntry)
  · intro absent
    cases bound : bindings name with
    | none => rfl
    | some payload =>
        have isEntry := (listed.mem_iff ⟨name, payload⟩).mpr bound
        exact (absent (List.mem_map_of_mem isEntry)).elim

theorem drop (listed : bindings.ListedBy stored) (remove : Name → Bool) :
    (bindings.drop remove).ListedBy (survivors remove stored) where
  distinct := listed.distinct.sublist (List.filter_sublist.map _)
  mem_iff entry := by
    rw [survivors, List.mem_filter, listed.mem_iff, Bindings.drop]
    cases remove entry.name <;> simp

/-- Dropping names that are not bound changes nothing. -/
theorem drop_eq_self (listed : bindings.ListedBy stored) {remove : Name → Bool}
    (none : removedCount remove stored = 0) : bindings.drop remove = bindings := by
  funext name
  rw [Bindings.drop]
  split
  next removed =>
    symm
    rw [listed.eq_none_iff]
    intro member
    rcases List.mem_map.mp member with ⟨entry, isEntry, rfl⟩
    cases removed.symm.trans (removedCount_eq_zero.mp none entry isEntry)
  next => rfl

theorem bind (listed : bindings.ListedBy stored) {entry : Entry}
    (fresh : bindings entry.name = none) :
    (bindings.bind entry).ListedBy (stored ++ [entry]) where
  distinct := by
    have absent := listed.eq_none_iff.mp fresh
    rw [List.map_append, List.map_singleton, List.nodup_append_comm]
    exact List.nodup_cons.mpr ⟨absent, listed.distinct⟩
  mem_iff other := by
    rw [List.mem_append, List.mem_singleton, listed.mem_iff]
    by_cases same : other.name = entry.name
    · rcases other with ⟨name, payload⟩
      rcases entry with ⟨entryName, entryPayload⟩
      cases same
      have bound := bindings.bind_name ⟨name, entryPayload⟩
      dsimp only at fresh bound
      simp [fresh, bound, eq_comm]
    · rw [bind_of_ne _ same]
      apply or_iff_left
      rintro rfl
      exact same rfl

theorem bindAll (listed : bindings.ListedBy stored)
    (distinct : (added.map (·.name)).Nodup)
    (fresh : ∀ entry ∈ added, bindings entry.name = none) :
    (bindings.bindAll added).ListedBy (stored ++ added) := by
  induction added generalizing bindings stored with
  | nil => simpa [Bindings.bindAll] using listed
  | cons entry added ih =>
      rcases List.forall_mem_cons.mp fresh with ⟨entryFresh, addedFresh⟩
      rcases List.nodup_cons.mp distinct with ⟨apart, addedDistinct⟩
      rw [List.append_cons]
      apply ih (listed.bind entryFresh) addedDistinct
      intro other member
      rw [bind_of_ne _ ?_]
      · exact addedFresh other member
      · intro same
        exact apart (List.mem_map.mpr ⟨other, member, same⟩)

/-- Names can be added to the list of a map if they are new. -/
theorem nodup_append_iff (listed : bindings.ListedBy stored) :
    ((stored ++ added).map (·.name)).Nodup ↔
      (added.map (·.name)).Nodup ∧ ∀ entry ∈ added, bindings entry.name = none := by
  rw [List.map_append, List.nodup_append]
  constructor
  · rintro ⟨-, distinct, apart⟩
    refine ⟨distinct, ?_⟩
    intro entry member
    rw [listed.eq_none_iff]
    intro stored
    exact apart _ stored _ (List.mem_map_of_mem member) rfl
  · rintro ⟨distinct, fresh⟩
    refine ⟨listed.distinct, distinct, ?_⟩
    rintro name stored _ member rfl
    rcases List.mem_map.mp member with ⟨entry, isAdded, rfl⟩
    exact listed.eq_none_iff.mp (fresh entry isAdded) stored

end ListedBy

end Bindings

end Linkedit.Trie
