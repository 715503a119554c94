import Linkedit.Proofs.Trie.Fault
import Linkedit.Proofs.Trie.RoundTrip
import Linkedit.Trie.Prune

/-!
# What removing names does

The bytes of a slot are untrusted: labels may overlap or be empty, and names may be
repeated. If the trie can be read, the entries that stay decide whether it can be
written again, and then it is read back as these entries.
-/

namespace Linkedit.Trie

variable {data : Bytes} {remove : Name → Bool} {all : List Entry}

/-- The entries that stay. -/
def survivors (remove : Name → Bool) (all : List Entry) : List Entry :=
  all.filter fun entry => !remove entry.name

/-- The number of entries that go. -/
def removedCount (remove : Name → Bool) (all : List Entry) : Nat :=
  all.countP fun entry => remove entry.name

theorem length_sub_length_survivors (remove : Name → Bool) (all : List Entry) :
    all.length - (survivors remove all).length = removedCount remove all := by
  have parts : removedCount remove all + (survivors remove all).length =
      all.length := by
    simpa [removedCount, survivors, List.countP_eq_length_filter] using
      (List.length_eq_countP_add_countP (l := all) fun entry => remove entry.name).symm
  omega

theorem removedCount_eq_zero :
    removedCount remove all = 0 ↔ ∀ entry ∈ all, remove entry.name = false := by
  simp [removedCount, List.countP_eq_zero]

theorem removedCount_ne_zero :
    removedCount remove all ≠ 0 ↔ ∃ entry ∈ all, remove entry.name = true := by
  simp [removedCount_eq_zero]

/-- If no name goes, every entry stays. -/
theorem survivors_of_removedCount_eq_zero (none : removedCount remove all = 0) :
    survivors remove all = all := by
  rw [removedCount_eq_zero] at none
  apply List.filter_eq_self.mpr
  intro entry member
  simp [none entry member]

theorem slotAlignment_spec (size : Nat) :
    0 < slotAlignment size ∧ slotAlignment size ≤ 8 := by
  rw [slotAlignment]
  split <;> omega

/-! ## Running -/

/-- Removing names from a trie that can be read. -/
theorem prune_of_entries (read : entries data = .ok all) :
    prune data remove =
      if removedCount remove all = 0 then .ok ⟨data, data.size, 0⟩
      else Layout.ofEntries (survivors remove all) >>= fun layout =>
        (Rewrite.replaced layout (removedCount remove all) all.length).apply data := by
  have count := length_sub_length_survivors remove all
  rw [survivors] at count
  rw [prune, rewrite, read, ok_bind]
  simp only [count, survivors]
  split
  next => rfl
  next => cases Layout.ofEntries _ <;> rfl

theorem prune_of_entries_error {error : Error} (failed : entries data = .error error) :
    prune data remove = .error error := by
  rw [prune, rewrite, failed]
  rfl

/-! ## Failures -/

/-- How removing names fails: the trie cannot be read, or some name goes and what
stays repeats a name or has no room in the slot. -/
inductive PruneFails (data : Bytes) (remove : Name → Bool) : Error → Prop where
  | unreadable {error : Error} (failed : entries data = .error error) :
      PruneFails data remove error
  | duplicate {all : List Entry} {name : Name} (read : entries data = .ok all)
      (hit : ∃ entry ∈ all, remove entry.name = true)
      (repeated : FirstRepeated (survivors remove all) name) :
      PruneFails data remove (.duplicateSymbol name)
  | tooLarge {all : List Entry} {layout : Layout} (read : entries data = .ok all)
      (hit : ∃ entry ∈ all, remove entry.name = true)
      (distinct : ((survivors remove all).map (·.name)).Nodup)
      (laidOut : Layout.ofEntries (survivors remove all) = .ok layout)
      (larger : data.size < (layout.forSlot data.size).length) :
      PruneFails data remove (.trieTooLarge (layout.forSlot data.size).length data.size)

/-- The names that stay hold no zero byte, and their payloads are not empty. -/
theorem survivors_spec (read : entries data = .ok all) :
    ∀ entry ∈ survivors remove all, 0 ∉ entry.name ∧ entry.payload ≠ [] := by
  intro entry member
  have isEntry := (List.mem_filter.mp member).1
  rcases entry_spec_of_entries read entry isEntry with ⟨zeroFree, nonempty, -⟩
  exact ⟨zeroFree, nonempty⟩

theorem zeroFree_survivors (read : entries data = .ok all) :
    ∀ entry ∈ survivors remove all, 0 ∉ entry.name := by
  intro entry member
  exact (survivors_spec read entry member).1

theorem ofEntries_survivors_error {name : Name} (read : entries data = .ok all)
    (repeated : FirstRepeated (survivors remove all) name) :
    Layout.ofEntries (survivors remove all) = .error (.duplicateSymbol name) := by
  have refused := Tree.ofEntries_of_firstRepeated (zeroFree_survivors read) repeated
  rw [Layout.ofEntries, refused, map_error]

theorem PruneFails.prune_eq {error : Error} (fails : PruneFails data remove error) :
    prune data remove = .error error := by
  cases fails with
  | unreadable failed => exact prune_of_entries_error failed
  | duplicate read hit repeated =>
      rw [prune_of_entries read, if_neg (removedCount_ne_zero.mpr hit),
        ofEntries_survivors_error read repeated, error_bind]
  | tooLarge read hit distinct laidOut larger =>
      rw [prune_of_entries read, if_neg (removedCount_ne_zero.mpr hit), laidOut,
        ok_bind, Rewrite.apply, if_neg (Nat.not_le.mpr larger)]

/-- A name that cannot be written is never read. -/
theorem PruneFails.ne_invalidSymbolName {name : Name} :
    ¬ PruneFails data remove (.invalidSymbolName name) := by
  intro fails
  cases fails with
  | unreadable failed =>
      rcases isFault_of_entries failed with ⟨_, _, _, fault⟩
      cases fault

/-! ## Results -/

/-- A slot that holds the entries that stay. -/
structure Pruned.Keeps (data : Bytes) (remove : Name → Bool) (all : List Entry)
    (pruned : Pruned) : Prop where
  size_bytes : pruned.bytes.size = data.size
  size_le : pruned.size ≤ data.size
  removed_eq : pruned.removed = removedCount remove all
  zeroTail : ∀ position, pruned.size ≤ position → position < data.size →
    pruned.bytes[position]? = some 0
  reads : ∃ found : List Entry, found.Perm (survivors remove all) ∧
    entries pruned.bytes = .ok found ∧
    entries (pruned.bytes.extract 0 pruned.size) = .ok found
  unchanged : removedCount remove all = 0 → pruned.bytes = data

/-- A trie that keeps every name keeps every byte. -/
theorem keeps_of_unchanged (read : entries data = .ok all)
    (none : removedCount remove all = 0) :
    Pruned.Keeps data remove all ⟨data, data.size, 0⟩ where
  size_bytes := rfl
  size_le := le_rfl
  removed_eq := none.symm
  zeroTail position behind inside := (Nat.not_lt.mpr behind inside).elim
  reads :=
    ⟨all, by rw [survivors_of_removedCount_eq_zero none], read, by simpa using read⟩
  unchanged _ := rfl

/-- A trie that is filled up for a slot is followed by zeros only. -/
theorem Layout.exists_tail_forSlot (layout : Layout) (size zeros : Nat) :
    ∃ tail : List UInt8, (layout.forSlot size).toArray ++ Array.replicate zeros 0 =
      (layout.encode ++ tail).toArray := by
  rcases Bytes.padTo_eq (slotAlignment size) layout.encode with ⟨padding, padded⟩
  refine ⟨List.replicate padding 0 ++ List.replicate zeros 0, ?_⟩
  rw [forSlot, padded, ← List.append_assoc, ← List.append_toArray (_ ++ _),
    List.toArray_replicate]

theorem Layout.length_encode_le_forSlot (layout : Layout) (size : Nat) :
    layout.encode.length ≤ (layout.forSlot size).length := by
  rw [forSlot, Bytes.padTo, List.length_append]
  exact Nat.le_add_right _ _

/-- A trie that is written again holds the entries that stay. -/
theorem keeps_of_layout {layout : Layout} (read : entries data = .ok all)
    (some : removedCount remove all ≠ 0)
    (distinct : ((survivors remove all).map (·.name)).Nodup)
    (laidOut : Layout.ofEntries (survivors remove all) = .ok layout)
    (room : (layout.forSlot data.size).length ≤ data.size)
    (small : data.size < 2 ^ 64) :
    Pruned.Keeps data remove all
      ⟨(layout.forSlot data.size).toArray ++
          Array.replicate (data.size - (layout.forSlot data.size).length) 0,
        (layout.forSlot data.size).length, removedCount remove all⟩ := by
  have fits : Fits (survivors remove all) := by
    intro other otherLaidOut
    cases laidOut.symm.trans otherLaidOut
    have shorter := layout.length_encode_le_forSlot data.size
    omega
  rcases Layout.entries_of_nodup (zeroFree_survivors read) distinct fits with
      ⟨other, found, otherLaidOut, perm, reads⟩
  cases laidOut.symm.trans otherLaidOut
  have allKept : ((survivors remove all).filter fun entry => entry.payload ≠ []) =
      survivors remove all := by
    apply List.filter_eq_self.mpr
    intro entry member
    simp [(survivors_spec read entry member).2]
  rw [allKept] at perm
  constructor
  case size_bytes =>
    simp only [Array.size_append, List.size_toArray, Array.size_replicate]
    omega
  case size_le => exact room
  case removed_eq => rfl
  case zeroTail =>
    intro position behind inside
    change (layout.forSlot data.size).length ≤ position at behind
    rw [Array.getElem?_append_right (by simpa using behind)]
    simp only [List.size_toArray, Array.getElem?_replicate]
    rw [if_pos (by omega)]
  case reads =>
    refine ⟨found, perm, ?_, ?_⟩
    · rcases layout.exists_tail_forSlot data.size
          (data.size - (layout.forSlot data.size).length) with ⟨tail, whole⟩
      rw [whole]
      exact reads tail
    · rcases layout.exists_tail_forSlot data.size 0 with ⟨tail, start⟩
      have found := reads tail
      rw [← start] at found
      simpa using found
  case unchanged =>
    intro none
    exact (some none).elim

/-- Removing names that are gone changes nothing. -/
theorem Pruned.Keeps.prune_again {pruned : Pruned}
    (keeps : pruned.Keeps data remove all) :
    prune pruned.bytes remove = .ok ⟨pruned.bytes, pruned.bytes.size, 0⟩ := by
  rcases keeps.reads with ⟨found, perm, read, -⟩
  have none : removedCount remove found = 0 := by
    rw [removedCount_eq_zero]
    intro entry member
    have stays := (List.mem_filter.mp (perm.mem_iff.mp member)).2
    simpa using stays
  rw [prune_of_entries read, if_pos none]

/-- Every slot is either refused or keeps the entries that stay. -/
theorem prune_fails_or_keeps (small : data.size < 2 ^ 64) (remove : Name → Bool) :
    (∃ error, prune data remove = .error error ∧ PruneFails data remove error) ∨
      ∃ pruned all, prune data remove = .ok pruned ∧ entries data = .ok all ∧
        pruned.Keeps data remove all := by
  cases read : entries data with
  | error cause => exact .inl ⟨cause, prune_of_entries_error read, .unreadable read⟩
  | ok all =>
      by_cases none : removedCount remove all = 0
      · right
        refine ⟨⟨data, data.size, 0⟩, all, ?_, rfl, keeps_of_unchanged read none⟩
        rw [prune_of_entries read, if_pos none]
      have hit := removedCount_ne_zero.mp none
      by_cases distinct : ((survivors remove all).map (·.name)).Nodup
      · rcases Layout.ofEntries_of_nodup (zeroFree_survivors read) distinct with
            ⟨tree, layout, laidOut, -⟩
        by_cases room : (layout.forSlot data.size).length ≤ data.size
        · right
          refine ⟨_, all, ?_, rfl,
            keeps_of_layout read none distinct laidOut room small⟩
          rw [prune_of_entries read, if_neg none, laidOut, ok_bind, Rewrite.apply,
            if_pos room]
        · have fails :=
            PruneFails.tooLarge read hit distinct laidOut (Nat.not_le.mp room)
          exact .inl ⟨_, fails.prune_eq, fails⟩
      · rcases exists_firstRepeated distinct with ⟨name, repeated⟩
        have fails := PruneFails.duplicate read hit repeated
        exact .inl ⟨_, fails.prune_eq, fails⟩

/-- Removing names succeeds if no name that stays is repeated and the slot has room for
ten bytes for each offset. -/
theorem exists_prune_of_room (read : entries data = .ok all)
    (distinct : ((survivors remove all).map (·.name)).Nodup)
    (small : data.size < 2 ^ 64)
    (room : ∀ tree, Tree.ofEntries (survivors remove all) = .ok tree →
      tree.sizeBound + 8 ≤ data.size) :
    ∃ pruned, prune data remove = .ok pruned := by
  rw [prune_of_entries read]
  split
  next => exact ⟨_, rfl⟩
  have zeroFree : ∀ entry ∈ survivors remove all, 0 ∉ entry.name :=
    zeroFree_survivors read
  rcases Tree.ofEntries_of_nodup zeroFree distinct with ⟨tree, built, -⟩
  rcases Layout.ofEntries_of_nodup zeroFree distinct with ⟨-, layout, laidOut, -⟩
  have bound := room tree built
  have short := Layout.length_encode_le built laidOut (by omega)
  have fits : (layout.forSlot data.size).length ≤ data.size := by
    have aligned := Bytes.length_padTo_le (slotAlignment_spec data.size) layout.encode
    rw [Layout.forSlot]
    omega
  rw [laidOut, ok_bind, Rewrite.apply, if_pos fits]
  exact ⟨_, rfl⟩

theorem prune_eq_error_iff (small : data.size < 2 ^ 64) {error : Error} :
    prune data remove = .error error ↔ PruneFails data remove error := by
  constructor
  · intro failed
    rcases prune_fails_or_keeps small remove with
        ⟨cause, causeFailed, fails⟩ | ⟨pruned, all, succeeded, -⟩
    · cases failed.symm.trans causeFailed
      exact fails
    · cases failed.symm.trans succeeded
  · exact PruneFails.prune_eq

/-- What removing names from a slot does, whatever bytes it holds: exactly when and how
it fails, and what the slot holds if it does not. A slot in memory has fewer than
`2 ^ 64` bytes. -/
theorem prune_exact (small : data.size < 2 ^ 64) (remove : Name → Bool) :
    (∀ error, prune data remove = .error error ↔ PruneFails data remove error) ∧
      (∀ name, prune data remove ≠ .error (.invalidSymbolName name)) ∧
      ∀ pruned, prune data remove = .ok pruned →
        ∃ all, entries data = .ok all ∧ pruned.Keeps data remove all ∧
          prune pruned.bytes remove = .ok ⟨pruned.bytes, pruned.bytes.size, 0⟩ := by
  constructor
  · intro error
    exact prune_eq_error_iff small
  constructor
  · intro name failed
    exact ((prune_eq_error_iff small).mp failed).ne_invalidSymbolName
  · intro pruned succeeded
    rcases prune_fails_or_keeps small remove with
        ⟨cause, failed, -⟩ | ⟨other, all, otherSucceeded, read, keeps⟩
    · cases succeeded.symm.trans failed
    · cases succeeded.symm.trans otherSucceeded
      exact ⟨all, read, keeps, keeps.prune_again⟩

/-- A slot of sixteen bytes with two names, one of which is to go. -/
theorem prune_exact_sixteen :
    (∀ error, prune #[0, 2, 97, 0, 8, 98, 0, 11, 1, 7, 0, 1, 9, 0, 0, 0] (· = [97]) =
        .error error ↔
      PruneFails #[0, 2, 97, 0, 8, 98, 0, 11, 1, 7, 0, 1, 9, 0, 0, 0]
        (· = [97]) error) ∧
      (∀ name, prune #[0, 2, 97, 0, 8, 98, 0, 11, 1, 7, 0, 1, 9, 0, 0, 0] (· = [97]) ≠
        .error (.invalidSymbolName name)) ∧
      ∀ pruned, prune #[0, 2, 97, 0, 8, 98, 0, 11, 1, 7, 0, 1, 9, 0, 0, 0] (· = [97]) =
          .ok pruned →
        ∃ all, entries #[0, 2, 97, 0, 8, 98, 0, 11, 1, 7, 0, 1, 9, 0, 0, 0] = .ok all ∧
          pruned.Keeps #[0, 2, 97, 0, 8, 98, 0, 11, 1, 7, 0, 1, 9, 0, 0, 0]
            (· = [97]) all ∧
          prune pruned.bytes (· = [97]) = .ok ⟨pruned.bytes, pruned.bytes.size, 0⟩ :=
  prune_exact (by decide) _

/-- A slot of 32 bytes with two names. -/
def twoNames : Bytes :=
  #[0, 2, 97, 0, 8, 98, 0, 11, 1, 7, 0, 1, 9, 0] ++ Array.replicate 18 0

theorem entries_twoNames : entries twoNames = .ok [⟨[97], [7]⟩, ⟨[98], [9]⟩] := by
  have first : readHeader twoNames 8 = .ok ⟨some (9, 10), 10⟩ := by decide +kernel
  have firstEdges : readChildren twoNames 10 = .ok [] := by decide +kernel
  have second : readHeader twoNames 11 = .ok ⟨some (12, 13), 13⟩ := by decide +kernel
  have secondEdges : readChildren twoNames 13 = .ok [] := by decide +kernel
  have root : readHeader twoNames 0 = .ok ⟨none, 1⟩ := by decide +kernel
  have edges : readChildren twoNames 1 = .ok [⟨[97], 8⟩, ⟨[98], 11⟩] := by
    decide +kernel
  have reads : (Branches.root none (.child [97] 8 (some (9, 10)) .none
      (.child [98] 11 (some (12, 13)) .none .none))).Reads twoNames :=
    .child root edges
      (.child first firstEdges .none (.child second secondEdges .none .none)) .none
  rw [entries_of_reads reads (by decide)]
  decide +kernel

end Linkedit.Trie
