import Linkedit.Proofs.Trie.DepthFirst
import Linkedit.Proofs.Trie.Prune

/-!
# Removing names more than once

What stays in a trie is laid out in the order of the walk that found it. A walk over the
new trie goes through it in this order again, since what stays of a depth-first order is
depth-first. So names that are removed in several steps leave the bytes that they leave
when they are removed at once.
-/

namespace Linkedit.Trie

variable {data : Bytes} {remove : Name → Bool} {all : List Entry}

/-! ## Tries that are read back in order -/

/-- A slot is read as a list of entries, in depth-first order. -/
structure Lists (data : Bytes) (all : List Entry) : Prop where
  read : entries data = .ok all
  depthFirst : DepthFirst (all.map (·.name))

/-- A trie that was laid out is read back as the entries of its tree, whatever follows
it. -/
theorem Layout.entries_of_tree {stored : List Entry} {tree : Tree} {layout : Layout}
    (built : Tree.ofEntries stored = .ok tree) (laidOut : ofEntries stored = .ok layout)
    (nonempty : ∀ entry ∈ stored, entry.payload ≠ [])
    (fits : layout.encode.length < 2 ^ 64) (tail : List UInt8) :
    entries (layout.encode ++ tail).toArray = .ok tree.entries := by
  obtain ⟨canonical, whole⟩ := Tree.canonical_of_ofEntries built
  rw [ofEntries, built, map_ok] at laidOut
  cases laidOut
  rw [length_encode] at fits
  have listed : ∀ name ∈ tree.entries.map (·.name), name ∈ stored.map (·.name) := by
    intro name member
    exact (whole.map _).mem_iff.mp member
  rw [canonical.entries_of_writtenIn (writtenIn canonical listed fits tail)]
  congr 1
  apply List.filter_eq_self.mpr
  intro entry member
  simpa using nonempty entry (whole.mem_iff.mp member)

/-- Entries in depth-first order are read back in this order. -/
theorem Layout.entries_of_depthFirst {stored : List Entry} {layout : Layout}
    (laidOut : ofEntries stored = .ok layout)
    (ordered : DepthFirst (stored.map (·.name)))
    (nonempty : ∀ entry ∈ stored, entry.payload ≠ [])
    (fits : layout.encode.length < 2 ^ 64) (tail : List UInt8) :
    entries (layout.encode ++ tail).toArray = .ok stored := by
  obtain ⟨tree, built, -⟩ := map_eq_ok.mp laidOut
  rw [entries_of_tree built laidOut nonempty fits tail,
    Tree.entries_of_depthFirst built ordered]

/-- A trie is built from entries in depth-first order, and they are read back in it. -/
theorem exists_build_of_depthFirst {stored : List Entry}
    (ordered : DepthFirst (stored.map (·.name)))
    (zeroFree : ∀ entry ∈ stored, 0 ∉ entry.name)
    (nonempty : ∀ entry ∈ stored, entry.payload ≠ [])
    (room : ∀ tree, Tree.ofEntries stored = .ok tree → tree.sizeBound + 8 < 2 ^ 64) :
    ∃ bytes, build stored = .ok bytes ∧ bytes.length < 2 ^ 64 ∧
      Lists bytes.toArray stored := by
  rcases Layout.ofEntries_of_nodup zeroFree ordered.nodup with ⟨-, layout, laidOut, -⟩
  have built : build stored = .ok (Bytes.padTo 8 layout.encode) := by
    rw [build, laidOut, map_ok]
  have small := length_build_lt built zeroFree ordered.nodup room
  refine ⟨_, built, small, ?_, ordered⟩
  rcases Bytes.padTo_eq 8 layout.encode with ⟨zeros, padded⟩
  rw [padded, List.length_append] at small
  rw [padded]
  exact Layout.entries_of_depthFirst laidOut ordered nonempty (by omega) _

/-- A trie that was built is read in depth-first order. -/
theorem lists_of_build {stored : List Entry} {bytes : List UInt8}
    (built : build stored = .ok bytes) (nonempty : ∀ entry ∈ stored, entry.payload ≠ [])
    (small : bytes.length < 2 ^ 64) :
    ∃ all, all.Perm stored ∧ Lists bytes.toArray all := by
  rcases exists_written_of_build built small with
    ⟨tree, offset, canonical, whole, written⟩
  refine ⟨tree.entries, whole, ?_, canonical.depthFirst_entries⟩
  rw [canonical.entries_of_writtenIn written]
  congr 1
  apply List.filter_eq_self.mpr
  intro entry member
  simpa using nonempty entry (whole.mem_iff.mp member)

/-! ## What stays -/

theorem survivors_survivors (first second : Name → Bool) (all : List Entry) :
    survivors second (survivors first all) =
      survivors (fun name => first name || second name) all := by
  simp only [survivors, List.filter_filter]
  apply List.filter_congr
  intro entry _
  rw [Bool.not_or, Bool.and_comm]

/-- The slot after a trie was laid out again. -/
def Layout.inSlot (layout : Layout) (size : Nat) : Bytes :=
  (layout.forSlot size).toArray ++
    Array.replicate (size - (layout.forSlot size).length) 0

theorem Layout.size_inSlot {layout : Layout} {size : Nat}
    (room : (layout.forSlot size).length ≤ size) :
    (layout.inSlot size).size = size := by
  simp only [inSlot, Array.size_append, List.size_toArray, Array.size_replicate]
  omega

theorem prune_of_removedCount_eq_zero (read : entries data = .ok all)
    (none : removedCount remove all = 0) :
    prune data remove = .ok ⟨data, data.size, 0⟩ := by
  rw [prune_of_entries read, if_pos none]

/-- Removing names from a trie, if there are any to remove. -/
theorem prune_eq_ok_iff (read : entries data = .ok all)
    (hit : removedCount remove all ≠ 0) {pruned : Pruned} :
    prune data remove = .ok pruned ↔ ∃ layout,
      Layout.ofEntries (survivors remove all) = .ok layout ∧
      (layout.forSlot data.size).length ≤ data.size ∧
      pruned = ⟨layout.inSlot data.size, (layout.forSlot data.size).length,
        removedCount remove all⟩ := by
  rw [prune_of_entries read, if_neg hit]
  constructor
  · intro succeeded
    rcases bind_eq_ok.mp succeeded with ⟨layout, laidOut, applied⟩
    rw [Rewrite.apply] at applied
    split at applied
    next room =>
      cases applied
      exact ⟨layout, laidOut, room, rfl⟩
    next => cases applied
  · rintro ⟨layout, laidOut, room, rfl⟩
    rw [laidOut, ok_bind, Rewrite.apply, if_pos room]
    rfl

/-- What stays is read from the slot in the order in which it was read before. -/
theorem Lists.prune (lists : Lists data all) (small : data.size < 2 ^ 64)
    {pruned : Pruned} (succeeded : prune data remove = .ok pruned) :
    Lists pruned.bytes (survivors remove all) := by
  have ordered : DepthFirst ((survivors remove all).map (·.name)) :=
    lists.depthFirst.sublist (List.filter_sublist.map _)
  by_cases hit : removedCount remove all = 0
  · rw [prune_of_removedCount_eq_zero lists.read hit] at succeeded
    cases succeeded
    rwa [survivors_of_removedCount_eq_zero hit]
  · rcases (prune_eq_ok_iff lists.read hit).mp succeeded with
      ⟨layout, laidOut, room, rfl⟩
    refine ⟨?_, ordered⟩
    rcases layout.exists_tail_forSlot data.size
        (data.size - (layout.forSlot data.size).length) with ⟨tail, whole⟩
    have short := layout.length_encode_le_forSlot data.size
    have nonempty : ∀ entry ∈ survivors remove all, entry.payload ≠ [] := by
      intro entry member
      exact (survivors_spec lists.read entry member).2
    dsimp only [Layout.inSlot]
    rw [whole]
    exact Layout.entries_of_depthFirst laidOut ordered nonempty (by omega) tail

theorem size_bytes_of_prune (read : entries data = .ok all) {pruned : Pruned}
    (succeeded : prune data remove = .ok pruned) : pruned.bytes.size = data.size := by
  by_cases hit : removedCount remove all = 0
  · rw [prune_of_removedCount_eq_zero read hit] at succeeded
    cases succeeded
    rfl
  · rcases (prune_eq_ok_iff read hit).mp succeeded with ⟨layout, -, room, rfl⟩
    exact Layout.size_inSlot room

/-! ## Removing names twice -/

variable {first second : Name → Bool}

/-- If the first step removes nothing, the second does as much as both at once. -/
theorem prune_or_of_removedCount_eq_zero (read : entries data = .ok all)
    (none : removedCount first all = 0) :
    prune data (fun name => first name || second name) = prune data second := by
  have sameCount : removedCount (fun name => first name || second name) all =
      removedCount second all := by
    apply List.countP_congr
    intro entry member
    simp [removedCount_eq_zero.mp none entry member]
  rw [prune_of_entries read, prune_of_entries read, sameCount, ← survivors_survivors,
    survivors_of_removedCount_eq_zero none]

/-- Names that are removed in two steps leave the bytes that they leave when they are
removed at once, and removing them at once succeeds too. -/
theorem Lists.prune_prune (lists : Lists data all) (small : data.size < 2 ^ 64)
    {before after : Pruned} (pruned : Trie.prune data first = .ok before)
    (prunedAgain : Trie.prune before.bytes second = .ok after) :
    ∃ both, Trie.prune data (fun name => first name || second name) = .ok both ∧
      both.bytes = after.bytes := by
  by_cases none : removedCount first all = 0
  · rw [prune_of_removedCount_eq_zero lists.read none] at pruned
    cases pruned
    rw [prune_or_of_removedCount_eq_zero lists.read none]
    exact ⟨after, prunedAgain, rfl⟩
  have between := lists.prune small pruned
  have hit : removedCount (fun name => first name || second name) all ≠ 0 := by
    rcases removedCount_ne_zero.mp none with ⟨entry, member, goes⟩
    exact removedCount_ne_zero.mpr ⟨entry, member, by rw [goes, Bool.true_or]⟩
  rcases (prune_eq_ok_iff lists.read none).mp pruned with ⟨layout, laidOut, room, rfl⟩
  have size : (layout.inSlot data.size).size = data.size := Layout.size_inSlot room
  -- The slot holds the same layout whether or not the second step writes it again.
  by_cases noMore : removedCount second (survivors first all) = 0
  · rw [prune_of_removedCount_eq_zero between.read noMore] at prunedAgain
    cases prunedAgain
    rw [← survivors_of_removedCount_eq_zero noMore, survivors_survivors] at laidOut
    exact ⟨_, (prune_eq_ok_iff lists.read hit).mpr ⟨layout, laidOut, room, rfl⟩, rfl⟩
  · rcases (prune_eq_ok_iff between.read noMore).mp prunedAgain with
      ⟨last, lastOut, lastRoom, rfl⟩
    dsimp only at lastRoom ⊢
    rw [size] at lastRoom ⊢
    rw [survivors_survivors] at lastOut
    exact ⟨_, (prune_eq_ok_iff lists.read hit).mpr ⟨last, lastOut, lastRoom, rfl⟩, rfl⟩

/-! ## Removing names any number of times -/

/-- Removes names by some conditions, one after the other. -/
def pruneEach (data : Bytes) (removes : List (Name → Bool)) : Except Error Bytes :=
  removes.foldlM (fun slot remove => (prune slot remove).map (·.bytes)) data

/-- Names that are removed in any number of steps leave the bytes that they leave when
they are removed at once. -/
theorem Lists.pruneEach_eq (lists : Lists data all) (small : data.size < 2 ^ 64)
    {removes : List (Name → Bool)} {slot : Bytes}
    (ran : pruneEach data removes = .ok slot) :
    ∃ both, Trie.prune data (fun name => removes.any (· name)) = .ok both ∧
      both.bytes = slot := by
  induction removes generalizing data all with
  | nil =>
      cases ran
      have none : removedCount (fun _ => false) all = 0 := by
        simp [removedCount_eq_zero]
      exact ⟨_, prune_of_removedCount_eq_zero lists.read none, rfl⟩
  | cons remove removes ih =>
      rw [pruneEach, List.foldlM_cons] at ran
      rcases bind_eq_ok.mp ran with ⟨bytes, step, rest⟩
      rcases map_eq_ok.mp step with ⟨pruned, succeeded, rfl⟩
      have size := size_bytes_of_prune lists.read succeeded
      rcases ih (lists.prune small succeeded) (size ▸ small) rest with
        ⟨both, atOnce, same⟩
      rcases lists.prune_prune small succeeded atOnce with
        ⟨whole, wholeAtOnce, sameWhole⟩
      exact ⟨whole, wholeAtOnce, sameWhole.trans same⟩

/-- The order of the steps makes no difference. -/
theorem Lists.pruneEach_perm (lists : Lists data all) (small : data.size < 2 ^ 64)
    {removes reordered : List (Name → Bool)} (perm : removes.Perm reordered)
    {slot other : Bytes} (ran : pruneEach data removes = .ok slot)
    (otherRan : pruneEach data reordered = .ok other) : slot = other := by
  rcases lists.pruneEach_eq small ran with ⟨both, atOnce, rfl⟩
  rcases lists.pruneEach_eq small otherRan with ⟨otherBoth, otherAtOnce, rfl⟩
  have sameCondition : (fun name => removes.any (· name)) = fun name =>
      reordered.any (· name) := by
    funext name
    exact perm.any_eq
  rw [sameCondition] at atOnce
  cases atOnce.symm.trans otherAtOnce
  rfl

theorem pruneEach_pair {before after : Pruned} (pruned : prune data first = .ok before)
    (prunedAgain : prune before.bytes second = .ok after) :
    pruneEach data [first, second] = .ok after.bytes := by
  rw [pruneEach, List.foldlM_cons, pruned, map_ok, ok_bind, List.foldlM_cons,
    prunedAgain]
  rfl

/-! ## Tries that were built -/

/-- Removing names from a trie that was built: two steps leave the bytes that one step
with both conditions leaves, and it does not matter which of them comes first. A trie in
memory has fewer than `2 ^ 64` bytes. -/
theorem prune_composes {stored : List Entry} {bytes : List UInt8}
    (nonempty : ∀ entry ∈ stored, entry.payload ≠ []) (built : build stored = .ok bytes)
    (small : bytes.length < 2 ^ 64) (first second : Name → Bool) :
    (∀ before after, prune bytes.toArray first = .ok before →
      prune before.bytes second = .ok after →
        ∃ both, prune bytes.toArray (fun name => first name || second name) = .ok both ∧
          both.bytes = after.bytes) ∧
    ∀ before after otherBefore otherAfter,
      prune bytes.toArray first = .ok before → prune before.bytes second = .ok after →
      prune bytes.toArray second = .ok otherBefore →
      prune otherBefore.bytes first = .ok otherAfter →
      after.bytes = otherAfter.bytes := by
  rcases lists_of_build built nonempty small with ⟨all, -, lists⟩
  constructor
  · intro before after pruned prunedAgain
    exact lists.prune_prune small pruned prunedAgain
  · intro before after otherBefore otherAfter pruned prunedAgain otherPruned otherAgain
    exact lists.pruneEach_perm small (.swap _ _ _) (pruneEach_pair pruned prunedAgain)
      (pruneEach_pair otherPruned otherAgain)

/-- Removing names succeeds, and what stays is listed, if the slot has room for ten
bytes for each offset. -/
theorem Lists.exists_prune (lists : Lists data all) (small : data.size < 2 ^ 64)
    (remove : Name → Bool)
    (room : ∀ tree, Tree.ofEntries (survivors remove all) = .ok tree →
      tree.sizeBound + 8 ≤ data.size) :
    ∃ pruned, Trie.prune data remove = .ok pruned ∧
      Lists pruned.bytes (survivors remove all) ∧ pruned.bytes.size = data.size := by
  have distinct : ((survivors remove all).map (·.name)).Nodup :=
    lists.depthFirst.nodup.sublist (List.filter_sublist.map _)
  rcases exists_prune_of_room lists.read distinct small room with ⟨pruned, succeeded⟩
  exact ⟨pruned, succeeded, lists.prune small succeeded,
    size_bytes_of_prune lists.read succeeded⟩

/-- Three entries, two of them with long payloads. -/
def threeEntries : List Entry :=
  [⟨[97], [7]⟩, ⟨[98], List.replicate 40 1⟩, ⟨[99], List.replicate 40 2⟩]

theorem depthFirst_threeEntries : DepthFirst (threeEntries.map (·.name)) where
  aboveFirst := by decide
  together first between last triple start beginsFirst beginsLast := by
    cases triple.eq_of_length rfl
    cases start with
    | nil => exact List.nil_prefix
    | cons byte _ =>
        cases (List.cons_prefix_cons.mp beginsFirst).1
        cases (List.cons_prefix_cons.mp beginsLast).1

/-- The trie of these entries is read in their order and has room for what is
removed. -/
theorem exists_build_threeEntries :
    ∃ bytes, build threeEntries = .ok bytes ∧ bytes.length < 2 ^ 64 ∧
      98 ≤ bytes.length ∧
      Lists bytes.toArray threeEntries := by
  rcases exists_build_of_depthFirst depthFirst_threeEntries (by decide) (by decide)
      (by rintro tree ⟨⟩; decide) with ⟨bytes, built, small, lists⟩
  exact ⟨bytes, built, small, (by decide : 98 ≤ _).trans (le_length_build built rfl),
    lists⟩

theorem prune_composes_threeEntries :
    ∃ bytes before after other last both, build threeEntries = .ok bytes ∧
      prune bytes.toArray (· = [98]) = .ok before ∧
      prune before.bytes (· = [99]) = .ok after ∧
      prune bytes.toArray (· = [99]) = .ok other ∧
      prune other.bytes (· = [98]) = .ok last ∧
      prune bytes.toArray (fun name => name = [98] || name = [99]) = .ok both ∧
      both.bytes = after.bytes ∧ after.bytes = last.bytes ∧
      entries after.bytes = .ok [⟨[97], [7]⟩] := by
  rcases exists_build_threeEntries with ⟨bytes, built, small, large, lists⟩
  have step : ∀ {slot : Bytes} {all : List Entry}, Lists slot all →
      slot.size = bytes.length →
      ∀ remove, (∀ tree, Tree.ofEntries (survivors remove all) = .ok tree →
        tree.sizeBound + 8 ≤ 98) →
      ∃ pruned, prune slot remove = .ok pruned ∧
        Lists pruned.bytes (survivors remove all) ∧
        pruned.bytes.size = bytes.length := by
    intro slot all slotLists size remove room
    rw [← size] at small large ⊢
    exact slotLists.exists_prune small remove fun tree built =>
      (room tree built).trans large
  rcases step lists rfl (· = [98]) (by rintro tree ⟨⟩; decide) with
    ⟨before, pruned, beforeLists, beforeSize⟩
  rcases step beforeLists beforeSize (· = [99]) (by rintro tree ⟨⟩; decide) with
    ⟨after, prunedAgain, afterLists, -⟩
  rcases step lists rfl (· = [99]) (by rintro tree ⟨⟩; decide) with
    ⟨other, otherPruned, otherLists, otherSize⟩
  rcases step otherLists otherSize (· = [98]) (by rintro tree ⟨⟩; decide) with
    ⟨last, otherAgain, -⟩
  rcases prune_composes (by decide) built small (· = [98]) (· = [99]) with
    ⟨atOnce, swapped⟩
  rcases atOnce before after pruned prunedAgain with ⟨both, succeeded, same⟩
  exact ⟨bytes, before, after, other, last, both, built, pruned,
    prunedAgain, otherPruned,
    otherAgain, succeeded, same,
      swapped _ _ _ _ pruned prunedAgain otherPruned otherAgain,
    afterLists.read⟩

end Linkedit.Trie
