import Linkedit.Proofs.Trie.Written

/-!
# Reading back a trie that was built

Whatever the order in which entries are added, and whatever follows the trie in its
buffer, reading gives the same entries back. The one exception are entries whose
payload is empty, since they are written like inner nodes.
-/

namespace Linkedit.Trie

/-- The trie of the entries, if they have one, is smaller than `2 ^ 64` bytes. -/
def Fits (stored : List Entry) : Prop :=
  ∀ layout, Layout.ofEntries stored = .ok layout → layout.encode.length < 2 ^ 64

/-- The number of bytes that a tree takes up at most: as many as with ten bytes for each
offset. -/
def Tree.sizeBound (tree : Tree) : Nat :=
  total (fun _ => 0) tree.nodes + 9 * edgeCount tree.nodes

/-- A bound on the size of a trie that can be seen without laying it out. -/
theorem Layout.length_encode_le {stored : List Entry} {tree : Tree} {layout : Layout}
    (built : Tree.ofEntries stored = .ok tree)
    (laidOut : Layout.ofEntries stored = .ok layout) (room : tree.sizeBound < 2 ^ 64) :
    layout.encode.length ≤ tree.sizeBound := by
  rcases Tree.layoutOrder_of_ofEntries built with ⟨order, ordered⟩
  rw [Layout.ofEntries, built, map_ok] at laidOut
  cases laidOut
  have same : tree.sizeBound =
      total (fun _ => 0) (tree.layoutOrder (stored.map (·.name))) +
        9 * edgeCount (tree.layoutOrder (stored.map (·.name))) := by
    rw [Tree.sizeBound, total, edgeCount, total, edgeCount, (order.map _).sum_nat,
      (order.map _).sum_nat]
  rw [Layout.length_encode, same]
  apply Layout.size_ofNodes_le
  · exact nodup_names_of_pairwise ordered
  · rwa [← same]

/-- A trie fits if it would with ten bytes for each offset. -/
theorem fits_of_room {stored : List Entry}
    (zeroFree : ∀ entry ∈ stored, 0 ∉ entry.name)
    (distinct : (stored.map (·.name)).Nodup)
    (room : ∀ tree, Tree.ofEntries stored = .ok tree → tree.sizeBound < 2 ^ 64) :
    Fits stored := by
  intro layout laidOut
  rcases Tree.ofEntries_of_nodup zeroFree distinct with ⟨tree, built, -⟩
  have bound := room tree built
  exact (Layout.length_encode_le built laidOut bound).trans_lt bound

/-- The same bound holds for a trie that is filled up. -/
theorem length_build_lt {stored : List Entry} {bytes : List UInt8}
    (built : build stored = .ok bytes) (zeroFree : ∀ entry ∈ stored, 0 ∉ entry.name)
    (distinct : (stored.map (·.name)).Nodup)
    (room : ∀ tree, Tree.ofEntries stored = .ok tree → tree.sizeBound + 8 < 2 ^ 64) :
    bytes.length < 2 ^ 64 := by
  rcases map_eq_ok.mp built with ⟨layout, laidOut, rfl⟩
  rcases Tree.ofEntries_of_nodup zeroFree distinct with ⟨tree, treeBuilt, -⟩
  have bound := room tree treeBuilt
  have short := Layout.length_encode_le treeBuilt laidOut (by omega)
  have padded : (Bytes.padTo 8 layout.encode).length ≤ layout.encode.length + 8 :=
    Bytes.length_padTo_le ⟨by decide, Nat.le_refl 8⟩ _
  omega

/-- A trie that is filled up takes as many bytes at least as with one byte for each
offset. -/
theorem le_length_build {stored : List Entry} {tree : Tree} {bytes : List UInt8}
    (built : build stored = .ok bytes) (treeBuilt : Tree.ofEntries stored = .ok tree) :
    total (fun _ => 0) tree.nodes ≤ bytes.length := by
  rcases Tree.layoutOrder_of_ofEntries treeBuilt with ⟨order, ordered⟩
  rw [build, Layout.ofEntries, treeBuilt, map_ok, map_ok] at built
  cases built
  generalize tree.layoutOrder (stored.map (·.name)) = nodes at order ordered ⊢
  have distinct := nodup_names_of_pairwise ordered
  rcases settle_spec distinct (ascending_empty nodes) (9 * edgeCount nodes + 2) 0 with
    ⟨sameNodes, -⟩
  change (Layout.ofNodes nodes).nodes = nodes at sameNodes
  calc
    total (fun _ => 0) tree.nodes = total (fun _ => 0) nodes := by
      rw [total, total, (order.map _).sum_nat]
    _ ≤ total (Layout.ofNodes nodes).offsets.at nodes :=
      total_mono (fun _ => Nat.zero_le _) _
    _ = (Layout.ofNodes nodes).encode.length := by
      rw [Layout.encode, length_flatMap_encode, sameNodes]
    _ ≤ (Bytes.padTo 8 (Layout.ofNodes nodes).encode).length := by
      rw [Bytes.padTo, List.length_append]
      exact Nat.le_add_right _ _

/-- The bytes of a trie that is built hold a canonical tree of its entries. -/
theorem exists_written_of_build {stored : List Entry} {bytes : List UInt8}
    (built : build stored = .ok bytes) (small : bytes.length < 2 ^ 64) :
    ∃ tree offset, Tree.Canonical tree ∧ tree.entries.Perm stored ∧
      tree.WrittenIn bytes.toArray offset := by
  rcases map_eq_ok.mp built with ⟨layout, laidOut, rfl⟩
  rcases map_eq_ok.mp laidOut with ⟨tree, treeBuilt, -⟩
  rcases Tree.exists_ofEntries_iff.mp ⟨tree, treeBuilt⟩ with ⟨zeroFree, distinct⟩
  rcases Layout.ofEntries_of_nodup zeroFree distinct with
    ⟨tree, other, otherLaidOut, canonical, whole, written⟩
  cases laidOut.symm.trans otherLaidOut
  rcases Bytes.padTo_eq 8 layout.encode with ⟨zeros, padded⟩
  rw [padded, List.length_append] at small
  rw [padded]
  exact ⟨tree, _, canonical, whole, written (by omega) _⟩

/-- A trie is read back as the entries with a payload, whatever follows it. -/
theorem Layout.entries_of_nodup {stored : List Entry}
    (zeroFree : ∀ entry ∈ stored, 0 ∉ entry.name)
    (distinct : (stored.map (·.name)).Nodup) (fits : Fits stored) :
    ∃ layout found, ofEntries stored = .ok layout ∧
      found.Perm (stored.filter fun entry => entry.payload ≠ []) ∧
      ∀ tail : List UInt8, entries (layout.encode ++ tail).toArray = .ok found := by
  rcases ofEntries_of_nodup zeroFree distinct with
      ⟨tree, layout, laidOut, canonical, whole, written⟩
  refine ⟨layout, _, laidOut, whole.filter _, ?_⟩
  intro tail
  exact canonical.entries_of_writtenIn (written (fits layout laidOut) tail)

/-- The entries that are read from a trie are those with a payload that it was built
from, in any order and with anything behind the trie. -/
theorem entries_build {stored order : List Entry}
    (distinct : (stored.map (·.name)).Nodup)
    (zeroFree : ∀ entry ∈ stored, 0 ∉ entry.name)
    (reordered : order.Perm stored) (fits : Fits order) :
    ∃ layout found, Layout.ofEntries order = .ok layout ∧
      build order = .ok (Bytes.padTo 8 layout.encode) ∧
      found.Perm (stored.filter fun entry => entry.payload ≠ []) ∧
      ∀ tail : List UInt8, entries (layout.encode ++ tail).toArray = .ok found ∧
        entries (Bytes.padTo 8 layout.encode ++ tail).toArray = .ok found := by
  have orderZeroFree : ∀ entry ∈ order, 0 ∉ entry.name := by
    intro entry member
    exact zeroFree entry (reordered.mem_iff.mp member)
  have orderDistinct : (order.map (·.name)).Nodup :=
    (reordered.map _).nodup_iff.mpr distinct
  rcases Layout.entries_of_nodup orderZeroFree orderDistinct fits with
      ⟨layout, found, laidOut, whole, read⟩
  have built : build order = .ok (Bytes.padTo 8 layout.encode) := by
    rw [build, laidOut, map_ok]
  refine ⟨layout, found, laidOut, built, whole.trans (reordered.filter _), ?_⟩
  intro tail
  constructor
  · exact read tail
  · rcases Bytes.padTo_eq 8 layout.encode with ⟨zeros, padded⟩
    rw [padded, List.append_assoc]
    exact read (List.replicate zeros 0 ++ tail)

/-- Three names, one of them empty, one of them without a payload, added in another
order than they are listed. -/
theorem entries_build_three :
    ∃ layout found, Layout.ofEntries
        [⟨[95, 98], []⟩, ⟨[95, 97], [2, 3]⟩, ⟨[], [1]⟩] = .ok layout ∧
      build [⟨[95, 98], []⟩, ⟨[95, 97], [2, 3]⟩, ⟨[], [1]⟩] =
        .ok (Bytes.padTo 8 layout.encode) ∧
      found.Perm [⟨[], [1]⟩, ⟨[95, 97], [2, 3]⟩] ∧
      ∀ tail : List UInt8, entries (layout.encode ++ tail).toArray = .ok found ∧
        entries (Bytes.padTo 8 layout.encode ++ tail).toArray = .ok found := by
  apply @entries_build [⟨[], [1]⟩, ⟨[95, 97], [2, 3]⟩, ⟨[95, 98], []⟩] _
    (by decide) (by decide) (by decide)
  apply fits_of_room (by decide) (by decide)
  intro tree built
  cases built
  decide

end Linkedit.Trie
