import Linkedit.Proofs.Trie.Room

/-!
# Room for what stays of a trie

A slot that was filled by building a trie has room for what stays when names are
removed, as long as no offset gets wider. Offsets can get wider for two reasons. A label
grows when the node above it goes, and moves the nodes behind it. And what stays is laid
out in the order of a walk, while the trie may have been laid out in another one.
-/

namespace Linkedit.Trie

variable {stored all chosen : List Entry} {tree kept : Tree} {layout again : Layout}
  {bytes rebuilt : List UInt8} {remove : Name → Bool}

/-! ## Layouts and slots -/

theorem build_eq (laidOut : Layout.ofEntries stored = .ok layout) :
    build stored = .ok (Bytes.padTo 8 layout.encode) := by
  rw [build, laidOut, map_ok]

/-- A layout is that of a tree, whose nodes it has. -/
theorem Layout.exists_tree (laidOut : ofEntries stored = .ok layout) :
    ∃ tree, Tree.ofEntries stored = .ok tree ∧
      layout = ofNodes (tree.layoutOrder (stored.map (·.name))) ∧
      layout.nodes = tree.layoutOrder (stored.map (·.name)) ∧
      layout.nodes.Perm tree.nodes := by
  obtain ⟨tree, built, rfl⟩ := map_eq_ok.mp laidOut
  obtain ⟨passes, nodes, -⟩ :=
    exists_offsetsAfter (tree.layoutOrder (stored.map (·.name)))
  refine ⟨tree, built, rfl, nodes, ?_⟩
  rw [nodes]
  exact (Tree.layoutOrder_of_ofEntries built).1

theorem total_perm {offset : Name → Nat} {nodes others : List Node}
    (perm : nodes.Perm others) :
    total offset nodes = total offset others :=
  (perm.map _).sum_nat

theorem Layout.size_pos (laidOut : ofEntries stored = .ok layout) :
    0 < layout.size := by
  obtain ⟨tree, -, -, -, perm⟩ := exists_tree laidOut
  change 0 < total layout.offsets.at layout.nodes
  rw [total_perm perm, Tree.total_eq]
  omega

/-- The size of the layout of entries in depth-first order, computed with as many passes
as settle it. -/
theorem Layout.exists_of_settled (built : Tree.ofEntries stored = .ok tree)
    (ordered : DepthFirst (stored.map (·.name))) (passes : Nat)
    (settled : Settled tree.nodes (placesAfter tree.nodes passes))
    (fits : total (placesAfter tree.nodes passes) tree.nodes < 2 ^ 64) :
    ∃ layout, ofEntries stored = .ok layout ∧
      layout.size = total (placesAfter tree.nodes passes) tree.nodes := by
  refine ⟨ofNodes tree.nodes, ?_, ?_⟩
  · rw [ofEntries, built, map_ok, Tree.layoutOrder_of_depthFirst built ordered]
  · exact size_ofNodes_eq (Tree.canonical_of_ofEntries built).1.nodup_names settled fits

theorem Layout.length_padTo (layout : Layout) :
    (Bytes.padTo 8 layout.encode).length = Bytes.alignUp layout.size 8 := by
  rw [Bytes.length_padTo (by decide), length_encode]

/-- A trie that is filled up fits in a slot of a multiple of eight bytes if its layout
does. -/
theorem Layout.length_padTo_le {room : Nat} (aligned : 8 ∣ room)
    (enough : layout.size ≤ room) :
    (Bytes.padTo 8 layout.encode).length ≤ room := by
  rw [length_padTo, Bytes.alignUp]
  omega

theorem Layout.size_le_length_padTo (layout : Layout) :
    layout.size ≤ (Bytes.padTo 8 layout.encode).length := by
  rw [length_padTo]
  exact Bytes.le_alignUp (by decide) _

theorem Layout.eight_dvd_length_padTo (layout : Layout) :
    8 ∣ (Bytes.padTo 8 layout.encode).length := by
  rw [length_padTo, Bytes.alignUp]
  exact Nat.dvd_mul_left 8 _

/-- Removing names fills the slot with the trie that is built from what stays, if there
is room for it. -/
theorem prune_eq_of_layout {data : Bytes} (read : entries data = .ok all)
    (aligned : 8 ∣ data.size)
    (laidOut : Layout.ofEntries (survivors remove all) = .ok layout)
    (filled : Bytes.padTo 8 layout.encode = rebuilt) :
    prune data remove =
      if removedCount remove all = 0 then .ok ⟨data, data.size, 0⟩
      else if rebuilt.length ≤ data.size then
        .ok ⟨rebuilt.toArray ++ Array.replicate (data.size - rebuilt.length) 0,
          rebuilt.length, removedCount remove all⟩
      else .error (.trieTooLarge rebuilt.length data.size) := by
  have slot : layout.forSlot data.size = rebuilt := by
    rw [Layout.forSlot, slotAlignment, if_pos (Nat.mod_eq_zero_of_dvd aligned), filled]
  rw [prune_of_entries read, laidOut, ok_bind, Rewrite.apply, slot]

/-! ## Room for wide offsets -/

/-- A layout fits in some room if it would with all offsets as wide as that of the last
byte. -/
theorem Layout.size_le_of_const {room : Nat} (positive : 0 < room)
    (laidOut : ofEntries stored = .ok layout)
    (enough : total (fun _ => room - 1) layout.nodes ≤ room) : layout.size ≤ room := by
  obtain ⟨tree, built, rfl, nodes, -⟩ := exists_tree laidOut
  have ordered := (Tree.layoutOrder_of_ofEntries built).2
  rw [nodes] at enough
  have bound := size_ofNodes_le_succ (nodup_names_of_pairwise ordered)
    (enough.trans (Nat.le_of_eq (Nat.sub_add_cancel positive).symm))
  omega

/-- Offsets below 128 all take one byte. -/
theorem total_const_eq_of_lt {place : Nat} (small : place < 128) (nodes : List Node) :
    total (fun _ => place) nodes = total (fun _ => 0) nodes := by
  rw [total, total]
  congr 2
  funext node
  simp only [Node.size, Leb128.unsignedSize_of_lt small, Leb128.unsignedSize_zero]

/-- What stays takes less room by the payloads that go at least, if no offset gets
wider. -/
theorem Layout.total_survivors_le (laidOut : ofEntries stored = .ok layout)
    (whole : all.Perm stored)
    (laidOutAgain : ofEntries (survivors remove all) = .ok again)
    {lower upper : Name → Nat}
    (narrow : ∀ node ∈ again.nodes, Leb128.unsignedSize (lower node.name) ≤
      Leb128.unsignedSize (upper node.name)) :
    total lower again.nodes + removedBytes remove all ≤ total upper layout.nodes := by
  obtain ⟨tree, built, -, -, perm⟩ := exists_tree laidOut
  obtain ⟨kept, keptBuilt, -, -, keptPerm⟩ := exists_tree laidOutAgain
  rw [total_perm perm, total_perm keptPerm]
  apply Trie.total_survivors_le built whole keptBuilt
  intro node isNode
  exact narrow node (keptPerm.mem_iff.mpr isNode)

/-- What stays fits if the payloads that go make up for offsets that are all as wide as
that of the last byte. -/
theorem Layout.size_le_of_wide (laidOut : ofEntries stored = .ok layout)
    (whole : all.Perm stored)
    (laidOutAgain : ofEntries (survivors remove all) = .ok again) {room : Nat}
    (positive : 0 < room)
    (enough : total (fun _ => room - 1) layout.nodes ≤ room + removedBytes remove all) :
    again.size ≤ room := by
  have shorter : total (fun _ => room - 1) again.nodes + removedBytes remove all ≤
      total (fun _ => room - 1) layout.nodes := by
    apply total_survivors_le laidOut whole laidOutAgain
    intro node _
    exact Nat.le_refl _
  apply size_le_of_const positive laidOutAgain
  omega

/-- What stays of a layout of 128 bytes at most fits where the layout did. -/
theorem Layout.size_le_of_small (laidOut : ofEntries stored = .ok layout)
    (whole : all.Perm stored)
    (laidOutAgain : ofEntries (survivors remove all) = .ok again) {room : Nat}
    (size : layout.size ≤ room) (few : room ≤ 128) : again.size ≤ room := by
  have positive := size_pos laidOut
  have least : total (fun _ => 0) layout.nodes ≤ layout.size :=
    total_mono (fun _ => Nat.zero_le _) _
  apply size_le_of_wide laidOut whole laidOutAgain (positive.trans_le size)
  -- The last byte has an offset of one byte, like all others.
  rw [total_const_eq_of_lt (by omega)]
  exact (least.trans size).trans (Nat.le_add_right _ _)

/-! ## Room where no label grows -/

/-- Every edge is one of another list of nodes as well, so no label has grown. -/
def KeepsEdges (fewer nodes : List Node) : Prop :=
  ∀ node ∈ fewer, ∃ other ∈ nodes, other.name = node.name ∧ node.labels ⊆ other.labels

theorem SiblingLabels.nodup {labels : List Name} (siblings : SiblingLabels labels) :
    labels.Nodup := by
  apply siblings.apart.imp
  intro earlier later apart same
  exact apart (congrArg List.head? same)

/-- A node with some of the edges of another one, and a payload only if it has the same
one, takes no more room. -/
theorem Node.within_of_labels {node other : Node} (sameName : node.name = other.name)
    (payload : ∀ bytes, node.payload? = some bytes → other.payload? = some bytes)
    (distinct : node.labels.Nodup) (labels : node.labels ⊆ other.labels) :
    node.Within other where
  name_eq := sameName
  size_le lower upper le := by
    have edges : edgeBytes lower node.name node.labels ≤
        edgeBytes upper other.name other.labels := by
      rw [sameName]
      calc
        _ ≤ edgeBytes upper other.name node.labels := by
          apply List.sum_le_sum
          intro label _
          exact Nat.add_le_add_left (Leb128.unsignedSize_mono (le _)) _
        _ ≤ _ := sum_map_le_of_subset _ distinct labels
    rw [size, size, sumOf_eq_sum, sumOf_eq_sum]
    apply Nat.add_le_add ?_ edges
    apply Nat.succ_le_succ
    cases stored : node.payload? with
    | none =>
        cases other.payload? with
        | none => exact Nat.le_refl 1
        | some => exact (Nat.le_max_left 1 _).trans (Nat.le_add_left _ _)
    | some bytes => rw [payload bytes stored]

/-- Lists with the same images are related element by element, if elements with the same
image are. -/
theorem forall₂_of_map_eq {α β : Type} {image : α → β} {related : α → α → Prop}
    {list others : List α} (same : list.map image = others.map image)
    (each : ∀ element ∈ list, ∀ other ∈ others, image element = image other →
      related element other) : List.Forall₂ related list others := by
  induction list generalizing others with
  | nil =>
      rw [List.map_eq_nil_iff.mp same.symm]
      exact .nil
  | cons element list ih =>
      cases others with
      | nil => cases same
      | cons other others =>
          obtain ⟨first, later⟩ := List.cons.inj same
          apply List.Forall₂.cons
          · exact each element List.mem_cons_self other List.mem_cons_self first
          · apply ih later
            intro element isElement other isOther
            exact each element (List.mem_cons_of_mem _ isElement) other
              (List.mem_cons_of_mem _ isOther)

namespace Tree

theorem Canonical.node_eq (canonical : tree.Canonical) {first second : Node}
    (isFirst : first ∈ tree.nodes) (isSecond : second ∈ tree.nodes)
    (sameName : first.name = second.name) : first = second :=
  List.inj_on_of_nodup_map canonical.nodup_names isFirst isSecond sameName

/-- A tree of some of the entries whose edges are edges of the whole tree has nodes that
take no more room, in the same order. -/
theorem within_of_keepsEdges (built : ofEntries stored = .ok tree)
    (keptBuilt : ofEntries chosen = .ok kept)
    (ordered : DepthFirst (stored.map (·.name))) (part : chosen.Sublist stored)
    (keeps : KeepsEdges kept.nodes tree.nodes) :
    List.SublistForall₂ Node.Within kept.nodes tree.nodes := by
  obtain ⟨canonical, whole⟩ := canonical_of_ofEntries built
  obtain ⟨keptCanonical, keptWhole⟩ := canonical_of_ofEntries keptBuilt
  obtain ⟨others, sublist, sameNames⟩ :=
    List.sublist_map_iff.mp (names_sublist built keptBuilt ordered part)
  apply List.sublistForall₂_iff.mpr
  refine ⟨others, forall₂_of_map_eq sameNames ?_, sublist⟩
  intro node isNode other isOther sameName
  have otherInTree := sublist.subset isOther
  obtain ⟨old, isOld, oldName, labels⟩ := keeps node isNode
  have same : old = other :=
    canonical.node_eq isOld otherInTree (oldName.trans sameName)
  rw [same] at labels
  apply Node.within_of_labels sameName ?_
    (keptCanonical.siblingLabels isNode).nodup labels
  intro bytes stored
  have stays : ⟨node.name, bytes⟩ ∈ kept.entries :=
    mem_entries_iff.mpr ⟨node, isNode, rfl, stored⟩
  have isEntry : ⟨node.name, bytes⟩ ∈ tree.entries :=
    whole.mem_iff.mpr (part.subset (keptWhole.mem_iff.mp stays))
  obtain ⟨holder, isHolder, holderName, held⟩ := mem_entries_iff.mp isEntry
  rwa [canonical.node_eq isHolder otherInTree (holderName.trans sameName)] at held

end Tree

/-- Some of the entries take no more room, if the entries are in depth-first order and
no label grows. -/
theorem Layout.size_le_of_keepsEdges (laidOut : ofEntries stored = .ok layout)
    (laidOutAgain : ofEntries chosen = .ok again)
    (ordered : DepthFirst (stored.map (·.name))) (part : chosen.Sublist stored)
    (keeps : KeepsEdges again.nodes layout.nodes) (fits : layout.size < 2 ^ 64) :
    again.size ≤ layout.size := by
  obtain ⟨tree, built, rfl, nodes, -⟩ := exists_tree laidOut
  obtain ⟨kept, keptBuilt, rfl, keptNodes, -⟩ := exists_tree laidOutAgain
  have canonical := (Tree.canonical_of_ofEntries built).1
  have keptCanonical := (Tree.canonical_of_ofEntries keptBuilt).1
  have keptOrdered := ordered.sublist (part.map _)
  rw [nodes, keptNodes, Tree.layoutOrder_of_depthFirst built ordered,
    Tree.layoutOrder_of_depthFirst keptBuilt keptOrdered] at keeps
  rw [Tree.layoutOrder_of_depthFirst built ordered] at fits ⊢
  rw [Tree.layoutOrder_of_depthFirst keptBuilt keptOrdered]
  have within := Tree.within_of_keepsEdges built keptBuilt ordered part keeps
  exact size_ofNodes_le_of_within within canonical.nodup_names
    keptCanonical.nodup_names fits

/-! ## Removing names -/

/-- Removing names from a trie that was built needs room for the trie of what stays and
for nothing else. That one can be longer than the slot, since a node that goes can
lengthen a label and with it move others behind wider offsets. The last parts say when
it fits. -/
theorem prune_build (distinct : (stored.map (·.name)).Nodup)
    (zeroFree : ∀ entry ∈ stored, 0 ∉ entry.name)
    (nonempty : ∀ entry ∈ stored, entry.payload ≠ []) (fits : Fits stored)
    (remove : Name → Bool) :
    ∃ bytes all layout again rebuilt, build stored = .ok bytes ∧
      entries bytes.toArray = .ok all ∧ all.Perm stored ∧
      Layout.ofEntries stored = .ok layout ∧
      Layout.ofEntries (survivors remove all) = .ok again ∧
      build (survivors remove all) = .ok rebuilt ∧
      prune bytes.toArray remove =
        (if removedCount remove all = 0 then .ok ⟨bytes.toArray, bytes.length, 0⟩
        else if rebuilt.length ≤ bytes.length then
          .ok ⟨rebuilt.toArray ++ Array.replicate (bytes.length - rebuilt.length) 0,
            rebuilt.length, removedCount remove all⟩
        else .error (.trieTooLarge rebuilt.length bytes.length)) ∧
      ((∀ node ∈ again.nodes, Leb128.unsignedSize (again.offsets.at node.name) ≤
          Leb128.unsignedSize (layout.offsets.at node.name)) →
        again.size + removedBytes remove all ≤ layout.size ∧
          rebuilt.length ≤ bytes.length) ∧
      (bytes.length ≤ 128 → rebuilt.length ≤ bytes.length) ∧
      (total (fun _ => bytes.length - 1) layout.nodes ≤
        bytes.length + removedBytes remove all → rebuilt.length ≤ bytes.length) ∧
      (all = stored → KeepsEdges again.nodes layout.nodes →
        rebuilt.length ≤ bytes.length) := by
  obtain ⟨tree, treeBuilt, canonical, whole⟩ :=
    Tree.ofEntries_of_nodup zeroFree distinct
  obtain ⟨bytes, built, read⟩ := entries_of_build treeBuilt nonempty fits
  obtain ⟨layout, laidOut, rfl⟩ := map_eq_ok.mp built
  have listed : DepthFirst (tree.entries.map (·.name)) := canonical.depthFirst_entries
  obtain ⟨-, again, laidOutAgain, -⟩ := Layout.ofEntries_of_nodup
    (zeroFree_survivors read) (listed.nodup.sublist (List.filter_sublist.map _))
  have aligned := layout.eight_dvd_length_padTo
  have size := layout.size_le_length_padTo
  refine ⟨_, tree.entries, layout, again, _, built, read, whole, laidOut, laidOutAgain,
    build_eq laidOutAgain, prune_eq_of_layout read aligned laidOutAgain rfl,
    ?narrow, ?small, ?wide, ?ordered⟩
  case narrow =>
    intro narrow
    have shorter := Layout.total_survivors_le laidOut whole laidOutAgain narrow
    refine ⟨shorter, Layout.length_padTo_le aligned ?_⟩
    exact ((Nat.le_add_right _ _).trans shorter).trans size
  case small =>
    intro few
    exact Layout.length_padTo_le aligned
      (Layout.size_le_of_small laidOut whole laidOutAgain size few)
  case wide =>
    intro room
    have positive := (Layout.size_pos laidOut).trans_le size
    exact Layout.length_padTo_le aligned
      (Layout.size_le_of_wide laidOut whole laidOutAgain positive room)
  case ordered =>
    intro inOrder keeps
    rw [inOrder] at listed laidOutAgain
    have small : layout.size < 2 ^ 64 := layout.length_encode ▸ fits layout laidOut
    have shorter :=
      Layout.size_le_of_keepsEdges laidOut laidOutAgain listed
        List.filter_sublist keeps small
    exact Layout.length_padTo_le aligned (shorter.trans size)

/-- Two names that lie beside each other. -/
def namePair : List Entry := [⟨[97], [7]⟩, ⟨[98], [9]⟩]

/-- The tree of `namePair`. -/
def namePairTree : Tree :=
  ⟨none, .edge [97] (some [7]) .none (.edge [98] (some [9]) .none .none)⟩

theorem prune_build_namePair :
    ∃ bytes pruned, build namePair = .ok bytes ∧
      prune bytes.toArray (· = [97]) = .ok pruned := by
  have treeBuilt : Tree.ofEntries namePair = .ok namePairTree := by decide
  have ordered : DepthFirst (namePair.map (·.name)) :=
    .of_sorted (by decide) (by decide)
  obtain ⟨layout, laidOut, size⟩ :=
    Layout.exists_of_settled treeBuilt ordered 2 (by unfold Settled; decide) (by decide)
  have length := layout.length_padTo
  rw [size] at length
  have sixteen : (Bytes.padTo 8 layout.encode).length = 16 := length
  have fits : Fits namePair := by
    intro other otherLaidOut
    cases laidOut.symm.trans otherLaidOut
    rw [layout.length_encode, size]
    decide
  obtain ⟨bytes, all, -, -, rebuilt, built, -, -, -, -, -, result, -, room, -⟩ :=
    prune_build (by decide) (by decide) (by decide) fits (· = [97])
  cases (build_eq laidOut).symm.trans built
  rw [if_pos (room (by omega))] at result
  split at result
  · exact ⟨_, _, built, result⟩
  · exact ⟨_, _, built, result⟩

/-! ## A label that grows -/

/-- Seven short names, and two names of which one begins the other. -/
def longLabel : List Entry :=
  [[97], [98], [99], [100], [101], [102], [103], [122], List.replicate 104 122].map
    fun name => ⟨name, [0, 0]⟩

/-- The tree of the short names and of an edge to `last`. -/
def shortNamesTree (last : Edges) : Tree :=
  ⟨none, .edge [97] (some [0, 0]) .none (.edge [98] (some [0, 0]) .none
    (.edge [99] (some [0, 0]) .none (.edge [100] (some [0, 0]) .none
      (.edge [101] (some [0, 0]) .none (.edge [102] (some [0, 0]) .none
        (.edge [103] (some [0, 0]) .none last))))))⟩

/-- The tree of `longLabel`. -/
def longLabelTree : Tree :=
  shortNamesTree
    (.edge [122] (some [0, 0]) (Edges.leaf (List.replicate 103 122) [0, 0]) .none)

/-- The tree of `longLabel` without the name that begins another one. -/
def grownLabelTree : Tree := shortNamesTree (Edges.leaf (List.replicate 104 122) [0, 0])

theorem depthFirst_longLabel : DepthFirst (longLabel.map (·.name)) :=
  .of_sorted (by decide +kernel) (by decide +kernel)

theorem exists_layout_longLabel :
    ∃ layout, Layout.ofEntries longLabel = .ok layout ∧ layout.size = 168 := by
  have built : Tree.ofEntries longLabel = .ok longLabelTree := by decide +kernel
  obtain ⟨layout, laidOut, size⟩ :=
    Layout.exists_of_settled built depthFirst_longLabel 2
      (by unfold Settled; decide +kernel) (by decide +kernel)
  exact ⟨layout, laidOut, size.trans (by decide +kernel)⟩

/-- The node that goes leaves its label to an edge of the root. That moves all other
nodes behind offset 128, so that each of the eight offsets takes two bytes. -/
theorem exists_layout_grownLabel :
    ∃ layout, Layout.ofEntries (survivors (· = [122]) longLabel) = .ok layout ∧
      layout.size = 169 := by
  have part : (survivors (· = [122]) longLabel).Sublist longLabel := List.filter_sublist
  have built : Tree.ofEntries (survivors (· = [122]) longLabel) =
      .ok grownLabelTree := by
    decide +kernel
  obtain ⟨layout, laidOut, size⟩ := Layout.exists_of_settled built
    (depthFirst_longLabel.sublist (part.map _)) 3 (by unfold Settled; decide +kernel)
    (by decide +kernel)
  exact ⟨layout, laidOut, size.trans (by decide +kernel)⟩

/-- Removing a name from a trie that was built can need a larger slot, even if names are
added in order. -/
theorem prune_longLabel :
    (longLabel.map (·.name)).Nodup ∧
      (∀ entry ∈ longLabel, 0 ∉ entry.name ∧ entry.payload ≠ []) ∧
      ∃ bytes, build longLabel = .ok bytes ∧
        prune bytes.toArray (· = [122]) = .error (.trieTooLarge 176 168) := by
  have spec : ∀ entry ∈ longLabel, 0 ∉ entry.name ∧ entry.payload ≠ [] := by
    decide +kernel
  obtain ⟨layout, laidOut, size⟩ := exists_layout_longLabel
  obtain ⟨again, laidOutAgain, sizeAgain⟩ := exists_layout_grownLabel
  have length : (Bytes.padTo 8 layout.encode).length = 168 := by
    rw [layout.length_padTo, size]
    rfl
  have lengthAgain : (Bytes.padTo 8 again.encode).length = 176 := by
    rw [again.length_padTo, sizeAgain]
    rfl
  refine ⟨depthFirst_longLabel.nodup, spec, _, build_eq laidOut, ?_⟩
  have read : entries (Bytes.padTo 8 layout.encode).toArray = .ok longLabel := by
    obtain ⟨zeros, filled⟩ := Bytes.padTo_eq 8 layout.encode
    rw [filled]
    apply Layout.entries_of_depthFirst laidOut depthFirst_longLabel fun entry member =>
      (spec entry member).2
    rw [layout.length_encode]
    omega
  have some : removedCount (· = [122]) longLabel ≠ 0 := by decide +kernel
  rw [prune_eq_of_layout read (layout.eight_dvd_length_padTo) laidOutAgain rfl,
    if_neg some]
  simp [length, lengthAgain]

end Linkedit.Trie
