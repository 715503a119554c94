import Linkedit.Proofs.Trie.Written

/-!
# The nodes of a radix tree

A canonical tree is the radix tree of the names that it holds. Its nodes are the root,
the names, and the longest common starts of two names, so the names alone say which
nodes there are, and not the order in which they were added.
-/

namespace Linkedit.Trie

/-! ## Longest common starts -/

/-- The longest byte string that begins two others. -/
structure LongestCommonStart (common left right : Name) : Prop where
  begins_left : common <+: left
  begins_right : common <+: right
  longest : ∀ start, start <+: left → start <+: right → start <+: common

namespace LongestCommonStart

variable {common other left right : Name}

theorem symm (start : LongestCommonStart common left right) :
    LongestCommonStart common right left where
  begins_left := start.begins_right
  begins_right := start.begins_left
  longest other left right := start.longest other right left

theorem unique (start : LongestCommonStart common left right)
    (otherStart : LongestCommonStart other left right) : common = other := by
  have begins := otherStart.longest common start.begins_left start.begins_right
  have begun := start.longest other otherStart.begins_left otherStart.begins_right
  exact begins.eq_of_length_le begun.length_le

/-- A byte string that begins another is their longest common start. -/
theorem of_begins (begins : left <+: right) : LongestCommonStart left left right :=
  ⟨List.prefix_rfl, begins, fun _ start _ => start⟩

/-- Byte strings that part after a common start. -/
theorem of_apart (above : Name) (apart : left.head? ≠ right.head?) :
    LongestCommonStart above (above ++ left) (above ++ right) := by
  refine ⟨List.prefix_append _ _, List.prefix_append _ _, ?_⟩
  intro start leftStart rightStart
  rcases List.prefix_or_prefix_of_prefix leftStart (List.prefix_append above left) with
    begins | ⟨rest, rfl⟩
  · exact begins
  · rw [List.prefix_append_right_inj] at leftStart rightStart
    cases rest with
    | nil => simp
    | cons byte rest =>
        rcases leftStart with ⟨leftRest, rfl⟩
        rcases rightStart with ⟨rightRest, rfl⟩
        exact (apart rfl).elim

/-- Byte strings that go on with different labels after a common start. -/
theorem of_labels_apart {above leftLabel rightLabel : Name}
    (leftLonger : leftLabel ≠ []) (rightLonger : rightLabel ≠ [])
    (apart : leftLabel.head? ≠ rightLabel.head?)
    (leftStart : above ++ leftLabel <+: left)
    (rightStart : above ++ rightLabel <+: right) :
    LongestCommonStart above left right := by
  rcases leftStart with ⟨leftRest, rfl⟩
  rcases rightStart with ⟨rightRest, rfl⟩
  rw [List.append_assoc, List.append_assoc]
  apply of_apart
  rwa [List.head?_append_of_ne_nil _ leftLonger,
    List.head?_append_of_ne_nil _ rightLonger]

end LongestCommonStart

/-! ## The nodes below edges -/

/-- What is true of the labels of each node of a radix tree: they are not empty and hold
no zero byte, they differ in their first bytes, and there are at most 255 of them. -/
structure SiblingLabels (labels : List Name) : Prop where
  nonempty : ∀ label ∈ labels, label ≠ []
  zeroFree : ∀ label ∈ labels, 0 ∉ label
  apart : labels.Pairwise fun earlier later => earlier.head? ≠ later.head?
  few : labels.length ≤ 255

namespace Edges.Canonical

variable {edges : Edges} {above : Name} {node : Node}

theorem pairwise_labels (canonical : edges.Canonical) :
    edges.labels.Pairwise fun earlier later => earlier.head? ≠ later.head? := by
  induction canonical with
  | none => exact .nil
  | edge _ _ apart _ _ _ _ restIH =>
      apply List.Pairwise.cons ?_ restIH
      intro other member
      exact (apart other member).symm

theorem siblingLabels (canonical : edges.Canonical) : SiblingLabels edges.labels where
  nonempty _ := canonical.label_ne_nil
  zeroFree _ := canonical.zero_notMem_label
  apart := canonical.pairwise_labels
  few := Nat.le_of_lt_succ canonical.length_labels_lt

/-- The edges that leave a node below. It ends a name or has two of them. -/
theorem exists_below (canonical : edges.Canonical) (member : node ∈ edges.nodes above) :
    ∃ below : Edges, below.Canonical ∧ node.labels = below.labels ∧
      (node.payload?.isSome ∨ 2 ≤ below.labels.length) ∧
      below.nodes node.name ⊆ edges.nodes above := by
  induction canonical generalizing above with
  | none => cases member
  | @edge label payload? below rest _ _ _ needed belowOk _ belowIH restIH =>
      simp only [nodes, List.mem_cons, List.mem_append] at member
      rcases member with rfl | under | beside
      · refine ⟨below, belowOk, rfl, needed, ?_⟩
        intro lower isLower
        exact List.mem_cons_of_mem _ (List.mem_append_left _ isLower)
      · rcases belowIH under with ⟨own, canonical, labels, needed, contained⟩
        refine ⟨own, canonical, labels, needed, ?_⟩
        intro lower isLower
        exact List.mem_cons_of_mem _ (List.mem_append_left _ (contained isLower))
      · rcases restIH beside with ⟨own, canonical, labels, needed, contained⟩
        refine ⟨own, canonical, labels, needed, ?_⟩
        intro lower isLower
        exact List.mem_cons_of_mem _ (List.mem_append_right _ (contained isLower))

/-- The names of nodes below two edges of one node part at that node. -/
theorem common_eq_above (canonical : edges.Canonical) {label : Name}
    (nonempty : label ≠ []) (apart : ∀ other ∈ edges.labels, other.head? ≠ label.head?)
    {name common : Name} (begins : above ++ label <+: name)
    (member : node ∈ edges.nodes above)
    (start : LongestCommonStart common name node.name) : common = above := by
  rcases exists_label_begins member with ⟨other, isLabel, otherBegins⟩
  apply start.unique
  exact .of_labels_apart nonempty (canonical.label_ne_nil isLabel)
    (apart other isLabel).symm begins otherBegins

/-- The names of two nodes below begin alike just as far as the node above or a node
below. -/
theorem exists_node_of_common (canonical : edges.Canonical) {first second : Node}
    (isFirst : first ∈ edges.nodes above) (isSecond : second ∈ edges.nodes above)
    {common : Name} (start : LongestCommonStart common first.name second.name) :
    common = above ∨ ∃ node ∈ edges.nodes above, node.name = common := by
  induction canonical generalizing above with
  | none => cases isFirst
  | @edge label payload? below rest nonempty _ apart _ _ restOk belowIH restIH =>
      have own : ∃ node ∈ (Edges.edge label payload? below rest).nodes above,
          node.name = above ++ label := ⟨_, List.mem_cons_self, rfl⟩
      have begins : ∀ node ∈ ⟨above ++ label, payload?, below.labels⟩ ::
          below.nodes (above ++ label), above ++ label <+: Node.name node := by
        intro node within
        rcases List.mem_cons.mp within with rfl | under
        · exact List.prefix_rfl
        · rcases exists_label_begins under with ⟨lower, _, lowerBegins⟩
          exact (List.prefix_append _ lower).trans lowerBegins
      rw [nodes, ← List.cons_append, List.mem_append] at isFirst isSecond
      rcases isFirst with firstWithin | firstBeside
      · rcases isSecond with secondWithin | secondBeside
        · rcases List.mem_cons.mp firstWithin with rfl | firstUnder
          · rw [start.unique (.of_begins (begins second secondWithin))]
            exact .inr own
          rcases List.mem_cons.mp secondWithin with rfl | secondUnder
          · rw [start.symm.unique (.of_begins (begins first firstWithin))]
            exact .inr own
          rcases belowIH firstUnder secondUnder with rfl | ⟨node, isNode, named⟩
          · exact .inr own
          · exact .inr ⟨node, List.mem_cons_of_mem _ (List.mem_append_left _ isNode),
              named⟩
        · left
          exact restOk.common_eq_above nonempty apart (begins first firstWithin)
            secondBeside start
      · rcases isSecond with secondWithin | secondBeside
        · left
          exact restOk.common_eq_above nonempty apart
            (begins second secondWithin) firstBeside start.symm
        · rcases restIH firstBeside secondBeside with rfl | ⟨node, isNode, named⟩
          · exact .inl rfl
          · exact .inr ⟨node, List.mem_cons_of_mem _ (List.mem_append_right _ isNode),
              named⟩

/-- A node with two edges is where the names of two entries part. -/
theorem exists_entries_apart (canonical : edges.Canonical)
    (two : 2 ≤ edges.labels.length) :
    ∃ left ∈ edges.entries above, ∃ right ∈ edges.entries above,
      LongestCommonStart above left.name right.name := by
  have apart := canonical.pairwise_labels
  have nonempty := @label_ne_nil _ canonical
  have reached : ∀ label ∈ edges.labels, ∃ entry ∈ edges.entries above,
      above ++ label <+: entry.name := by
    intro label isLabel
    rcases @exists_node_of_mem_labels edges above _ isLabel with ⟨node, isNode, named⟩
    rcases canonical.exists_entry isNode with ⟨entry, isEntry, begins⟩
    exact ⟨entry, isEntry, named ▸ begins⟩
  match labels : edges.labels, two with
  | first :: second :: others, _ =>
      rw [labels] at apart nonempty reached
      rcases reached first (by simp) with ⟨left, isLeft, leftBegins⟩
      rcases reached second (by simp) with ⟨right, isRight, rightBegins⟩
      refine ⟨left, isLeft, right, isRight, ?_⟩
      exact .of_labels_apart (nonempty (by simp)) (nonempty (by simp))
        (List.rel_of_pairwise_cons apart List.mem_cons_self) leftBegins rightBegins

end Edges.Canonical

/-! ## The nodes of a tree -/

namespace Tree

/-- The entries of a tree are its nodes with payloads. -/
theorem mem_entries_iff {tree : Tree} {entry : Entry} :
    entry ∈ tree.entries ↔
      ∃ node ∈ tree.nodes, node.name = entry.name ∧
        node.payload? = some entry.payload := by
  simp only [entries, List.mem_filterMap, Node.entry?, Option.map_eq_some_iff]
  constructor
  · rintro ⟨node, isNode, payload, stored, rfl⟩
    exact ⟨node, isNode, rfl, stored⟩
  · rintro ⟨node, isNode, named, stored⟩
    exact ⟨node, isNode, entry.payload, stored, by rw [named]⟩

namespace Canonical

variable {tree : Tree} {node : Node}

theorem siblingLabels (canonical : tree.Canonical) (member : node ∈ tree.nodes) :
    SiblingLabels node.labels := by
  rcases List.mem_cons.mp member with rfl | below
  · exact Edges.Canonical.siblingLabels canonical
  · rcases Edges.Canonical.exists_below canonical below with ⟨own, ownOk, labels, -, -⟩
    rw [labels]
    exact ownOk.siblingLabels

/-- A node below the root ends a name or has two edges. -/
theorem needed (canonical : tree.Canonical) (member : node ∈ tree.nodes)
    (notRoot : node.name ≠ []) : node.payload?.isSome ∨ 2 ≤ node.labels.length := by
  rcases List.mem_cons.mp member with rfl | below
  · exact (notRoot rfl).elim
  · rcases Edges.Canonical.exists_below canonical below with ⟨own, -, labels, needed, -⟩
    rwa [labels]

theorem exists_node_of_common (canonical : tree.Canonical) {first second : Node}
    (isFirst : first ∈ tree.nodes) (isSecond : second ∈ tree.nodes) {common : Name}
    (start : LongestCommonStart common first.name second.name) :
    ∃ node ∈ tree.nodes, node.name = common := by
  have root : ∃ node ∈ tree.nodes, node.name = [] := ⟨_, List.mem_cons_self, rfl⟩
  rcases List.mem_cons.mp isFirst with rfl | firstBelow
  · rwa [List.prefix_nil.mp start.begins_left]
  rcases List.mem_cons.mp isSecond with rfl | secondBelow
  · rwa [List.prefix_nil.mp start.begins_right]
  rcases Edges.Canonical.exists_node_of_common canonical firstBelow
      secondBelow start with
    rfl | ⟨node, isNode, named⟩
  · exact root
  · exact ⟨node, List.mem_cons_of_mem _ isNode, named⟩

/-- The nodes of a canonical tree are the root, the names in it, and the longest common
starts of two names. -/
theorem mem_node_names_iff (canonical : tree.Canonical) (name : Name) :
    name ∈ tree.nodes.map (·.name) ↔
      name = [] ∨ name ∈ tree.entries.map (·.name) ∨
        ∃ left ∈ tree.entries, ∃ right ∈ tree.entries,
          LongestCommonStart name left.name right.name := by
  constructor
  · intro isName
    rcases List.mem_map.mp isName with ⟨node, isNode, rfl⟩
    rcases List.mem_cons.mp isNode with rfl | below
    · exact .inl rfl
    right
    rcases Edges.Canonical.exists_below canonical below with
        ⟨own, ownOk, -, terminal | two, contained⟩
    · rcases Option.isSome_iff_exists.mp terminal with ⟨payload, stored⟩
      left
      apply List.mem_map.mpr
      exact ⟨⟨node.name, payload⟩, mem_entries_iff.mpr ⟨node, isNode, rfl, stored⟩, rfl⟩
    · rcases ownOk.exists_entries_apart two with ⟨left, isLeft, right, isRight, start⟩
      have inTree : ∀ entry ∈ own.entries node.name, entry ∈ tree.entries := by
        intro entry member
        rcases List.mem_filterMap.mp member with ⟨lower, isLower, ends⟩
        exact List.mem_filterMap.mpr
          ⟨lower, List.mem_cons_of_mem _ (contained isLower), ends⟩
      exact .inr ⟨left, inTree left isLeft, right, inTree right isRight, start⟩
  · rintro (rfl | isName | ⟨left, isLeft, right, isRight, start⟩)
    · exact List.mem_cons_self
    · exact (names_filterMap_entry?_sublist _).subset isName
    · rcases mem_entries_iff.mp isLeft with ⟨first, isFirst, firstNamed, -⟩
      rcases mem_entries_iff.mp isRight with ⟨second, isSecond, secondNamed, -⟩
      rw [← firstNamed, ← secondNamed] at start
      exact List.mem_map.mpr (canonical.exists_node_of_common isFirst isSecond start)

end Canonical

end Tree

end Linkedit.Trie
