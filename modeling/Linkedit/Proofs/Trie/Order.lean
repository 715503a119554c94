import Linkedit.Proofs.Trie.Canonical

/-!
# The order of the nodes

Nodes are written in the order in which the paths of the entries first meet
them. In a canonical tree the path of a name meets the nodes whose names begin
that name, from the root on. The order holds each node of the tree once, and no
node comes before one whose name begins its own.
-/

namespace Linkedit.Trie

/-! ## Paths -/

/-- The path of a name below a node meets the nodes whose names begin it. -/
theorem Edges.Canonical.map_along {edges : Edges} (canonical : edges.Canonical)
    (above rest : Name) :
    (edges.along above.length rest).map (Step.node (above ++ rest)) =
      (edges.nodes above).filter (·.name.isPrefixOf (above ++ rest)) := by
  induction canonical generalizing above rest with
  | none => rfl
  | @edge label payload? below others nonempty _ apart _ belowOk othersOk
        belowIH othersIH =>
      rw [along, nodes, List.filter_cons, List.filter_append]
      by_cases continues : label <+: rest
      · rcases continues with ⟨suffix, rfl⟩
        have under := belowIH (above ++ label) suffix
        have beside : (others.nodes above).filter
            (·.name.isPrefixOf (above ++ (label ++ suffix))) = [] := by
          apply List.filter_eq_nil_iff.mpr
          intro node member start
          rcases exists_label_begins member with ⟨other, isLabel, otherStart⟩
          have whole : above ++ label <+: above ++ (label ++ suffix) := by
            rw [← List.append_assoc]
            exact List.prefix_append _ suffix
          apply apart other isLabel
          exact head?_eq_of_begins (othersOk.label_ne_nil isLabel) nonempty
            (otherStart.trans (List.isPrefixOf_iff_prefix.mp start)) whole
        rw [List.length_append, List.append_assoc] at under
        rw [if_pos (by simp), if_pos (by simp), beside, List.append_nil,
          List.drop_left, List.map_cons, under, Step.node]
        have depth : (above ++ (label ++ suffix)).take (above.length + label.length) =
            above ++ label := by
          rw [← List.append_assoc, ← List.length_append, List.take_left]
        rw [depth]
      · have strays : ∀ name : Name, above ++ label <+: name →
            ¬ name.isPrefixOf (above ++ rest) := by
          intro name start whole
          have longer := start.trans (List.isPrefixOf_iff_prefix.mp whole)
          exact continues ((List.prefix_append_right_inj above).mp longer)
        have under : (below.nodes (above ++ label)).filter
            (·.name.isPrefixOf (above ++ rest)) = [] := by
          apply List.filter_eq_nil_iff.mpr
          intro node member
          rcases exists_label_begins member with ⟨lower, _, start⟩
          apply strays
          exact (List.prefix_append _ lower).trans start
        rw [if_neg (mt List.isPrefixOf_iff_prefix.mp continues),
          if_neg (strays _ List.prefix_rfl), under, List.nil_append, othersIH]

/-- The path of a name meets the nodes whose names begin it. -/
theorem Tree.Canonical.map_path {tree : Tree} (canonical : tree.Canonical)
    (name : Name) :
    (tree.path name).map (Step.node name) =
      tree.nodes.filter (·.name.isPrefixOf name) := by
  have below := Edges.Canonical.map_along canonical [] name
  rw [path, nodes, List.map_cons, List.filter_cons, if_pos (by simp)]
  exact congrArg _ below

/-- Every node below lies on the way to an entry. -/
theorem Edges.Canonical.exists_entry {edges : Edges} (canonical : edges.Canonical)
    {above : Name} {node : Node} (member : node ∈ edges.nodes above) :
    ∃ entry ∈ edges.entries above, node.name <+: entry.name := by
  induction canonical generalizing above node with
  | none => cases member
  | @edge label payload? below rest _ _ _ needed belowOk restOk belowIH restIH =>
      simp only [entries_edge, List.mem_append]
      simp only [nodes, List.mem_cons, List.mem_append] at member
      rcases member with rfl | under | beside
      · cases payload? with
        | some payload =>
            exact ⟨⟨above ++ label, payload⟩, .inl (by simp), List.prefix_rfl⟩
        | none =>
            -- A node without payload has edges; the first of them goes on to an entry.
            cases below with
            | none => simp [labels] at needed
            | edge lower lowerPayload? further others =>
                have first : ⟨above ++ label ++ lower, lowerPayload?, further.labels⟩ ∈
                    (Edges.edge lower lowerPayload? further others).nodes
                      (above ++ label) :=
                  List.mem_cons_self
                rcases belowIH first with ⟨entry, stored, start⟩
                exact ⟨entry, .inr (.inl stored),
                  (List.prefix_append _ lower).trans start⟩
      · rcases belowIH under with ⟨entry, stored, start⟩
        exact ⟨entry, .inr (.inl stored), start⟩
      · rcases restIH beside with ⟨entry, stored, start⟩
        exact ⟨entry, .inr (.inr stored), start⟩

/-! ## Placing nodes -/

/-- Where a property is kept from each element to the earlier ones, the elements
before the first failure are all that have it. -/
theorem takeWhile_eq_filter {α : Type} {keep : α → Bool} {list : List α}
    (kept : list.Pairwise fun earlier later => keep later → keep earlier) :
    list.takeWhile keep = list.filter keep := by
  induction kept with
  | nil => rfl
  | @cons first rest earlier _ ih =>
      by_cases holds : keep first
      · rw [List.takeWhile_cons_of_pos holds, List.filter_cons_of_pos holds, ih]
      · have later : rest.filter keep = [] := by
          apply List.filter_eq_nil_iff.mpr
          intro other member kept
          exact holds (earlier other member kept)
        rw [List.takeWhile_cons_of_neg holds, List.filter_cons_of_neg holds, later]

/-- What placing paths keeps of a placement: it knows the names of its nodes,
these are nodes of the tree, with each node it holds all above, and none comes
before one above it. -/
structure Placement.Sound (tree : Tree) (placed : Placement) : Prop where
  mem_names : ∀ name, name ∈ placed.names ↔ name ∈ placed.nodes.toList.map (·.name)
  isNode : ∀ node ∈ placed.nodes.toList, node ∈ tree.nodes
  closed : ∀ node ∈ placed.nodes.toList, ∀ above ∈ tree.nodes,
    above.name <+: node.name → above ∈ placed.nodes.toList
  ordered : placed.nodes.toList.Pairwise
    fun earlier later => ¬ later.name <+: earlier.name

namespace Placement

theorem foldl_place_nodes (nodes : List Node) (placed : Placement) :
    (nodes.foldl place placed).nodes.toList = placed.nodes.toList ++ nodes := by
  induction nodes generalizing placed with
  | nil => simp
  | cons node nodes ih => simp [ih, place]

theorem mem_foldl_place_names (nodes : List Node) (placed : Placement) (name : Name) :
    name ∈ (nodes.foldl place placed).names ↔
      name ∈ placed.names ∨ name ∈ nodes.map (·.name) := by
  induction nodes generalizing placed with
  | nil => simp
  | cons node nodes ih =>
      rw [List.foldl_cons, ih]
      simp only [place, Std.HashSet.mem_insert, List.map_cons, List.mem_cons]
      grind

variable {tree : Tree} {placed : Placement}

/-- The nodes of the path of a name that are not placed yet. -/
def fresh (placed : Placement) (tree : Tree) (name : Name) : List Node :=
  (tree.nodes.filter (·.name.isPrefixOf name)).filter (·.name ∉ placed.names)

/-- With a node, all nodes above it are known by their names. -/
theorem Sound.names_closed (sound : placed.Sound tree) {above : Node}
    (isNode : above ∈ tree.nodes) {name : Name} (known : name ∈ placed.names)
    (start : above.name <+: name) : above ∈ placed.nodes.toList := by
  rcases List.mem_map.mp ((sound.mem_names _).mp known) with ⟨node, isPlaced, rfl⟩
  exact sound.closed node isPlaced above isNode start

theorem Sound.name_mem (sound : placed.Sound tree) {node : Node}
    (isPlaced : node ∈ placed.nodes.toList) : node.name ∈ placed.names :=
  (sound.mem_names _).mpr (List.mem_map_of_mem isPlaced)

/-- Placing a path places those of its nodes that are not placed yet. -/
theorem Sound.placePath_eq (sound : placed.Sound tree) (canonical : tree.Canonical)
    (name : Name) :
    placed.placePath name (tree.path name) =
      (placed.fresh tree name).foldl place placed := by
  have kept : ((tree.path name).map (Step.node name)).Pairwise fun upper lower =>
      upper.name ∉ placed.names → lower.name ∉ placed.names := by
    rw [canonical.map_path]
    apply (canonical.pairwise_nodes.filter _).imp_of_mem
    intro upper lower upperIn lowerIn apart absent present
    rcases List.mem_filter.mp upperIn with ⟨upperNode, upperStart⟩
    rcases List.mem_filter.mp lowerIn with ⟨_, lowerStart⟩
    have start : upper.name <+: lower.name :=
      (List.prefix_or_prefix_of_prefix (List.isPrefixOf_iff_prefix.mp upperStart)
        (List.isPrefixOf_iff_prefix.mp lowerStart)).resolve_right apart
    apply absent
    exact sound.name_mem (sound.names_closed upperNode present start)
  have taken : (tree.path name).reverse.takeWhile
      (fun step => decide (name.take step.depth ∉ placed.names)) =
        (tree.path name).reverse.filter
          (fun step => decide (name.take step.depth ∉ placed.names)) := by
    apply takeWhile_eq_filter
    apply List.pairwise_reverse.mpr
    apply (List.pairwise_map.mp kept).imp
    intro upper lower keep
    simpa [Step.node] using keep
  rw [placePath, taken, List.filter_reverse, List.reverse_reverse, fresh,
    ← canonical.map_path, List.filter_map]
  rfl

theorem mem_fresh {name : Name} {node : Node} :
    node ∈ placed.fresh tree name ↔
      node ∈ tree.nodes ∧ node.name <+: name ∧ node.name ∉ placed.names := by
  simp only [fresh, List.mem_filter, List.isPrefixOf_iff_prefix, decide_eq_true_eq,
    and_assoc]

/-- Placing a path keeps a placement sound. -/
theorem Sound.placePath (sound : placed.Sound tree) (canonical : tree.Canonical)
    (name : Name) : (placed.placePath name (tree.path name)).Sound tree := by
  rw [sound.placePath_eq canonical]
  constructor
  case mem_names =>
    intro other
    rw [mem_foldl_place_names, foldl_place_nodes, List.map_append, List.mem_append,
      sound.mem_names]
  case isNode =>
    intro node member
    rw [foldl_place_nodes, List.mem_append] at member
    rcases member with old | new
    · exact sound.isNode node old
    · exact (mem_fresh.mp new).1
  case closed =>
    intro node member above isNode start
    rw [foldl_place_nodes, List.mem_append] at member ⊢
    rcases member with old | new
    · exact .inl (sound.closed node old above isNode start)
    · rcases mem_fresh.mp new with ⟨_, nodeStart, _⟩
      by_cases known : above.name ∈ placed.names
      · exact .inl (sound.names_closed isNode known List.prefix_rfl)
      · exact .inr (mem_fresh.mpr ⟨isNode, start.trans nodeStart, known⟩)
  case ordered =>
    rw [foldl_place_nodes]
    apply List.pairwise_append.mpr
    constructor
    · exact sound.ordered
    constructor
    · exact (canonical.pairwise_nodes.filter _).filter _
    · intro old oldIn new newIn start
      rcases mem_fresh.mp newIn with ⟨isNode, _, unknown⟩
      apply unknown
      exact sound.name_mem (sound.closed old oldIn new isNode start)

theorem Sound.mem_placePath (sound : placed.Sound tree) (canonical : tree.Canonical)
    {name : Name} {node : Node} (isNode : node ∈ tree.nodes) :
    node ∈ (placed.placePath name (tree.path name)).nodes.toList ↔
      node ∈ placed.nodes.toList ∨ node.name <+: name := by
  rw [sound.placePath_eq canonical, foldl_place_nodes, List.mem_append, mem_fresh]
  constructor
  · rintro (old | ⟨_, start, _⟩)
    · exact .inl old
    · exact .inr start
  · rintro (old | start)
    · exact .inl old
    · by_cases known : node.name ∈ placed.names
      · exact .inl (sound.names_closed isNode known List.prefix_rfl)
      · exact .inr ⟨isNode, start, known⟩

/-- Placing the paths of names, one after the other, keeps a placement sound and
places the nodes whose names begin one of them. -/
theorem Sound.foldl_placePath (sound : placed.Sound tree) (canonical : tree.Canonical)
    (names : List Name) :
    let result := names.foldl
      (fun placed name => placed.placePath name (tree.path name)) placed
    result.Sound tree ∧ ∀ node ∈ tree.nodes,
      (node ∈ result.nodes.toList ↔
        node ∈ placed.nodes.toList ∨ ∃ name ∈ names, node.name <+: name) := by
  induction names generalizing placed with
  | nil => exact ⟨sound, by simp⟩
  | cons name names ih =>
      rcases ih (sound.placePath canonical name) with ⟨resultSound, reached⟩
      constructor
      · exact resultSound
      · intro node isNode
        rw [List.foldl_cons, reached node isNode, sound.mem_placePath canonical isNode]
        simp [or_assoc]

theorem sound_empty (tree : Tree) : Sound tree {} := by
  constructor <;> simp

end Placement

/-! ## The whole order -/

namespace Tree

variable {tree : Tree}

/-- Every node lies on the way to an entry, or is the root. -/
theorem Canonical.exists_name_begins (canonical : tree.Canonical) {node : Node}
    (isNode : node ∈ tree.nodes) :
    ∃ name ∈ [] :: tree.entries.map (·.name), node.name <+: name := by
  rcases List.mem_cons.mp isNode with rfl | below
  · exact ⟨[], by simp, List.prefix_rfl⟩
  · rcases Edges.Canonical.exists_entry canonical below with ⟨entry, stored, start⟩
    refine ⟨entry.name, ?_, start⟩
    rw [entries_eq]
    simp only [List.mem_cons, List.mem_map, List.mem_append]
    exact .inr ⟨entry, .inr stored, rfl⟩

/-- The order of the nodes for the names of a canonical tree, in any order: each
node of the tree once, and none before one whose name begins its own. -/
theorem Canonical.layoutOrder_spec (canonical : tree.Canonical) {names : List Name}
    (all : ∀ name ∈ tree.entries.map (·.name), name ∈ names) :
    (tree.layoutOrder names).Perm tree.nodes ∧
      (tree.layoutOrder names).Pairwise
        fun earlier later => ¬ later.name <+: earlier.name := by
  have empty := Placement.sound_empty tree
  rcases empty.foldl_placePath canonical ([] :: names) with ⟨sound, reached⟩
  constructor
  · have distinct := (nodup_names_of_pairwise sound.ordered).of_map
    apply (List.perm_ext_iff_of_nodup distinct canonical.nodup_names.of_map).mpr
    intro node
    constructor
    · exact sound.isNode node
    · intro isNode
      rcases canonical.exists_name_begins isNode with ⟨name, member, start⟩
      apply (reached node isNode).mpr
      right
      refine ⟨name, ?_, start⟩
      rcases List.mem_cons.mp member with rfl | stored
      · exact List.mem_cons_self
      · exact List.mem_cons_of_mem _ (all name stored)
  · exact sound.ordered

/-- The order in which the nodes of a tree of entries are written. -/
theorem layoutOrder_of_ofEntries {stored : List Entry}
    (built : ofEntries stored = .ok tree) :
    (tree.layoutOrder (stored.map (·.name))).Perm tree.nodes ∧
      (tree.layoutOrder (stored.map (·.name))).Pairwise
        fun earlier later => ¬ later.name <+: earlier.name := by
  rcases canonical_of_ofEntries built with ⟨canonical, whole⟩
  apply canonical.layoutOrder_spec
  intro name member
  exact (whole.map _).mem_iff.mp member

end Tree

end Linkedit.Trie
