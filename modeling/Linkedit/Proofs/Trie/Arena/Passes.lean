import Linkedit.Proofs.Trie.Arena.Order
import Linkedit.Proofs.Trie.LeastOffsets

/-!
# Passes in place

A pass overwrites the offsets that it computes sizes from. Where each place comes behind
the one whose edge leads to it, the offsets of a node's children are overwritten only
after the node, so a pass reads the offsets that the pass before it left. So passes in
place go through the same offsets as passes that keep the old ones, and end with the
same.
-/

namespace Linkedit.Trie

/-- The size of a node depends on the offsets of its children alone. -/
theorem Cell.size_congr {offsets other : Array Nat} {cell : Cell}
    (same : ∀ link ∈ cell.edges, other[link.child]? = offsets[link.child]?)
    (stored : List Entry) : cell.size stored other = cell.size stored offsets := by
  have children : ∀ link ∈ cell.edges, other.getD link.child 0 =
      offsets.getD link.child 0 := by
    intro link member
    rw [Array.getD_eq_getD_getElem?, same link member, ← Array.getD_eq_getD_getElem?]
  rw [Cell.size, Cell.size, List.map_congr_left]
  intro link member
  rw [children link member]

namespace Arena

variable {arena : Arena} {tree : Tree} {stored : List Entry} {place : Nat}
  {cell : Cell} {order before after places : List Nat} {offsets : Array Nat}

theorem getElem?_put {pass : Pass} {other : Nat} (different : other ≠ place) :
    (pass.put arena stored place).offsets[other]? = pass.offsets[other]? :=
  Array.getElem?_setIfInBounds_ne (Ne.symm different)

/-- A pass overwrites the offsets of the places that it has come to. -/
theorem getElem?_putAll {pass : Pass} (waiting : place ∉ places) :
    (pass.putAll arena stored places).offsets[place]? = pass.offsets[place]? := by
  induction places generalizing pass with
  | nil => rfl
  | cons first places ih =>
      rw [List.mem_cons, not_or] at waiting
      rw [Pass.putAll, List.foldl_cons]
      exact (ih waiting.2).trans (getElem?_put waiting.1)

theorem putAll_concat (pass : Pass) (before : List Nat) (place : Nat) :
    pass.putAll arena stored (before ++ [place]) =
      (pass.putAll arena stored before).put arena stored place := by
  rw [Pass.putAll, List.foldl_append]
  rfl

namespace ParentFirst

variable (parentFirst : arena.ParentFirst order)

include parentFirst

theorem nodup : order.Nodup := parentFirst.complete.nodup_iff.mpr List.nodup_range

theorem lt_size (member : place ∈ order) : place < arena.size :=
  List.mem_range.mp (parentFirst.complete.mem_iff.mp member)

theorem mem (found : arena[place]? = some cell) : place ∈ order :=
  parentFirst.complete.mem_iff.mpr
    (List.mem_range.mpr (Array.getElem?_eq_some_iff.mp found).1)

/-- When a place has its turn, the offsets of its children are still the old ones. -/
theorem getElem?_child (whole : order = before ++ place :: after)
    (found : arena[place]? = some cell) {link : Link} (member : link ∈ cell.edges) :
    (Pass.putAll arena stored { offsets } before).offsets[link.child]? =
      offsets[link.child]? := by
  have isAfter := parentFirst.children before place after whole cell found link member
  have distinct := parentFirst.nodup
  rw [whole, List.nodup_append] at distinct
  apply getElem?_putAll
  intro isBefore
  exact distinct.2.2 _ isBefore _ (List.mem_cons_of_mem _ isAfter) rfl

end ParentFirst

/-! ## Offsets by place and by name -/

/-- The offsets of places are those of the names of their nodes. -/
def AtPlaces (arena : Arena) (offsets : Array Nat) (offset : Name → Nat) : Prop :=
  ∀ (place : Nat) (cell : Cell), arena[place]? = some cell →
    offsets[place]? = some (offset cell.name)

theorem payloadAt_eq (stored : List Entry) (index : Nat) :
    payloadAt stored index = (stored.getD index ⟨[], []⟩).payload := by
  rw [payloadAt, List.getD_eq_getElem?_getD]
  cases stored[index]? <;> rfl

theorem AtPlaces.size_eq {offset : Name → Nat} (agree : arena.AtPlaces offsets offset)
    (linked : arena.Linked (stored.map (·.name))) (found : arena[place]? = some cell) :
    cell.size stored offsets = (cell.node (payloadAt stored)).size offset := by
  have children : (cell.edges.map fun link =>
      link.label.length + 1 + Leb128.unsignedSize (offsets.getD link.child 0)) =
        cell.labels.map fun label =>
          label.length + 1 + Leb128.unsignedSize (offset (cell.name ++ label)) := by
    rw [Cell.labels, List.map_map]
    apply List.map_congr_left
    intro link member
    rcases linked.exists_child found member with ⟨child, isChild, named⟩
    rw [Array.getD_eq_getD_getElem?, agree _ _ isChild, Option.getD_some, named]
    rfl
  unfold Cell.size Node.size
  simp only [Cell.node, children]
  cases cell.terminal? with
  | none => rfl
  | some index => rw [Option.map_some, payloadAt_eq]

/-! ## One pass -/

/-- What is known of a pass over places that were put, where the offsets were those of
names before. -/
structure Pass.Underway (stored : List Entry) (arena : Arena) (offset : Name → Nat)
    (before : List Nat) (pass : Pass) : Prop where
  next : pass.next = total offset (before.map (nodeAt (payloadAt stored) arena))
  changed : pass.changed = false ↔
    Settled (before.map (nodeAt (payloadAt stored) arena)) offset
  placed : ∀ place ∈ before, ∃ start, pass.offsets[place]? = some start ∧
    ((nodeAt (payloadAt stored) arena place).name, start) ∈
      assign offset 0 (before.map (nodeAt (payloadAt stored) arena))

theorem settled_concat {offset : Name → Nat} {nodes : List Node} {node : Node} :
    Settled (nodes ++ [node]) offset ↔
      Settled nodes offset ∧ offset node.name = total offset nodes := by
  simp [Settled, assign_append, assign, or_imp, forall_and]

variable {offset : Name → Nat}

theorem Pass.Underway.put {pass : Pass}
    (underway : pass.Underway stored arena offset before)
    (size : (arena.getD place {}).size stored pass.offsets =
      (nodeAt (payloadAt stored) arena place).size offset)
    (waiting : pass.offsets[place]? =
      some (offset (nodeAt (payloadAt stored) arena place).name))
    (fresh : place ∉ before) :
    (pass.put arena stored place).Underway stored arena offset (before ++ [place]) := by
  have inBounds := (Array.getElem?_eq_some_iff.mp waiting).1
  constructor
  case next =>
    rw [Pass.put, underway.next, size]
    simp
  case changed =>
    have old : pass.offsets.getD place 0 =
        offset (nodeAt (payloadAt stored) arena place).name := by
      rw [Array.getD_eq_getD_getElem?, waiting, Option.getD_some]
    rw [List.map_append, List.map_singleton, settled_concat, ← underway.changed,
      ← underway.next, ← old]
    simp [Pass.put]
  case placed =>
    intro other member
    rw [List.map_append, assign_append, List.map_singleton, assign, assign]
    rcases List.mem_append.mp member with old | new
    · rcases underway.placed other old with ⟨start, isStart, assigned⟩
      refine ⟨start, ?_, List.mem_append_left _ assigned⟩
      rw [getElem?_put (ne_of_mem_of_not_mem old fresh), isStart]
    · rw [List.mem_singleton.mp new]
      refine ⟨pass.next, ?_, ?_⟩
      · exact Array.getElem?_setIfInBounds_self_of_lt inBounds
      · rw [underway.next]
        simp

/-- A pass under way has put nodes as the old offsets make them large. -/
theorem underway_putAll (holds : Holds stored tree arena)
    (parentFirst : arena.ParentFirst order) (agree : arena.AtPlaces offsets offset)
    (whole : order = before ++ after) :
    (Pass.putAll arena stored { offsets } before).Underway stored arena
      offset before := by
  induction before using List.reverseRecOn generalizing after with
  | nil => exact ⟨rfl, by simp [Pass.putAll, Settled, assign], by simp⟩
  | append_singleton before place ih =>
      rw [List.append_assoc, List.singleton_append] at whole
      have inBounds := parentFirst.lt_size (show place ∈ order by simp [whole])
      have found := Array.getElem?_eq_getElem inBounds
      have fresh : place ∉ before := by
        have distinct := parentFirst.nodup
        rw [whole, List.nodup_append] at distinct
        intro member
        exact distinct.2.2 _ member _ List.mem_cons_self rfl
      have same : ∀ link ∈ arena[place].edges,
          (Pass.putAll arena stored { offsets } before).offsets[link.child]? =
            offsets[link.child]? :=
        fun _ member => parentFirst.getElem?_child whole found member
      rw [putAll_concat]
      apply (ih whole).put ?_ ?_ fresh
      · rw [getD_eq found, Cell.size_congr same, agree.size_eq holds.linked found,
          nodeAt_eq _ found]
      · rw [getElem?_putAll fresh, agree place _ found, nodeAt_eq _ found]
        rfl

/-- A pass in place makes the offsets that a pass makes which keeps the old ones. It
changes something unless these are settled. -/
theorem AtPlaces.pass (holds : Holds stored tree arena)
    (parentFirst : arena.ParentFirst order) {nodes : List Node}
    (same : order.map (nodeAt (payloadAt stored) arena) = nodes)
    (distinct : (nodes.map (·.name)).Nodup) {table : Offsets}
    (agree : arena.AtPlaces offsets table.at) :
    let pass := Pass.putAll arena stored { offsets } order
    arena.AtPlaces pass.offsets (table.pass nodes).at ∧
      pass.next = total table.at nodes ∧
      (pass.changed = false ↔ Settled nodes table.at) := by
  intro pass
  have underway := underway_putAll holds parentFirst agree (List.append_nil order).symm
  rw [← same]
  refine ⟨?_, underway.next, underway.changed⟩
  intro place cell found
  rcases underway.placed place (parentFirst.mem found) with ⟨start, isStart, assigned⟩
  rw [same] at assigned ⊢
  rw [nodeAt_eq _ found] at assigned
  rw [isStart, ← Offsets.at_pass_of_mem distinct table assigned]
  rfl

/-! ## All passes -/

/-- The offsets of places after a number of passes in place. -/
def placedAfter (stored : List Entry) (arena : Arena) (order : List Nat) :
    (passes : Nat) → Array Nat
  | 0 => Array.replicate arena.size 0
  | passes + 1 =>
      (Pass.putAll arena stored { offsets := placedAfter stored arena order passes }
        order).offsets

theorem atPlaces_placedAfter (holds : Holds stored tree arena)
    (parentFirst : arena.ParentFirst order) {nodes : List Node}
    (same : order.map (nodeAt (payloadAt stored) arena) = nodes)
    (distinct : (nodes.map (·.name)).Nodup) (passes : Nat) :
    arena.AtPlaces (placedAfter stored arena order passes)
      (offsetsAfter nodes passes).at := by
  induction passes with
  | zero =>
      intro place cell found
      have inBounds := (Array.getElem?_eq_some_iff.mp found).1
      rw [offsetsAfter, Offsets.at_empty, placedAfter, Array.getElem?_replicate,
        if_pos inBounds]
  | succ passes ih => exact (ih.pass holds parentFirst same distinct).1

/-- Passes in place are repeated up to the first one that finds settled offsets, however
many more there may be. -/
theorem resolveFrom_eq (holds : Holds stored tree arena)
    (parentFirst : arena.ParentFirst order) {nodes : List Node}
    (same : order.map (nodeAt (payloadAt stored) arena) = nodes)
    (distinct : (nodes.map (·.name)).Nodup) {done left more : Nat}
    (enough : left < more)
    (settled : Settled nodes (offsetsAfter nodes (done + left)).at)
    (unsettled : ∀ pass < done + left, ¬ Settled nodes (offsetsAfter nodes pass).at) :
    arena.resolveFrom stored order more done (placedAfter stored arena order done) =
      some ⟨placedAfter stored arena order (done + left + 1),
        total (offsetsAfter nodes (done + left)).at nodes, done + left + 1⟩ := by
  induction more generalizing done left with
  | zero => exact absurd enough (Nat.not_lt_zero left)
  | succ more ih =>
      have agree := atPlaces_placedAfter holds parentFirst same distinct done
      rcases agree.pass holds parentFirst same distinct with ⟨-, next, changed⟩
      rw [resolveFrom]
      cases left with
      | zero =>
          simp only [changed.mpr settled, next, Bool.false_eq_true, if_false]
          rfl
      | succ left =>
          have goesOn := Bool.eq_true_of_not_eq_false
            (mt changed.mp
              (unsettled done (Nat.lt_add_of_pos_right (Nat.succ_pos left))))
          have again := @ih (done + 1) left (Nat.lt_of_succ_lt_succ enough)
          rw [Nat.add_right_comm, Nat.add_assoc done left 1] at again
          simp only [goesOn, if_true]
          exact again settled unsettled

/-- Places have as many edges as their nodes have labels. -/
theorem edgeCount_map_nodeAt (payload : Nat → List UInt8) (order : List Nat) :
    edgeCount (order.map (nodeAt payload arena)) =
      sumOf (order.map fun place => (arena.getD place {}).edges.length) := by
  rw [edgeCount, sumOf_eq_sum, List.map_map]
  apply congrArg
  apply List.map_congr_left
  intro place _
  exact List.length_map Link.label

/-- The places of an arena get the offsets of the trie of its entries, in as many
passes. -/
theorem resolve_layout {inserted : List Entry}
    (built : ofEntries inserted = (.ok (), arena)) {layout : Layout}
    (laidOut : Layout.ofEntries inserted = .ok layout) (fits : layout.size < 2 ^ 64) :
    ∃ order resolved, arena.layoutOrder (inserted.map (·.name)) = some order ∧
      order.map (nodeAt (payloadAt inserted) arena) = layout.nodes ∧
      arena.resolve inserted order = some resolved ∧
      arena.AtPlaces resolved.offsets layout.offsets.at ∧ resolved.size = layout.size ∧
      resolved.passes = layout.passes := by
  rcases exists_holds built [] with ⟨tree, grown, holds⟩
  rw [List.append_nil] at holds
  rw [Layout.ofEntries, grown, map_ok, Except.ok.injEq] at laidOut
  rcases holds.exists_layoutOrder (inserted.map (·.name)) with
    ⟨order, isOrder, inside, same⟩
  rcases Tree.layoutOrder_of_ofEntries grown with ⟨complete, ordered⟩
  have parentFirst := holds.parentFirst same ordered inside complete
  have distinct := nodup_names_of_pairwise ordered
  rw [← laidOut] at fits
  rcases Layout.exists_ofNodes_eq distinct fits with
    ⟨last, bound, result, settled, unsettled⟩
  rw [laidOut] at result
  subst result
  rw [← same, edgeCount_map_nodeAt] at bound
  rw [← Nat.zero_add last] at settled unsettled
  refine ⟨order, _, isOrder, same,
    resolveFrom_eq holds parentFirst same distinct (Nat.lt_succ_of_le bound)
      settled unsettled,
    ?places, ?size, ?passes⟩
  case places =>
    intro place cell found
    have isNode := List.mem_map_of_mem (f := nodeAt (payloadAt inserted) arena)
      (parentFirst.mem found)
    rw [same, nodeAt_eq _ found] at isNode
    rw [atPlaces_placedAfter holds parentFirst same distinct _ place cell found,
      Nat.zero_add]
    rw [Nat.zero_add] at settled
    exact congrArg some ((settled_offsetsAfter_iff distinct last).mp settled _ isNode)
  case size => rw [Nat.zero_add, Layout.size]; rfl
  case passes => rw [Nat.zero_add]

/-! ## The whole order -/

/-- The order of an arena begins with the root and holds each place once, behind the one
whose edge leads to it. So a pass in place sizes a node before it moves the children,
and does what a pass does that takes all offsets from the one before. -/
theorem layoutOrder_parentFirst {inserted : List Entry}
    (built : ofEntries inserted = (.ok (), arena)) :
    ∃ order, arena.layoutOrder (inserted.map (·.name)) = some order ∧
      arena.ParentFirst order ∧
      (∀ index entry, inserted[index]? = some entry →
        ∃ links last, arena.Way entry.name index links last) ∧
      (∀ offsets before place after, order = before ++ place :: after →
        ∀ cell, arena[place]? = some cell →
          let now := (Pass.putAll arena inserted { offsets } before).offsets
          (∀ link ∈ cell.edges, now[link.child]? = offsets[link.child]?) ∧
            cell.size inserted now = cell.size inserted offsets) ∧
      ∃ tree, Tree.ofEntries inserted = .ok tree ∧
        let nodes := tree.layoutOrder (inserted.map (·.name))
        order.map (nodeAt (payloadAt inserted) arena) = nodes ∧
          ∀ passes, arena.AtPlaces (placedAfter inserted arena order passes)
            (offsetsAfter nodes passes).at := by
  rcases exists_holds built [] with ⟨tree, grown, holds⟩
  rw [List.append_nil] at holds
  rcases holds.exists_layoutOrder (inserted.map (·.name)) with
    ⟨order, laidOut, inside, same⟩
  rcases Tree.layoutOrder_of_ofEntries grown with ⟨complete, ordered⟩
  have parentFirst := holds.parentFirst same ordered inside complete
  refine ⟨order, laidOut, parentFirst, ?ways, ?turns, tree, grown, same, ?passes⟩
  case ways =>
    intro index entry isEntry
    exact holds.exists_way (Tree.canonical_of_ofEntries grown).2 isEntry
  case turns =>
    intro offsets before place after whole cell found now
    have unchanged : ∀ link ∈ cell.edges, now[link.child]? = offsets[link.child]? :=
      fun _ member => parentFirst.getElem?_child whole found member
    exact ⟨unchanged, Cell.size_congr unchanged inserted⟩
  case passes =>
    exact atPlaces_placedAfter holds parentFirst same (nodup_names_of_pairwise ordered)

/-- The nodes at `f` and `fo` come into the arena behind the one at `foo`, and are laid
out before it. -/
theorem layoutOrder_parentFirst_forked :
    let arena : Arena := #[⟨[], none, [⟨[102], 2⟩]⟩, ⟨[102, 111, 111], some 0, []⟩,
      ⟨[102], none, [⟨[111], 4⟩, ⟨[114, 111, 98], 3⟩]⟩,
        ⟨[102, 114, 111, 98], some 1, []⟩,
      ⟨[102, 111], none, [⟨[111], 1⟩, ⟨[114, 107], 5⟩]⟩,
        ⟨[102, 111, 114, 107], some 2, []⟩]
    ofEntries forked = (.ok (), arena) ∧
      arena.layoutOrder (forked.map (·.name)) = some [0, 2, 4, 1, 3, 5] ∧
      arena.ParentFirst [0, 2, 4, 1, 3, 5] := by
  intro arena
  have built : ofEntries forked = (.ok (), arena) := by cbv
  have isOrder : arena.layoutOrder (forked.map (·.name)) = some [0, 2, 4, 1, 3, 5] := by
    cbv
  rcases layoutOrder_parentFirst built with ⟨order, laidOut, parentFirst, -⟩
  cases isOrder.symm.trans laidOut
  exact ⟨built, isOrder, parentFirst⟩

end Arena

end Linkedit.Trie
