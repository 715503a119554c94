import Linkedit.Proofs.Trie.InsertAt

/-!
# Building the radix tree of names

Whatever entries are added in place, the arena holds the nodes of the tree that
`Tree.insert` builds, which is the radix tree of their names. The next entry is refused
if its name cannot be written or is there already, and then nothing has changed.
-/

namespace Linkedit.Trie.Arena

variable {arena : Arena} {tree : Tree} {stored : List Entry}
  {entry : Entry} {index : Nat}

/-- The payload of the entry with an index. -/
def payloadAt (stored : List Entry) (index : Nat) : List UInt8 :=
  (stored[index]?.map (·.payload)).getD []

/-- The arena is a tree whose nodes are those of a canonical tree. -/
structure Holds (stored : List Entry) (tree : Tree) (arena : Arena) : Prop where
  canonical : tree.Canonical
  linked : arena.Linked (stored.map (·.name))
  nodes : (arena.nodes (payloadAt stored)).Perm tree.nodes

theorem holds_empty (stored : List Entry) : Holds stored {} empty where
  canonical := Tree.canonical_empty
  linked := linked_empty _
  nodes := List.Perm.refl _

theorem insertAll_append {added : List Entry} {after : Arena}
    (ran : insertAll index arena added = (.ok (), after)) (later : List Entry) :
    insertAll index arena (added ++ later) =
      insertAll (index + added.length) after later := by
  induction added generalizing index arena with
  | nil =>
      cases ran
      rfl
  | cons entry added ih =>
      rw [insertAll] at ran
      rw [List.cons_append, insertAll]
      split at ran
      next next here =>
        have further := ih ran
        rw [Nat.add_assoc, Nat.add_comm 1] at further
        exact further
      next refused => exact (refused after ran).elim

namespace Holds

/-- The nodes have different names. -/
theorem distinct (holds : Holds stored tree arena) :
    ((arena.nodes (payloadAt stored)).map (·.name)).Nodup :=
  (holds.nodes.map (·.name)).nodup_iff.mpr holds.canonical.nodup_names

/-- Names are followed down from the root. -/
theorem exists_root (holds : Holds stored tree arena) :
    ∃ cell, cell.name = [] ∧ cell.terminal?.map (payloadAt stored) = tree.payload? ∧
      ∀ suffix, Faces (payloadAt stored) arena 0 cell suffix [] tree.edges [] := by
  rcases nameAt_eq_some_iff.mp holds.linked.root with ⟨cell, found, unnamed⟩
  have isCell : cell ∈ arena.toList :=
    Array.mem_toList_iff.mpr (Array.mem_of_getElem? found)
  have isNode : ⟨[], tree.payload?, tree.edges.labels⟩ ∈
      arena.nodes (payloadAt stored) :=
    holds.nodes.mem_iff.mpr List.mem_cons_self
  have same :=
    List.inj_on_of_nodup_map holds.distinct (List.mem_map_of_mem isCell) isNode unnamed
  refine ⟨cell, unnamed, congrArg Node.payload? same, ?_⟩
  intro suffix
  refine ⟨found, congrArg Node.labels same, by simp, ?_, holds.distinct⟩
  rw [same, unnamed, List.append_nil]
  exact holds.nodes

/-- Adding an entry in place does what adding it to the tree does. -/
theorem insert_ok (holds : Holds stored tree arena)
    (isNext : stored[index]? = some entry) {result : Tree}
    (inserted : tree.insert entry = .ok result) :
    ∃ after, insert index entry arena = (.ok (), after) ∧
      Holds stored result after := by
  have canonical := holds.canonical.of_insert inserted
  have payload : payloadAt stored index = entry.payload := by simp [payloadAt, isNext]
  have named : (stored.map (·.name))[index]? = some entry.name := by simp [isNext]
  rcases holds.exists_root with ⟨cell, unnamed, terminal, faces⟩
  have zeroFree := Tree.zeroFree_of_insert inserted
  rw [insert, if_neg zeroFree]
  rw [Tree.insert, if_neg zeroFree] at inserted
  by_cases empty : entry.name = []
  · rw [if_pos (List.isEmpty_iff.mpr empty)] at inserted
    split at inserted
    next => cases inserted
    next free =>
      cases inserted
      have root := faces entry.name
      have ends := insertAt_end root.found index
      have noTerminal : ¬ cell.terminal?.isSome := by
        rwa [← Option.isSome_map (f := payloadAt stored), terminal]
      rw [unnamed, if_neg noTerminal] at ends
      rw [empty]
      refine ⟨_, ends, canonical, ?_, ?_⟩
      · apply holds.linked.setTerminal root.found
        rw [named, empty, unnamed]
      · have set := nodes_setTerminal root.found root.holds index
        rw [root.labels, unnamed, payload, List.append_nil] at set
        exact set
  · rw [if_neg (mt List.isEmpty_iff.mp empty)] at inserted
    cases added : tree.edges.insert entry.name entry.payload with
    | none =>
        rw [added] at inserted
        cases inserted
    | some edges =>
        rw [added] at inserted
        cases inserted
        have steps := insertion_of_insert empty added
        rw [← payload] at steps
        have follows :=
          exists_insertAt steps holds.canonical empty holds.linked (faces entry.name)
            (by rwa [unnamed])
        rw [unnamed] at follows
        rcases follows with ⟨after, ran, linked, nodes⟩
        refine ⟨after, ran, canonical, linked, ?_⟩
        rw [terminal, List.append_nil] at nodes
        exact nodes

/-- A refused entry leaves the arena as it was. -/
theorem insert_error (holds : Holds stored tree arena) {error : Error}
    (refused : tree.insert entry = .error error) (index : Nat) :
    insert index entry arena = (.error error, arena) := by
  rw [insert]
  split
  next zero =>
    rw [Tree.insert, if_pos zero] at refused
    cases refused
    rfl
  next zeroFree =>
    have known : entry.name ∈ tree.entries.map (·.name) := by
      by_contra fresh
      rcases holds.canonical.insert_of_notMem zeroFree fresh with
        ⟨result, inserted, -, -⟩
      cases refused.symm.trans inserted
    cases refused.symm.trans (holds.canonical.insert_of_mem zeroFree known)
    rcases List.mem_map.mp known with ⟨other, isEntry, named⟩
    rcases Tree.mem_entries_iff.mp isEntry with ⟨node, isNode, nodeNamed, ends⟩
    rcases holds.exists_root with ⟨cell, unnamed, terminal, faces⟩
    rw [named] at nodeNamed
    rcases List.mem_cons.mp isNode with rfl | below
    · have here := insertAt_end (faces []).found index
      rw [unnamed, ← Option.isSome_map (f := payloadAt stored), terminal,
        if_pos (Option.isSome_iff_exists.mpr ⟨_, ends⟩)] at here
      rw [← nodeNamed]
      exact here
    · rw [← unnamed] at below
      have refuses :=
        insertAt_of_stored holds.canonical holds.linked (faces entry.name) below
          (Option.isSome_iff_exists.mpr ⟨_, ends⟩)
          (by rw [nodeNamed, unnamed]; rfl) index
      rwa [unnamed, nodeNamed] at refuses

/-- Adding entries in place does what adding them to the tree does. -/
theorem insertAll (holds : Holds stored tree arena) {before added later : List Entry}
    (whole : stored = before ++ (added ++ later)) :
    (Arena.insertAll before.length arena added).1 =
        (added.foldlM Tree.insert tree).map (fun _ => ()) ∧
      ∀ result, added.foldlM Tree.insert tree = .ok result →
        Holds stored result (Arena.insertAll before.length arena added).2 := by
  induction added generalizing before tree arena with
  | nil =>
      refine ⟨rfl, ?_⟩
      rintro result ⟨⟩
      exact holds
  | cons entry added ih =>
      rw [List.foldlM_cons, Arena.insertAll]
      cases inserted : tree.insert entry with
      | error error =>
          rw [holds.insert_error inserted]
          refine ⟨rfl, ?_⟩
          rintro result ⟨⟩
      | ok next =>
          have isNext : stored[before.length]? = some entry := by simp [whole]
          rcases holds.insert_ok isNext inserted with ⟨after, ran, afterHolds⟩
          rw [ran]
          have rest : stored = (before ++ [entry]) ++ (added ++ later) := by
            simp [whole]
          have further := ih afterHolds rest
          rw [List.length_append, List.length_singleton] at further
          exact further

end Holds

/-- Entries added in place are refused like entries added to a tree, and the arena holds
the nodes of the tree. -/
theorem holds_ofEntries (added later : List Entry) :
    (ofEntries added).1 = (Tree.ofEntries added).map (fun _ => ()) ∧
      ∀ result, Tree.ofEntries added = .ok result →
        Holds (added ++ later) result (ofEntries added).2 := by
  have whole : added ++ later = [] ++ (added ++ later) := rfl
  exact (holds_empty (added ++ later)).insertAll whole

/-- The tree whose nodes lie in an arena that entries were added to. -/
theorem exists_holds {added : List Entry} (built : ofEntries added = (.ok (), arena))
    (later : List Entry) :
    ∃ tree, Tree.ofEntries added = .ok tree ∧ Holds (added ++ later) tree arena := by
  rcases holds_ofEntries added later with ⟨outcome, holds⟩
  rw [built] at outcome holds
  rcases Linkedit.map_eq_ok.mp outcome.symm with ⟨tree, grown, -⟩
  exact ⟨tree, grown, holds tree grown⟩

/-! ## The radix tree of the names -/

/-- An arena is the radix tree of the names of some entries. -/
structure RadixTreeOf (inserted : List Entry) (arena : Arena) : Prop where
  /-- The root lies at place zero. -/
  root : arena.nameAt 0 = some []
  /-- Every node is reached from the root. -/
  reached : ∀ place < arena.size, arena.Reaches place
  /-- One edge leads to each node but the root. -/
  parents : (arena.toList.flatMap Cell.children).Perm (List.range' 1 (arena.size - 1))
  /-- The name of a node is that of the node above it and the label between them. -/
  linked : ∀ cell ∈ arena, ∀ link ∈ cell.edges,
    arena.nameAt link.child = some (cell.name ++ link.label)
  siblings : ∀ cell ∈ arena, SiblingLabels cell.labels
  /-- The number of edges is written as it is. -/
  counted : ∀ cell ∈ arena, (UInt8.ofNat cell.edges.length).toNat = cell.edges.length
  terminal : ∀ cell ∈ arena, ∀ index,
    cell.terminal? = some index ↔ inserted[index]?.map (·.name) = some cell.name
  /-- A node below the root ends a name or has two edges. -/
  needed : ∀ place cell, arena[place]? = some cell → place ≠ 0 →
    cell.terminal?.isSome ∨ 2 ≤ cell.edges.length
  /-- The nodes are the root, the names, and the longest common starts of two names. -/
  names : ∀ name, (∃ cell ∈ arena, cell.name = name) ↔
    name = [] ∨ name ∈ inserted.map (·.name) ∨
      ∃ left ∈ inserted, ∃ right ∈ inserted,
        LongestCommonStart name left.name right.name

/-- Nodes at different places have different names. -/
theorem Holds.nameAt_inj (holds : Holds stored tree arena)
    {left right : Nat} {name : Name} (leftNamed : arena.nameAt left = some name)
    (rightNamed : arena.nameAt right = some name) :
    left = right := by
  have names : ∀ place, ((arena.nodes (payloadAt stored)).map (·.name))[place]? =
      arena.nameAt place := by
    intro place
    rw [Arena.nodes, List.map_map, List.getElem?_map, Array.getElem?_toList]
    rfl
  rw [← names] at leftNamed rightNamed
  have inBounds := (List.getElem?_eq_some_iff.mp leftNamed).1
  exact (List.getElem?_inj inBounds holds.distinct).mp (leftNamed.trans rightNamed.symm)

/-- The nodes of an arena are those of its tree. -/
theorem Holds.node_mem (holds : Holds stored tree arena) {cell : Cell}
    (isCell : cell ∈ arena) :
    cell.node (payloadAt stored) ∈ tree.nodes :=
  holds.nodes.mem_iff.mp (List.mem_map_of_mem (Array.mem_toList_iff.mpr isCell))

theorem Holds.siblingLabels (holds : Holds stored tree arena) {cell : Cell}
    (isCell : cell ∈ arena) : SiblingLabels cell.labels :=
  holds.canonical.siblingLabels (holds.node_mem isCell)

theorem Holds.reaches (holds : Holds stored tree arena) {place : Nat} {cell : Cell}
    (found : arena[place]? = some cell) : arena.Reaches place := by
  apply holds.linked.reaches ?_ found
  intro other isCell
  exact (holds.siblingLabels (Array.mem_toList_iff.mp isCell)).nonempty

/-- A name of an entry ends at its node. -/
theorem Holds.exists_terminal (holds : Holds stored tree arena)
    (whole : tree.entries.Perm stored) {cell : Cell}
    (isCell : cell ∈ arena) {index : Nat}
    (named : (stored.map (·.name))[index]? = some cell.name) :
    ∃ other, cell.terminal? = some other := by
  rw [List.getElem?_map] at named
  rcases Option.map_eq_some_iff.mp named with ⟨entry, isEntry, sameName⟩
  have inTree := whole.mem_iff.mpr (List.mem_of_getElem? isEntry)
  rcases Tree.mem_entries_iff.mp inTree with ⟨node, isNode, nodeNamed, ends⟩
  have same :=
    List.inj_on_of_nodup_map holds.canonical.nodup_names isNode (holds.node_mem isCell)
      (nodeNamed.trans sameName)
  rw [same, Cell.node, Option.map_eq_some_iff] at ends
  rcases ends with ⟨other, terminal, -⟩
  exact ⟨other, terminal⟩

theorem Holds.radixTreeOf (holds : Holds stored tree arena)
    (whole : tree.entries.Perm stored) :
    arena.RadixTreeOf stored := by
  constructor
  case root => exact holds.linked.root
  case reached =>
    intro place inBounds
    exact holds.reaches (Array.getElem?_eq_getElem inBounds)
  case parents => exact holds.linked.parents
  case linked =>
    intro cell isCell
    exact holds.linked.linked cell (Array.mem_toList_iff.mpr isCell)
  case siblings => exact fun cell isCell => holds.siblingLabels isCell
  case counted =>
    intro cell isCell
    have few := (holds.siblingLabels isCell).few
    rw [Cell.labels, List.length_map] at few
    exact UInt8.toNat_ofNat_of_lt' (Nat.lt_succ_of_le few)
  case terminal =>
    intro cell isCell index
    rw [← List.getElem?_map]
    constructor
    · exact holds.linked.numbered cell (Array.mem_toList_iff.mpr isCell) index
    · intro named
      rcases holds.exists_terminal whole isCell named with ⟨other, ends⟩
      have otherNamed :=
        holds.linked.numbered cell (Array.mem_toList_iff.mpr isCell) other ends
      have distinct :=
        (whole.map (·.name)).nodup_iff.mp holds.canonical.nodup_entry_names
      have inBounds := (List.getElem?_eq_some_iff.mp named).1
      rw [ends, (List.getElem?_inj inBounds distinct).mp (named.trans otherNamed.symm)]
  case needed =>
    intro place cell found notRoot
    have unnamed : cell.name ≠ [] := by
      intro empty
      have here : arena.nameAt place = some [] :=
        nameAt_eq_some_iff.mpr ⟨cell, found, empty⟩
      exact notRoot (holds.nameAt_inj here holds.linked.root)
    have isCell := Array.mem_of_getElem? found
    have needed := holds.canonical.needed (holds.node_mem isCell) unnamed
    simpa [Cell.node, Cell.labels] using needed
  case names =>
    intro name
    have isName : (∃ cell ∈ arena, cell.name = name) ↔
        name ∈ tree.nodes.map (·.name) := by
      rw [← (holds.nodes.map (·.name)).mem_iff]
      simp [Arena.nodes, Cell.node]
    rw [isName, holds.canonical.mem_node_names_iff, (whole.map (·.name)).mem_iff]
    simp only [whole.mem_iff]

/-- However entries are added in place, the arena is the radix tree of their names, with
the nodes that adding them to a tree gives. The next entry is refused exactly if its
name holds a zero byte or is there already, and then the arena stays as it was. -/
theorem insert_radixTree {inserted : List Entry}
    (built : ofEntries inserted = (.ok (), arena)) :
    arena.RadixTreeOf inserted ∧
      (∃ tree, Tree.ofEntries inserted = .ok tree ∧
        (arena.nodes (payloadAt inserted)).Perm tree.nodes) ∧
      ∀ entry : Entry,
        (0 ∈ entry.name → insert inserted.length entry arena =
          (.error (.invalidSymbolName entry.name), arena)) ∧
        (0 ∉ entry.name → entry.name ∈ inserted.map (·.name) →
          insert inserted.length entry arena =
            (.error (.duplicateSymbol entry.name), arena)) ∧
        (0 ∉ entry.name → entry.name ∉ inserted.map (·.name) →
          ∃ after, insert inserted.length entry arena = (.ok (), after) ∧
            ofEntries (inserted ++ [entry]) = (.ok (), after)) := by
  rcases exists_holds built [] with ⟨tree, grown, holds⟩
  rcases Tree.canonical_of_ofEntries grown with ⟨canonical, whole⟩
  rw [List.append_nil] at holds
  refine ⟨holds.radixTreeOf whole, ⟨tree, grown, holds.nodes⟩, ?_⟩
  intro entry
  refine ⟨?_, ?_, ?_⟩
  · intro zero
    rw [insert, if_pos zero]
  · intro zeroFree known
    apply holds.insert_error
    exact canonical.insert_of_mem zeroFree ((whole.map (·.name)).mem_iff.mpr known)
  · intro zeroFree fresh
    rw [← (whole.map (·.name)).mem_iff] at fresh
    rcases canonical.insert_of_notMem zeroFree fresh with ⟨result, added, -, -⟩
    rcases exists_holds built [entry] with ⟨same, sameGrown, nextHolds⟩
    cases grown.symm.trans sameGrown
    have isNext : (inserted ++ [entry])[inserted.length]? = some entry := by simp
    rcases nextHolds.insert_ok isNext added with ⟨after, ran, -⟩
    refine ⟨after, ran, ?_⟩
    have last := insertAll_append built [entry]
    rw [Nat.zero_add, Arena.insertAll, ran] at last
    exact last

/-- The names `foo`, `frob` and `fork`, which part behind `f` and behind `fo`. -/
def forked : List Entry :=
  [⟨[102, 111, 111], [0, 5]⟩, ⟨[102, 114, 111, 98], [0, 6]⟩,
    ⟨[102, 111, 114, 107], [0, 7]⟩]

theorem insert_radixTree_forked :
    ∃ arena, ofEntries forked = (.ok (), arena) ∧
      (∃ cell ∈ arena, cell.name = [102, 111]) ∧
      insert 3 ⟨[102, 111, 111], [0, 8]⟩ arena =
        (.error (.duplicateSymbol [102, 111, 111]), arena) := by
  have outcome : (ofEntries forked).1 = .ok () := by
    rw [(holds_ofEntries forked []).1]
    rfl
  have built : ofEntries forked = (.ok (), (ofEntries forked).2) := Prod.ext outcome rfl
  have parts : LongestCommonStart [102, 111] [102, 111, 111] [102, 111, 114, 107] :=
    .of_apart [102, 111] (by decide)
  rcases insert_radixTree built with ⟨radix, -, next⟩
  refine ⟨_, built, (radix.names _).mpr ?_, (next _).2.1 ?_ ?_⟩
  · right
    right
    exact ⟨_, List.mem_cons_self,
      ⟨[102, 111, 114, 107], [0, 7]⟩, by simp [forked], parts⟩
  · decide
  · decide

end Linkedit.Trie.Arena
