import Linkedit.Trie.Arena
import Linkedit.Proofs.Trie.RadixTree

/-!
# The arena of a tree

However names are added in place, the arena stays a tree: edges lead to the nodes whose
names go on with their labels, and one edge leads to each node but the root. So each
node is reached from the root.
-/

namespace Linkedit.Trie

/-- The labels of the edges that leave a node. -/
def Cell.labels (cell : Cell) : List Name := cell.edges.map (·.label)

/-- The places that the edges of a node lead to. -/
def Cell.children (cell : Cell) : List Nat := cell.edges.map (·.child)

namespace Arena

variable {arena : Arena} {place index : Nat} {cell : Cell}

/-- The name of the node at a place. -/
def nameAt (arena : Arena) (place : Nat) : Option Name := arena[place]?.map (·.name)

theorem nameAt_eq_some_iff {name : Name} :
    arena.nameAt place = some name ↔ ∃ cell, arena[place]? = some cell ∧
      cell.name = name :=
  Option.map_eq_some_iff

/-! ## Changes of one node -/

theorem nameAt_modify {change : Cell → Cell}
    (kept : ∀ cell, (change cell).name = cell.name) (place other : Nat) : nameAt
    (arena.modify place change) other = arena.nameAt other := by
  rw [nameAt, nameAt, Array.getElem?_modify]
  split
  · rw [Option.map_map]
    exact congrArg (Option.map · arena[other]?) (funext kept)
  · rfl

theorem getElem?_push_of_some (found : arena[place]? = some cell) (new : Cell) :
    (arena.push new)[place]? = some cell := by
  have inBounds := (Array.getElem?_eq_some_iff.mp found).1
  rw [Array.getElem?_push, if_neg (Nat.ne_of_lt inBounds), found]

theorem nameAt_push_of_some {name : Name} (named : arena.nameAt place = some name)
    (new : Cell) : nameAt (arena.push new) place = some name := by
  rcases nameAt_eq_some_iff.mp named with ⟨cell, found, rfl⟩
  exact nameAt_eq_some_iff.mpr ⟨cell, getElem?_push_of_some found new, rfl⟩

theorem nameAt_push_size (new : Cell) :
    nameAt (arena.push new) arena.size = some new.name := by
  rw [nameAt, Array.getElem?_push_size, Option.map_some]

/-- A node is changed and the others stay. -/
theorem exists_others (found : arena[place]? = some cell) :
    ∃ others, arena.toList.Perm (cell :: others) ∧
      ∀ change, (arena.modify place change).toList.Perm (change cell :: others) := by
  rw [← Array.getElem?_toList] at found
  rcases List.getElem?_eq_some_iff.mp found with ⟨inBounds, same⟩
  refine ⟨arena.toList.eraseIdx place, ?_, ?_⟩
  · have apart := List.getElem_cons_eraseIdx_perm inBounds
    rw [same] at apart
    exact apart.symm
  · intro change
    rw [Array.toList_modify, List.modify_eq_set_getElem?, found]
    exact List.set_perm_cons_eraseIdx inBounds (change cell)

/-- A node is changed, another is added, and the others stay. -/
theorem exists_others_push (found : arena[place]? = some cell) (new : Cell) :
    ∃ others, arena.toList.Perm (cell :: others) ∧
      ∀ change, ((arena.push new).modify place change).toList.Perm
        (change cell :: new :: others) := by
  rcases exists_others found with ⟨others, apart, -⟩
  rcases exists_others (getElem?_push_of_some found new) with
    ⟨grown, grownApart, changed⟩
  refine ⟨others, apart, ?_⟩
  intro change
  have pushed : (arena.push new).toList.Perm (new :: cell :: others) := by
    rw [Array.toList_push]
    exact (List.perm_append_singleton new _).trans (apart.cons new)
  have same := (grownApart.symm.trans (pushed.trans (.swap cell new others))).cons_inv
  exact (changed change).trans (same.cons _)

/-! ## Trees -/

/-- What adding names keeps of an arena: names follow the labels, one edge leads to each
place but the first, and entries end at the nodes of their names. -/
structure Linked (names : List Name) (arena : Arena) : Prop where
  root : arena.nameAt 0 = some []
  linked : ∀ cell ∈ arena.toList, ∀ link ∈ cell.edges,
    arena.nameAt link.child = some (cell.name ++ link.label)
  parents : (arena.toList.flatMap Cell.children).Perm (List.range' 1 (arena.size - 1))
  numbered : ∀ cell ∈ arena.toList, ∀ index, cell.terminal? = some index →
    names[index]? = some cell.name

theorem linked_empty (names : List Name) : empty.Linked names where
  root := rfl
  linked := by simp [empty]
  parents := by simp [empty, Cell.children]
  numbered := by simp [empty]

namespace Linked

variable {names : List Name}

theorem size_pos (linked : arena.Linked names) : 0 < arena.size := by
  rcases nameAt_eq_some_iff.mp linked.root with ⟨cell, found, -⟩
  exact (Array.getElem?_eq_some_iff.mp found).1

/-- The node that an edge leads to. -/
theorem exists_child (linked : arena.Linked names) (found : arena[place]? = some cell)
    {link : Link} (member : link ∈ cell.edges) :
    ∃ child, arena[link.child]? = some child ∧ child.name = cell.name ++ link.label :=
  nameAt_eq_some_iff.mp
    (linked.linked cell (Array.mem_toList_iff.mpr (Array.mem_of_getElem? found))
      link member)

theorem setTerminal (linked : arena.Linked names) (found : arena[place]? = some cell)
    (named : names[index]? = some cell.name) :
    (arena.setTerminal place index).Linked names := by
  rcases exists_others found with ⟨others, apart, changed⟩
  have whole := changed fun cell => { cell with terminal? := some index }
  have same : ∀ other, nameAt (arena.setTerminal place index) other =
      arena.nameAt other := by
    apply nameAt_modify
    intro
    rfl
  constructor
  case root => rw [same, linked.root]
  case linked =>
    intro other member link isLink
    rw [same]
    rcases List.mem_cons.mp (whole.mem_iff.mp member) with rfl | old
    · exact linked.linked cell (apart.mem_iff.mpr List.mem_cons_self) link isLink
    · exact linked.linked other
        (apart.mem_iff.mpr (List.mem_cons_of_mem _ old)) link isLink
  case parents =>
    have children := (whole.flatMap_right Cell.children).trans
      (apart.flatMap_right Cell.children).symm
    rw [Arena.setTerminal, Array.size_modify]
    exact children.trans linked.parents
  case numbered =>
    intro other member number ends
    rcases List.mem_cons.mp (whole.mem_iff.mp member) with rfl | old
    · cases ends
      exact named
    · exact linked.numbered other
        (apart.mem_iff.mpr (List.mem_cons_of_mem _ old)) number ends

/-- A node is added, and one edge of an old node leads to it. -/
theorem of_push (linked : arena.Linked names)
    (found : arena[place]? = some cell) {new : Cell} {change : Cell → Cell}
    (kept : ∀ cell, (change cell).name = cell.name)
    (links : ∀ link ∈ (change cell).edges, link ∈ cell.edges ∨
      link.child = arena.size ∧ cell.name ++ link.label = new.name)
    (newLinks : ∀ link ∈ new.edges, arena.nameAt link.child =
      some (new.name ++ link.label))
    (children : ((change cell).children ++ new.children).Perm
      (cell.children ++ [arena.size]))
    (terminal : (change cell).terminal? = cell.terminal?)
    (numbered : ∀ index, new.terminal? = some index → names[index]? = some new.name) :
    Linked names (Array.modify (Array.push arena new) place change) := by
  rcases exists_others_push found new with ⟨others, apart, changed⟩
  have whole := changed change
  have isCell := apart.mem_iff.mpr List.mem_cons_self
  have same := @nameAt_modify (Array.push arena new) change kept place
  constructor
  case root => rw [same, nameAt_push_of_some linked.root]
  case linked =>
    intro other member link isLink
    rw [same]
    rcases List.mem_cons.mp (whole.mem_iff.mp member) with rfl | member
    · rw [kept]
      rcases links link isLink with old | ⟨toNew, named⟩
      · exact nameAt_push_of_some (linked.linked cell isCell link old) new
      · rw [toNew, named, nameAt_push_size]
    rcases List.mem_cons.mp member with rfl | old
    · exact nameAt_push_of_some (newLinks link isLink) other
    · have isOther := apart.mem_iff.mpr (List.mem_cons_of_mem _ old)
      exact nameAt_push_of_some (linked.linked other isOther link isLink) new
  case parents =>
    have positive := linked.size_pos
    have size : arena.size + 1 - 1 = arena.size - 1 + 1 := by omega
    have last : 1 + 1 * (arena.size - 1) = arena.size := by omega
    rw [Array.size_modify, Array.size_push, size, List.range'_concat, last]
    have before := (apart.flatMap_right Cell.children).symm.trans linked.parents
    rw [List.flatMap_cons] at before
    refine (whole.flatMap_right Cell.children).trans ?_
    rw [List.flatMap_cons, List.flatMap_cons, ← List.append_assoc]
    refine (children.append_right _).trans ?_
    rw [List.append_assoc]
    refine (List.perm_append_comm.append_left _).trans ?_
    rw [← List.append_assoc]
    exact before.append_right _
  case numbered =>
    intro other member number ends
    rcases List.mem_cons.mp (whole.mem_iff.mp member) with rfl | member
    · rw [kept]
      exact linked.numbered cell isCell number (terminal ▸ ends)
    rcases List.mem_cons.mp member with rfl | old
    · exact numbered number ends
    · exact linked.numbered other
        (apart.mem_iff.mpr (List.mem_cons_of_mem _ old)) number ends

theorem grow (linked : arena.Linked names) (found : arena[place]? = some cell)
    {label : Name} {leaf : Cell} (named : leaf.name = cell.name ++ label)
    (noEdges : leaf.edges = [])
    (numbered : ∀ index, leaf.terminal? = some index → names[index]? = some leaf.name) :
    (arena.grow place label leaf).Linked names := by
  apply linked.of_push found ?kept ?links ?newLinks ?children rfl numbered
  case kept => exact fun _ => rfl
  case links =>
    intro link isLink
    rcases List.mem_append.mp isLink with old | new
    · exact .inl old
    · rw [List.mem_singleton.mp new]
      exact .inr ⟨rfl, named.symm⟩
  case newLinks => simp [noEdges]
  case children => simp [Cell.children, noEdges]

theorem split (linked : arena.Linked names) (found : arena[place]? = some cell)
    {front back : List Link} {link : Link} (edges : cell.edges = front ++ link :: back)
    (first : link ∉ front) {shared remainder : Name}
    (label : link.label = shared ++ remainder) :
    (arena.split place link shared (cell.name ++ shared)).Linked names := by
  have replaced : cell.edges.replace link ⟨shared, arena.size⟩ =
      front ++ ⟨shared, arena.size⟩ :: back := by
    rw [edges, List.replace_append_right first, List.replace_cons_self]
  apply linked.of_push found ?kept ?links ?newLinks ?children rfl ?numbered
  case kept => exact fun _ => rfl
  case numbered => simp
  case links =>
    intro other isLink
    rw [replaced, List.mem_append, List.mem_cons] at isLink
    rw [edges, List.mem_append, List.mem_cons]
    rcases isLink with inFront | rfl | inBack
    · exact .inl (.inl inFront)
    · exact .inr ⟨rfl, rfl⟩
    · exact .inl (.inr (.inr inBack))
  case newLinks =>
    intro other isLink
    rw [List.mem_singleton.mp isLink, label, List.drop_left, List.append_assoc, ← label]
    have member := Array.mem_toList_iff.mpr (Array.mem_of_getElem? found)
    exact linked.linked cell member link (by simp [edges])
  case children =>
    rw [Cell.children, Cell.children, Cell.children, replaced, edges]
    simp only [List.map_append, List.map_cons, List.map_nil, List.append_assoc,
      List.cons_append]
    apply List.Perm.append_left
    apply (List.perm_append_singleton link.child
      (arena.size :: back.map (·.child))).trans
    exact (List.perm_append_singleton arena.size _).symm.cons link.child

end Linked

/-! ## Nodes that are reached -/

/-- The places that edges lead to from the root. -/
inductive Reaches (arena : Arena) : Nat → Prop where
  | root : Reaches arena 0
  | child {place : Nat} {cell : Cell} {link : Link} (above : Reaches arena place)
      (found : arena[place]? = some cell) (member : link ∈ cell.edges) :
      Reaches arena link.child

/-- An edge leads to each place but the first. -/
theorem Linked.exists_parent {names : List Name} (linked : arena.Linked names)
    (inBounds : place < arena.size) (notRoot : place ≠ 0) :
    ∃ (above : Nat) (cell : Cell), arena[above]? = some cell ∧
      ∃ link ∈ cell.edges, link.child = place := by
  have isChild : place ∈ arena.toList.flatMap Cell.children := by
    apply linked.parents.mem_iff.mpr
    rw [List.mem_range'_1]
    omega
  rcases List.mem_flatMap.mp isChild with ⟨cell, isCell, member⟩
  rcases List.mem_map.mp member with ⟨link, isLink, toPlace⟩
  rcases Array.getElem?_of_mem (Array.mem_toList_iff.mp isCell) with ⟨above, found⟩
  exact ⟨above, cell, found, link, isLink, toPlace⟩

/-- Where no label is empty, names grow along the edges, so going up from a node ends at
the root. -/
theorem Linked.reaches {names : List Name} (linked : arena.Linked names)
    (nonempty : ∀ cell ∈ arena.toList, ∀ label ∈ cell.labels, label ≠ [])
    (found : arena[place]? = some cell) : arena.Reaches place := by
  induction size :
      cell.name.length using Nat.strong_induction_on generalizing place cell with
  | h length ih =>
      by_cases isRoot : place = 0
      · rw [isRoot]
        exact .root
      have inBounds := (Array.getElem?_eq_some_iff.mp found).1
      rcases linked.exists_parent inBounds isRoot with
        ⟨above, parent, isParent, link, isLink, rfl⟩
      rcases linked.exists_child isParent isLink with ⟨child, isChild, named⟩
      rw [found, Option.some_inj] at isChild
      have longer : link.label ≠ [] := by
        apply nonempty parent
          (Array.mem_toList_iff.mpr (Array.mem_of_getElem? isParent))
        exact List.mem_map_of_mem isLink
      have positive := List.length_pos_iff.mpr longer
      rw [isChild, named, List.length_append] at size
      exact .child (ih parent.name.length (by omega) isParent rfl) isParent isLink

end Arena

end Linkedit.Trie
