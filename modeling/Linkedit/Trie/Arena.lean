import Linkedit.Trie.Tree

/-!
# A tree under construction

While names are added to a tree, its nodes lie in an array, and an edge refers to its
node by the place there. A name is added in place: it is followed down from the root,
and where it leaves the tree the array grows by at most two nodes. `Tree.insert` says
what becomes of the tree.
-/

namespace Linkedit.Trie

/-- An edge to the node at a place. -/
structure Link where
  label : Name
  child : Nat
deriving DecidableEq, Repr

/-- A node at a place: its full name, the index of the entry that ends there, and its
edges. -/
structure Cell where
  name : Name := []
  terminal? : Option Nat := none
  edges : List Link := []
deriving DecidableEq, Repr

/-- The nodes of a tree under construction. The root lies at place zero. -/
abbrev Arena := Array Cell

namespace Arena

/-- A tree with nothing but its root. -/
def empty : Arena := #[{}]

/-- Lets an entry end at the node at `place`. -/
def setTerminal (arena : Arena) (place index : Nat) : Arena :=
  arena.modify place fun cell => { cell with terminal? := some index }

/-- Adds a node, and an edge to it behind the other edges of the node at `place`. -/
def grow (arena : Arena) (place : Nat) (label : Name) (leaf : Cell) : Arena :=
  (arena.push leaf).modify place fun cell =>
    { cell with edges := cell.edges ++ [⟨label, arena.size⟩] }

/-- Cuts an edge of the node at `place` behind the first bytes of its label, and puts a
node of the given name there. -/
def split (arena : Arena) (place : Nat) (link : Link) (shared name : Name) : Arena :=
  let middle : Cell := { name, edges := [⟨link.label.drop shared.length, link.child⟩] }
  (arena.push middle).modify place fun cell =>
    { cell with edges := cell.edges.replace link ⟨shared, arena.size⟩ }

theorem length_commonStart_pos {label : Name} {first : UInt8} (rest : Name)
    (sameHead : label.head? = some first) :
    0 < (commonStart label (first :: rest)).length := by
  cases label with
  | nil => simp at sameHead
  | cons byte others =>
      have equal : byte = first := by simpa using sameHead
      simp [commonStart, equal]

/-- Adds an entry, where the first `depth` bytes of its name led to `place`. A node in
the middle of an edge has no other edge yet, so the name ends there or leaves the
tree. -/
def insertAt (index : Nat) (name : Name) (arena : Arena) (place depth : Nat) :
    Except Error Unit × Arena :=
  let cell := arena.getD place {}
  match _onward : name.drop depth with
  | [] =>
      if cell.terminal?.isSome then (.error (.duplicateSymbol name), arena)
      else (.ok (), arena.setTerminal place index)
  | first :: rest =>
      match _found : cell.edges.find? fun link => link.label.head? = some first with
      | none => (.ok (), arena.grow place (first :: rest) ⟨name, some index, []⟩)
      | some link =>
          let shared := commonStart link.label (first :: rest)
          if shared.length = link.label.length then
            insertAt index name arena link.child (depth + shared.length)
          else
            let middle := name.take (depth + shared.length)
            insertAt index name (arena.split place link shared middle) arena.size
              (depth + shared.length)
termination_by name.length - depth
decreasing_by
  all_goals
    have sameHead := List.find?_some _found
    have shared := length_commonStart_pos rest (of_decide_eq_true sameHead)
    have longer := congrArg List.length _onward
    simp only [List.length_drop, List.length_cons] at longer
    omega

/-- Adds an entry in place. -/
def insert (index : Nat) (entry : Entry) (arena : Arena) : Except Error Unit × Arena :=
  if 0 ∈ entry.name then (.error (.invalidSymbolName entry.name), arena)
  else insertAt index entry.name arena 0 0

/-- Adds entries in place one after the other, until one is refused. The first of them
has the given index. -/
def insertAll (index : Nat) (arena : Arena) : List Entry → Except Error Unit × Arena
  | [] => (.ok (), arena)
  | entry :: later =>
      match insert index entry arena with
      | (.ok (), next) => insertAll (index + 1) next later
      | refused => refused

/-- The outcome of adding entries to a tree with nothing but its root. -/
def ofEntries (entries : List Entry) : Except Error Unit × Arena :=
  insertAll 0 empty entries

end Arena

end Linkedit.Trie
