import Linkedit.Export.Payload

/-!
# Radix trees of names

A trie is built as a tree whose edges carry labels. The name at a node is the
labels on its path put together. Edges that leave one node differ in the first
byte of their labels, so a name has at most one path. The order of the edges is
that in which names first used them.
-/

namespace Linkedit.Trie

/-- A name with the payload bytes stored for it. -/
structure Entry where
  name : Name
  payload : List UInt8
deriving DecidableEq, Repr

/-- The entry that stores an export. -/
def Entry.ofExport (symbol : Export) : Entry := ⟨symbol.name, symbol.encodePayload⟩

/-- The edges that leave a node, in order. Each comes with the payload at the
node it leads to and with the edges that leave that node. -/
inductive Edges where
  | none
  | edge (label : Name) (payload? : Option (List UInt8)) (below rest : Edges)
deriving DecidableEq, Repr

/-- A radix tree: the payload of the empty name and the edges of the root. -/
structure Tree where
  payload? : Option (List UInt8) := none
  edges : Edges := .none
deriving DecidableEq, Repr

/-- The longest common start of two byte strings. -/
def commonStart : Name → Name → Name
  | left :: lefts, right :: rights =>
      if left = right then left :: commonStart lefts rights else []
  | _, _ => []

namespace Edges

/-- A single edge to a node that ends a name. -/
def leaf (label : Name) (payload : List UInt8) : Edges :=
  .edge label (some payload) .none .none

/-- Adds a name below these edges; `none` if it is already there. An edge that
shares only a part of its label is split at the end of that part. -/
def insert (name : Name) (payload : List UInt8) : Edges → Option Edges
  | .none => some (leaf name payload)
  | .edge label payload? below rest =>
      if label.head? ≠ name.head? then
        (rest.insert name payload).map (.edge label payload? below ·)
      else
        let shared := commonStart label name
        match label.drop shared.length, name.drop shared.length with
        | [], [] =>
            if payload?.isSome then Option.none
            else some (.edge label (some payload) below rest)
        | [], suffix =>
            (below.insert suffix payload).map (.edge label payload? · rest)
        | remainder, [] =>
            some (.edge shared (some payload)
              (.edge remainder payload? below .none) rest)
        | remainder, suffix =>
            some (.edge shared Option.none
              (.edge remainder payload? below (leaf suffix payload)) rest)

/-- The labels of the edges, in order. -/
def labels : Edges → List Name
  | .none => []
  | .edge label _ _ rest => label :: rest.labels

end Edges

namespace Tree

/-- Adds an entry. A name with a zero byte cannot be written as labels, and a
name is stored at most once. -/
def insert (tree : Tree) (entry : Entry) : Except Error Tree :=
  if 0 ∈ entry.name then .error (.invalidSymbolName entry.name)
  else if entry.name.isEmpty then
    if tree.payload?.isSome then .error (.duplicateSymbol entry.name)
    else .ok { tree with payload? := some entry.payload }
  else
    match tree.edges.insert entry.name entry.payload with
    | some edges => .ok { tree with edges }
    | none => .error (.duplicateSymbol entry.name)

/-- The tree of a list of entries, added in order. -/
def ofEntries (entries : List Entry) : Except Error Tree :=
  entries.foldlM insert {}

end Tree

end Linkedit.Trie
