import Linkedit.Trie.Arena
import Linkedit.Trie.Layout

/-!
# Laying out an arena

Once all names are added, the nodes are put in the order in which the paths of the names
first meet them. Their offsets lie in an array and are computed in place: a pass
overwrites one offset after the other, and takes those of the children as it finds them.
-/

namespace Linkedit.Trie

namespace Arena

/-! ## The order of the nodes -/

/-- The edges along which a name is followed down, where its first `depth` bytes led to
`place`: at each node the first one whose label the name goes on with. There is no
answer if that label is empty, since it leads on to no more of the name. -/
def route (arena : Arena) (name : Name) (place depth : Nat) : Option (List Link) :=
  if depth < name.length then
    match (arena.getD place {}).edges.find? (·.label.isPrefixOf (name.drop depth)) with
    | none => some []
    | some link =>
        if 0 < link.label.length then do
          let onward ← arena.route name link.child (depth + link.label.length)
          return link :: onward
        else none
  else some []
termination_by name.length - depth

/-- Which places were met, and in which order. -/
structure Met where
  known : Array Bool
  order : Array Nat

/-- Meets a place, for the first time or again. -/
def Met.meet (met : Met) (place : Nat) : Met :=
  if met.known.getD place true then met
  else ⟨met.known.setIfInBounds place true, met.order.push place⟩

/-- Meets the places that edges lead to. -/
def Met.meetAll (met : Met) (links : List Link) : Met :=
  links.foldl (fun met link => met.meet link.child) met

/-- The places in the order in which the ways of `names` meet them, the root first. -/
def layoutOrder (arena : Arena) (names : List Name) : Option (List Nat) := do
  let start : Met := ⟨Array.replicate arena.size false, #[]⟩
  let met ← names.foldlM
    (fun met name => do return met.meetAll (← arena.route name 0 0)) (start.meet 0)
  return met.order.toList

end Arena

/-! ## Offsets in place -/

/-- The number of bytes of a node of some entries' trie, where the nodes lie at the
given offsets. -/
def Cell.size (stored : List Entry) (offsets : Array Nat) (cell : Cell) : Nat :=
  let terminal := match cell.terminal? with
    | some index =>
        let payload := (stored.getD index ⟨[], []⟩).payload
        payload.length + Leb128.unsignedSize payload.length
    | none => 1
  let children := cell.edges.map fun link =>
    link.label.length + 1 + Leb128.unsignedSize (offsets.getD link.child 0)
  terminal + 1 + sumOf children

namespace Arena

/-- A pass over the nodes that is under way: the offsets as they are, where the next
node goes, and whether an offset has changed. -/
structure Pass where
  offsets : Array Nat
  next : Nat := 0
  changed : Bool := false

/-- The offsets that passes end with, the size of the trie, and the number of passes. -/
structure Resolved where
  offsets : Array Nat
  size : Nat
  passes : Nat

section

variable (arena : Arena) (stored : List Entry)

/-- Puts the node at a place behind the ones before it. -/
def Pass.put (pass : Pass) (place : Nat) : Pass :=
  let size := (arena.getD place {}).size stored pass.offsets
  { offsets := pass.offsets.setIfInBounds place pass.next
    next := pass.next + size
    changed := pass.changed || pass.offsets.getD place 0 != pass.next }

/-- Puts the nodes at some places one after the other. -/
def Pass.putAll (pass : Pass) (places : List Nat) : Pass :=
  places.foldl (Pass.put arena stored) pass

/-- Repeats passes over the nodes until one changes nothing, at most `more` times. There
is no answer if each of them changes something. -/
def resolveFrom (order : List Nat) :
    (more passes : Nat) → (offsets : Array Nat) → Option Resolved
  | 0, _, _ => none
  | more + 1, passes, offsets =>
      let pass := Pass.putAll arena stored { offsets } order
      if pass.changed then resolveFrom order more (passes + 1) pass.offsets
      else some ⟨pass.offsets, pass.next, passes + 1⟩

/-- The offsets of nodes in a given order, for which nine passes for each edge and two
more are enough. -/
def resolve (order : List Nat) : Option Resolved :=
  let edges := sumOf (order.map fun place => (arena.getD place {}).edges.length)
  arena.resolveFrom stored order (9 * edges + 2) 0 (Array.replicate arena.size 0)

end

end Arena

end Linkedit.Trie
