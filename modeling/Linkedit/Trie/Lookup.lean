import Linkedit.Trie.Walk

/-!
# Looking up a name

A lookup follows one path down the trie. At each node it takes the first edge
whose label begins what is left of the name. It never goes back, which is right
when the labels of a node differ in their first bytes.
-/

namespace Linkedit.Trie

/-- Whether an edge continues a name. An edge without a label never does. -/
def Child.continues (name : Name) (child : Child) : Bool :=
  !child.label.isEmpty && child.label.isPrefixOf name

theorem Child.drop_length_lt {name : Name} {child : Child}
    (continues : child.continues name = true) :
    (name.drop child.label.length).length < name.length := by
  simp only [Child.continues, Bool.and_eq_true, Bool.not_eq_true',
    List.isEmpty_eq_false_iff, List.isPrefixOf_iff_prefix] at continues
  have shorter := continues.2.length_le
  have nonempty := List.length_pos_iff.mpr continues.1
  simp only [List.length_drop]
  omega

/-- Looks up `name` from the node at `offset`, with `remaining` of it still to
match. -/
def lookupFrom (data : Bytes) (name : Name) (remaining : Name) (offset : Nat)
    (visited : Std.HashSet Nat) : Except Error (Option Export) :=
  if offset ∈ visited then
    .error (.invalidExportTrie offset .nodeReachedTwice)
  else do
    let header ← readHeader data offset
    if remaining.isEmpty then
      match header.payload? with
      | some (start, stop) =>
          (Export.decodePayload name (data.extract 0 stop) start).mapError
            Error.inTrie |>.map some
      | none => return none
    else
      let children ← readChildren data header.children
      match _found : children.find? (Child.continues remaining) with
      | some child =>
          lookupFrom data name (remaining.drop child.label.length) child.offset
            (visited.insert offset)
      | none => return none
termination_by remaining.length
decreasing_by exact Child.drop_length_lt (List.find?_some _found)

/-- Looks up a name in a trie. -/
def lookup (data : Bytes) (name : Name) : Except Error (Option Export) :=
  if data.isEmpty then .ok none else lookupFrom data name name 0 {}

end Linkedit.Trie
