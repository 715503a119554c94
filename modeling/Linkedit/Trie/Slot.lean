import Linkedit.InPlace
import Linkedit.Trie.Prune

/-!
# The slot of a trie over time

Names are removed from a trie in the slot that it occupies. Names are added by building
the trie again from the entries that the slot holds, in any order, and from the new
ones.
-/

namespace Linkedit.Trie

/-- Removes from the trie in a slot every name that `remove` holds of. The answer is the
number of bytes that the trie takes up. If no name goes, nothing is written. -/
def pruneInPlace (remove : Name → Bool) : InPlace Nat := do
  let pruned ← prune (← get) remove
  if 0 < pruned.removed then
    set pruned.bytes
  return pruned.size

/-- A way to put entries in order. -/
structure Arrangement where
  arrange : List Entry → List Entry
  perm : ∀ stored, (arrange stored).Perm stored

/-- Replaces the trie in a slot by one of its entries, put in some order, and others. -/
def rebuildInPlace (order : Arrangement) (added : List Entry) : InPlace Unit := do
  let stored ← entries (← get)
  let bytes ← build (order.arrange stored ++ added)
  set bytes.toArray

/-- What happens to a slot. Entries that are added have payloads. -/
inductive SlotStep where
  | prune (remove : Name → Bool)
  | rebuild (order : Arrangement) (added : List Entry)
      (nonempty : ∀ entry ∈ added, entry.payload ≠ [])

/-- Carries out a step. -/
def SlotStep.operation : SlotStep → InPlace Unit
  | .prune remove => do
      let _ ← pruneInPlace remove
  | .rebuild order added _ => rebuildInPlace order added

end Linkedit.Trie
