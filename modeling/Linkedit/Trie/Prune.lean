import Linkedit.Trie.Layout
import Linkedit.Trie.Walk

/-!
# Removing names from a trie

A trie occupies a slot of fixed size in its image. To remove names the trie is
laid out again from the entries that stay, and the rest of the slot is filled
with zeros. The payloads that stay keep their bytes. If no name goes, no byte
changes.
-/

namespace Linkedit.Trie

/-- What removing names does to a trie. -/
inductive Rewrite where
  /-- No name is removed. -/
  | unchanged
  /-- The trie is laid out again without `removed` of its `total` names. -/
  | replaced (layout : Layout) (removed total : Nat)

/-- Lays out the trie of `data` again without the names that `remove` holds of,
if there are any. -/
def rewrite (data : Bytes) (remove : Name → Bool) : Except Error Rewrite := do
  let all ← entries data
  let kept := all.filter fun entry => !remove entry.name
  let removed := all.length - kept.length
  if removed = 0 then return .unchanged
  else return .replaced (← Layout.ofEntries kept) removed all.length

/-- A slot with its trie rewritten: its bytes, as many as before, the number of
them that the trie takes up, and the number of names removed. -/
structure Pruned where
  bytes : Bytes
  size : Nat
  removed : Nat
deriving DecidableEq, Repr

/-- The alignment of a rewritten trie. Only tries of 32-bit images have a size
that is no multiple of eight. -/
def slotAlignment (size : Nat) : Nat := if size % 8 = 0 then 8 else 4

/-- The bytes of a laid out trie, aligned for a slot of `size` bytes. -/
def Layout.forSlot (layout : Layout) (size : Nat) : List UInt8 :=
  Bytes.padTo (slotAlignment size) layout.encode

/-- Writes a trie over the slot `data`, if there is room for it. -/
def Rewrite.apply (data : Bytes) : Rewrite → Except Error Pruned
  | .unchanged => .ok ⟨data, data.size, 0⟩
  | .replaced layout removed _ =>
      let bytes := layout.forSlot data.size
      if bytes.length ≤ data.size then
        let zeros : Bytes := Array.replicate (data.size - bytes.length) 0
        .ok ⟨bytes.toArray ++ zeros, bytes.length, removed⟩
      else .error (.trieTooLarge bytes.length data.size)

/-- Removes from a trie every name that `remove` holds of. -/
def prune (data : Bytes) (remove : Name → Bool) : Except Error Pruned := do
  (← rewrite data remove).apply data

end Linkedit.Trie
