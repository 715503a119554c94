import Linkedit.Image.Tables
import Linkedit.InPlace
import Linkedit.Trie.Prune

/-!
# Stripping exports from an image

The export trie of an image is rewritten in its slot. Nothing outside the slot
changes, so the image has the same size and its load commands stay right.
-/

namespace Linkedit.Image

/-- The sizes that tell how an export trie was rewritten. -/
structure StripSummary where
  removed : Nat
  slotSize : Nat
  usedSize : Nat
deriving DecidableEq, Repr

/-- An image with its export trie rewritten, and the sizes that tell how. -/
structure Stripped extends StripSummary where
  image : Bytes
deriving DecidableEq, Repr

/-- The range that export tries are rewritten in. -/
def exportsSlot (image : Image) : Except Error Range := do
  require (.missingLoadCommand "LC_DYLD_EXPORTS_TRIE") (← image.exportsRange?)

/-- Puts other bytes in the place of a range. -/
def replace (data : Bytes) (range : Range) (bytes : Bytes) : Bytes :=
  data.extract 0 range.start ++ bytes ++ data.extract range.stop data.size

/-- The sizes of a rewritten slot. -/
def Range.summary (slot : Range) (pruned : Trie.Pruned) : StripSummary where
  removed := pruned.removed
  slotSize := slot.size
  usedSize := pruned.size

/-- The image with a rewritten slot. -/
def withSlot (image : Image) (slot : Range) (pruned : Trie.Pruned) : Stripped where
  toStripSummary := slot.summary pruned
  image := replace image.data slot pruned.bytes

/-- Removes from the export trie of a file in memory every name that `remove` holds
of. The file is written to only after everything that can fail is done, and only if
some name goes. -/
def stripInPlace (remove : Name → Bool) : InPlace StripSummary := do
  let image ← parse (← get)
  let slot ← image.exportsSlot
  let pruned ← Trie.prune (image.bytesIn slot) remove
  if 0 < pruned.removed then
    modify (replace · slot pruned.bytes)
  return slot.summary pruned

/-- Removes from the export trie of a file every name that `remove` holds of. -/
def stripExports (data : Bytes) (remove : Name → Bool) : Except Error Stripped :=
  match (stripInPlace remove).on data with
  | (.ok summary, image) => .ok { summary with image }
  | (.error error, _) => .error error

end Linkedit.Image
