import Std.Data.HashSet
import Linkedit.Trie.Tree

/-!
# Reading a trie

The bytes of a trie are untrusted. Every node begins with the size of its
payload and the payload; a count of children follows, and for each child a label
that ends in a zero byte and the offset of the child. A payload is confined to
its size, offsets stay inside the trie, and a node that is reached twice is
refused, so every walk ends.

All failures of these readers are faults of the trie.
-/

namespace Linkedit.Trie

/-- Where the parts of a node lie: the range of its payload, if it has one, and
the position of its count of children. -/
structure Header where
  payload? : Option (Nat × Nat)
  children : Nat
deriving DecidableEq, Repr

/-- An edge as it is written: its label and the offset of the child. -/
structure Child where
  label : Name
  offset : Nat
deriving DecidableEq, Repr

/-- Reads where the parts of the node at `offset` lie. -/
def readHeader (data : Bytes) (offset : Nat) : Except Error Header :=
  if offset < data.size then do
    let (size, start) ← (Leb128.decodeUnsigned data offset).mapError Error.inTrie
    let stop := start + size.toNat
    if stop < data.size then
      return ⟨if size = 0 then none else some (start, stop), stop⟩
    else throw (.invalidExportTrie offset .terminalPastEnd)
  else throw (.invalidExportTrie offset .nodePastEnd)

/-- Reads `count` edges. -/
def readEdges (cursor : Cursor) : (count : Nat) → Except Error (List Child)
  | 0 => .ok []
  | count + 1 => do
      let (label, afterLabel) ← cursor.text.mapError Error.inTrie
      let (child, next) ← afterLabel.unsigned.mapError Error.inTrie
      if child.toNat < cursor.data.size then
        let children ← readEdges next count
        return ⟨label, child.toNat⟩ :: children
      else
        throw (.invalidExportTrie afterLabel.position
          (.childPastEnd child.toNat))

/-- Reads the edges of the node whose count of children lies at `position`. -/
def readChildren (data : Bytes) (position : Nat) : Except Error (List Child) := do
  let (count, cursor) ← (Cursor.mk data position).byte.mapError Error.inTrie
  readEdges cursor count.toNat

/-! ## Walking all nodes -/

/-- What a walk does at a terminal node: it sees the name and the range of the
payload. -/
abbrev Visit (α : Type) := Name → (start stop : Nat) → Except Error α

/-- Visits the terminal nodes below the pending ones, depth first and in the
order of the edges. A pending node is an offset with the name of the node there,
last byte first. At most `fuel` nodes are read; since every one lies at an offset
of its own, a trie has no more nodes than bytes. -/
def walkFrom {α : Type} (data : Bytes) (visit : Visit α) :
    (fuel : Nat) → (pending : List (Nat × Name)) → (visited : Std.HashSet Nat) →
      (found : Array α) → Except Error (Array α)
  | _, [], _, found => .ok found
  | 0, (offset, _) :: _, _, _ =>
      .error (.invalidExportTrie offset .nodeReachedTwice)
  | fuel + 1, (offset, backwards) :: pending, visited, found =>
      if offset ∈ visited then
        .error (.invalidExportTrie offset .nodeReachedTwice)
      else do
        let header ← readHeader data offset
        let children ← readChildren data header.children
        let found ← match header.payload? with
          | some (start, stop) =>
              (visit backwards.reverse start stop).mapError Error.inTrie |>.map
                found.push
          | none => pure found
        let below := children.map fun child =>
          (child.offset, child.label.reverse ++ backwards)
        walkFrom data visit fuel (below ++ pending) (visited.insert offset) found

/-- Visits every terminal node of a trie. The empty buffer holds no trie and no
names. -/
def walk {α : Type} (data : Bytes) (visit : Visit α) : Except Error (List α) :=
  if data.isEmpty then .ok []
  else (walkFrom data visit (data.size + 1) [(0, [])] {} #[]).map Array.toList

/-- The names of a trie with their payload bytes. -/
def entries (data : Bytes) : Except Error (List Entry) :=
  walk data fun name start stop => .ok ⟨name, data.slice start stop⟩

/-- The exports of a trie. -/
def exports (data : Bytes) : Except Error (List Export) :=
  walk data fun name start stop =>
    Export.decodePayload name (data.extract 0 stop) start

end Linkedit.Trie
