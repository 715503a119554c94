import Std.Data.HashMap
import Std.Data.HashSet
import Linkedit.Trie.Tree

/-!
# Layout of a trie

The nodes of a radix tree are written one after the other, each in the place
where the path of some entry first meets it. A node names its children by their
offsets, and the width of a written offset depends on its size, so the offsets
are computed again from the previous ones until a pass changes nothing.
-/

namespace Linkedit.Trie

/-- A node of a radix tree: its full name, its payload, and the labels of the
edges that leave it. The child along a label is the node whose name is
extended by that label. -/
structure Node where
  name : Name
  payload? : Option (List UInt8)
  labels : List Name
deriving DecidableEq, Repr

/-! ## The order of the nodes -/

/-- A node on the path of a name: how many bytes of the name lead to it, and
what lies there. -/
structure Step where
  depth : Nat
  payload? : Option (List UInt8)
  labels : List Name
deriving DecidableEq, Repr

/-- The node that a step on the path of `name` leads to. -/
def Step.node (name : Name) (step : Step) : Node :=
  ⟨name.take step.depth, step.payload?, step.labels⟩

/-- The steps taken when a name is followed down, where `depth` bytes lie above
and `rest` is left of the name. -/
def Edges.along (depth : Nat) : Edges → (rest : Name) → List Step
  | .none, _ => []
  | .edge label payload? below others, rest =>
      if label.isPrefixOf rest then
        ⟨depth + label.length, payload?, below.labels⟩ ::
          below.along (depth + label.length) (rest.drop label.length)
      else others.along depth rest

/-- The steps on the path of a name, the one to the root first. -/
def Tree.path (tree : Tree) (name : Name) : List Step :=
  ⟨0, tree.payload?, tree.edges.labels⟩ :: tree.edges.along 0 name

/-- Nodes in the order in which they were first met. -/
structure Placement where
  names : Std.HashSet Name := {}
  nodes : Array Node := #[]

/-- Places a node behind all others. -/
def Placement.place (placed : Placement) (node : Node) : Placement :=
  ⟨placed.names.insert node.name, placed.nodes.push node⟩

/-- Places the nodes on the path of a name that were not placed before. Paths
are placed from the root on, so these are the last ones of the path. -/
def Placement.placePath (placed : Placement) (name : Name) (path : List Step) :
    Placement :=
  let fresh := path.reverse.takeWhile fun step =>
    name.take step.depth ∉ placed.names
  (fresh.reverse.map (Step.node name)).foldl place placed

/-- The nodes of a tree in the order in which the paths of `names` meet them.
The root is met first, even if there are no names. -/
def Tree.layoutOrder (tree : Tree) (names : List Name) : List Node :=
  let placed := ([] :: names).foldl
    (fun placed name => Placement.placePath placed name (tree.path name)) {}
  placed.nodes.toList

/-! ## Sizes and bytes of a node -/

/-- The sum of some sizes. -/
def sumOf (sizes : List Nat) : Nat := sizes.foldr (· + ·) 0

/-- The number of bytes of a node whose children lie at the given offsets. A
node without payload has a zero where the payload size would be. -/
def Node.size (offset : Name → Nat) (node : Node) : Nat :=
  let terminal := match node.payload? with
    | some payload => payload.length + Leb128.unsignedSize payload.length
    | none => 1
  let children := node.labels.map fun label =>
    label.length + 1 + Leb128.unsignedSize (offset (node.name ++ label))
  terminal + 1 + sumOf children

/-- The bytes of a node whose children lie at the given offsets. -/
def Node.encode (offset : Name → Nat) (node : Node) : List UInt8 :=
  let terminal := match node.payload? with
    | some payload => Leb128.encodeUnsigned payload.length ++ payload
    | none => [0]
  let children := node.labels.flatMap fun label =>
    label ++ 0 :: Leb128.encodeUnsigned (offset (node.name ++ label))
  terminal ++ UInt8.ofNat node.labels.length :: children

/-! ## Offsets -/

/-- Where each node lies, by the name of the node. -/
abbrev Offsets := Std.HashMap Name Nat

/-- The offset of a node; zero before the first pass. -/
def Offsets.at (offsets : Offsets) (name : Name) : Nat := offsets.getD name 0

/-- Puts nodes one after the other from `start` on, each as large as its
children at the given offsets make it. -/
def assign (offset : Name → Nat) (start : Nat) : List Node → List (Name × Nat)
  | [] => []
  | node :: rest =>
      (node.name, start) :: assign offset (start + node.size offset) rest

/-- The nodes of a trie with the offsets they lie at. -/
structure Layout where
  nodes : List Node
  offsets : Offsets
  passes : Nat

/-- Repeats the assignment of offsets until a pass changes nothing, at most
`fuel` more times. -/
def settle (nodes : List Node) : (fuel passes : Nat) → (offsets : Offsets) → Layout
  | 0, passes, offsets => ⟨nodes, offsets, passes⟩
  | fuel + 1, passes, offsets =>
      let assigned := assign offsets.at 0 nodes
      if assigned.all fun (name, offset) => offsets.at name == offset then
        ⟨nodes, offsets, passes + 1⟩
      else settle nodes fuel (passes + 1) (Std.HashMap.ofList assigned)

namespace Layout

/-- The layout of nodes in a given order. A pass that changes something widens
the written offset of some edge, and an offset of at most ten bytes is widened
at most nine times, so nine passes for each edge and two more are enough. -/
def ofNodes (nodes : List Node) : Layout :=
  let edges := sumOf (nodes.map (·.labels.length))
  settle nodes (9 * edges + 2) 0 {}

/-- The number of bytes of a laid out trie. -/
def size (layout : Layout) : Nat :=
  sumOf (layout.nodes.map (Node.size layout.offsets.at))

/-- The bytes of a laid out trie. -/
def encode (layout : Layout) : List UInt8 :=
  layout.nodes.flatMap (Node.encode layout.offsets.at)

/-- Lays out the trie of a list of entries. -/
def ofEntries (entries : List Entry) : Except Error Layout :=
  (Tree.ofEntries entries).map fun tree =>
    ofNodes (tree.layoutOrder (entries.map (·.name)))

end Layout

/-- The trie of a list of entries, filled up to a multiple of eight bytes. -/
def build (entries : List Entry) : Except Error (List UInt8) :=
  (Layout.ofEntries entries).map fun layout => Bytes.padTo 8 layout.encode

/-- The trie of a list of exports. -/
def buildExports (symbols : List Export) : Except Error (List UInt8) :=
  build (symbols.map Entry.ofExport)

end Linkedit.Trie
