import Linkedit.Proofs.Trie.Order
import Linkedit.Proofs.Trie.Settle
import Linkedit.Proofs.Trie.Walk

/-!
# A written trie

A laid out trie lies in the buffer as the tree it was laid out from: the readers
find each node at its offset, with its payload and with the edges to its children.
A payload without bytes is written like no payload.
-/

namespace Linkedit.Trie

variable {data : Bytes} {offset : Name → Nat}

/-- The range of a payload in the node written at `start`. -/
def payloadRange (start : Nat) (payload : List UInt8) : Option (Nat × Nat) :=
  let first := start + Leb128.unsignedSize payload.length
  if payload = [] then none else some (first, first + payload.length)

/-! ## Reading a written node -/

namespace Node

/-- The payload of a node, its count of children and its edges follow each other. -/
theorem encode_eq (offset : Name → Nat) (node : Node) :
    node.encode offset =
      Leb128.encodeUnsigned (node.payload?.getD []).length ++
        ((node.payload?.getD []) ++
          ([UInt8.ofNat node.labels.length] ++
            node.labels.flatMap fun label =>
              (label ++ [0]) ++ Leb128.encodeUnsigned
                  (offset (node.name ++ label)))) := by
  cases payload : node.payload? <;>
    simp [encode, payload, Leb128.encodeUnsigned_of_lt]

theorem encode_ne_nil (offset : Name → Nat) (node : Node) :
    node.encode offset ≠ [] := by
  rw [encode_eq]
  exact List.append_ne_nil_of_left_ne_nil (Leb128.encodeUnsigned_ne_nil _) _

end Node

/-- The header of a node that lies in the buffer. -/
theorem readHeader_of_holdsAt {start : Nat} {payload following : List UInt8}
    (holds : data.HoldsAt start
      (Leb128.encodeUnsigned payload.length ++ (payload ++ following)))
    (more : following ≠ []) (fits : payload.length < 2 ^ 64) :
    readHeader data start = .ok ⟨payloadRange start payload,
      start + Leb128.unsignedSize payload.length + payload.length⟩ := by
  rcases Bytes.holdsAt_append.mp holds with ⟨sizeHolds, rest⟩
  rw [Leb128.length_encodeUnsigned] at rest
  have beyond := (Bytes.holdsAt_append.mp rest).2.length_le more
  have positive := List.length_pos_iff.mpr more
  have inBounds : start < data.size := by omega
  have inside : start + Leb128.unsignedSize payload.length + payload.length <
      data.size := by
    omega
  have size : (UInt64.ofNat payload.length).toNat = payload.length :=
    UInt64.toNat_ofNat_of_lt' fits
  have zero : UInt64.ofNat payload.length = 0 ↔ payload = [] := by
    rw [← UInt64.toNat_inj, size]
    exact List.length_eq_zero_iff
  have sizeRead := Leb128.decodeUnsigned_encodeUnsigned sizeHolds fits
  apply readHeader_eq_ok.mpr
  refine ⟨_, _, inBounds, sizeRead, ?_, ?_⟩
  · rwa [size]
  · simp only [payloadRange, size, zero]

/-- Edges that lie in the buffer are read in order. -/
theorem readEdges_of_holdsAt {target : Name → Nat} {position : Nat} {labels : List Name}
    (holds : data.HoldsAt position (labels.flatMap fun label =>
      (label ++ [0]) ++ Leb128.encodeUnsigned (target label)))
    (zeroFree : ∀ label ∈ labels, 0 ∉ label)
    (inside : ∀ label ∈ labels, target label < data.size ∧ target label < 2 ^ 64) :
    readEdges ⟨data, position⟩ labels.length =
      .ok (labels.map fun label => ⟨label, target label⟩) := by
  induction labels generalizing position with
  | nil => rfl
  | cons label labels ih =>
      rcases Bytes.holdsAt_append.mp holds with ⟨first, others⟩
      rcases Bytes.holdsAt_append.mp first with ⟨text, number⟩
      rcases List.forall_mem_cons.mp zeroFree with ⟨labelZeroFree, othersZeroFree⟩
      rcases List.forall_mem_cons.mp inside with ⟨⟨targetLt, targetFits⟩, othersInside⟩
      have after : position + (label ++ [0]).length = position + label.length + 1 := by
        simp [Nat.add_assoc]
      rw [after] at number
      have next : position +
            ((label ++ [0]) ++ Leb128.encodeUnsigned (target label)).length =
          position + label.length + 1 + Leb128.unsignedSize (target label) := by
        rw [List.length_append, Leb128.length_encodeUnsigned, ← Nat.add_assoc, after]
      rw [next] at others
      have value : (UInt64.ofNat (target label)).toNat = target label :=
        UInt64.toNat_ofNat_of_lt' targetFits
      have recursive := ih others othersZeroFree othersInside
      simp only [List.length_cons, readEdges, Cursor.text_of_holdsAt labelZeroFree text,
        Cursor.unsigned_of_holdsAt targetFits number, mapError_ok, ok_bind, value,
        if_pos targetLt, recursive]
      rfl

/-- The parts of a node that lies in the buffer. -/
theorem Node.read_of_holdsAt {start : Nat} {node : Node}
    (holds : data.HoldsAt start (node.encode offset))
    (fits : (node.encode offset).length < 2 ^ 64)
    (few : node.labels.length < 256) (zeroFree : ∀ label ∈ node.labels, 0 ∉ label)
    (inside : ∀ label ∈ node.labels,
      offset (node.name ++ label) < data.size ∧ offset (node.name ++ label) < 2 ^ 64) :
    ∃ position, readHeader data start =
      .ok ⟨payloadRange start (node.payload?.getD []), position⟩ ∧
      readChildren data position =
        .ok (node.labels.map fun label => ⟨label, offset (node.name ++ label)⟩) := by
  rw [Node.encode_eq] at holds fits
  generalize node.payload?.getD [] = payload at holds fits
  have payloadFits : payload.length < 2 ^ 64 := by
    simp only [List.length_append] at fits
    omega
  refine ⟨_, readHeader_of_holdsAt holds (by simp) payloadFits, ?_⟩
  rcases Bytes.holdsAt_append.mp holds with ⟨-, rest⟩
  rcases Bytes.holdsAt_append.mp rest with ⟨-, rest⟩
  rcases Bytes.holdsAt_append.mp rest with ⟨count, edges⟩
  rw [Leb128.length_encodeUnsigned] at count edges
  have number : (UInt8.ofNat node.labels.length).toNat = node.labels.length :=
    UInt8.toNat_ofNat_of_lt' few
  simp only [readChildren, Cursor.byte_of_holdsAt count, mapError_ok, ok_bind, number]
  exact readEdges_of_holdsAt edges zeroFree inside

/-! ## The branches of a tree -/

namespace Edges

/-- The branches that edges become in a buffer where nodes lie at the given
offsets. -/
def branches (offset : Name → Nat) (above : Name) : Edges → Branches
  | .none => .none
  | .edge label payload? below rest =>
      .child label (offset (above ++ label))
        (payloadRange (offset (above ++ label)) (payload?.getD []))
        (below.branches offset (above ++ label)) (rest.branches offset above)

theorem children_branches (above : Name) (edges : Edges) :
    (edges.branches offset above).children =
      edges.labels.map fun label => ⟨label, offset (above ++ label)⟩ := by
  induction edges with
  | none => rfl
  | edge label payload? below rest _ restIH =>
      simp [branches, Branches.children, labels, restIH]

theorem offsets_branches (above : Name) (edges : Edges) :
    (edges.branches offset above).offsets =
      (edges.nodes above).map fun node => offset node.name := by
  induction edges generalizing above with
  | none => rfl
  | edge label payload? below rest belowIH restIH =>
      simp [branches, Branches.offsets, nodes, belowIH, restIH]

/-- An edge leads to a node. -/
theorem exists_node_of_mem_labels {edges : Edges} {above label : Name}
    (member : label ∈ edges.labels) :
    ∃ node ∈ edges.nodes above, node.name = above ++ label := by
  induction edges with
  | none => cases member
  | edge other payload? below rest _ restIH =>
      rcases List.mem_cons.mp member with rfl | later
      · exact ⟨_, List.mem_cons_self, rfl⟩
      · rcases restIH later with ⟨node, isNode, name⟩
        exact ⟨node, by simp [nodes, isNode], name⟩

/-- Different first bytes other than zero: a node has fewer than 256 edges. -/
theorem Canonical.length_labels_lt {edges : Edges} (canonical : edges.Canonical) :
    edges.labels.length < 256 := by
  have distinct : (edges.labels.map fun label => (label.headD 0).toNat).Nodup := by
    induction canonical with
    | none => exact List.nodup_nil
    | @edge label _ _ rest nonempty _ apart _ _ restCanonical _ restIH =>
        apply List.nodup_cons.mpr
        constructor
        · intro repeated
          rcases List.mem_map.mp repeated with ⟨other, isLabel, sameHead⟩
          apply apart other isLabel
          rcases List.exists_cons_of_ne_nil nonempty with ⟨byte, tail, rfl⟩
          rcases List.exists_cons_of_ne_nil (restCanonical.label_ne_nil isLabel) with
              ⟨otherByte, otherTail, rfl⟩
          exact congrArg some (UInt8.toNat_inj.mp sameHead)
        · exact restIH
  have nonzero : (edges.labels.map fun label => (label.headD 0).toNat) ⊆
      List.range' 1 255 := by
    intro head member
    rcases List.mem_map.mp member with ⟨label, isLabel, rfl⟩
    rcases List.exists_cons_of_ne_nil (canonical.label_ne_nil isLabel) with
      ⟨byte, tail, rfl⟩
    have byteNonzero : byte.toNat ≠ 0 := by
      intro zero
      apply canonical.zero_notMem_label isLabel
      rw [UInt8.toNat_inj.mp (zero.trans UInt8.toNat_zero.symm)]
      exact List.mem_cons_self
    have bound := byte.toNat_lt
    simp only [List.headD_cons, List.mem_range'_1]
    omega
  have count := (List.subperm_of_subset distinct nonzero).length_le
  simp only [List.length_map, List.length_range'] at count
  omega

end Edges

/-! ## Trees that lie in a buffer -/

/-- A node lies in the buffer at its offset, before the end of 64 bits. -/
structure Node.LiesIn (data : Bytes) (offset : Name → Nat) (node : Node) : Prop where
  holds : data.HoldsAt (offset node.name) (node.encode offset)
  fits : offset node.name + (node.encode offset).length < 2 ^ 64

namespace Node.LiesIn

variable {node : Node}

theorem offset_lt (lies : node.LiesIn data offset) :
    offset node.name < data.size ∧ offset node.name < 2 ^ 64 := by
  have positive := List.length_pos_iff.mpr (node.encode_ne_nil offset)
  have inside := lies.holds.length_le (node.encode_ne_nil offset)
  have fits := lies.fits
  omega

/-- The entry at a node is read back if its payload has bytes. -/
theorem map_entry (lies : node.LiesIn data offset) :
    ((payloadRange (offset node.name) (node.payload?.getD [])).map fun range =>
        Terminal.mk node.name range.1 range.2).toList.map (Terminal.entry data) =
      node.entry?.toList.filter fun entry => entry.payload ≠ [] := by
  have holds := lies.holds
  rw [encode_eq] at holds
  rcases Bytes.holdsAt_append.mp holds with ⟨-, rest⟩
  rw [Leb128.length_encodeUnsigned] at rest
  have slice := (Bytes.holdsAt_append.mp rest).1.slice_eq
  cases payload : node.payload? with
  | none => simp [payloadRange, entry?, payload]
  | some bytes =>
      rw [payload, Option.getD_some] at slice
      by_cases empty : bytes = []
      · simp [payloadRange, entry?, payload, empty]
      · simp [payloadRange, entry?, payload, empty, Terminal.entry, slice]

end Node.LiesIn

namespace Edges

/-- A node with canonical edges can be read where it and the nodes below it lie. -/
theorem Canonical.read_of_liesIn {edges : Edges} (canonical : edges.Canonical)
    {name : Name} {payload? : Option (List UInt8)}
    (lies : Node.LiesIn data offset ⟨name, payload?, edges.labels⟩)
    (lieBelow : ∀ node ∈ edges.nodes name, node.LiesIn data offset) :
    ∃ position,
      readHeader data (offset name) =
        .ok ⟨payloadRange (offset name) (payload?.getD []), position⟩ ∧
      readChildren data position = .ok (edges.branches offset name).children := by
  have fits := Nat.lt_of_le_of_lt (Nat.le_add_left _ _) lies.fits
  have zeroFree : ∀ label ∈ edges.labels, 0 ∉ label := by
    intro label isLabel
    exact canonical.zero_notMem_label isLabel
  have inside : ∀ label ∈ edges.labels,
      offset (name ++ label) < data.size ∧ offset (name ++ label) < 2 ^ 64 := by
    intro label isLabel
    rcases exists_node_of_mem_labels isLabel with ⟨node, isNode, nodeName⟩
    rw [← nodeName]
    exact (lieBelow node isNode).offset_lt
  rw [children_branches]
  exact Node.read_of_holdsAt lies.holds fits canonical.length_labels_lt zeroFree inside

/-- Branches can be read where the nodes of canonical edges lie. -/
theorem Canonical.reads_branches {edges : Edges} (canonical : edges.Canonical)
    {above : Name} (lie : ∀ node ∈ edges.nodes above, node.LiesIn data offset) :
    (edges.branches offset above).Reads data := by
  induction canonical generalizing above with
  | none => exact .none
  | @edge label payload? below rest _ _ _ _ belowCanonical _ belowIH restIH =>
      simp only [nodes, List.forall_mem_cons, List.forall_mem_append] at lie
      rcases lie with ⟨first, lieBelow, lieBeside⟩
      rcases belowCanonical.read_of_liesIn first lieBelow with ⟨position, header, edges⟩
      exact .child header edges (belowIH lieBelow) (restIH lieBeside)

/-- The terminal nodes of the branches hold the entries whose payloads have bytes. -/
theorem map_entry_terminals {edges : Edges} {above : Name}
    (lie : ∀ node ∈ edges.nodes above, node.LiesIn data offset) :
    ((edges.branches offset above).terminals above).map (Terminal.entry data) =
      (edges.entries above).filter fun entry => entry.payload ≠ [] := by
  induction edges generalizing above with
  | none => rfl
  | edge label payload? below rest belowIH restIH =>
      simp only [nodes, List.forall_mem_cons, List.forall_mem_append] at lie
      rcases lie with ⟨first, lieBelow, lieBeside⟩
      rw [entries_edge, branches, Branches.terminals, List.map_append, List.map_append,
        List.filter_append, List.filter_append, belowIH lieBelow, restIH lieBeside]
      exact congrArg (· ++ _) first.map_entry

end Edges

namespace Tree

/-- The nodes of a tree lie in a buffer, the root at its start. -/
structure WrittenIn (data : Bytes) (offset : Name → Nat) (tree : Tree) : Prop where
  root : offset [] = 0
  distinct : (tree.nodes.map fun node => offset node.name).Nodup
  lie : ∀ node ∈ tree.nodes, node.LiesIn data offset

/-- The branches that a tree becomes in a buffer where nodes lie at the given
offsets. -/
def branches (offset : Name → Nat) (tree : Tree) : Branches :=
  .root (payloadRange 0 (tree.payload?.getD [])) (tree.edges.branches offset [])

variable {tree : Tree}

/-- The root is like a node that an edge without a label leads to. -/
theorem branches_eq (root : offset [] = 0) :
    tree.branches offset =
      (Edges.edge [] tree.payload? tree.edges .none).branches offset [] := by
  simp [branches, Branches.root, Edges.branches, root]

theorem nodes_eq (tree : Tree) :
    tree.nodes = (Edges.edge [] tree.payload? tree.edges .none).nodes [] := by
  simp [nodes, Edges.nodes]

theorem Canonical.reads_branches (canonical : tree.Canonical)
    (written : tree.WrittenIn data offset) : (tree.branches offset).Reads data := by
  rcases List.forall_mem_cons.mp written.lie with ⟨first, lieBelow⟩
  have below := Edges.Canonical.reads_branches canonical lieBelow
  rcases Edges.Canonical.read_of_liesIn canonical first lieBelow with
      ⟨position, header, edges⟩
  rw [written.root] at header
  exact .child header edges below .none

theorem WrittenIn.nodup_offsets (written : tree.WrittenIn data offset) :
    (tree.branches offset).offsets.Nodup := by
  rw [branches_eq written.root, Edges.offsets_branches, ← nodes_eq]
  exact written.distinct

theorem WrittenIn.map_entry_terminals (written : tree.WrittenIn data offset) :
    ((tree.branches offset).terminals []).map (Terminal.entry data) =
      tree.entries.filter fun entry => entry.payload ≠ [] := by
  have lie := written.lie
  rw [nodes_eq] at lie
  have terminals := Edges.map_entry_terminals lie
  rwa [← branches_eq written.root, Edges.entries, ← nodes_eq] at terminals

/-- A written tree is read back, but for the entries whose payloads are empty. -/
theorem Canonical.entries_of_writtenIn (canonical : tree.Canonical)
    (written : tree.WrittenIn data offset) :
    Trie.entries data = .ok (tree.entries.filter fun entry => entry.payload ≠ []) := by
  have read := entries_of_reads (canonical.reads_branches written) written.nodup_offsets
  rwa [← branches, written.map_entry_terminals] at read

end Tree

/-! ## What a layout writes -/

theorem Node.size_pos (offset : Name → Nat) (node : Node) : 0 < node.size offset := by
  rw [← Node.length_encode]
  exact List.length_pos_iff.mpr (node.encode_ne_nil offset)

theorem pairwise_assign (offset : Name → Nat) (start : Nat) (nodes : List Node) :
    (assign offset start nodes).Pairwise (fun earlier later => earlier.2 < later.2) ∧
      ∀ place ∈ assign offset start nodes, start ≤ place.2 := by
  induction nodes generalizing start with
  | nil => simp [assign]
  | cons node nodes ih =>
      rcases ih (start + node.size offset) with ⟨ascending, above⟩
      have positive := node.size_pos offset
      have later : ∀ place ∈ assign offset (start + node.size offset) nodes,
          start < place.2 := by
        intro place member
        have bound := above place member
        omega
      constructor
      · exact .cons later ascending
      · intro place member
        rcases List.mem_cons.mp member with rfl | rest
        · exact Nat.le_refl start
        · exact Nat.le_of_lt (later place rest)

namespace Settled

variable {nodes : List Node}

/-- Settled offsets keep the nodes apart. -/
theorem nodup_offsets (settled : Settled nodes offset) :
    (nodes.map fun node => offset node.name).Nodup := by
  have places : (nodes.map fun node => offset node.name) =
      (assign offset 0 nodes).map (·.2) := by
    calc (nodes.map fun node => offset node.name)
        = (nodes.map (·.name)).map offset := by rw [List.map_map]; rfl
      _ = ((assign offset 0 nodes).map (·.1)).map offset := by rw [map_fst_assign]
      _ = (assign offset 0 nodes).map (·.2) := by
        rw [List.map_map]
        exact List.map_congr_left settled
  rw [places, List.nodup_iff_pairwise_ne, List.pairwise_map]
  exact (pairwise_assign offset 0 nodes).1.imp Nat.ne_of_lt

/-- The root lies at the start: its name begins every name, so no node comes before
it. -/
theorem root_eq (settled : Settled nodes offset)
    (ordered : nodes.Pairwise fun earlier later => ¬ later.name <+: earlier.name)
    {root : Node} (member : root ∈ nodes) (unnamed : root.name = []) :
    offset [] = 0 := by
  rcases List.append_of_mem member with ⟨before, after, rfl⟩
  cases before with
  | nil =>
      have place := settled.offset_eq
      rwa [unnamed] at place
  | cons first before =>
      have behind := (List.pairwise_append.mp ordered).2.2
      have apart := behind first List.mem_cons_self root List.mem_cons_self
      rw [unnamed] at apart
      exact (apart List.nil_prefix).elim

/-- Nodes written one behind the other lie at settled offsets. -/
theorem liesIn (settled : Settled nodes offset) (fits : total offset nodes < 2 ^ 64)
    (tail : List UInt8) {node : Node} (member : node ∈ nodes) :
    node.LiesIn (nodes.flatMap (Node.encode offset) ++ tail).toArray offset := by
  rcases List.append_of_mem member with ⟨before, after, rfl⟩
  have place := settled.offset_eq
  constructor
  · rw [place, ← length_flatMap_encode, List.flatMap_append, List.flatMap_cons,
      ← List.append_assoc, List.append_assoc]
    exact Bytes.holdsAt_toArray_append _ _ _
  · rw [place, Node.length_encode]
    rw [total_append, total_cons] at fits
    omega

end Settled

namespace Layout

variable {tree : Tree}

/-- A layout of a canonical tree writes the tree, whatever follows in the buffer. -/
theorem writtenIn (canonical : tree.Canonical) {names : List Name}
    (all : ∀ name ∈ tree.entries.map (·.name), name ∈ names)
    (fits : (ofNodes (tree.layoutOrder names)).size < 2 ^ 64) (tail : List UInt8) :
    tree.WrittenIn ((ofNodes (tree.layoutOrder names)).encode ++ tail).toArray
      (ofNodes (tree.layoutOrder names)).offsets.at := by
  rcases canonical.layoutOrder_spec all with ⟨whole, ordered⟩
  have distinct : ((tree.layoutOrder names).map (·.name)).Nodup :=
    (whole.map _).nodup_iff.mpr canonical.nodup_names
  rcases settled_ofNodes distinct fits with ⟨sameNodes, settled⟩
  have size : total (ofNodes (tree.layoutOrder names)).offsets.at
      (tree.layoutOrder names) < 2 ^ 64 := by
    rw [Layout.size, sameNodes] at fits
    exact fits
  constructor
  case root =>
    exact settled.root_eq ordered (whole.mem_iff.mpr List.mem_cons_self) rfl
  case distinct => exact (whole.map _).nodup_iff.mp settled.nodup_offsets
  case lie =>
    intro node member
    rw [Layout.encode, sameNodes]
    exact settled.liesIn size tail (whole.mem_iff.mpr member)

theorem length_encode (layout : Layout) : layout.encode.length = layout.size :=
  length_flatMap_encode _ _

/-- Entries with different names are laid out as a canonical tree that holds them,
and the tree is written if its size has 64 bits. -/
theorem ofEntries_of_nodup {stored : List Entry}
    (zeroFree : ∀ entry ∈ stored, 0 ∉ entry.name)
    (distinct : (stored.map (·.name)).Nodup) :
    ∃ (tree : Tree) (layout : Layout), ofEntries stored = .ok layout ∧ tree.Canonical ∧
      tree.entries.Perm stored ∧
      (layout.encode.length < 2 ^ 64 → ∀ tail : List UInt8,
        tree.WrittenIn (layout.encode ++ tail).toArray layout.offsets.at) := by
  rcases Tree.ofEntries_of_nodup zeroFree distinct with ⟨tree, built, canonical, whole⟩
  have laidOut :
      ofEntries stored = .ok (ofNodes (tree.layoutOrder (stored.map (·.name)))) := by
    rw [ofEntries, built, map_ok]
  refine ⟨tree, _, laidOut, canonical, whole, ?_⟩
  intro fits tail
  rw [length_encode] at fits
  apply writtenIn canonical ?_ fits
  intro name member
  exact (whole.map _).mem_iff.mp member

end Layout

end Linkedit.Trie
