import Linkedit.Proofs.Trie.LeastOffsets
import Linkedit.Proofs.Trie.WalkOrder

/-!
# The room that a trie needs

The size of a trie can be read off its names and the widths of its offsets: so many
bytes for each node, the width of its offset, one byte for each start of a name, and the
bytes of the payloads. All but the widths only get less when names go. So a trie that
was laid out needs no more room for what stays, unless an offset gets wider.
-/

namespace Linkedit.Trie

/-! ## Parts of the size -/

/-- What an entry adds to its node: the payload and its size, in place of a zero. -/
def Entry.cost (entry : Entry) : Nat :=
  entry.payload.length + Leb128.unsignedSize entry.payload.length - 1

theorem Entry.cost_succ (entry : Entry) :
    entry.cost + 1 = entry.payload.length +
      Leb128.unsignedSize entry.payload.length := by
  have positive : 1 ≤ Leb128.unsignedSize entry.payload.length := Nat.le_max_left _ _
  rw [cost]
  omega

theorem Entry.length_payload_le_cost (entry : Entry) :
    entry.payload.length ≤ entry.cost := by
  have positive : 1 ≤ Leb128.unsignedSize entry.payload.length := Nat.le_max_left _ _
  have cost := entry.cost_succ
  omega

/-- The bytes of the edges that leave a node of the given name. -/
def edgeBytes (offset : Name → Nat) (above : Name) (labels : List Name) : Nat :=
  (labels.map fun label =>
    label.length + 1 + Leb128.unsignedSize (offset (above ++ label))).sum

theorem Node.size_eq (offset : Name → Nat) (node : Node) :
    node.size offset = 2 + (node.entry?.map Entry.cost).getD 0 +
      edgeBytes offset node.name node.labels := by
  rw [size, sumOf_eq_sum, entry?, edgeBytes]
  cases stored : node.payload? with
  | none => rfl
  | some payload =>
      have cost := Entry.cost_succ ⟨node.name, payload⟩
      simp only [Option.map_some, Option.getD_some] at cost ⊢
      omega

/-- The bytes of a node and of the edge to it, without label, payload and further
edges. -/
def nodeBytes (offset : Name → Nat) (name : Name) : Nat :=
  3 + Leb128.unsignedSize (offset name)

namespace Edges

/-- The starts that lead below a node of the given name, one for each byte of a
label. -/
def starts (above : Name) : Edges → List Name
  | .none => []
  | .edge label _ below rest =>
      (List.range label.length).map (fun index => above ++ label.take (index + 1)) ++
        (below.starts (above ++ label) ++ rest.starts above)

/-- Edges and the nodes below take so much for each node, a byte for each start, and
what the entries add. -/
theorem total_eq (offset : Name → Nat) (above : Name) (edges : Edges) :
    total offset (edges.nodes above) + edgeBytes offset above edges.labels =
      ((edges.nodes above).map fun node => nodeBytes offset node.name).sum +
        (edges.starts above).length + ((edges.entries above).map Entry.cost).sum := by
  induction edges generalizing above with
  | none => simp [nodes, starts, labels, edgeBytes]
  | edge label payload? below rest belowIH restIH =>
      have under := belowIH (above ++ label)
      have beside := restIH above
      have own :
          ((payload?.map (Entry.mk (above ++ label))).toList.map Entry.cost).sum =
            ((payload?.map (Entry.mk (above ++ label))).map Entry.cost).getD 0 := by
        cases payload? <;> simp
      have first :
          edgeBytes offset above (Edges.edge label payload? below rest).labels =
            label.length + 1 + Leb128.unsignedSize (offset (above ++ label)) +
              edgeBytes offset above rest.labels := by
        simp [edgeBytes, labels]
      rw [nodes, total_cons, total_append, Node.size_eq, Node.entry?, first, starts,
        entries_edge]
      simp only [List.map_cons, List.sum_cons, List.length_append, List.length_map,
        List.length_range, List.map_append, List.sum_append, own]
      rw [nodeBytes]
      omega

end Edges

/-- The size of a trie, from its nodes, its starts and its entries. -/
theorem Tree.total_eq (offset : Name → Nat) (tree : Tree) :
    total offset tree.nodes =
      2 + ((tree.edges.nodes []).map fun node => nodeBytes offset node.name).sum +
        (tree.edges.starts []).length + (tree.entries.map Entry.cost).sum := by
  have below := tree.edges.total_eq offset []
  have root : ((tree.payload?.map (Entry.mk [])).toList.map Entry.cost).sum =
      ((tree.payload?.map (Entry.mk [])).map Entry.cost).getD 0 := by
    cases tree.payload? <;> simp
  rw [nodes, total_cons, Node.size_eq, entries_eq]
  simp only [Node.entry?, List.map_append, List.sum_append, root]
  omega

/-! ## Fewer names, fewer parts -/

namespace Edges

variable {edges : Edges} {above start : Name}

/-- The starts along one edge. -/
theorem mem_starts_label_iff {label : Name} :
    start ∈ (List.range label.length).map (fun index =>
      above ++ label.take (index + 1)) ↔
        above.length < start.length ∧ start <+: above ++ label := by
  rw [List.mem_map]
  constructor
  · intro some
    obtain ⟨index, inside, rfl⟩ := some
    rw [List.mem_range] at inside
    constructor
    · rw [List.length_append, List.length_take]
      omega
    · exact (List.prefix_append_right_inj above).mpr (List.take_prefix _ label)
  · intro begins
    obtain ⟨longer, begins⟩ := begins
    obtain ⟨more, rfl⟩ :=
      List.prefix_of_prefix_length_le (List.prefix_append above label) begins longer.le
    rw [List.prefix_append_right_inj] at begins
    rw [List.length_append] at longer
    have bound := begins.length_le
    refine ⟨more.length - 1, List.mem_range.mpr (by omega), ?_⟩
    rw [Nat.sub_add_cancel (by omega), ← List.prefix_iff_eq_take.mp begins]

theorem nodup_starts_label (above label : Name) :
    ((List.range label.length).map fun index =>
      above ++ label.take (index + 1)).Nodup := by
  apply List.Nodup.map_on ?_ List.nodup_range
  intro first firstInside second secondInside same
  rw [List.mem_range] at firstInside secondInside
  have length := congrArg List.length (List.append_cancel_left same)
  rw [List.length_take, List.length_take] at length
  omega

/-- The starts that lead to a node. -/
theorem mem_starts_iff : start ∈ edges.starts above ↔
    above.length < start.length ∧ ∃ node ∈ edges.nodes above, start <+: node.name := by
  induction edges generalizing above with
  | none => simp [starts, nodes]
  | edge label payload? below rest belowIH restIH =>
      simp only [starts, nodes, List.mem_append, mem_starts_label_iff, belowIH, restIH,
        List.mem_cons]
      constructor
      · rintro (⟨longer, begins⟩ | ⟨longer, node, isNode, begins⟩ | ⟨longer, node,
          isNode, begins⟩)
        · exact ⟨longer, _, .inl rfl, begins⟩
        · rw [List.length_append] at longer
          exact ⟨by omega, node, .inr (.inl isNode), begins⟩
        · exact ⟨longer, node, .inr (.inr isNode), begins⟩
      · rintro ⟨longer, node, rfl | under | beside, begins⟩
        · exact .inl ⟨longer, begins⟩
        · rcases Nat.lt_or_ge (above ++ label).length start.length with behind | before
          · exact .inr (.inl ⟨behind, node, under, begins⟩)
          · exact .inl ⟨longer,
              List.prefix_of_prefix_length_le begins (above_begins under) before⟩
        · exact .inr (.inr ⟨longer, node, beside, begins⟩)

/-- Each start leads along one edge only. -/
theorem Canonical.nodup_starts (canonical : edges.Canonical) (above : Name) :
    (edges.starts above).Nodup := by
  induction canonical generalizing above with
  | none => exact .nil
  | @edge label payload? below rest nonempty zeroFree apart needed belowOk
      restOk belowIH restIH =>
      have canonical := Canonical.edge nonempty zeroFree apart needed belowOk restOk
      have notBeside : ∀ start under : Name, above.length < start.length →
          start <+: under → above ++ label <+: under → start ∉ rest.starts above := by
        intro start under longer begins underLabel isStart
        obtain ⟨-, node, isNode, beginsBeside⟩ := mem_starts_iff.mp isStart
        have short := begins_above canonical underLabel isNode begins beginsBeside
        exact Nat.not_lt.mpr short.length_le longer
      rw [starts, List.nodup_append]
      refine ⟨nodup_starts_label above label, ?others, ?own⟩
      case others =>
        rw [List.nodup_append]
        refine ⟨belowIH _, restIH _, ?_⟩
        intro start isUnder other isBeside same
        obtain ⟨longer, node, isNode, begins⟩ := mem_starts_iff.mp isUnder
        rw [List.length_append] at longer
        rw [← same] at isBeside
        exact notBeside start node.name (by omega) begins (above_begins isNode) isBeside
      case own =>
        intro start isOwn other isOther same
        obtain ⟨longer, begins⟩ := mem_starts_label_iff.mp isOwn
        rw [← same] at isOther
        cases List.mem_append.mp isOther with
        | inl isUnder =>
            exact Nat.not_lt.mpr begins.length_le (mem_starts_iff.mp isUnder).1
        | inr isBeside => exact notBeside start _ longer begins List.prefix_rfl isBeside

end Edges

/-- The payload bytes of the entries that go. -/
def removedBytes (remove : Name → Bool) (all : List Entry) : Nat :=
  ((all.filter fun entry => remove entry.name).map (·.payload.length)).sum

theorem cost_survivors_le (remove : Name → Bool) (all : List Entry) :
    ((survivors remove all).map Entry.cost).sum + removedBytes remove all ≤
      (all.map Entry.cost).sum := by
  induction all with
  | nil => exact Nat.le_refl 0
  | cons entry all ih =>
      rw [survivors, removedBytes] at ih ⊢
      have bound := entry.length_payload_le_cost
      cases goes : remove entry.name with
      | false =>
          simp [goes]
          omega
      | true =>
          simp [goes]
          omega

/-- A sum over some elements is no more than the sum over all of them. -/
theorem sum_map_le_of_subset {α : Type} (size : α → Nat) {some all : List α}
    (distinct : some.Nodup) (subset : some ⊆ all) :
    (some.map size).sum ≤ (all.map size).sum := by
  obtain ⟨part, perm, sublist⟩ := List.subperm_of_subset distinct subset
  rw [← (perm.map size).sum_nat]
  exact (sublist.map size).sum_le_sum fun _ _ => Nat.zero_le _

namespace Tree

variable {tree kept : Tree}

theorem Canonical.names_below_subset (canonical : tree.Canonical)
    (keptCanonical : kept.Canonical) (fewer : kept.entries ⊆ tree.entries) :
    (kept.edges.nodes []).map (·.name) ⊆ (tree.edges.nodes []).map (·.name) := by
  intro name member
  have isNode :=
    canonical.names_subset keptCanonical fewer (List.mem_cons_of_mem _ member)
  cases List.mem_cons.mp isNode with
  | inl root =>
      have rootFirst := (List.nodup_cons.mp keptCanonical.nodup_names).1
      exact (rootFirst (root ▸ member)).elim
  | inr below => exact below

theorem Canonical.length_starts_le (canonical : tree.Canonical)
    (keptCanonical : kept.Canonical) (fewer : kept.entries ⊆ tree.entries) :
    (kept.edges.starts []).length ≤ (tree.edges.starts []).length := by
  apply (List.subperm_of_subset (Edges.Canonical.nodup_starts keptCanonical [])
    ?_).length_le
  intro start isStart
  obtain ⟨longer, node, isNode, begins⟩ := Edges.mem_starts_iff.mp isStart
  obtain ⟨other, isOther, sameName⟩ := List.mem_map.mp
    (canonical.names_below_subset keptCanonical fewer (List.mem_map_of_mem isNode))
  exact Edges.mem_starts_iff.mpr ⟨longer, other, isOther, sameName ▸ begins⟩

/-- Nodes that stay take no more room than before if their offsets are written no
wider. -/
theorem Canonical.nodeBytes_le (canonical : tree.Canonical)
    (keptCanonical : kept.Canonical) (fewer : kept.entries ⊆ tree.entries)
    {lower upper : Name → Nat}
    (narrow : ∀ node ∈ kept.nodes, Leb128.unsignedSize (lower node.name) ≤
      Leb128.unsignedSize (upper node.name)) :
    ((kept.edges.nodes []).map fun node => nodeBytes lower node.name).sum ≤
      ((tree.edges.nodes []).map fun node => nodeBytes upper node.name).sum := by
  have distinct := (List.nodup_cons.mp keptCanonical.nodup_names).2
  have subset := canonical.names_below_subset keptCanonical fewer
  calc
    _ ≤ ((kept.edges.nodes []).map fun node => nodeBytes upper node.name).sum := by
      apply List.sum_le_sum
      intro node isNode
      exact Nat.add_le_add_left (narrow node (List.mem_cons_of_mem _ isNode)) 3
    _ ≤ _ := by
      have sums := sum_map_le_of_subset (nodeBytes upper) distinct subset
      rw [List.map_map, List.map_map] at sums
      exact sums

end Tree

/-- If no node that stays is written with a wider offset, a trie gets shorter by the
payloads that go at least. -/
theorem total_survivors_le {stored all : List Entry} {tree kept : Tree}
    {remove : Name → Bool} (built : Tree.ofEntries stored = .ok tree)
    (whole : all.Perm stored)
    (keptBuilt : Tree.ofEntries (survivors remove all) = .ok kept)
    {lower upper : Name → Nat}
    (narrow : ∀ node ∈ kept.nodes, Leb128.unsignedSize (lower node.name) ≤
      Leb128.unsignedSize (upper node.name)) :
    total lower kept.nodes + removedBytes remove all ≤ total upper tree.nodes := by
  obtain ⟨canonical, treeWhole⟩ := Tree.canonical_of_ofEntries built
  obtain ⟨keptCanonical, keptWhole⟩ := Tree.canonical_of_ofEntries keptBuilt
  have fewer : kept.entries ⊆ tree.entries := by
    intro entry stays
    have isEntry := List.mem_of_mem_filter (keptWhole.mem_iff.mp stays)
    exact treeWhole.mem_iff.mpr (whole.mem_iff.mp isEntry)
  have nodes := canonical.nodeBytes_le keptCanonical fewer narrow
  have starts := canonical.length_starts_le keptCanonical fewer
  have costs := cost_survivors_le remove all
  have keptCost := (keptWhole.map Entry.cost).sum_nat
  have treeCost := ((whole.trans treeWhole.symm).map Entry.cost).sum_nat
  rw [Tree.total_eq, Tree.total_eq]
  omega

/-! ## Room for offsets as they are -/

section

variable {nodes : List Node} {offsets : Offsets}

theorem position_lt (offset : Name → Nat) {name : Name} (start : Nat)
    (member : name ∈ nodes.map (·.name)) :
    position offset name start nodes < start + total offset nodes := by
  induction nodes generalizing start with
  | nil => cases member
  | cons node nodes ih =>
      have positive := node.size_pos offset
      rw [position, total_cons]
      split
      next => omega
      next different =>
        have later := ih (start + node.size offset)
          ((List.mem_cons.mp member).resolve_left (Ne.symm different))
        omega

/-- If all offsets up to `last` can be written with the width of `last`, so that no byte
lies behind it, the passes keep all offsets up to `last`. -/
theorem settle_size_le_succ {last : Nat} (distinct : (nodes.map (·.name)).Nodup)
    (room : total (fun _ => last) nodes ≤ last + 1)
    (narrow : ∀ name, offsets.at name ≤ last)
    (fuel passes : Nat) : (settle nodes fuel passes offsets).size ≤ last + 1 := by
  induction fuel generalizing passes offsets with
  | zero => exact (total_mono narrow nodes).trans room
  | succ fuel ih =>
      by_cases settled : Settled nodes offsets.at
      · rw [settle_of_settled settled]
        exact (total_mono narrow nodes).trans room
      · rw [settle_of_not_settled settled]
        apply ih
        intro name
        rw [Offsets.at_pass distinct]
        by_cases member : name ∈ nodes.map (·.name)
        · have inside := position_lt offsets.at 0 member
          have bound := total_mono narrow nodes
          omega
        · rw [position_of_notMem _ 0 member]
          exact Nat.zero_le last

/-- A trie has room if it has with all offsets as wide as the last one. -/
theorem Layout.size_ofNodes_le_succ {last : Nat} (distinct : (nodes.map (·.name)).Nodup)
    (room : total (fun _ => last) nodes ≤ last + 1) :
    (ofNodes nodes).size ≤ last + 1 := by
  apply settle_size_le_succ distinct room
  intro name
  rw [Offsets.at_empty]
  exact Nat.zero_le last

/-! ## Nodes that get smaller -/

/-- A node takes the place of another one with its name, and no more room. -/
structure Node.Within (node other : Node) : Prop where
  name_eq : node.name = other.name
  size_le : ∀ lower upper : Name → Nat, (∀ name, lower name ≤ upper name) →
    node.size lower ≤ other.size upper

variable {fewer : List Node} {lower upper : Name → Nat}

theorem total_le_of_within (within : List.SublistForall₂ Node.Within fewer nodes)
    (le : ∀ name, lower name ≤ upper name) : total lower fewer ≤ total upper nodes := by
  induction within with
  | nil => exact Nat.zero_le _
  | cons here _ ih =>
      have first := here.size_le lower upper le
      rw [total_cons, total_cons]
      omega
  | cons_right _ ih =>
      rw [total_cons]
      omega

theorem names_subset_of_within (within : List.SublistForall₂ Node.Within fewer nodes) :
    fewer.map (·.name) ⊆ nodes.map (·.name) := by
  induction within with
  | nil => exact List.nil_subset _
  | cons here _ ih =>
      rw [List.map_cons, List.map_cons, here.name_eq]
      exact List.cons_subset_cons _ ih
  | cons_right _ ih => exact List.subset_cons_of_subset _ ih

/-- A pass puts nodes that take less room no further back. -/
theorem position_le_of_within (within : List.SublistForall₂ Node.Within fewer nodes)
    (distinct : (nodes.map (·.name)).Nodup) (le : ∀ name, lower name ≤ upper name)
    (name : Name) {start later : Nat} (startLe : start ≤ later) :
    position lower name start fewer ≤ position upper name later nodes := by
  induction within generalizing start later with
  | nil => exact Nat.zero_le _
  | @cons node other fewer nodes here _ ih =>
      rw [position, position, here.name_eq]
      split
      next => exact startLe
      next =>
        apply ih (List.nodup_cons.mp distinct).2
        exact Nat.add_le_add startLe (here.size_le lower upper le)
  | @cons_right node fewer nodes some ih =>
      obtain ⟨absent, distinct⟩ := List.nodup_cons.mp distinct
      rw [position]
      split
      next same =>
        have gone : name ∉ fewer.map (·.name) := by
          intro member
          have stays := names_subset_of_within some member
          rw [← same] at stays
          exact absent stays
        rw [position_of_notMem _ _ gone]
        exact Nat.zero_le _
      next => exact ih distinct (startLe.trans (Nat.le_add_right _ _))

/-- No pass over nodes that take less room moves one of them behind its place in
consistent offsets. -/
theorem Consistent.offsetsAfter_le_of_within (consistent : Consistent nodes upper)
    (within : List.SublistForall₂ Node.Within fewer nodes)
    (distinct : (nodes.map (·.name)).Nodup) (fewerDistinct : (fewer.map (·.name)).Nodup)
    (passes : Nat) (name : Name) :
    (offsetsAfter fewer passes).at name ≤ upper name := by
  induction passes generalizing name with
  | zero =>
      rw [offsetsAfter, Offsets.at_empty]
      exact Nat.zero_le _
  | succ passes ih =>
      rw [offsetsAfter, Offsets.at_pass fewerDistinct]
      by_cases member : name ∈ fewer.map (·.name)
      · have place := settled_iff_consistent.mpr consistent _
          (mem_assign_position upper 0 (names_subset_of_within within member))
        rw [place]
        exact position_le_of_within within distinct ih name (Nat.le_refl 0)
      · rw [position_of_notMem _ 0 member]
        exact Nat.zero_le _

/-- Nodes that take less room each, in the same order, take less room together. -/
theorem Layout.size_ofNodes_le_of_within
    (within : List.SublistForall₂ Node.Within fewer nodes)
    (distinct : (nodes.map (·.name)).Nodup) (fewerDistinct : (fewer.map (·.name)).Nodup)
    (fits : (ofNodes nodes).size < 2 ^ 64) :
    (ofNodes fewer).size ≤ (ofNodes nodes).size := by
  obtain ⟨sameNodes, settled⟩ := settled_ofNodes distinct fits
  obtain ⟨passes, sameFewer, offsets, -⟩ := exists_offsetsAfter fewer
  have consistent := settled_iff_consistent.mp settled
  rw [size, size, sameNodes, sameFewer, offsets]
  exact total_le_of_within within
    (consistent.offsetsAfter_le_of_within within distinct fewerDistinct passes)

end

end Linkedit.Trie
