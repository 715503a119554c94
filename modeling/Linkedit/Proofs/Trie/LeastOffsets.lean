import Linkedit.Proofs.Trie.RoundTrip

/-!
# The least offsets

Offsets are consistent if each node lies behind the ones before it, where every offset
is written as wide as it is. The passes begin with zeros and only move nodes further
back. No pass moves a node behind its place in consistent offsets, so when a pass
changes nothing, the offsets are the least consistent ones. As long as passes change
something, the nodes grow, and they cannot grow by more than nine bytes for each edge.
-/

namespace Linkedit.Trie

/-- Each node lies where the nodes before it end. -/
def Consistent (nodes : List Node) (offset : Name → Nat) : Prop :=
  ∀ before node after, nodes = before ++ node :: after →
    offset node.name = total offset before

/-- The offsets after a number of passes. -/
def offsetsAfter (nodes : List Node) : (passes : Nat) → Offsets
  | 0 => {}
  | passes + 1 => (offsetsAfter nodes passes).pass nodes

variable {nodes : List Node}

theorem ascending_offsetsAfter (distinct : (nodes.map (·.name)).Nodup) (passes : Nat) :
    Ascending nodes (offsetsAfter nodes passes) := by
  induction passes with
  | zero => exact ascending_empty nodes
  | succ passes ih => exact ih.pass distinct

theorem offsetsAfter_mono (distinct : (nodes.map (·.name)).Nodup) {earlier later : Nat}
    (le : earlier ≤ later) (name : Name) :
    (offsetsAfter nodes earlier).at name ≤ (offsetsAfter nodes later).at name := by
  induction le with
  | refl => exact Nat.le_refl _
  | step _ ih => exact ih.trans (ascending_offsetsAfter distinct _ name)

theorem exists_split_of_mem_assign {offset : Name → Nat} {start : Nat}
    {place : Name × Nat} (member : place ∈ assign offset start nodes) :
    ∃ before node after, nodes = before ++ node :: after ∧
      place = (node.name, start + total offset before) := by
  induction nodes generalizing start with
  | nil => cases member
  | cons first nodes ih =>
      rcases List.mem_cons.mp member with rfl | later
      · exact ⟨[], first, nodes, rfl, rfl⟩
      · rcases ih later with ⟨before, node, after, rfl, rfl⟩
        refine ⟨first :: before, node, after, rfl, ?_⟩
        rw [total_cons, Nat.add_assoc]

/-- A pass changes nothing exactly at consistent offsets. -/
theorem settled_iff_consistent {offset : Name → Nat} :
    Settled nodes offset ↔ Consistent nodes offset := by
  constructor
  · rintro settled before node after rfl
    exact settled.offset_eq
  · intro consistent place member
    rcases exists_split_of_mem_assign member with ⟨before, node, after, whole, rfl⟩
    rw [consistent before node after whole, Nat.zero_add]

/-- No pass moves a node behind its place in consistent offsets. -/
theorem Consistent.offsetsAfter_le {offset : Name → Nat}
    (consistent : Consistent nodes offset) (distinct : (nodes.map (·.name)).Nodup)
    (passes : Nat) (name : Name) :
    (offsetsAfter nodes passes).at name ≤ offset name := by
  induction passes generalizing name with
  | zero =>
      rw [offsetsAfter, Offsets.at_empty]
      exact Nat.zero_le _
  | succ passes ih =>
      rw [offsetsAfter, Offsets.at_pass distinct]
      by_cases member : name ∈ nodes.map (·.name)
      · have place :=
          settled_iff_consistent.mpr consistent _ (mem_assign_position offset 0 member)
        rw [place]
        exact position_mono ih name (Nat.le_refl 0) nodes
      · rw [position_of_notMem _ 0 member]
        exact Nat.zero_le _

/-- The passes go on until one changes nothing, or the fuel is used up. -/
theorem settle_offsetsAfter (nodes : List Node) (fuel done : Nat) :
    ∃ more ≤ fuel,
      (∀ pass < more, ¬ Settled nodes (offsetsAfter nodes (done + pass)).at) ∧
      (more < fuel ∧ Settled nodes (offsetsAfter nodes (done + more)).at ∧
          settle nodes fuel done (offsetsAfter nodes done) =
            ⟨nodes, offsetsAfter nodes (done + more), done + more + 1⟩ ∨
        more = fuel ∧ settle nodes fuel done (offsetsAfter nodes done) =
            ⟨nodes, offsetsAfter nodes (done + more), done + more⟩) := by
  induction fuel generalizing done with
  | zero => exact ⟨0, Nat.le_refl 0, by simp, .inr ⟨rfl, rfl⟩⟩
  | succ fuel ih =>
      by_cases settled : Settled nodes (offsetsAfter nodes done).at
      · refine ⟨0, Nat.zero_le _, by simp, .inl ⟨Nat.succ_pos fuel, settled, ?_⟩⟩
        exact settle_of_settled settled fuel done
      · rcases ih (done + 1) with ⟨more, moreLe, unsettled, outcome⟩
        rw [Nat.add_right_comm] at outcome
        refine ⟨more + 1, Nat.succ_le_succ moreLe, ?_, ?_⟩
        · intro pass less
          cases pass with
          | zero => exact settled
          | succ pass =>
              have later := unsettled pass (Nat.lt_of_succ_lt_succ less)
              rwa [Nat.add_right_comm] at later
        · rw [settle_of_not_settled settled]
          exact outcome.imp (fun done => ⟨Nat.succ_lt_succ done.1, done.2⟩)
            (fun spent => ⟨congrArg _ spent.1, spent.2⟩)

/-- While passes change something, each but the first makes the nodes larger. -/
theorem le_total_offsetsAfter (distinct : (nodes.map (·.name)).Nodup) {passes : Nat}
    (unsettled : ∀ pass ≤ passes, ¬ Settled nodes (offsetsAfter nodes pass).at) :
    total (fun _ => 0) nodes + passes ≤ total (offsetsAfter nodes passes).at nodes := by
  induction passes with
  | zero => exact Nat.le_of_eq (total_at_empty nodes).symm
  | succ passes ih =>
      have before := ih fun pass le => unsettled pass (Nat.le_succ_of_le le)
      have either := (ascending_offsetsAfter distinct passes).grows_or_settled distinct
      have grown := either.resolve_right (unsettled (passes + 1) (Nat.le_refl _))
      rw [offsetsAfter]
      omega

/-- A pass that changes something is one of the first, if the offsets after it fit in 64
bits. -/
theorem le_of_unsettled (distinct : (nodes.map (·.name)).Nodup) {passes : Nat}
    (narrow : ∀ name, (offsetsAfter nodes passes).at name < 2 ^ 64)
    (unsettled : ∀ pass ≤ passes, ¬ Settled nodes (offsetsAfter nodes pass).at) :
    passes ≤ 9 * edgeCount nodes := by
  have lower := le_total_offsetsAfter distinct unsettled
  have upper := total_le narrow nodes
  omega

/-- The offsets of a layout are those before the first pass that changes nothing, or
after the last of too many passes. -/
theorem Layout.exists_offsetsAfter (nodes : List Node) :
    ∃ passes, (ofNodes nodes).nodes = nodes ∧
      (ofNodes nodes).offsets = offsetsAfter nodes passes ∧
      (∀ pass < passes, ¬ Settled nodes (offsetsAfter nodes pass).at) ∧
      (Settled nodes (offsetsAfter nodes passes).at ∧
          ofNodes nodes = ⟨nodes, offsetsAfter nodes passes, passes + 1⟩ ∨
        passes = 9 * edgeCount nodes + 2) := by
  rcases settle_offsetsAfter nodes (9 * edgeCount nodes + 2) 0 with
    ⟨passes, -, unsettled, outcome⟩
  simp only [Nat.zero_add] at unsettled outcome
  rcases outcome with ⟨-, settled, equation⟩ | ⟨spent, equation⟩
  · exact ⟨passes, congrArg Layout.nodes equation,
      congrArg Layout.offsets equation, unsettled, .inl ⟨settled, equation⟩⟩
  · exact ⟨passes, congrArg Layout.nodes equation,
      congrArg Layout.offsets equation, unsettled, .inr spent⟩

/-- The offsets of a layout whose size has 64 bits: they are those before the first pass
that changes nothing. -/
theorem Layout.exists_ofNodes_eq (distinct : (nodes.map (·.name)).Nodup)
    (fits : (Layout.ofNodes nodes).size < 2 ^ 64) :
    ∃ passes ≤ 9 * edgeCount nodes + 1,
      Layout.ofNodes nodes = ⟨nodes, offsetsAfter nodes passes, passes + 1⟩ ∧
      Settled nodes (offsetsAfter nodes passes).at ∧
      ∀ pass < passes, ¬ Settled nodes (offsetsAfter nodes pass).at := by
  rcases exists_offsetsAfter nodes with ⟨passes, sameNodes, offsets, unsettled, outcome⟩
  rw [Layout.size, sameNodes, offsets] at fits
  have narrow : ∀ pass ≤ passes, ∀ name,
      (offsetsAfter nodes pass).at name < 2 ^ 64 := by
    intro pass le name
    calc (offsetsAfter nodes pass).at name
        ≤ (offsetsAfter nodes passes).at name := offsetsAfter_mono distinct le name
      _ ≤ position (offsetsAfter nodes passes).at name 0 nodes := by
        rw [← Offsets.at_pass distinct]
        exact ascending_offsetsAfter distinct passes name
      _ ≤ total (offsetsAfter nodes passes).at nodes := by
        rw [← Nat.zero_add (total _ nodes)]
        exact position_le _ name 0 nodes
      _ < 2 ^ 64 := fits
  have bound : passes ≤ 9 * edgeCount nodes + 1 := by
    cases passes with
    | zero => exact Nat.zero_le _
    | succ pass =>
        apply Nat.succ_le_succ
        apply le_of_unsettled distinct (narrow pass (Nat.le_succ pass))
        intro earlier le
        exact unsettled earlier (Nat.lt_succ_of_le le)
  rcases outcome with ⟨settled, equation⟩ | spent
  · exact ⟨passes, bound, equation, settled, unsettled⟩
  · omega

/-- Where a number of passes put the nodes, without a table of the names. -/
def placesAfter (nodes : List Node) : (passes : Nat) → Name → Nat
  | 0, _ => 0
  | passes + 1, name => position (placesAfter nodes passes) name 0 nodes

theorem at_offsetsAfter (distinct : (nodes.map (·.name)).Nodup) (passes : Nat) :
    (offsetsAfter nodes passes).at = placesAfter nodes passes := by
  induction passes with
  | zero =>
      funext name
      exact Offsets.at_empty name
  | succ passes ih =>
      funext name
      rw [offsetsAfter, Offsets.at_pass distinct, ih, placesAfter]

/-- The size of a layout, computed with as many passes as settle it. -/
theorem Layout.size_ofNodes_eq (distinct : (nodes.map (·.name)).Nodup) {passes : Nat}
    (settled : Settled nodes (placesAfter nodes passes))
    (fits : total (placesAfter nodes passes) nodes < 2 ^ 64) :
    (ofNodes nodes).size = total (placesAfter nodes passes) nodes := by
  obtain ⟨last, sameNodes, offsets, -⟩ := exists_offsetsAfter nodes
  have size : (ofNodes nodes).size = total (offsetsAfter nodes last).at nodes := by
    rw [Layout.size, sameNodes, offsets]
    rfl
  have consistent := settled_iff_consistent.mp settled
  have upper : total (offsetsAfter nodes last).at nodes ≤
      total (placesAfter nodes passes) nodes :=
    total_mono (consistent.offsetsAfter_le distinct last) nodes
  have lastSettled := (settled_ofNodes distinct (size ▸ upper.trans_lt fits)).2
  rw [offsets] at lastSettled
  have lower := total_mono
    ((settled_iff_consistent.mp lastSettled).offsetsAfter_le distinct passes) nodes
  rw [at_offsetsAfter distinct passes] at lower
  rw [size]
  exact Nat.le_antisymm upper lower

/-- The next pass changes nothing if and only if the offsets are settled. -/
theorem settled_offsetsAfter_iff (distinct : (nodes.map (·.name)).Nodup)
    (passes : Nat) :
    Settled nodes (offsetsAfter nodes passes).at ↔ ∀ node ∈ nodes,
      (offsetsAfter nodes (passes + 1)).at node.name =
        (offsetsAfter nodes passes).at node.name := by
  constructor
  · intro settled node member
    have place :=
      mem_assign_position (offsetsAfter nodes passes).at 0 (List.mem_map_of_mem member)
    rw [offsetsAfter, Offsets.at_pass_of_mem distinct _ place]
    exact (settled _ place).symm
  · intro unchanged place member
    rcases exists_split_of_mem_assign member with ⟨before, node, after, whole, rfl⟩
    have isNode : node ∈ nodes := by
      rw [whole]
      simp
    rw [← unchanged node isNode, offsetsAfter, Offsets.at_pass_of_mem distinct _ member]

/-- Consistent offsets are those that the nodes are written at. -/
theorem Consistent.length_flatMap_encode {offset : Name → Nat}
    (consistent : Consistent nodes offset) {before after : List Node} {node : Node}
    (whole : nodes = before ++ node :: after) :
    (before.flatMap (Node.encode offset)).length = offset node.name := by
  rw [Trie.length_flatMap_encode, consistent before node after whole]

variable {stored : List Entry} {tree : Tree}

/-- The passes settle on the least offsets that are consistent. No node moves to the
front from one pass to the next, and the offset in an edge widens by nine bytes at most,
which bounds the number of passes. -/
theorem offsets_least (built : Tree.ofEntries stored = .ok tree)
    (fits : (Layout.ofNodes (tree.layoutOrder (stored.map (·.name)))).size < 2 ^ 64) :
    let nodes := tree.layoutOrder (stored.map (·.name))
    let layout := Layout.ofNodes nodes
    (∀ passes, ∀ node ∈ nodes, (offsetsAfter nodes passes).at node.name ≤
      (offsetsAfter nodes (passes + 1)).at node.name) ∧
    (∀ passes, total (offsetsAfter nodes passes).at nodes ≤ layout.size) ∧
    (∃ last, layout = ⟨nodes, offsetsAfter nodes last, last + 1⟩ ∧
      IsLeast {passes | ∀ node ∈ nodes, (offsetsAfter nodes (passes + 1)).at node.name =
        (offsetsAfter nodes passes).at node.name} last) ∧
    layout.passes ≤ 9 * edgeCount tree.nodes + 2 ∧
    Consistent nodes layout.offsets.at ∧
    (∀ offset, Consistent nodes offset →
      ∀ node ∈ nodes, layout.offsets.at node.name ≤ offset node.name) ∧
    (∀ before node after, nodes = before ++ node :: after →
      (before.flatMap (Node.encode layout.offsets.at)).length =
        layout.offsets.at node.name) ∧
    layout.encode.length = layout.size := by
  intro nodes layout
  rcases Tree.layoutOrder_of_ofEntries built with ⟨order, ordered⟩
  have distinct : (nodes.map (·.name)).Nodup := nodup_names_of_pairwise ordered
  have edges : edgeCount nodes = edgeCount tree.nodes := (order.map _).sum_nat
  rcases Layout.exists_ofNodes_eq distinct fits with
    ⟨last, bound, result, settled, unsettled⟩
  change layout = _ at result
  have consistent : Consistent nodes layout.offsets.at := by
    rw [result]
    exact settled_iff_consistent.mp settled
  have below : ∀ passes name, (offsetsAfter nodes passes).at name ≤
      layout.offsets.at name :=
    consistent.offsetsAfter_le distinct
  refine ⟨?ascend, ?room, ⟨last, result, ?first, ?least⟩, ?passes, consistent,
    ?minimal, ?placed, Layout.length_encode layout⟩
  case ascend =>
    intro passes node _
    exact ascending_offsetsAfter distinct passes node.name
  case room =>
    intro passes
    have size : layout.size = total layout.offsets.at nodes := by
      rw [Layout.size, result]; rfl
    rw [size]
    exact total_mono (below passes) nodes
  case first => exact (settled_offsetsAfter_iff distinct last).mp settled
  case least =>
    intro passes unchanged
    by_contra earlier
    exact unsettled passes (Nat.lt_of_not_le earlier)
      ((settled_offsetsAfter_iff distinct passes).mpr unchanged)
  case passes =>
    rw [result, ← edges]
    exact Nat.succ_le_succ bound
  case minimal =>
    intro offset other node _
    rw [result]
    exact other.offsetsAfter_le distinct last node.name
  case placed =>
    intro before node after whole
    exact consistent.length_flatMap_encode whole

/-- A payload of 130 bytes, behind which an offset needs a second byte. -/
def longPayload : List Entry := [⟨[97], List.replicate 130 1⟩, ⟨[98], [2]⟩]

/-- The tree of `longPayload`. -/
def longPayloadTree : Tree :=
  ⟨none, .edge [97] (some (List.replicate 130 1))
    .none (.edge [98] (some [2]) .none .none)⟩

theorem offsets_least_longPayload :
    Tree.ofEntries longPayload = .ok longPayloadTree ∧
    let nodes := longPayloadTree.layoutOrder [[97], [98]]
    let layout := Layout.ofNodes nodes
    layout.size < 2 ^ 64 ∧ layout.passes ≤ 20 ∧ Consistent nodes layout.offsets.at ∧
      layout.encode.length = layout.size := by
  have built : Tree.ofEntries longPayload = .ok longPayloadTree := by decide
  have fits : (Layout.ofNodes (longPayloadTree.layoutOrder
      (longPayload.map (·.name)))).size < 2 ^ 64 := by
    have laidOut : Layout.ofEntries longPayload = .ok (Layout.ofNodes
        (longPayloadTree.layoutOrder (longPayload.map (·.name)))) := by
      rw [Layout.ofEntries, built, map_ok]
    have small : longPayloadTree.sizeBound < 2 ^ 64 := by decide +kernel
    rw [← Layout.length_encode]
    exact (Layout.length_encode_le built laidOut small).trans_lt small
  rcases offsets_least built fits with ⟨-, -, -, passes, consistent, -, -, length⟩
  exact ⟨built, fits, passes, consistent, length⟩

end Linkedit.Trie
