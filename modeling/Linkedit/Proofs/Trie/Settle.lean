import Linkedit.Trie.Layout
import Linkedit.Proofs.Leb128
import Mathlib.Algebra.Order.BigOperators.Group.List
import Mathlib.Data.List.Nodup

/-!
# Settling offsets

A pass puts each node behind the ones before it, with sizes that depend on the
offsets of the previous pass. Offsets that grow only make nodes larger, so from
zero on the offsets grow from pass to pass. A pass that leaves the total size as
it is leaves every size as it is, and the next pass then changes nothing. So the
total grows until the offsets are settled, and it cannot grow by more than nine
bytes for each edge while all offsets have 64 bits.
-/

namespace Linkedit.Trie

/-! ## Sizes -/

theorem sumOf_eq_sum (sizes : List Nat) : sumOf sizes = sizes.sum := rfl

/-- The number of bytes of nodes whose children lie at the given offsets. -/
def total (offset : Name → Nat) (nodes : List Node) : Nat :=
  (nodes.map (Node.size offset)).sum

/-- The number of edges that leave nodes. -/
def edgeCount (nodes : List Node) : Nat := (nodes.map (·.labels.length)).sum

@[simp] theorem total_nil (offset : Name → Nat) : total offset [] = 0 := rfl

@[simp] theorem total_cons (offset : Name → Nat) (node : Node) (nodes : List Node) :
    total offset (node :: nodes) = node.size offset + total offset nodes := by
  simp [total]

@[simp] theorem total_append (offset : Name → Nat) (left right : List Node) :
    total offset (left ++ right) = total offset left + total offset right := by
  simp [total]

@[simp] theorem edgeCount_cons (node : Node) (nodes : List Node) :
    edgeCount (node :: nodes) = node.labels.length + edgeCount nodes := by
  simp [edgeCount]

theorem Node.length_encode (offset : Name → Nat) (node : Node) :
    (node.encode offset).length = node.size offset := by
  have children : ((node.labels.flatMap fun label =>
      label ++ 0 :: Leb128.encodeUnsigned (offset (node.name ++ label))).length) =
        (node.labels.map fun label =>
          label.length + 1 +
              Leb128.unsignedSize (offset (node.name ++ label))).sum := by
    rw [List.length_flatMap]
    congr 2
    funext label
    simp only [List.length_append, List.length_cons, Leb128.length_encodeUnsigned]
    omega
  unfold Node.encode Node.size
  cases node.payload? <;>
    simp only [List.length_append, List.length_cons, List.length_nil, children,
      Leb128.length_encodeUnsigned, sumOf_eq_sum] <;> omega

theorem length_flatMap_encode (offset : Name → Nat) (nodes : List Node) :
    (nodes.flatMap (Node.encode offset)).length = total offset nodes := by
  induction nodes with
  | nil => rfl
  | cons node nodes ih => simp [ih, Node.length_encode]

variable {lower upper : Name → Nat}

theorem Node.size_mono (le : ∀ name, lower name ≤ upper name) (node : Node) :
    node.size lower ≤ node.size upper := by
  unfold Node.size
  apply Nat.add_le_add_left
  apply List.sum_le_sum
  intro label _
  apply Nat.add_le_add_left
  exact Leb128.unsignedSize_mono (le _)

theorem total_mono (le : ∀ name, lower name ≤ upper name) (nodes : List Node) :
    total lower nodes ≤ total upper nodes := by
  apply List.sum_le_sum
  intro node _
  exact node.size_mono le

/-- An offset of 64 bits takes at most nine bytes more than the offset zero. -/
theorem Node.size_le (fits : ∀ name, upper name < 2 ^ 64) (node : Node) :
    node.size upper ≤ node.size (fun _ => 0) + 9 * node.labels.length := by
  have edges : ∀ labels : List Name,
      (labels.map fun label =>
        label.length + 1 + Leb128.unsignedSize (upper (node.name ++ label))).sum ≤
        (labels.map fun label => label.length + 1 + Leb128.unsignedSize 0).sum +
          9 * labels.length := by
    intro labels
    induction labels with
    | nil => simp
    | cons label labels ih =>
        have width := Leb128.unsignedSize_le (fits (node.name ++ label))
        simp only [List.map_cons, List.sum_cons, List.length_cons,
          Leb128.unsignedSize_zero] at ih ⊢
        omega
  have bound := edges node.labels
  simp only [Node.size, sumOf_eq_sum]
  omega

theorem total_le (fits : ∀ name, upper name < 2 ^ 64) (nodes : List Node) :
    total upper nodes ≤ total (fun _ => 0) nodes + 9 * edgeCount nodes := by
  induction nodes with
  | nil => simp [edgeCount]
  | cons node nodes ih =>
      have size := node.size_le fits
      rw [total_cons, total_cons, edgeCount_cons]
      omega

/-! ## One pass -/

/-- Where a pass puts the node with a given name; zero if there is none. -/
def position (offset : Name → Nat) (name : Name) : (start : Nat) → List Node → Nat
  | _, [] => 0
  | start, node :: nodes =>
      if node.name = name then start
      else position offset name (start + node.size offset) nodes

theorem position_mono (le : ∀ name, lower name ≤ upper name) (name : Name)
    {start later : Nat} (startLe : start ≤ later) (nodes : List Node) :
    position lower name start nodes ≤ position upper name later nodes := by
  induction nodes generalizing start later with
  | nil => exact Nat.le_refl _
  | cons node nodes ih =>
      rw [position, position]
      split
      next => exact startLe
      next =>
        apply ih
        exact Nat.add_le_add startLe (node.size_mono le)

theorem position_le (offset : Name → Nat) (name : Name) (start : Nat)
    (nodes : List Node) :
    position offset name start nodes ≤ start + total offset nodes := by
  induction nodes generalizing start with
  | nil => exact Nat.zero_le _
  | cons node nodes ih =>
      rw [position, total_cons]
      split
      next => omega
      next =>
        have rest := ih (start + node.size offset)
        omega

theorem map_fst_assign (offset : Name → Nat) (start : Nat) (nodes : List Node) :
    (assign offset start nodes).map Prod.fst = nodes.map (·.name) := by
  induction nodes generalizing start with
  | nil => rfl
  | cons node nodes ih => simp [assign, ih]

theorem assign_append (offset : Name → Nat) (start : Nat) (left right : List Node) :
    assign offset start (left ++ right) =
      assign offset start left ++ assign offset (start + total offset left) right := by
  induction left generalizing start with
  | nil => simp [assign]
  | cons node left ih => simp [assign, ih, Nat.add_assoc]

theorem position_of_notMem (offset : Name → Nat) {name : Name} (start : Nat)
    {nodes : List Node} (absent : name ∉ nodes.map (·.name)) :
    position offset name start nodes = 0 := by
  induction nodes generalizing start with
  | nil => rfl
  | cons node nodes ih =>
      rw [List.map_cons, List.mem_cons, not_or] at absent
      rw [position, if_neg (Ne.symm absent.1), ih _ absent.2]

theorem mem_assign_position (offset : Name → Nat) {name : Name} (start : Nat)
    {nodes : List Node} (member : name ∈ nodes.map (·.name)) :
    (name, position offset name start nodes) ∈ assign offset start nodes := by
  induction nodes generalizing start with
  | nil => cases member
  | cons node nodes ih =>
      rw [position, assign]
      split
      next equal => simp [equal]
      next different =>
        rcases List.mem_cons.mp member with equal | later
        · exact (different equal.symm).elim
        · apply List.mem_cons_of_mem
          exact ih _ later

/-- Equal totals of sizes that only grow come from equal sizes. -/
theorem assign_eq_of_total_eq (le : ∀ name, lower name ≤ upper name) (start : Nat)
    {nodes : List Node} (equal : total lower nodes = total upper nodes) :
    assign lower start nodes = assign upper start nodes := by
  induction nodes generalizing start with
  | nil => rfl
  | cons node nodes ih =>
      have size := node.size_mono le
      have rest := total_mono le nodes
      rw [total_cons, total_cons] at equal
      have same : node.size lower = node.size upper := by omega
      rw [assign, assign, same, ih _ (by omega)]

/-- The offsets that a pass makes of the previous ones. -/
def Offsets.pass (nodes : List Node) (offsets : Offsets) : Offsets :=
  Std.HashMap.ofList (assign offsets.at 0 nodes)

variable {nodes : List Node}

theorem distinct_assign (distinct : (nodes.map (·.name)).Nodup) (offset : Name → Nat)
    (start : Nat) :
    (assign offset start nodes).Pairwise fun left right =>
      (left.1 == right.1) = false := by
  rw [← map_fst_assign offset start] at distinct
  apply (List.pairwise_map.mp distinct).imp
  intro left right different
  simpa using different

theorem Offsets.at_pass_of_mem (distinct : (nodes.map (·.name)).Nodup)
    (offsets : Offsets) {name : Name} {place : Nat}
    (member : (name, place) ∈ assign offsets.at 0 nodes) :
    (offsets.pass nodes).at name = place :=
  Std.HashMap.getD_ofList_of_mem (beq_self_eq_true name)
    (distinct_assign distinct offsets.at 0) member

theorem Offsets.at_pass (distinct : (nodes.map (·.name)).Nodup) (offsets : Offsets)
    (name : Name) :
    (offsets.pass nodes).at name = position offsets.at name 0 nodes := by
  by_cases member : name ∈ nodes.map (·.name)
  · exact at_pass_of_mem distinct offsets (mem_assign_position _ 0 member)
  · have unknown :
        ((assign offsets.at 0 nodes).map Prod.fst).contains name = false := by
      rw [map_fst_assign]
      simpa using member
    rw [position_of_notMem _ 0 member]
    exact Std.HashMap.getD_ofList_of_contains_eq_false unknown

/-! ## Passes until nothing changes -/

/-- A pass would change nothing. -/
def Settled (nodes : List Node) (offset : Name → Nat) : Prop :=
  ∀ place ∈ assign offset 0 nodes, offset place.1 = place.2

/-- A pass only moves nodes further back. -/
def Ascending (nodes : List Node) (offsets : Offsets) : Prop :=
  ∀ name, offsets.at name ≤ (offsets.pass nodes).at name

@[simp] theorem Offsets.at_empty (name : Name) : Offsets.at {} name = 0 :=
  Std.HashMap.getD_empty

theorem ascending_empty (nodes : List Node) : Ascending nodes {} := by
  intro name
  rw [Offsets.at_empty]
  exact Nat.zero_le _

variable {offsets : Offsets}

theorem Ascending.pass (ascending : Ascending nodes offsets)
    (distinct : (nodes.map (·.name)).Nodup) :
    Ascending nodes (offsets.pass nodes) := by
  intro name
  rw [Offsets.at_pass distinct (offsets.pass nodes), Offsets.at_pass distinct offsets]
  apply position_mono ascending
  exact Nat.le_refl 0

/-- A pass either makes the nodes larger altogether or settles the offsets. -/
theorem Ascending.grows_or_settled (ascending : Ascending nodes offsets)
    (distinct : (nodes.map (·.name)).Nodup) :
    total offsets.at nodes < total (offsets.pass nodes).at nodes ∨
      Settled nodes (offsets.pass nodes).at := by
  rcases Nat.lt_or_eq_of_le (total_mono ascending nodes) with grows | equal
  · exact .inl grows
  · right
    intro place member
    rw [← assign_eq_of_total_eq ascending 0 equal] at member
    exact Offsets.at_pass_of_mem distinct offsets member

theorem settle_of_settled (settled : Settled nodes offsets.at) (fuel passes : Nat) :
    settle nodes (fuel + 1) passes offsets = ⟨nodes, offsets, passes + 1⟩ := by
  rw [settle]
  apply if_pos
  apply List.all_eq_true.mpr
  intro place member
  exact beq_iff_eq.mpr (settled place member)

theorem settle_of_not_settled (unsettled : ¬ Settled nodes offsets.at)
    (fuel passes : Nat) :
    settle nodes (fuel + 1) passes offsets =
      settle nodes fuel (passes + 1) (offsets.pass nodes) := by
  rw [settle]
  apply if_neg
  intro stays
  apply unsettled
  intro place member
  exact beq_iff_eq.mp (List.all_eq_true.mp stays place member)

/-- Passes from ascending offsets on end with ascending offsets. These are settled,
unless every pass but the last made the nodes larger. -/
theorem settle_spec (distinct : (nodes.map (·.name)).Nodup)
    (ascending : Ascending nodes offsets) (fuel passes : Nat) :
    let layout := settle nodes fuel passes offsets
    layout.nodes = nodes ∧ Ascending nodes layout.offsets ∧
      (Settled nodes layout.offsets.at ∨
        total offsets.at nodes + fuel ≤ total layout.offsets.at nodes + 1) := by
  induction fuel generalizing passes offsets with
  | zero => exact ⟨rfl, ascending, .inr (Nat.le_succ _)⟩
  | succ fuel ih =>
      by_cases settled : Settled nodes offsets.at
      · rw [settle_of_settled settled]
        exact ⟨rfl, ascending, .inl settled⟩
      · rw [settle_of_not_settled settled]
        rcases ih (ascending.pass distinct) (passes + 1) with
            ⟨sameNodes, stillAscending, outcome⟩
        refine ⟨sameNodes, stillAscending, ?_⟩
        rcases ascending.grows_or_settled distinct with grows | nextSettled
        · rcases outcome with done | bound
          · exact .inl done
          · right
            omega
        · cases fuel with
          | zero =>
              have grown := total_mono ascending nodes
              right
              rw [settle]
              exact Nat.succ_le_succ grown
          | succ fuel =>
              rw [settle_of_settled nextSettled]
              exact .inl nextSettled

theorem total_at_empty (nodes : List Node) :
    total (Offsets.at {}) nodes = total (fun _ => 0) nodes := by
  congr 1
  funext name
  exact Offsets.at_empty name

/-- The settled offsets of a trie whose size has 64 bits. -/
theorem Layout.settled_ofNodes (distinct : (nodes.map (·.name)).Nodup)
    (fits : (Layout.ofNodes nodes).size < 2 ^ 64) :
    (Layout.ofNodes nodes).nodes = nodes ∧
      Settled nodes (Layout.ofNodes nodes).offsets.at := by
  rcases settle_spec distinct (ascending_empty nodes) (9 * edgeCount nodes + 2) 0 with
      ⟨sameNodes, ascending, outcome⟩
  change (Layout.ofNodes nodes).nodes = nodes at sameNodes
  change Ascending nodes (Layout.ofNodes nodes).offsets at ascending
  change Settled nodes (Layout.ofNodes nodes).offsets.at ∨
    _ ≤ total (Layout.ofNodes nodes).offsets.at nodes + 1 at outcome
  have whole : total (Layout.ofNodes nodes).offsets.at nodes < 2 ^ 64 := by
    rw [Layout.size, sameNodes] at fits
    exact fits
  have narrow : ∀ name, (Layout.ofNodes nodes).offsets.at name < 2 ^ 64 := by
    intro name
    have later := ascending name
    rw [Offsets.at_pass distinct] at later
    have bound := position_le (Layout.ofNodes nodes).offsets.at name 0 nodes
    omega
  constructor
  · exact sameNodes
  · apply outcome.resolve_right
    intro grown
    have bound := total_le narrow nodes
    rw [total_at_empty] at grown
    omega

/-- Settled offsets put a node behind the ones before it. -/
theorem Settled.offset_eq {offset : Name → Nat} {before after : List Node} {node : Node}
    (settled : Settled (before ++ node :: after) offset) :
    offset node.name = total offset before := by
  have member : (node.name, 0 + total offset before) ∈
      assign offset 0 (before ++ node :: after) := by
    rw [assign_append, assign]
    simp
  have place := settled _ member
  rwa [Nat.zero_add] at place

/-! ## A bound that can be seen without settling -/

theorem settle_size_le (distinct : (nodes.map (·.name)).Nodup)
    (room : total (fun _ => 0) nodes + 9 * edgeCount nodes < 2 ^ 64)
    (narrow : ∀ name, offsets.at name < 2 ^ 64) (fuel passes : Nat) :
    (settle nodes fuel passes offsets).size ≤
      total (fun _ => 0) nodes + 9 * edgeCount nodes := by
  induction fuel generalizing passes offsets with
  | zero => exact total_le narrow nodes
  | succ fuel ih =>
      by_cases settled : Settled nodes offsets.at
      · rw [settle_of_settled settled]
        exact total_le narrow nodes
      · rw [settle_of_not_settled settled]
        apply ih
        intro name
        rw [Offsets.at_pass distinct]
        have bound := position_le offsets.at name 0 nodes
        have size := total_le narrow nodes
        omega

/-- A trie is not larger than with ten bytes for each offset. -/
theorem Layout.size_ofNodes_le (distinct : (nodes.map (·.name)).Nodup)
    (room : total (fun _ => 0) nodes + 9 * edgeCount nodes < 2 ^ 64) :
    (Layout.ofNodes nodes).size ≤ total (fun _ => 0) nodes + 9 * edgeCount nodes := by
  apply settle_size_le distinct room
  intro name
  rw [Offsets.at_empty]
  omega

end Linkedit.Trie
