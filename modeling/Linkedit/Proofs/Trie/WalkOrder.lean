import Linkedit.Proofs.Trie.FirstUse
import Linkedit.Proofs.Trie.RadixTree
import Mathlib.Data.List.Sort

/-!
# Nodes in the order of a walk

Nodes are written in the order in which the paths of the names meet them: by the first
name whose path goes through a node, and from the root on along one path. If the names
are added in the order in which a walk lists them, this is the order in which the walk
meets the nodes. What stays of the names then leaves the nodes that stay in their order.
-/

namespace Linkedit.Trie

variable {names : List Name} {start other : Name}

/-! ## Starts in depth-first order -/

theorem Uses.prefix_get (uses : Uses names start) :
    start <+: names.get ⟨firstUse names start, firstUse_lt_length_iff.mpr uses⟩ := by
  have found := List.findIdx_getElem (w := firstUse_lt_length_iff.mpr uses)
  exact List.isPrefixOf_iff_prefix.mp found

theorem Uses.sublist {kept : List Name} (uses : Uses kept start)
    (fewer : kept.Sublist names) :
    Uses names start := by
  obtain ⟨name, isName, begins⟩ := uses
  exact ⟨name, fewer.subset isName, begins⟩

theorem firstUse_le {index : Nat} (inside : index < names.length)
    (begins : start <+: names[index]) : firstUse names start ≤ index := by
  by_contra earlier
  have found := List.not_of_lt_findIdx (Nat.lt_of_not_le earlier)
  rw [List.isPrefixOf_iff_prefix.mpr begins] at found
  cases found

/-- What begins a start is used no later. -/
theorem firstUse_mono (begins : start <+: other) :
    firstUse names start ≤ firstUse names other := by
  by_cases uses : Uses names other
  · exact firstUse_le _ (begins.trans uses.prefix_get)
  · rw [← firstUse_lt_length_iff, Nat.not_lt] at uses
    exact List.findIdx_le_length.trans uses

/-- Elements of a list that are in order, by their positions. -/
theorem triple_of_getElem {α : Type} {list : List α} {first between last : Nat}
    (firstLt : first < between) (betweenLt : between < last)
    (inside : last < list.length) :
    [list[first], list[between], list[last]].Sublist list := by
  have indices : [(⟨first, by omega⟩ : Fin list.length), ⟨between, by omega⟩,
      ⟨last, inside⟩].Pairwise (· < ·) := by
    simp [firstLt, betweenLt, firstLt.trans betweenLt]
  exact List.map_getElem_sublist indices

/-- Two starts, none of which begins the other. -/
def Part (first second : Name) : Prop := ¬ first <+: second ∧ ¬ second <+: first

theorem Part.not_both {first second name : Name} (part : Part first second)
    (begins : first <+: name) : ¬ second <+: name := by
  intro otherBegins
  cases List.prefix_or_prefix_of_prefix begins otherBegins with
  | inl before => exact part.1 before
  | inr after => exact part.2 after

theorem Part.symm {first second : Name} (part : Part first second) :
    Part second first :=
  ⟨part.2, part.1⟩

theorem Part.longer {first second firstLonger secondLonger : Name}
    (part : Part first second) (begins : first <+: firstLonger)
    (otherBegins : second <+: secondLonger) :
    Part firstLonger secondLonger := by
  constructor
  · intro both
    exact part.symm.not_both otherBegins (begins.trans both)
  · intro both
    exact part.not_both begins (otherBegins.trans both)

/-- In depth-first order the names with one start stand before those with another one if
any two of them do. -/
theorem DepthFirst.firstUse_lt_iff (ordered : DepthFirst names) {first second : Name}
    (part : Part first second) (usesFirst : Uses names first)
    (usesSecond : Uses names second) :
    firstUse names first < firstUse names second ↔
      ∃ left right, [left, right].Sublist names ∧ first <+: left ∧
        second <+: right := by
  have lastInside := firstUse_lt_length_iff.mpr usesSecond
  constructor
  · intro earlier
    have indices :
        [(⟨firstUse names first, earlier.trans lastInside⟩ : Fin names.length),
        ⟨firstUse names second, lastInside⟩].Pairwise (· < ·) := by
      simp [earlier]
    exact ⟨_, _, List.map_getElem_sublist indices, usesFirst.prefix_get,
      usesSecond.prefix_get⟩
  · intro pair
    obtain ⟨left, right, pair, beginsLeft, beginsRight⟩ := pair
    obtain ⟨indices, same, increasing⟩ := List.sublist_eq_map_getElem pair
    match indices, same with
    | [leftIndex, rightIndex], same =>
        simp only [List.map_cons, List.map_nil, List.cons.injEq, and_true] at same
        obtain ⟨rfl, rfl⟩ := same
        have less : leftIndex < rightIndex :=
          List.rel_of_pairwise_cons increasing List.mem_cons_self
        have leftBound := firstUse_le leftIndex.isLt beginsLeft
        by_contra later
        -- A name with the second start would stand before both.
        have before : firstUse names second < leftIndex := by
          apply Nat.lt_of_le_of_ne ((Nat.le_of_not_lt later).trans leftBound)
          intro equal
          have begins := usesSecond.prefix_get
          simp only [equal] at begins
          exact part.not_both beginsLeft begins
        have triple := triple_of_getElem before less rightIndex.isLt
        have begins :=
          ordered.together _ _ _ triple second usesSecond.prefix_get beginsRight
        exact part.not_both beginsLeft begins

theorem Part.firstUse_ne {first second : Name} (part : Part first second)
    (usesFirst : Uses names first) (usesSecond : Uses names second) :
    firstUse names first ≠ firstUse names second := by
  intro same
  have begins := usesSecond.prefix_get
  simp only [← same] at begins
  exact part.not_both usesFirst.prefix_get begins

/-- In depth-first order, what begins with one start comes before what begins with
another one, if the starts do. -/
theorem DepthFirst.firstUse_lt_of_begins (ordered : DepthFirst names)
    {first second firstLonger secondLonger : Name} (part : Part first second)
    (begins : first <+: firstLonger) (otherBegins : second <+: secondLonger)
    (usesFirst : Uses names firstLonger) (usesSecond : Uses names secondLonger)
    (earlier : firstUse names first < firstUse names second) :
    firstUse names firstLonger < firstUse names secondLonger := by
  have longer := part.longer begins otherBegins
  by_contra later
  have different := longer.firstUse_ne usesFirst usesSecond
  have less := Nat.lt_of_le_of_ne (Nat.le_of_not_lt later) different.symm
  obtain ⟨left, right, pair, beginsLeft, beginsRight⟩ :=
    (ordered.firstUse_lt_iff longer.symm usesSecond usesFirst).mp less
  have swapped := (ordered.firstUse_lt_iff part.symm (usesSecond.shorter otherBegins)
    (usesFirst.shorter begins)).mpr
      ⟨left, right, pair, otherBegins.trans beginsLeft, begins.trans beginsRight⟩
  exact Nat.lt_asymm earlier swapped

/-- Names that are left out do not change which of two starts comes first. -/
theorem DepthFirst.firstUse_lt_of_sublist (ordered : DepthFirst names)
    {kept : List Name} (fewer : kept.Sublist names) {first second : Name}
    (part : Part first second) (usesFirst : Uses kept first)
    (usesSecond : Uses kept second)
    (earlier : firstUse kept first < firstUse kept second) :
    firstUse names first < firstUse names second := by
  obtain ⟨left, right, pair, begins⟩ :=
    ((ordered.sublist fewer).firstUse_lt_iff part usesFirst usesSecond).mp earlier
  exact (ordered.firstUse_lt_iff part (usesFirst.sublist fewer)
    (usesSecond.sublist fewer)).mpr ⟨left, right, pair.trans fewer, begins⟩

/-! ## The order in which paths meet nodes -/

/-- A node is met before another one: by an earlier name, or by the same name and nearer
to the root. -/
def MetBefore (names : List Name) (first second : Node) : Prop :=
  firstUse names first.name < firstUse names second.name ∨
    firstUse names first.name = firstUse names second.name ∧
      first.name.length < second.name.length

theorem MetBefore.asymm {first second : Node} (before : MetBefore names first second) :
    ¬ MetBefore names second first := by
  intro after
  unfold MetBefore at before after
  omega

namespace Placement

variable {tree : Tree}

/-- The nodes on the paths of some names, placed one path after the other. -/
def along (tree : Tree) (names : List Name) : Placement :=
  names.foldl (fun placed name => placePath placed name (tree.path name)) {}

/-- Each node lies where the first of the paths meets it. -/
theorem pairwise_metBefore (canonical : tree.Canonical) (names : List Name) :
    (along tree names).nodes.toList.Pairwise (MetBefore names) := by
  induction names using List.reverseRecOn with
  | nil => exact .nil
  | append_singleton names name ih =>
      obtain ⟨sound, reached⟩ := (sound_empty tree).foldl_placePath canonical names
      have next : along tree (names ++ [name]) =
          ((along tree names).fresh tree name).foldl place (along tree names) := by
        rw [along, List.foldl_append]
        exact sound.placePath_eq canonical name
      rw [next, foldl_place_nodes]
      generalize same : along tree names = placed at ih
      rw [along] at same
      rw [same] at sound reached
      have usesPlaced : ∀ node ∈ placed.nodes.toList, Uses names node.name := by
        intro node isPlaced
        have met := (reached node (sound.isNode node isPlaced)).mp isPlaced
        exact met.resolve_left (List.not_mem_nil)
      have firstUse_fresh : ∀ node ∈ placed.fresh tree name,
          firstUse (names ++ [name]) node.name = names.length := by
        intro node isFresh
        obtain ⟨isNode, begins, unknown⟩ := mem_fresh.mp isFresh
        apply firstUse_append_of_not_uses ?_ begins
        intro uses
        exact unknown (sound.name_mem ((reached node isNode).mpr (.inr uses)))
      apply List.pairwise_append.mpr
      refine ⟨?old, ?fresh, ?across⟩
      case old =>
        apply ih.imp_of_mem
        intro first second isFirst isSecond before
        rw [MetBefore, (usesPlaced first isFirst).firstUse_append,
          (usesPlaced second isSecond).firstUse_append]
        exact before
      case fresh =>
        have below := (canonical.pairwise_nodes.filter (·.name.isPrefixOf name)).filter
          fun node => decide (node.name ∉ placed.names)
        apply List.Pairwise.imp_of_mem ?_ below
        intro first second isFirst isSecond apart
        obtain ⟨-, beginsFirst, -⟩ := mem_fresh.mp isFirst
        obtain ⟨-, beginsSecond, -⟩ := mem_fresh.mp isSecond
        right
        refine ⟨(firstUse_fresh first isFirst).trans
          (firstUse_fresh second isSecond).symm, ?_⟩
        by_contra longer
        exact apart (List.prefix_of_prefix_length_le beginsSecond beginsFirst
          (Nat.le_of_not_lt longer))
      case across =>
        intro old isOld new isNew
        left
        have uses := usesPlaced old isOld
        rw [uses.firstUse_append, firstUse_fresh new isNew]
        exact firstUse_lt_length_iff.mpr uses

end Placement

/-! ## The order in which a walk meets nodes -/

theorem Uses.of_cons_nil (uses : Uses ([] :: names) start) (longer : start ≠ []) :
    Uses names start := by
  obtain ⟨name, isName, begins⟩ := uses
  cases List.mem_cons.mp isName with
  | inl root =>
      rw [root, List.prefix_nil] at begins
      exact (longer begins).elim
  | inr isName => exact ⟨name, isName, begins⟩

theorem firstUse_cons_nil (longer : start ≠ []) :
    firstUse ([] :: names) start = firstUse names start + 1 := by
  rw [firstUse, List.findIdx_cons]
  cases start with
  | nil => exact (longer rfl).elim
  | cons byte start => rfl

theorem part_append_cons {common : Name} {first second : UInt8}
    (different : first ≠ second) :
    Part (common ++ [first]) (common ++ [second]) :=
  ⟨not_prefix_of_parting different, not_prefix_of_parting different.symm⟩

/-- What is listed before another name is met before it, if the names are in depth-first
order. -/
theorem ListedBefore.metBefore {first second : Node}
    (before : ListedBefore names first.name second.name) (ordered : DepthFirst names)
    (usesFirst : Uses ([] :: names) first.name)
    (usesSecond : Uses ([] :: names) second.name) :
    MetBefore ([] :: names) first second := by
  rw [MetBefore]
  generalize first.name = upper at *
  generalize second.name = lower at *
  cases before with
  | above begins different =>
      apply (Nat.lt_or_eq_of_le (firstUse_mono begins)).imp_right
      intro same
      refine ⟨same, Nat.lt_of_le_of_ne begins.length_le ?_⟩
      intro sameLength
      exact different (begins.eq_of_length sameLength)
  | @apart common left right first second different earlier =>
      left
      rw [firstUse_cons_nil (by simp), firstUse_cons_nil (by simp)]
      apply Nat.succ_lt_succ
      apply ordered.firstUse_lt_of_begins (part_append_cons different) ?_ ?_
        (usesFirst.of_cons_nil (by simp)) (usesSecond.of_cons_nil (by simp)) earlier
      · exact ⟨left, by simp⟩
      · exact ⟨right, by simp⟩

namespace Tree

variable {tree : Tree} {stored : List Entry}

theorem uses_of_mem_nodes (built : ofEntries stored = .ok tree) {name : Name}
    (member : name ∈ tree.nodes.map (·.name)) :
    Uses ([] :: stored.map (·.name)) name := by
  obtain ⟨canonical, whole⟩ := canonical_of_ofEntries built
  obtain ⟨node, isNode, rfl⟩ := List.mem_map.mp member
  obtain ⟨other, isName, begins⟩ := canonical.exists_name_begins isNode
  refine ⟨other, ?_, begins⟩
  rw [List.mem_cons] at isName ⊢
  exact isName.imp_right (whole.map _).mem_iff.mp

/-- If entries are in depth-first order, a walk meets the nodes of their tree as their
paths do. -/
theorem pairwise_metBefore_nodes (built : ofEntries stored = .ok tree)
    (ordered : DepthFirst (stored.map (·.name))) :
    tree.nodes.Pairwise (MetBefore ([] :: stored.map (·.name))) := by
  apply List.Pairwise.imp_of_mem ?_
    (List.pairwise_map.mp (pairwise_nodes_of_ofEntries built))
  intro first second isFirst isSecond before
  have usesFirst := uses_of_mem_nodes built (List.mem_map_of_mem isFirst)
  have usesSecond := uses_of_mem_nodes built (List.mem_map_of_mem isSecond)
  exact before.metBefore ordered usesFirst usesSecond

/-- If entries are in depth-first order, the nodes of their tree are written in the
order of a walk. -/
theorem layoutOrder_of_depthFirst (built : ofEntries stored = .ok tree)
    (ordered : DepthFirst (stored.map (·.name))) :
    tree.layoutOrder (stored.map (·.name)) = tree.nodes := by
  have canonical := (canonical_of_ofEntries built).1
  have written := Placement.pairwise_metBefore canonical ([] :: stored.map (·.name))
  apply (layoutOrder_of_ofEntries built).1.eq_of_pairwise ?_ written
    (pairwise_metBefore_nodes built ordered)
  intro first second _ _ before after
  exact (before.asymm after).elim

end Tree

/-! ## Nodes that stay -/

/-- If names are left out of names in depth-first order, those that stay are listed
before one another as they were. -/
theorem ListedBefore.of_sublist {kept : List Name} {first second : Name}
    (before : ListedBefore kept first second) (ordered : DepthFirst names)
    (fewer : kept.Sublist names) (usesFirst : Uses ([] :: kept) first)
    (usesSecond : Uses ([] :: kept) second) : ListedBefore names first second := by
  cases before with
  | above begins different => exact .above begins different
  | @apart common left right first second different earlier =>
      apply ListedBefore.apart different
      apply ordered.firstUse_lt_of_sublist fewer
        (part_append_cons different) ?_ ?_ earlier
      · exact (usesFirst.of_cons_nil (by simp)).shorter ⟨left, by simp⟩
      · exact (usesSecond.of_cons_nil (by simp)).shorter ⟨right, by simp⟩

namespace Tree

variable {tree kept : Tree} {stored chosen : List Entry}

/-- A tree of fewer entries has no other nodes. -/
theorem Canonical.names_subset (canonical : tree.Canonical)
    (keptCanonical : kept.Canonical) (fewer : kept.entries ⊆ tree.entries) :
    kept.nodes.map (·.name) ⊆ tree.nodes.map (·.name) := by
  intro name isNode
  rw [canonical.mem_node_names_iff]
  rcases (keptCanonical.mem_node_names_iff name).mp isNode with
    root | isName | ⟨left, isLeft, right, isRight, common⟩
  · exact .inl root
  · exact .inr (.inl (List.map_subset _ fewer isName))
  · exact .inr (.inr ⟨left, fewer isLeft, right, fewer isRight, common⟩)

/-- A tree of some of the entries, which are in depth-first order, has some of the
nodes, in the same order. -/
theorem names_sublist (built : ofEntries stored = .ok tree)
    (keptBuilt : ofEntries chosen = .ok kept)
    (ordered : DepthFirst (stored.map (·.name))) (part : chosen.Sublist stored) :
    (kept.nodes.map (·.name)).Sublist (tree.nodes.map (·.name)) := by
  obtain ⟨canonical, whole⟩ := canonical_of_ofEntries built
  obtain ⟨keptCanonical, keptWhole⟩ := canonical_of_ofEntries keptBuilt
  have fewer : kept.entries ⊆ tree.entries := by
    intro entry stays
    exact whole.mem_iff.mpr (part.subset (keptWhole.mem_iff.mp stays))
  have subset := canonical.names_subset keptCanonical fewer
  have antisymm : Std.Antisymm (ListedBefore (stored.map (·.name))) := by
    constructor
    intro first second before after
    exact (before.asymm after).elim
  have keptOrder :
      (kept.nodes.map (·.name)).Pairwise (ListedBefore (stored.map (·.name))) := by
    apply List.Pairwise.imp_of_mem ?_ (pairwise_nodes_of_ofEntries keptBuilt)
    intro first second isFirst isSecond before
    exact before.of_sublist ordered (part.map _) (uses_of_mem_nodes keptBuilt isFirst)
      (uses_of_mem_nodes keptBuilt isSecond)
  exact List.sublist_of_subperm_of_pairwise
    (List.subperm_of_subset keptCanonical.nodup_names subset) keptOrder
    (pairwise_nodes_of_ofEntries built)

end Tree

end Linkedit.Trie
