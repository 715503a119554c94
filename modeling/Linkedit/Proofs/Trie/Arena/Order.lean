import Linkedit.Proofs.Trie.Arena.Route
import Linkedit.Proofs.Trie.Order

/-!
# The order of an arena

The places of an arena are put in the order in which the nodes of its tree are written.
Every node lies on the way of some entry, also those that splitting an edge put there,
so the order holds each place once, and each behind the place whose edge leads to it.
-/

namespace Linkedit.Trie.Arena

/-! ## Meeting places -/

namespace Met

variable {met : Met} {place : Nat}

/-- Whether a place was met. Places outside the arena count as met. -/
def knows (met : Met) (place : Nat) : Bool := met.known.getD place true

theorem meet_of_knows (known : met.knows place) : met.meet place = met := if_pos known

theorem meet_of_new (new : met.knows place = false) :
    met.meet place = ⟨met.known.setIfInBounds place true, met.order.push place⟩ := by
  apply if_neg
  rw [← knows, new]
  exact Bool.false_ne_true

theorem size_known_meet (met : Met) (place : Nat) :
    (met.meet place).known.size = met.known.size := by
  cases known : met.knows place with
  | true => rw [meet_of_knows known]
  | false => rw [meet_of_new known, Array.size_setIfInBounds]

theorem order_meet (met : Met) (place : Nat) :
    (met.meet place).order.toList = met.order.toList ++
      [place].filter (!met.knows ·) := by
  cases known : met.knows place with
  | true => simp [meet_of_knows known, known]
  | false => simp [meet_of_new known, known]

theorem knows_meet (inside : place < met.known.size) (other : Nat) :
    (met.meet place).knows other = (met.knows other || decide (other = place)) := by
  by_cases same : other = place
  · subst same
    cases known : met.knows other with
    | true => simp [meet_of_knows known, known]
    | false => simp [meet_of_new known, knows, inside]
  · cases known : met.knows place with
    | true => simp [meet_of_knows known, same]
    | false =>
        rw [meet_of_new known, knows, knows, Array.getD_eq_getD_getElem?,
          Array.getElem?_setIfInBounds_ne (Ne.symm same), Array.getD_eq_getD_getElem?]
        simp [same]

/-- Meeting places puts those behind the others that were not known. -/
theorem foldl_meet {places : List Nat}
    (inside : ∀ place ∈ places, place < met.known.size) (distinct : places.Nodup) :
    (places.foldl meet met).known.size = met.known.size ∧
      (places.foldl meet met).order.toList =
        met.order.toList ++ places.filter (!met.knows ·) ∧
      ∀ other, (places.foldl meet met).knows other =
        (met.knows other || decide (other ∈ places)) := by
  induction places generalizing met with
  | nil => simp
  | cons first places ih =>
      have firstInside := inside first List.mem_cons_self
      rcases List.nodup_cons.mp distinct with ⟨fresh, restDistinct⟩
      have restInside : ∀ place ∈ places, place < (met.meet first).known.size := by
        intro place later
        rw [size_known_meet]
        exact inside place (List.mem_cons_of_mem _ later)
      rcases ih restInside restDistinct with ⟨size, order, knows⟩
      have unchanged : places.filter (!(met.meet first).knows ·) =
          places.filter (!met.knows ·) := by
        apply List.filter_congr
        intro place later
        have different : place ≠ first := by
          rintro rfl
          exact fresh later
        rw [knows_meet firstInside, decide_eq_false different, Bool.or_false]
      rw [List.foldl_cons]
      refine ⟨size.trans (size_known_meet met first), ?_, ?_⟩
      · rw [order, order_meet, unchanged, List.append_assoc, ← List.filter_append,
          List.singleton_append]
      · intro other
        rw [knows, knows_meet firstInside, Bool.or_assoc]
        simp only [List.mem_cons, Bool.decide_or]

end Met

/-! ## Meeting places as nodes are placed -/

variable {arena : Arena} {tree : Tree} {stored : List Entry} {met : Met}
  {placed : Placement} {name : Name} {links : List Link}

/-- The places that were met are those of the nodes that were placed, in the same
order. -/
structure Met.Mirrors (payload : Nat → List UInt8) (arena : Arena) (met : Met)
    (placed : Placement) : Prop where
  size : met.known.size = arena.size
  inside : ∀ place ∈ met.order.toList, place < arena.size
  order : met.order.toList.map (nodeAt payload arena) = placed.nodes.toList
  knows : ∀ place cell, arena[place]? = some cell →
    (met.knows place ↔ cell.name ∈ placed.names)

theorem mirrors_empty (payload : Nat → List UInt8) (arena : Arena) :
    Met.Mirrors payload arena ⟨Array.replicate arena.size false, #[]⟩ {} where
  size := Array.size_replicate
  inside := by simp
  order := rfl
  knows := by
    intro place cell found
    have inBounds := (Array.getElem?_eq_some_iff.mp found).1
    simp [Met.knows, inBounds]

/-- The places on a way that were not met yet are those of the nodes to be placed. -/
theorem Met.Mirrors.map_filter_places
    (mirrors : met.Mirrors (payloadAt stored) arena placed)
    (holds : Holds stored tree arena) (follows : arena.Follows name 0 links) :
    ((places 0 links).filter (!met.knows ·)).map (nodeAt (payloadAt stored) arena) =
      placed.fresh tree name := by
  rw [Placement.fresh, ← holds.map_places follows, List.filter_map]
  apply congrArg
  apply List.filter_congr
  intro place isMet
  rcases follows.exists_cell holds.linked place isMet with ⟨cell, found, -⟩
  have same := mirrors.knows place cell found
  simp only [Function.comp, nodeAt_eq _ found, Cell.node, ← same]
  simp

/-- The node of a place is placed if and only if the place was met or is on the way. -/
theorem Met.Mirrors.knows_or_mem_places
    (mirrors : met.Mirrors (payloadAt stored) arena placed)
    (holds : Holds stored tree arena) (follows : arena.Follows name 0 links)
    {place : Nat} {cell : Cell} (found : arena[place]? = some cell) :
    met.knows place ∨ place ∈ places 0 links ↔
      cell.name ∈ placed.names ∨ cell.name ∈ (placed.fresh tree name).map (·.name) := by
  rw [mirrors.knows place cell found]
  by_cases known : cell.name ∈ placed.names
  · simp [known]
  · simp only [known, false_or]
    constructor
    · intro isMet
      rcases follows.exists_cell holds.linked place isMet with ⟨same, isSame, begins⟩
      cases found.symm.trans isSame
      have isNode := holds.node_mem (Array.mem_of_getElem? found)
      exact List.mem_map.mpr ⟨_, Placement.mem_fresh.mpr ⟨isNode, begins, known⟩, rfl⟩
    · intro isNew
      rcases List.mem_map.mp isNew with ⟨node, isFresh, named⟩
      have begins := (Placement.mem_fresh.mp isFresh).2.1
      exact follows.mem_of_begins holds found (named ▸ begins)

/-- Meeting the places on the way of a name places the nodes on its path. -/
theorem Met.Mirrors.meetWay (mirrors : met.Mirrors (payloadAt stored) arena placed)
    (sound : placed.Sound tree) (holds : Holds stored tree arena)
    (follows : arena.Follows name 0 links) :
    Met.Mirrors (payloadAt stored) arena ((places 0 links).foldl Met.meet met)
      (placed.placePath name (tree.path name)) := by
  have inside : ∀ place ∈ places 0 links, place < arena.size := by
    intro place isMet
    rcases follows.exists_cell holds.linked place isMet with ⟨cell, found, -⟩
    exact (Array.getElem?_eq_some_iff.mp found).1
  have distinct : (places 0 links).Nodup := by
    apply (follows.ascending holds (payloadAt stored)).imp
    rintro upper lower shorter rfl
    exact Nat.lt_irrefl _ shorter
  rcases Met.foldl_meet (mirrors.size.symm ▸ inside) distinct with ⟨size, order, knows⟩
  rw [sound.placePath_eq holds.canonical]
  constructor
  case size => rw [size, mirrors.size]
  case inside =>
    intro place isMet
    rw [order, List.mem_append] at isMet
    rcases isMet with old | new
    · exact mirrors.inside place old
    · exact inside place (List.mem_of_mem_filter new)
  case order =>
    rw [order, List.map_append, mirrors.order, mirrors.map_filter_places holds follows,
      Placement.foldl_place_nodes]
  case knows =>
    intro place cell found
    rw [knows, Placement.mem_foldl_place_names, Bool.or_eq_true, decide_eq_true_eq]
    exact mirrors.knows_or_mem_places holds follows found

/-- The root is placed with the first path. -/
theorem nil_mem_placePath (canonical : tree.Canonical) (sound : placed.Sound tree)
    (name : Name) : [] ∈ (placed.placePath name (tree.path name)).names := by
  rw [sound.placePath_eq canonical, Placement.mem_foldl_place_names]
  by_cases known : [] ∈ placed.names
  · exact .inl known
  · right
    have isFresh : ⟨[], tree.payload?, tree.edges.labels⟩ ∈ placed.fresh tree name :=
      Placement.mem_fresh.mpr ⟨List.mem_cons_self, List.nil_prefix, known⟩
    exact List.mem_map_of_mem isFresh

/-- The ways of names are met as their paths are placed. -/
theorem Holds.exists_meetWays (holds : Holds stored tree arena)
    (mirrors : met.Mirrors (payloadAt stored) arena placed) (sound : placed.Sound tree)
    (root : [] ∈ placed.names) (names : List Name) :
    ∃ result : Met,
      names.foldlM (fun met name => do return met.meetAll (← arena.route name 0 0))
        met = some result ∧
      result.Mirrors (payloadAt stored) arena
        (names.foldl (fun placed name => placed.placePath name (tree.path name))
          placed) := by
  induction names generalizing met placed with
  | nil => exact ⟨met, rfl, mirrors⟩
  | cons name names ih =>
      rcases holds.exists_follows name with ⟨links, ran, follows⟩
      rcases nameAt_eq_some_iff.mp holds.linked.root with ⟨cell, found, unnamed⟩
      have known := (mirrors.knows 0 cell found).mpr (unnamed ▸ root)
      have whole : (places 0 links).foldl Met.meet met = met.meetAll links := by
        rw [places, List.foldl_cons, Met.meet_of_knows known, Met.meetAll,
          List.foldl_map]
      have next := mirrors.meetWay sound holds follows
      rw [whole] at next
      rcases ih next (sound.placePath holds.canonical name)
        (nil_mem_placePath holds.canonical sound name) with
          ⟨result, rest, resultMirrors⟩
      refine ⟨result, ?_, resultMirrors⟩
      rw [List.foldlM_cons, ran]
      exact rest

/-- The order of the places is that of the nodes of the tree. -/
theorem Holds.exists_layoutOrder (holds : Holds stored tree arena) (names : List Name) :
    ∃ order, arena.layoutOrder names = some order ∧
      (∀ place ∈ order, place < arena.size) ∧
      order.map (nodeAt (payloadAt stored) arena) = tree.layoutOrder names := by
  rcases holds.exists_follows [] with ⟨links, ran, follows⟩
  have atRoot : links = [] := by
    rw [route, List.length_nil, if_neg (Nat.lt_irrefl 0)] at ran
    exact (Option.some_inj.mp ran).symm
  subst atRoot
  have empty := Placement.sound_empty tree
  have start := (mirrors_empty (payloadAt stored) arena).meetWay empty holds follows
  rcases holds.exists_meetWays start (empty.placePath holds.canonical [])
    (nil_mem_placePath holds.canonical empty []) names with ⟨result, met, mirrors⟩
  refine ⟨result.order.toList, ?_, mirrors.inside, mirrors.order⟩
  rw [layoutOrder]
  exact congrArg (· >>= fun met => some met.order.toList) met

/-! ## Each node after the one above it -/

/-- Places in an order that begins with the root and holds each place once, behind the
one whose edge leads to it. -/
structure ParentFirst (arena : Arena) (order : List Nat) : Prop where
  complete : order.Perm (List.range arena.size)
  root : order.head? = some 0
  /-- The places that the edges of a place lead to lie behind it. -/
  children : ∀ before place after, order = before ++ place :: after →
    ∀ cell, arena[place]? = some cell → ∀ link ∈ cell.edges, link.child ∈ after
  /-- An edge leads to a place from before it. -/
  parent : ∀ before place after, order = before ++ place :: after → place ≠ 0 →
    ∃ above ∈ before, ∃ cell, arena[above]? = some cell ∧
      ∃ link ∈ cell.edges, link.child = place

/-- An edge leads to a node whose name goes on from the one above it. -/
theorem Holds.edge_begins (holds : Holds stored tree arena) (payload : Nat → List UInt8)
    {above : Nat} {cell : Cell} (found : arena[above]? = some cell) {link : Link}
    (member : link ∈ cell.edges) :
    (nodeAt payload arena above).name <+: (nodeAt payload arena link.child).name ∧
      link.child ≠ above ∧ link.child < arena.size := by
  rcases holds.linked.exists_child found member with ⟨child, isChild, named⟩
  refine ⟨?_, ?_, (Array.getElem?_eq_some_iff.mp isChild).1⟩
  · rw [nodeAt_eq _ found, nodeAt_eq _ isChild]
    change cell.name <+: child.name
    rw [named]
    exact List.prefix_append _ _
  · intro same
    rw [same, found, Option.some_inj] at isChild
    rw [← isChild] at named
    exact holds.label_ne_nil found member (List.append_right_eq_self.mp named.symm)

section Ordered

variable {order : List Nat} {nodes : List Node}
  (same : order.map (nodeAt (payloadAt stored) arena) = nodes)
  (ordered : nodes.Pairwise fun earlier later => ¬ later.name <+: earlier.name)

include same ordered

theorem nodup_of_ordered : order.Nodup := by
  have distinct := (nodup_names_of_pairwise ordered).of_map
  rw [← same] at distinct
  exact distinct.of_map

/-- Where the nodes are all those of the tree, the places are all. -/
theorem Holds.perm_range (holds : Holds stored tree arena)
    (inside : ∀ place ∈ order, place < arena.size) (complete : nodes.Perm tree.nodes) :
    order.Perm (List.range arena.size) := by
  apply (List.perm_ext_iff_of_nodup (nodup_of_ordered same ordered)
    List.nodup_range).mpr
  intro place
  rw [List.mem_range]
  refine ⟨inside place, ?_⟩
  intro inBounds
  have found := Array.getElem?_eq_getElem inBounds
  have isNode := complete.mem_iff.mpr (holds.node_mem (Array.mem_of_getElem? found))
  rw [← same, List.mem_map] at isNode
  rcases isNode with ⟨other, isPlace, sameNode⟩
  have otherFound := Array.getElem?_eq_getElem (inside other isPlace)
  rw [nodeAt_eq _ otherFound] at sameNode
  have named := nameAt_eq_some_iff.mpr ⟨_, otherFound, congrArg Node.name sameNode⟩
  rw [← holds.nameAt_inj named (nameAt_eq_some_iff.mpr ⟨_, found, rfl⟩)]
  exact isPlace

/-- No node comes behind one whose name goes on from its own. -/
theorem pairwise_of_ordered : order.Pairwise fun earlier later =>
    ¬ (nodeAt (payloadAt stored) arena later).name <+:
      (nodeAt (payloadAt stored) arena earlier).name :=
  List.pairwise_map.mp (same ▸ ordered)

variable {before after : List Nat} {place : Nat} (holds : Holds stored tree arena)
  (isPlace : order.Perm (List.range arena.size))
  (whole : order = before ++ place :: after)

include holds isPlace whole

theorem Holds.child_mem_after {cell : Cell}
    (found : arena[place]? = some cell) {link : Link} (member : link ∈ cell.edges) :
    link.child ∈ after := by
  rcases holds.edge_begins (payloadAt stored) found member with
    ⟨begins, different, inBounds⟩
  have apart := pairwise_of_ordered same ordered
  have isChild := isPlace.mem_iff.mpr (List.mem_range.mpr inBounds)
  rw [whole] at apart isChild
  rcases List.mem_append.mp isChild with isBefore | isBehind
  · exact ((List.pairwise_append.mp apart).2.2 _ isBefore place
      List.mem_cons_self begins).elim
  · exact (List.mem_cons.mp isBehind).resolve_left different

theorem Holds.exists_above_mem_before (notRoot : place ≠ 0) :
    ∃ above ∈ before, ∃ cell, arena[above]? = some cell ∧
      ∃ link ∈ cell.edges, link.child = place := by
  have inBounds : place < arena.size :=
    List.mem_range.mp (isPlace.mem_iff.mp (by simp [whole]))
  rcases holds.linked.exists_parent inBounds notRoot with
    ⟨above, cell, found, link, member, rfl⟩
  rcases holds.edge_begins (payloadAt stored) found member with ⟨begins, different, -⟩
  have apart := pairwise_of_ordered same ordered
  have aboveInBounds := (Array.getElem?_eq_some_iff.mp found).1
  have isAbove := isPlace.mem_iff.mpr (List.mem_range.mpr aboveInBounds)
  rw [whole] at apart isAbove
  rcases List.mem_append.mp isAbove with isBefore | isBehind
  · exact ⟨above, isBefore, cell, found, link, member, rfl⟩
  · have isAfter := (List.mem_cons.mp isBehind).resolve_left (Ne.symm different)
    have behind := (List.pairwise_append.mp apart).2.1
    exact (List.rel_of_pairwise_cons behind isAfter begins).elim

omit isPlace whole

/-- No node comes before one whose name begins its own, so none comes before the one
above. -/
theorem Holds.parentFirst (inside : ∀ place ∈ order, place < arena.size)
    (complete : nodes.Perm tree.nodes) : arena.ParentFirst order := by
  have isPlace := holds.perm_range same ordered inside complete
  constructor
  case complete => exact isPlace
  case root =>
    have hasRoot := isPlace.mem_iff.mpr (List.mem_range.mpr holds.linked.size_pos)
    cases order with
    | nil => cases hasRoot
    | cons first rest =>
        by_contra different
        have notRoot : first ≠ 0 := by simpa using different
        have whole : first :: rest = [] ++ first :: rest := rfl
        rcases holds.exists_above_mem_before same ordered isPlace whole notRoot with
          ⟨above, isBefore, -⟩
        exact absurd isBefore List.not_mem_nil
  case children =>
    intro before place after whole cell found link member
    exact holds.child_mem_after same ordered isPlace whole found member
  case parent =>
    intro before place after whole notRoot
    exact holds.exists_above_mem_before same ordered isPlace whole notRoot

end Ordered

end Linkedit.Trie.Arena
