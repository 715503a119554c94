import Linkedit.Trie.Arena.Layout
import Linkedit.Proofs.Trie.Building
import Mathlib.Data.List.Pairwise

/-!
# Ways down an arena

A name is followed down an arena over the nodes whose names begin it, from the root on,
and over all of them. So the way of an entry's name ends at the node where the entry
ends, and no other way has labels that make up the name.
-/

namespace Linkedit.Trie.Arena

variable {arena : Arena} {tree : Tree} {stored : List Entry}
  {place last : Nat} {cell : Cell} {name : Name} {links : List Link}

/-! ## Ways -/

/-- Edges that lead from one place to another. -/
inductive Leads (arena : Arena) : Nat → List Link → Nat → Prop where
  | here {place : Nat} : Leads arena place [] place
  | step {place last : Nat} {cell : Cell} {link : Link} {links : List Link}
      (found : arena[place]? = some cell) (member : link ∈ cell.edges)
      (onward : Leads arena link.child links last) :
        Leads arena place (link :: links) last

/-- The edges at which a name is followed down: each of them continues the name, and
none does where they end. -/
inductive Follows (arena : Arena) (name : Name) : Nat → List Link → Prop where
  | stop {place : Nat} {cell : Cell} (found : arena[place]? = some cell)
      (ends : ∀ link ∈ cell.edges, ¬ cell.name ++ link.label <+: name) :
      Follows arena name place []
  | step {place : Nat} {cell : Cell} {link : Link} {links : List Link}
      (found : arena[place]? = some cell) (member : link ∈ cell.edges)
      (continues : cell.name ++ link.label <+: name)
      (onward : Follows arena name link.child links) :
        Follows arena name place (link :: links)

namespace Holds

theorem label_ne_nil (holds : Holds stored tree arena)
    (found : arena[place]? = some cell) {link : Link} (member : link ∈ cell.edges) :
    link.label ≠ [] :=
  (holds.siblingLabels (Array.mem_of_getElem? found)).nonempty _
    (List.mem_map_of_mem member)

/-- Two edges of a node that continue one name are the same. -/
theorem link_unique (holds : Holds stored tree arena)
    (found : arena[place]? = some cell) {link other : Link} (member : link ∈ cell.edges)
    (otherMember : other ∈ cell.edges) (continues : cell.name ++ link.label <+: name)
    (otherContinues : cell.name ++ other.label <+: name) : link = other := by
  have apart := (holds.siblingLabels (Array.mem_of_getElem? found)).apart
  have sameHead := Edges.head?_eq_of_begins (holds.label_ne_nil found member)
    (holds.label_ne_nil found otherMember) continues otherContinues
  by_contra different
  have symm : Std.Symm fun first second : Link =>
      first.label.head? ≠ second.label.head? :=
    ⟨fun _ _ => Ne.symm⟩
  exact (List.pairwise_map.mp apart).forall member otherMember different sameHead

end Holds

theorem isPrefixOf_drop_iff {above label : Name} (begins : above <+: name) :
    label.isPrefixOf (name.drop above.length) ↔ above ++ label <+: name := by
  rcases begins with ⟨rest, rfl⟩
  rw [List.drop_left, List.isPrefixOf_iff_prefix, List.prefix_append_right_inj]

/-- Following a name comes to an end, where no edge continues it. -/
theorem Holds.exists_route (holds : Holds stored tree arena)
    (found : arena[place]? = some cell) (begins : cell.name <+: name) :
    ∃ links, arena.route name place cell.name.length = some links ∧
      arena.Follows name place links := by
  induction left : name.length - cell.name.length using Nat.strong_induction_on
    generalizing place cell with
  | h left ih =>
      rw [route, getD_eq found]
      split
      next shorter =>
        split
        next noLink =>
          refine ⟨[], rfl, .stop found ?_⟩
          intro link member continues
          have skipped := List.find?_eq_none.mp noLink link member
          exact skipped ((isPrefixOf_drop_iff begins).mpr continues)
        next link isLink =>
          have member := List.mem_of_find?_eq_some isLink
          have starts := List.find?_some isLink
          have continues := (isPrefixOf_drop_iff begins).mp starts
          rcases holds.linked.exists_child found member with ⟨child, isChild, named⟩
          have positive := List.length_pos_iff.mpr (holds.label_ne_nil found member)
          have longer : child.name.length = cell.name.length + link.label.length := by
            rw [named, List.length_append]
          rw [← named] at continues
          rcases ih _ (by omega) isChild continues rfl with ⟨links, ran, follows⟩
          rw [longer] at ran
          rw [named] at continues
          refine ⟨link :: links, ?_, .step found member continues follows⟩
          rw [if_pos positive, ran]
          rfl
      next whole =>
        refine ⟨[], rfl, .stop found ?_⟩
        intro link member continues
        have positive := List.length_pos_iff.mpr (holds.label_ne_nil found member)
        have bound := continues.length_le
        rw [List.length_append] at bound
        omega

/-- Every name is followed down from the root. -/
theorem Holds.exists_follows (holds : Holds stored tree arena) (name : Name) :
    ∃ links, arena.route name 0 0 = some links ∧ arena.Follows name 0 links := by
  rcases nameAt_eq_some_iff.mp holds.linked.root with ⟨root, found, unnamed⟩
  have route :=
    holds.exists_route found (unnamed ▸ List.nil_prefix : root.name <+: name)
  rwa [unnamed] at route

/-! ## The nodes on a way -/

/-- The node at a place, where the entries have the given payloads. -/
def nodeAt (payload : Nat → List UInt8) (arena : Arena) (place : Nat) : Node :=
  (arena.getD place {}).node payload

theorem nodeAt_eq (payload : Nat → List UInt8) (found : arena[place]? = some cell) :
    nodeAt payload arena place = cell.node payload := by
  rw [nodeAt, getD_eq found]

/-- The places on a way that begins at a place. -/
def places (place : Nat) (links : List Link) : List Nat := place :: links.map (·.child)

namespace Follows

/-- The names of the nodes on the way begin the name. -/
theorem exists_begins (follows : arena.Follows name place links)
    (linked : arena.Linked (stored.map (·.name))) (found : arena[place]? = some cell)
    (begins : cell.name <+: name) :
    ∀ other ∈ places place links, ∃ below, arena[other]? = some below ∧
      cell.name <+: below.name ∧ below.name <+: name := by
  induction follows generalizing cell with
  | @stop place own foundOwn ends =>
      intro other member
      rw [List.mem_singleton.mp member]
      exact ⟨cell, found, List.prefix_rfl, begins⟩
  | @step place own link links foundOwn isLink continues onward ih =>
      cases found.symm.trans foundOwn
      intro other member
      rcases List.mem_cons.mp member with rfl | later
      · exact ⟨_, found, List.prefix_rfl, begins⟩
      · rcases linked.exists_child found isLink with ⟨child, isChild, named⟩
        rcases ih isChild (named ▸ continues) other later with
          ⟨below, isBelow, longer, whole⟩
        rw [named] at longer
        exact ⟨below, isBelow, (List.prefix_append _ _).trans longer, whole⟩

theorem exists_cell (follows : arena.Follows name 0 links)
    (linked : arena.Linked (stored.map (·.name))) :
    ∀ place ∈ places 0 links, ∃ cell, arena[place]? = some cell ∧
      cell.name <+: name := by
  intro place met
  rcases nameAt_eq_some_iff.mp linked.root with ⟨root, isRoot, unnamed⟩
  have begins : root.name <+: name := unnamed ▸ List.nil_prefix
  rcases follows.exists_begins linked isRoot begins place met with
    ⟨cell, found, -, whole⟩
  exact ⟨cell, found, whole⟩

/-- Names grow on the way. -/
theorem ascending (follows : arena.Follows name place links)
    (holds : Holds stored tree arena) (payload : Nat → List UInt8) :
    (places place links).Pairwise fun upper lower =>
      (nodeAt payload arena upper).name.length <
          (nodeAt payload arena lower).name.length := by
  induction follows with
  | stop => exact List.pairwise_singleton _ _
  | @step place cell link links found member continues onward ih =>
      apply List.Pairwise.cons ?_ ih
      intro other later
      rcases holds.linked.exists_child found member with ⟨child, isChild, named⟩
      rcases onward.exists_begins holds.linked isChild (named ▸ continues)
          other later with
        ⟨below, isBelow, begins, -⟩
      have positive := List.length_pos_iff.mpr (holds.label_ne_nil found member)
      have bound := begins.length_le
      rw [named, List.length_append] at bound
      rw [nodeAt_eq payload found, nodeAt_eq payload isBelow]
      change cell.name.length < below.name.length
      omega

/-- Where an edge continues the name, the way goes on along it. -/
theorem child_mem (follows : arena.Follows name place links)
    (holds : Holds stored tree arena) {other : Nat} (met : other ∈ places place links)
    (found : arena[other]? = some cell) {link : Link} (member : link ∈ cell.edges)
    (continues : cell.name ++ link.label <+: name) :
    link.child ∈ links.map (·.child) := by
  induction follows with
  | stop foundOwn ends =>
      rw [List.mem_singleton.mp met] at found
      cases found.symm.trans foundOwn
      exact (ends link member continues).elim
  | @step place own first links foundOwn isFirst firstContinues onward ih =>
      rcases List.mem_cons.mp met with rfl | later
      · cases found.symm.trans foundOwn
        rw [holds.link_unique found member isFirst continues firstContinues]
        exact List.mem_cons_self
      · exact List.mem_cons_of_mem _ (ih later)

/-- A way from the root meets every node whose name begins the name. -/
theorem mem_of_begins (follows : arena.Follows name 0 links)
    (holds : Holds stored tree arena) (found : arena[place]? = some cell)
    (begins : cell.name <+: name) :
    place ∈ places 0 links := by
  have reached := holds.reaches found
  induction reached generalizing cell with
  | root => exact List.mem_cons_self
  | @child above parent link _ isParent member ih =>
      rcases holds.linked.exists_child isParent member with ⟨child, isChild, named⟩
      cases found.symm.trans isChild
      rw [named] at begins
      have met := ih isParent ((List.prefix_append _ _).trans begins)
      exact List.mem_cons_of_mem _ (follows.child_mem holds met isParent member begins)

/-- The node of the whole name is the last one on the way. -/
theorem leads (follows : arena.Follows name place links)
    (holds : Holds stored tree arena) (met : last ∈ places place links)
    (named : arena.nameAt last = some name) :
    arena.Leads place links last := by
  induction follows with
  | stop =>
      rw [List.mem_singleton.mp met]
      exact .here
  | @step place cell link links found member continues onward ih =>
      rcases List.mem_cons.mp met with rfl | later
      · rw [nameAt, found, Option.map_some, Option.some_inj] at named
        have positive := List.length_pos_iff.mpr (holds.label_ne_nil found member)
        have bound := continues.length_le
        rw [List.length_append, named] at bound
        omega
      · exact .step found member (ih later)

end Follows

theorem Holds.mem_map_places (holds : Holds stored tree arena)
    (follows : arena.Follows name 0 links) {node : Node} :
    node ∈ (places 0 links).map (nodeAt (payloadAt stored) arena) ↔
      node ∈ tree.nodes ∧ node.name <+: name := by
  rw [List.mem_map]
  constructor
  · rintro ⟨place, met, rfl⟩
    rcases follows.exists_cell holds.linked place met with ⟨cell, found, begins⟩
    rw [nodeAt_eq _ found]
    exact ⟨holds.node_mem (Array.mem_of_getElem? found), begins⟩
  · rintro ⟨isNode, begins⟩
    rcases List.mem_map.mp (holds.nodes.mem_iff.mpr isNode) with ⟨cell, isCell, rfl⟩
    rcases Array.getElem?_of_mem (Array.mem_toList_iff.mp isCell) with ⟨place, found⟩
    exact ⟨place, follows.mem_of_begins holds found begins, nodeAt_eq _ found⟩

/-- The way of a name meets the nodes whose names begin it. -/
theorem Holds.map_places (holds : Holds stored tree arena)
    (follows : arena.Follows name 0 links) :
    (places 0 links).map (nodeAt (payloadAt stored) arena) =
      tree.nodes.filter (·.name.isPrefixOf name) := by
  have ascending : ((places 0 links).map (nodeAt (payloadAt stored) arena)).Pairwise
      fun upper lower => upper.name.length < lower.name.length :=
    List.pairwise_map.mpr (follows.ascending holds (payloadAt stored))
  have filtered : (tree.nodes.filter (·.name.isPrefixOf name)).Pairwise
      fun upper lower => upper.name.length < lower.name.length := by
    apply (holds.canonical.pairwise_nodes.filter _).imp_of_mem
    intro upper lower isUpper isLower apart
    have upperBegins := List.isPrefixOf_iff_prefix.mp (List.mem_filter.mp isUpper).2
    have lowerBegins := List.isPrefixOf_iff_prefix.mp (List.mem_filter.mp isLower).2
    by_contra longer
    exact apart
      (List.prefix_of_prefix_length_le lowerBegins upperBegins
        (Nat.le_of_not_lt longer))
  -- Both lists ascend, so they are equal once they have the same members.
  refine List.Perm.eq_of_pairwise ?_ ascending filtered ?_
  · intro first second _ _ before after
    exact (Nat.lt_asymm before after).elim
  · apply (List.perm_ext_iff_of_nodup (ascending.imp ?_) (filtered.imp ?_)).mpr
    · intro node
      rw [holds.mem_map_places follows, List.mem_filter, List.isPrefixOf_iff_prefix]
    all_goals
      rintro first second shorter rfl
      exact Nat.lt_irrefl _ shorter

/-! ## The way of an entry -/

/-- Labels on a way lead from the name at its start to the name at its end. -/
theorem Leads.nameAt_last (leads : arena.Leads place links last)
    (linked : arena.Linked (stored.map (·.name))) {above : Name}
    (named : arena.nameAt place = some above) :
    arena.nameAt last = some (above ++ links.flatMap (·.label)) := by
  induction leads generalizing above with
  | here => rw [named, List.flatMap_nil, List.append_nil]
  | @step place last cell link links found member onward ih =>
      rw [nameAt, found, Option.map_some, Option.some_inj] at named
      have below := linked.linked cell
        (Array.mem_toList_iff.mpr (Array.mem_of_getElem? found)) link member
      rw [ih below, List.flatMap_cons, named, List.append_assoc]

/-- Only one way from a node has labels that make up a name. -/
theorem Leads.unique (leads : arena.Leads place links last)
    (holds : Holds stored tree arena) {others : List Link} {other : Nat}
    (otherLeads : arena.Leads place others other)
    (same : others.flatMap (·.label) = links.flatMap (·.label)) : others = links := by
  have nonempty : ∀ {place : Nat} {cell : Cell} {link : Link} {rest : Name},
      arena[place]? = some cell → link ∈ cell.edges → link.label ++ rest ≠ [] := by
    intro place cell link rest found member
    apply List.append_ne_nil_of_left_ne_nil
    exact holds.label_ne_nil found member
  induction leads generalizing others with
  | here =>
      cases otherLeads with
      | here => rfl
      | step found member => exact (nonempty found member same).elim
  | @step place last cell link links found member onward ih =>
      cases otherLeads with
      | here => exact (nonempty found member same.symm).elim
      | @step _ _ own first rest foundOwn isFirst firstOnward =>
          cases found.symm.trans foundOwn
          rw [List.flatMap_cons, List.flatMap_cons] at same
          have begins : cell.name ++ link.label <+:
              cell.name ++ (link.label ++ links.flatMap (·.label)) := by
            rw [← List.append_assoc]
            exact List.prefix_append _ _
          have firstBegins : cell.name ++ first.label <+:
              cell.name ++ (link.label ++ links.flatMap (·.label)) := by
            rw [← same, ← List.append_assoc]
            exact List.prefix_append _ _
          cases holds.link_unique found member isFirst begins firstBegins
          rw [ih firstOnward (List.append_cancel_left same)]

/-- The way along which the name of an entry is looked up. -/
structure Way (arena : Arena) (name : Name) (index : Nat) (links : List Link)
    (last : Nat) :
    Prop where
  routed : arena.route name 0 0 = some links
  leads : arena.Leads 0 links last
  labels : links.flatMap (·.label) = name
  /-- The entry ends where the way ends. -/
  ends : ∃ cell, arena[last]? = some cell ∧ cell.terminal? = some index
  /-- No other way has labels that make up the name. -/
  only : ∀ others other, arena.Leads 0 others other → others.flatMap (·.label) = name →
    others = links

/-- The name of an entry is followed down the only way whose labels make it up, to the
node where the entry ends. -/
theorem Holds.exists_way (holds : Holds stored tree arena)
    (whole : tree.entries.Perm stored) {index : Nat} {entry : Entry}
    (isEntry : stored[index]? = some entry) :
    ∃ links last, arena.Way entry.name index links last := by
  have radix := holds.radixTreeOf whole
  have isName : entry.name ∈ stored.map (·.name) :=
    List.mem_map_of_mem (List.mem_of_getElem? isEntry)
  rcases (radix.names entry.name).mpr (.inr (.inl isName)) with ⟨cell, isCell, named⟩
  rcases Array.getElem?_of_mem isCell with ⟨place, found⟩
  have placeNamed : arena.nameAt place = some entry.name :=
    nameAt_eq_some_iff.mpr ⟨cell, found, named⟩
  have ends : cell.terminal? = some index := by
    apply (radix.terminal cell isCell index).mpr
    rw [isEntry, Option.map_some, named]
  rcases holds.exists_follows entry.name with ⟨links, ran, follows⟩
  have met := follows.mem_of_begins holds found (named ▸ List.prefix_rfl)
  have leads := follows.leads holds met placeNamed
  have labels := leads.nameAt_last holds.linked holds.linked.root
  rw [placeNamed, List.nil_append, Option.some_inj] at labels
  refine ⟨links, place, ran, leads, labels.symm, ⟨cell, found, ends⟩, ?_⟩
  intro others other otherLeads same
  exact leads.unique holds otherLeads (same.trans labels)

end Linkedit.Trie.Arena
