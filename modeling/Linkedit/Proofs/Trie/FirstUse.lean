import Linkedit.Proofs.Trie.Composition
import Mathlib.Data.List.Lex

/-!
# The order in which a trie lists its names

A name is listed before the ones that go on from it. Names that part are listed in the
order in which the names first took the two ways behind their common start. Adding a
name keeps this order: a way that is taken already stays where it is, and a new way is
the last one at its node.
-/

namespace Linkedit.Trie

/-! ## The first use of a start -/

/-- The position of the first of some names that begins with `start`, or the number of
names if none does. -/
def firstUse (names : List Name) (start : Name) : Nat :=
  names.findIdx (start.isPrefixOf ·)

variable {names : List Name} {start name : Name}

/-- Some name begins with `start`. -/
def Uses (names : List Name) (start : Name) : Prop := ∃ name ∈ names, start <+: name

theorem Uses.shorter (uses : Uses names start) {above : Name}
    (begins : above <+: start) :
    Uses names above := by
  obtain ⟨name, isName, beginsName⟩ := uses
  exact ⟨name, isName, begins.trans beginsName⟩

theorem Uses.append (uses : Uses names start) (name : Name) :
    Uses (names ++ [name]) start := by
  obtain ⟨used, isName, begins⟩ := uses
  exact ⟨used, List.mem_append_left _ isName, begins⟩

theorem uses_append_of_begins (names : List Name) (begins : start <+: name) :
    Uses (names ++ [name]) start :=
  ⟨name, List.mem_append_right _ List.mem_cons_self, begins⟩

theorem firstUse_lt_length_iff :
    firstUse names start < names.length ↔ Uses names start := by
  rw [firstUse, List.findIdx_lt_length]
  simp only [List.isPrefixOf_iff_prefix, Uses]

/-- Another name does not change where a start was first used. -/
theorem Uses.firstUse_append (uses : Uses names start) (name : Name) :
    firstUse (names ++ [name]) start = firstUse names start := by
  have found := firstUse_lt_length_iff.mpr uses
  rw [firstUse] at found
  rw [firstUse, firstUse, List.findIdx_append, if_pos found]

/-- A start that was not used before is first used by the name that is added. -/
theorem firstUse_append_of_not_uses (unused : ¬ Uses names start)
    (begins : start <+: name) :
    firstUse (names ++ [name]) start = names.length := by
  have missing := mt firstUse_lt_length_iff.mp unused
  rw [firstUse] at missing
  rw [firstUse, List.findIdx_append, if_neg missing, List.findIdx_cons,
    List.isPrefixOf_iff_prefix.mpr begins]
  exact Nat.zero_add _

/-! ## The order of names -/

/-- A name comes before another one: it begins the other one, or both go on differently
behind their longest common start and its way was taken first. -/
inductive ListedBefore (names : List Name) : Name → Name → Prop where
  | above {upper lower : Name} (begins : upper <+: lower) (different : upper ≠ lower) :
      ListedBefore names upper lower
  | apart {common left right : Name} {first second : UInt8} (different : first ≠ second)
      (earlier : firstUse names (common ++ [first]) <
        firstUse names (common ++ [second])) :
      ListedBefore names (common ++ first :: left) (common ++ second :: right)

/-- Two names have one longest common start and one way behind it each. -/
theorem parting_unique {common other left right otherLeft otherRight : Name}
    {first second otherFirst otherSecond : UInt8} (different : first ≠ second)
    (otherDifferent : otherFirst ≠ otherSecond)
    (sameFirst : common ++ first :: left = other ++ otherFirst :: otherLeft)
    (sameSecond : common ++ second :: right = other ++ otherSecond :: otherRight) :
    common = other ∧ first = otherFirst ∧ second = otherSecond := by
  induction common generalizing other with
  | nil =>
      cases other with
      | nil =>
          cases sameFirst
          cases sameSecond
          exact ⟨rfl, rfl, rfl⟩
      | cons byte other =>
          cases sameFirst
          cases sameSecond
          exact (different rfl).elim
  | cons byte common ih =>
      cases other with
      | nil =>
          cases sameFirst
          cases sameSecond
          exact (otherDifferent rfl).elim
      | cons otherByte other =>
          obtain ⟨rfl, tailFirst⟩ := List.cons.inj sameFirst
          obtain ⟨-, tailSecond⟩ := List.cons.inj sameSecond
          obtain ⟨rfl, sameWays⟩ := ih tailFirst tailSecond
          exact ⟨rfl, sameWays⟩

/-- Names that part do not begin one another. -/
theorem not_prefix_of_parting {common left right : Name} {first second : UInt8}
    (different : first ≠ second) :
    ¬ common ++ first :: left <+: common ++ second :: right := by
  rw [List.prefix_append_right_inj, List.cons_prefix_cons]
  intro begins
  exact different begins.1

theorem ListedBefore.asymm {first second : Name}
    (before : ListedBefore names first second) :
    ¬ ListedBefore names second first := by
  intro after
  cases before with
  | above begins different =>
      generalize sameFirst : first = upper at after
      generalize sameSecond : second = lower at after
      cases after with
      | above beginsBack _ =>
          subst sameFirst sameSecond
          exact different (begins.eq_of_length_le beginsBack.length_le)
      | apart parted _ =>
          subst sameFirst sameSecond
          exact not_prefix_of_parting parted.symm begins
  | @apart common left right firstByte secondByte different earlier =>
      generalize sameFirst : common ++ firstByte :: left = lower at after
      generalize sameSecond : common ++ secondByte :: right = upper at after
      cases after with
      | above begins _ =>
          subst sameFirst sameSecond
          exact not_prefix_of_parting different.symm begins
      | apart parted later =>
          obtain ⟨rfl, rfl, rfl⟩ :=
            parting_unique different parted.symm sameFirst sameSecond
          exact Nat.lt_asymm earlier later

/-! ## Edges in the order of their first use -/

namespace Edges

variable {payload : List UInt8} {edges result : Edges} {above label : Name}

/-- The edges of every node are used by some name, and they are in the order in which
the names first used their first bytes. -/
inductive InOrder (names : List Name) : (above : Name) → Edges → Prop where
  | none {above : Name} : InOrder names above .none
  | edge {above label : Name} {payload? : Option (List UInt8)} {below rest : Edges}
      (used : Uses names (above ++ label))
      (earlier : ∀ other ∈ rest.labels,
        firstUse names (above ++ label.take 1) < firstUse names (above ++ other.take 1))
      (belowInOrder : below.InOrder names (above ++ label))
      (restInOrder : rest.InOrder names above) :
      InOrder names above (.edge label payload? below rest)

theorem InOrder.uses_label (inOrder : edges.InOrder names above) {label : Name}
    (member : label ∈ edges.labels) : Uses names (above ++ label) := by
  induction inOrder with
  | none => cases member
  | edge used _ _ _ _ restIH =>
      cases List.mem_cons.mp member with
      | inl same => rwa [same]
      | inr later => exact restIH later

theorem InOrder.uses_first (inOrder : edges.InOrder names above) {label : Name}
    (member : label ∈ edges.labels) : Uses names (above ++ label.take 1) := by
  apply (inOrder.uses_label member).shorter
  exact (List.prefix_append_right_inj above).mpr (List.take_prefix 1 label)

/-- Another name keeps the order of the edges. -/
theorem InOrder.append (inOrder : edges.InOrder names above) (name : Name) :
    edges.InOrder (names ++ [name]) above := by
  induction inOrder with
  | none => exact .none
  | @edge above label payload? below rest used earlier below rest belowIH restIH =>
      apply InOrder.edge (used.append name) ?_ belowIH restIH
      intro other member
      have usedFirst : Uses names (above ++ label.take 1) :=
        used.shorter
          ((List.prefix_append_right_inj above).mpr (List.take_prefix 1 label))
      rw [usedFirst.firstUse_append, (rest.uses_first member).firstUse_append]
      exact earlier other member

/-- The names that begin like a name to be added below some edges are the names of
entries there. -/
def Knows (names : List Name) (above : Name) (edges : Edges) (name : Name) : Prop :=
  ∀ known ∈ names, above ++ name.take 1 <+: known →
    known ∈ (edges.entries above).map (·.name)

theorem take_one_eq_of_head?_eq {left right : Name} (same : left.head? = right.head?) :
    left.take 1 = right.take 1 := by
  cases left <;> cases right <;> simp_all

theorem head?_take_one (name : Name) : (name.take 1).head? = name.head? := by
  cases name <;> rfl

/-- Names that begin with one byte and with a label have that byte in common. -/
theorem head?_eq_of_begins_first {known : Name} (nonempty : name ≠ [])
    (longer : label ≠ []) (begins : above ++ name.take 1 <+: known)
    (start : above ++ label <+: known) :
    name.head? = label.head? := by
  have first : name.take 1 ≠ [] := by simp [nonempty]
  rw [← head?_eq_of_begins first longer begins start, head?_take_one]

/-- The name of an entry begins with one of the labels. -/
theorem exists_label_of_mem_names {known : Name}
    (member : known ∈ (edges.entries above).map (·.name)) :
    ∃ label ∈ edges.labels, above ++ label <+: known := by
  obtain ⟨node, isNode, rfl⟩ :=
    List.mem_map.mp ((names_filterMap_entry?_sublist _).subset member)
  exact exists_label_begins isNode

/-- A way that no label takes has not been used. -/
theorem Knows.not_uses (knows : Knows names above edges name) (nonempty : name ≠ [])
    (canonical : edges.Canonical)
    (apart : ∀ label ∈ edges.labels, name.head? ≠ label.head?) :
    ¬ Uses names (above ++ name.take 1) := by
  intro uses
  obtain ⟨known, isName, begins⟩ := uses
  obtain ⟨label, isLabel, start⟩ :=
    exists_label_of_mem_names (knows known isName begins)
  apply apart label isLabel
  exact head?_eq_of_begins_first nonempty (canonical.label_ne_nil isLabel) begins start

section

variable {payload? : Option (List UInt8)} {below rest : Edges}

theorem Knows.beside (knows : Knows names above (.edge label payload? below rest) name)
    (nonempty : name ≠ []) (longer : label ≠ []) (apart : label.head? ≠ name.head?) :
    Knows names above rest name := by
  intro known isName begins
  have notHere : ¬ above ++ label <+: known := by
    intro start
    exact apart (head?_eq_of_begins_first nonempty longer begins start).symm
  have member := knows known isName begins
  rw [entries_edge, List.map_append, List.map_append, List.mem_append, List.mem_append]
    at member
  rcases member with own | under | beside
  · obtain ⟨entry, isEntry, rfl⟩ := List.mem_map.mp own
    obtain ⟨payload, -, rfl⟩ := Option.map_eq_some_iff.mp (Option.mem_toList.mp isEntry)
    exact (notHere List.prefix_rfl).elim
  · obtain ⟨lower, -, start⟩ := exists_label_of_mem_names under
    exact (notHere ((List.prefix_append _ lower).trans start)).elim
  · exact beside

/-- A name that begins with a common start of the first label and the added name is the
name of an entry at that edge or below it. -/
theorem Knows.at_or_below
    (knows : Knows names above (.edge label payload? below rest) name)
    (canonical : (Edges.edge label payload? below rest).Canonical) {shared : Name}
    (nonempty : shared ≠ []) (beginsLabel : shared <+: label)
    (beginsName : shared <+: name) {known : Name} (isName : known ∈ names)
    (begins : above ++ shared <+: known) :
    known = above ++ label ∨ known ∈ (below.entries (above ++ label)).map (·.name) := by
  obtain ⟨suffix, rfl⟩ := beginsName
  obtain ⟨remainder, rfl⟩ := beginsLabel
  have beginsFirst : above ++ (shared ++ suffix).take 1 <+: known := by
    rw [List.take_append_of_le_length (List.length_pos_iff.mpr nonempty)]
    exact ((List.prefix_append_right_inj above).mpr (List.take_prefix 1 shared)).trans
      begins
  have member := knows known isName beginsFirst
  rw [entries_edge, List.map_append, List.map_append, List.mem_append, List.mem_append]
    at member
  rcases member with own | under | beside
  · obtain ⟨entry, isEntry, rfl⟩ := List.mem_map.mp own
    obtain ⟨payload, -, rfl⟩ := Option.map_eq_some_iff.mp (Option.mem_toList.mp isEntry)
    exact .inl rfl
  · exact .inr under
  · obtain ⟨other, isLabel, start⟩ := exists_label_of_mem_names beside
    cases canonical with
    | edge _ _ apart _ _ restOk =>
        have sameHead :=
          head?_eq_of_begins nonempty (restOk.label_ne_nil isLabel) begins start
        apply (apart other isLabel ?_).elim
        rw [← sameHead, List.head?_append_of_ne_nil shared nonempty]

theorem begins_of_at_or_below {known : Name}
    (place : known = above ++ label ∨
      known ∈ (below.entries (above ++ label)).map (·.name)) :
    above ++ label <+: known := by
  rcases place with rfl | under
  · exact List.prefix_rfl
  · obtain ⟨lower, -, start⟩ := exists_label_of_mem_names under
    exact (List.prefix_append _ lower).trans start

/-- Nothing else is known of a name that goes on below the first edge than of its
rest. -/
theorem Knows.inside {suffix : Name}
    (knows : Knows names above (.edge label payload? below rest) (label ++ suffix))
    (canonical : (Edges.edge label payload? below rest).Canonical)
    (longer : suffix ≠ []) :
    Knows names (above ++ label) below suffix := by
  intro known isName begins
  have place := knows.at_or_below canonical (canonical.label_ne_nil List.mem_cons_self)
    List.prefix_rfl (List.prefix_append label suffix) isName
    ((List.prefix_append (above ++ label) _).trans begins)
  apply place.resolve_left
  intro own
  have first : suffix.take 1 ≠ [] := by simp [longer]
  have bound := begins.length_le
  rw [own, List.length_append] at bound
  have positive := List.length_pos_iff.mpr first
  omega

/-- The way on which a name leaves the first label has not been used. -/
theorem Knows.not_uses_fork {shared remainder suffix : Name}
    (knows : Knows names above (.edge (shared ++ remainder) payload? below rest)
      (shared ++ suffix))
    (canonical : (Edges.edge (shared ++ remainder) payload? below rest).Canonical)
    (start : shared ≠ []) (labelLonger : remainder ≠ []) (nameLonger : suffix ≠ [])
    (apart : suffix.head? ≠ remainder.head?) :
    ¬ Uses names (above ++ shared ++ suffix.take 1) := by
  intro uses
  obtain ⟨known, isName, begins⟩ := uses
  have beginsShared := (List.prefix_append (above ++ shared) _).trans begins
  have place := knows.at_or_below canonical start (List.prefix_append shared remainder)
    (List.prefix_append shared suffix) isName beginsShared
  have beginsLabel := begins_of_at_or_below place
  rw [← List.append_assoc] at beginsLabel
  exact apart (head?_eq_of_begins_first nameLonger labelLonger begins beginsLabel)

end

/-- A new edge is used later than the edge before it. -/
theorem InOrder.earlier_of_insertion {label : Name} {rest others : Edges}
    (added : Insertion payload name rest others) (nonempty : name ≠ [])
    (canonical : rest.Canonical) (knows : Knows names above rest name)
    (used : Uses names (above ++ label.take 1)) (inOrder : rest.InOrder names above)
    (earlier : ∀ other ∈ rest.labels,
      firstUse names (above ++ label.take 1) < firstUse names (above ++ other.take 1)) :
    ∀ other ∈ others.labels,
      firstUse (names ++ [above ++ name]) (above ++ label.take 1) <
        firstUse (names ++ [above ++ name]) (above ++ other.take 1) := by
  intro other member
  rw [used.firstUse_append]
  by_cases known : ∃ old ∈ rest.labels, other.head? = old.head?
  · obtain ⟨old, isLabel, same⟩ := known
    rw [take_one_eq_of_head?_eq same, (inOrder.uses_first isLabel).firstUse_append]
    exact earlier old isLabel
  · have same : other.head? = name.head? :=
      (head?_of_mem_labels added member).resolve_right known
    have unused : ¬ Uses names (above ++ name.take 1) := by
      apply knows.not_uses nonempty canonical
      intro old isLabel sameHead
      exact known ⟨old, isLabel, same.trans sameHead⟩
    have begins : above ++ name.take 1 <+: above ++ name :=
      (List.prefix_append_right_inj above).mpr (List.take_prefix 1 name)
    rw [take_one_eq_of_head?_eq same, firstUse_append_of_not_uses unused begins]
    exact firstUse_lt_length_iff.mpr used

/-- Adding a name keeps edges in the order of their first use. -/
theorem InOrder.of_insertion (inOrder : edges.InOrder names above)
    (canonical : edges.Canonical) (added : Insertion payload name edges result)
    (nonempty : name ≠ []) (knows : Knows names above edges name) :
    result.InOrder (names ++ [above ++ name]) above := by
  induction added generalizing above with
  | last =>
      apply InOrder.edge (uses_append_of_begins _ List.prefix_rfl) ?_ .none .none
      exact List.forall_mem_nil _
  | @beside name label payload? below rest others apart added ih =>
      cases canonical with
      | edge labelNonempty _ _ _ _ restOk =>
          have knowsRest := knows.beside nonempty labelNonempty apart
          have usedFirst : Uses names (above ++ label.take 1) :=
            inOrder.uses_first List.mem_cons_self
          cases inOrder with
          | edge used earlier belowInOrder restInOrder =>
              have grown := ih restInOrder restOk nonempty knowsRest
              apply InOrder.edge (used.append _) ?_ (belowInOrder.append _) grown
              exact restInOrder.earlier_of_insertion added nonempty restOk
                knowsRest usedFirst earlier
  | atNode =>
      cases inOrder.append _ with
      | edge used earlier belowGrown restGrown =>
          exact .edge used earlier belowGrown restGrown
  | @under label suffix payload? below rest lower longer added ih =>
      have knowsBelow := knows.inside canonical longer
      have grown := inOrder.append (above ++ (label ++ suffix))
      cases canonical with
      | edge _ _ _ _ belowOk _ =>
          cases inOrder with
          | edge _ _ belowInOrder _ =>
              have lowerInOrder := ih belowInOrder belowOk longer knowsBelow
              rw [List.append_assoc] at lowerInOrder
              cases grown with
              | edge used earlier _ restGrown =>
                  exact .edge used earlier lowerInOrder restGrown
  | @inside shared remainder payload? below rest start longer =>
      cases inOrder.append (above ++ shared) with
      | edge used earlier belowGrown restGrown =>
          rw [← List.append_assoc] at used belowGrown
          rw [List.take_append_of_le_length (List.length_pos_iff.mpr start)] at earlier
          apply InOrder.edge (uses_append_of_begins _ List.prefix_rfl)
            earlier ?_ restGrown
          exact .edge used (List.forall_mem_nil _) belowGrown .none
  | @fork shared remainder suffix payload? below rest start labelLonger
        nameLonger apart =>
      have unused := knows.not_uses_fork canonical start labelLonger nameLonger apart
      have usedBefore : Uses names (above ++ shared ++ remainder.take 1) := by
        apply (inOrder.uses_label List.mem_cons_self).shorter
        rw [← List.append_assoc]
        exact (List.prefix_append_right_inj _).mpr (List.take_prefix 1 remainder)
      have begins : above ++ shared ++ suffix.take 1 <+:
          above ++ (shared ++ suffix) := by
        rw [← List.append_assoc]
        exact (List.prefix_append_right_inj _).mpr (List.take_prefix 1 suffix)
      have forked : ∀ other ∈ (leaf suffix payload).labels,
          firstUse (names ++ [above ++ (shared ++ suffix)])
              (above ++ shared ++ remainder.take 1) <
            firstUse (names ++ [above ++ (shared ++ suffix)])
              (above ++ shared ++ other.take 1) := by
        intro other member
        cases List.mem_singleton.mp member
        rw [firstUse_append_of_not_uses unused begins, usedBefore.firstUse_append]
        exact firstUse_lt_length_iff.mpr usedBefore
      have added :
          (leaf suffix payload).InOrder (names ++ [above ++ (shared ++ suffix)])
          (above ++ shared) := by
        apply InOrder.edge (uses_append_of_begins _ ?_)
          (List.forall_mem_nil _) .none .none
        rw [List.append_assoc]
      cases inOrder.append (above ++ (shared ++ suffix)) with
      | edge used earlier belowGrown restGrown =>
          rw [← List.append_assoc above shared remainder] at used belowGrown
          rw [List.take_append_of_le_length (List.length_pos_iff.mpr start)] at earlier
          apply InOrder.edge (uses_append_of_begins _ ?_) earlier ?_ restGrown
          · exact (List.prefix_append_right_inj above).mpr
              (List.prefix_append shared suffix)
          · exact .edge used forked belowGrown added

/-- Names under two edges of one node are in the order of these edges. -/
theorem listedBefore_of_labels {other first second : Name} (longer : label ≠ [])
    (otherLonger : other ≠ []) (apart : other.head? ≠ label.head?)
    (earlier : firstUse names (above ++ label.take 1) <
      firstUse names (above ++ other.take 1))
    (begins : above ++ label <+: first) (otherBegins : above ++ other <+: second) :
    ListedBefore names first second := by
  obtain ⟨left, rfl⟩ := begins
  obtain ⟨right, rfl⟩ := otherBegins
  obtain ⟨byte, label, rfl⟩ := List.exists_cons_of_ne_nil longer
  obtain ⟨otherByte, other, rfl⟩ := List.exists_cons_of_ne_nil otherLonger
  rw [List.append_assoc, List.append_assoc, List.cons_append, List.cons_append]
  apply ListedBefore.apart ?_ earlier
  intro same
  apply apart
  rw [same]
  rfl

/-- The nodes below edges that are in order are listed in order. -/
theorem InOrder.pairwise_nodes (inOrder : edges.InOrder names above)
    (canonical : edges.Canonical) :
    (edges.nodes above).Pairwise fun earlier later =>
      ListedBefore names earlier.name later.name := by
  induction inOrder with
  | none => exact .nil
  | @edge above label payload? below rest used earlier _ _ belowIH restIH =>
      cases canonical with
      | edge nonempty _ apart _ belowOk restOk =>
          have besideAfter : ∀ first : Name, above ++ label <+: first →
              ∀ node ∈ rest.nodes above, ListedBefore names first node.name := by
            intro first begins node isNode
            obtain ⟨other, isLabel, otherBegins⟩ := exists_label_begins isNode
            exact listedBefore_of_labels nonempty (restOk.label_ne_nil isLabel)
              (apart other isLabel) (earlier other isLabel) begins otherBegins
          apply List.pairwise_cons.mpr
          constructor
          · intro node member
            cases List.mem_append.mp member with
            | inl under =>
                apply ListedBefore.above (above_begins under)
                intro same
                have longer := belowOk.length_above_lt under
                rw [← same] at longer
                exact Nat.lt_irrefl _ longer
            | inr beside => exact besideAfter _ List.prefix_rfl node beside
          · apply List.pairwise_append.mpr
            refine ⟨belowIH belowOk, restIH restOk, ?_⟩
            intro under isUnder
            exact besideAfter under.name (above_begins isUnder)

end Edges

namespace Tree

variable {tree result : Tree}

theorem InOrder.of_insert {entry : Entry} (inOrder : tree.edges.InOrder names [])
    (canonical : tree.Canonical) (inserted : tree.insert entry = .ok result)
    (whole : (tree.entries.map (·.name)).Perm names) :
    result.edges.InOrder (names ++ [entry.name]) [] := by
  rw [insert, if_neg (zeroFree_of_insert inserted)] at inserted
  by_cases unnamed : entry.name = []
  · rw [if_pos (List.isEmpty_iff.mpr unnamed)] at inserted
    split at inserted
    next => cases inserted
    next =>
      cases inserted
      exact inOrder.append entry.name
  · rw [if_neg (mt List.isEmpty_iff.mp unnamed)] at inserted
    split at inserted
    next edges insertedBelow =>
      cases inserted
      have added := insertion_of_insert unnamed insertedBelow
      apply Edges.InOrder.of_insertion inOrder canonical added unnamed
      intro known isName begins
      have named : known ≠ [] := by
        intro empty
        rw [empty, List.nil_append, List.prefix_nil] at begins
        simp [unnamed] at begins
      exact (mem_names_iff named).mp (whole.mem_iff.mpr isName)
    next => cases inserted

/-- The edges of a tree are in the order in which the names it was built from first used
them. -/
theorem inOrder_of_ofEntries {stored : List Entry}
    (built : ofEntries stored = .ok tree) :
    tree.edges.InOrder (stored.map (·.name)) [] := by
  induction stored using List.reverseRecOn generalizing tree with
  | nil =>
      cases built
      exact .none
  | append_singleton stored last ih =>
      rw [ofEntries, List.foldlM_append] at built
      obtain ⟨before, builtBefore, inserted⟩ := bind_eq_ok.mp built
      simp only [List.foldlM_cons, List.foldlM_nil, bind_pure] at inserted
      obtain ⟨canonical, whole⟩ := canonical_of_ofEntries builtBefore
      rw [List.map_append, List.map_singleton]
      exact InOrder.of_insert (ih builtBefore) canonical inserted (whole.map _)

/-- The nodes of a tree are listed in the order in which the names it was built from
first used its edges. -/
theorem pairwise_nodes_of_ofEntries {stored : List Entry}
    (built : ofEntries stored = .ok tree) :
    (tree.nodes.map (·.name)).Pairwise (ListedBefore (stored.map (·.name))) := by
  have canonical := (canonical_of_ofEntries built).1
  have below := (inOrder_of_ofEntries built).pairwise_nodes canonical
  rw [List.pairwise_map, nodes, List.pairwise_cons]
  refine ⟨?_, below⟩
  intro node isNode
  apply ListedBefore.above List.nil_prefix
  intro same
  have longer := Edges.Canonical.length_above_lt canonical isNode
  rw [← same] at longer
  exact Nat.lt_irrefl _ longer

theorem pairwise_entries_of_ofEntries {stored : List Entry}
    (built : ofEntries stored = .ok tree) :
    (tree.entries.map (·.name)).Pairwise (ListedBefore (stored.map (·.name))) :=
  (pairwise_nodes_of_ofEntries built).sublist (names_filterMap_entry?_sublist _)

end Tree

/-- In a list that is in some order, one element stands before another if and only if it
comes before it in that order. -/
theorem pair_sublist_iff {α : Type} {list : List α} {before : α → α → Prop}
    (asymm : ∀ first second, before first second → ¬ before second first)
    (ordered : list.Pairwise before) {first second : α} (isFirst : first ∈ list)
    (isSecond : second ∈ list) :
    [first, second].Sublist list ↔ before first second := by
  constructor
  · intro pair
    exact List.rel_of_pairwise_cons (ordered.sublist pair) List.mem_cons_self
  · intro earlier
    obtain ⟨left, right, rfl⟩ := List.append_of_mem isFirst
    obtain ⟨-, rightOrdered, across⟩ := List.pairwise_append.mp ordered
    rcases List.mem_append.mp isSecond with inLeft | here
    · have later := across second inLeft first List.mem_cons_self
      exact (asymm first second earlier later).elim
    cases List.mem_cons.mp here with
    | inl same =>
        rw [same] at earlier
        exact (asymm first first earlier earlier).elim
    | inr inRight =>
        apply List.sublist_append_of_sublist_right
        exact (List.singleton_sublist.mpr inRight).cons_cons first

/-! ## Sorted names -/

/-- What lies between two names with a common start has that start as well. -/
theorem prefix_of_between {first between last : Name} (beginsFirst : start <+: first)
    (beginsLast : start <+: last) (above : first ≤ between) (below : between ≤ last) :
    start <+: between := by
  induction start generalizing first between last with
  | nil => exact List.nil_prefix
  | cons byte start ih =>
      obtain ⟨firstTail, rfl⟩ := beginsFirst
      obtain ⟨lastTail, rfl⟩ := beginsLast
      rw [List.cons_append] at above below
      cases between with
      | nil => exact (above (List.nil_lt_cons _ _)).elim
      | cons other between =>
          rw [List.cons_le_cons_iff] at above below
          rcases above with less | ⟨rfl, above⟩
          · rcases below with more | ⟨same, -⟩
            · exact (UInt8.lt_asymm less more).elim
            · exact (UInt8.ne_of_lt less same.symm).elim
          · rcases below with more | ⟨-, below⟩
            · exact (UInt8.lt_irrefl _ more).elim
            · rw [List.cons_prefix_cons]
              exact ⟨rfl, ih (List.prefix_append _ _)
                (List.prefix_append _ _) above below⟩

/-- Different names that are sorted are in depth-first order. -/
theorem DepthFirst.of_sorted (sorted : names.Pairwise (· ≤ ·))
    (distinct : names.Nodup) :
    DepthFirst names where
  aboveFirst := by
    apply (sorted.and distinct).imp
    intro earlier later before begins
    exact before.2 (List.le_antisymm before.1 begins.le)
  together := by
    intro first between last triple start beginsFirst beginsLast
    have part := sorted.sublist triple
    have above : first ≤ between := List.rel_of_pairwise_cons part List.mem_cons_self
    have below : between ≤ last :=
      List.rel_of_pairwise_cons (List.pairwise_cons.mp part).2 List.mem_cons_self
    exact prefix_of_between beginsFirst beginsLast above below

/-! ## Listings of tries that were built -/

/-- A trie that was built is read as the entries of its tree. -/
theorem entries_of_build {stored : List Entry} {tree : Tree}
    (built : Tree.ofEntries stored = .ok tree)
    (nonempty : ∀ entry ∈ stored, entry.payload ≠ []) (fits : Fits stored) :
    ∃ bytes, build stored = .ok bytes ∧ entries bytes.toArray = .ok tree.entries := by
  have laidOut : Layout.ofEntries stored =
      .ok (Layout.ofNodes (tree.layoutOrder (stored.map (·.name)))) := by
    rw [Layout.ofEntries, built, map_ok]
  refine ⟨_, by rw [build, laidOut, map_ok], ?_⟩
  obtain ⟨zeros, padded⟩ := Bytes.padTo_eq 8
    (Layout.ofNodes (tree.layoutOrder (stored.map (·.name)))).encode
  rw [padded]
  exact Layout.entries_of_tree built laidOut nonempty (fits _ laidOut) _

/-- A trie whose entries are in depth-first order is read back as they are. -/
theorem entries_build_of_depthFirst {stored : List Entry}
    (zeroFree : ∀ entry ∈ stored, 0 ∉ entry.name)
    (ordered : DepthFirst (stored.map (·.name)))
    (nonempty : ∀ entry ∈ stored, entry.payload ≠ []) (fits : Fits stored) :
    ∃ bytes, build stored = .ok bytes ∧ entries bytes.toArray = .ok stored := by
  obtain ⟨tree, built, -⟩ := Tree.ofEntries_of_nodup zeroFree ordered.nodup
  obtain ⟨bytes, rebuilt, read⟩ := entries_of_build built nonempty fits
  rw [Tree.entries_of_depthFirst built ordered] at read
  exact ⟨bytes, rebuilt, read⟩

/-- A trie lists a name before the ones that go on from it, and names that part in the
order in which its entries first took the two ways. So sorted entries are read back as
they are, and building a trie again from its listing changes nothing. -/
theorem listing_order {stored : List Entry} (distinct : (stored.map (·.name)).Nodup)
    (zeroFree : ∀ entry ∈ stored, 0 ∉ entry.name)
    (nonempty : ∀ entry ∈ stored, entry.payload ≠ []) (fits : Fits stored) :
    ∃ bytes all, build stored = .ok bytes ∧ entries bytes.toArray = .ok all ∧
      all.Perm stored ∧
      (∀ first ∈ stored, ∀ second ∈ stored,
        [first.name, second.name].Sublist (all.map (·.name)) ↔
          ListedBefore (stored.map (·.name)) first.name second.name) ∧
      ((stored.map (·.name)).Pairwise (· ≤ ·) → all = stored) ∧
      (Fits all → ∃ again, build all = .ok again ∧ entries again.toArray = .ok all ∧
        (entries again.toArray >>= build) = .ok again) := by
  obtain ⟨tree, built, canonical, whole⟩ := Tree.ofEntries_of_nodup zeroFree distinct
  obtain ⟨bytes, isBuilt, read⟩ := entries_of_build built nonempty fits
  refine ⟨bytes, tree.entries, isBuilt, read, whole, ?order, ?sorted, ?again⟩
  case order =>
    intro first isFirst second isSecond
    apply pair_sublist_iff (fun _ _ => ListedBefore.asymm)
      (Tree.pairwise_entries_of_ofEntries built)
    · exact List.mem_map_of_mem (whole.mem_iff.mpr isFirst)
    · exact List.mem_map_of_mem (whole.mem_iff.mpr isSecond)
  case sorted =>
    intro sorted
    exact Tree.entries_of_depthFirst built (.of_sorted sorted distinct)
  case again =>
    intro fitsAgain
    obtain ⟨again, rebuilt, readAgain⟩ := entries_build_of_depthFirst
      (fun entry member => zeroFree entry (whole.mem_iff.mp member))
      canonical.depthFirst_entries
      (fun entry member => nonempty entry (whole.mem_iff.mp member)) fitsAgain
    refine ⟨again, rebuilt, readAgain, ?_⟩
    rw [readAgain, ok_bind, rebuilt]

/-- Three names, of which the second one added goes on from the third. -/
theorem listing_order_three :
    ∃ bytes all, build [⟨[98], [1]⟩, ⟨[97, 98], [2]⟩, ⟨[97], [3]⟩] = .ok bytes ∧
      entries bytes.toArray = .ok all ∧
      [[98], [97]].Sublist (all.map (·.name)) ∧
      [[97], [97, 98]].Sublist (all.map (·.name)) := by
  have fits : Fits [⟨[98], [1]⟩, ⟨[97, 98], [2]⟩, ⟨[97], [3]⟩] := by
    apply fits_of_room (by decide) (by decide)
    intro tree built
    cases built
    decide
  obtain ⟨bytes, all, built, read, -, order, -⟩ :=
    listing_order (by decide) (by decide) (by decide) fits
  refine ⟨bytes, all, built, read, ?apart, ?above⟩
  case apart =>
    apply (order ⟨[98], [1]⟩ (by simp) ⟨[97], [3]⟩ (by simp)).mpr
    exact @ListedBefore.apart _ [] [] [] 98 97 (by decide) (by decide)
  case above =>
    apply (order ⟨[97], [3]⟩ (by simp) ⟨[97, 98], [2]⟩ (by simp)).mpr
    exact .above (by decide) (by decide)

end Linkedit.Trie
