import Linkedit.Proofs.Trie.Order

/-!
# Names in depth-first order

The nodes of a canonical tree are listed depth first: names with a common start stand
together, and no name comes before one that begins it. A part of such a list is such a
list again. Names that are added in this order keep it, since each of them goes behind
all names that are there.
-/

namespace Linkedit.Trie

/-- A list of names as a walk over a tree may meet them. -/
structure DepthFirst (names : List Name) : Prop where
  aboveFirst : names.Pairwise fun earlier later => ¬ later <+: earlier
  together : ∀ first between last, [first, between, last].Sublist names →
    ∀ start, start <+: first → start <+: last → start <+: between

variable {names others : List Name} {name above : Name}

theorem DepthFirst.sublist (ordered : DepthFirst names) (part : others.Sublist names) :
    DepthFirst others where
  aboveFirst := ordered.aboveFirst.sublist part
  together first between last triple :=
    ordered.together first between last (triple.trans part)

theorem DepthFirst.nodup (ordered : DepthFirst names) : names.Nodup := by
  apply ordered.aboveFirst.imp
  intro earlier later apart equal
  apply apart
  rw [equal]

/-- Three elements in order in two lists: all in one of them, or in both. -/
theorem triple_append {α : Type} {first between last : α} {left right : List α}
    (triple : [first, between, last].Sublist (left ++ right)) :
    [first, between, last].Sublist left ∨ (first ∈ left ∧ last ∈ right) ∨
      [first, between, last].Sublist right := by
  rcases List.sublist_append_iff.mp triple with
    ⟨inLeft, inRight, split, leftPart, rightPart⟩
  match inLeft, split with
  | [], split =>
      right; right
      rwa [← List.nil_append inRight, ← split] at rightPart
  | [_], split =>
      cases split
      exact .inr (.inl ⟨leftPart.subset (by simp), rightPart.subset (by simp)⟩)
  | [_, _], split =>
      cases split
      exact .inr (.inl ⟨leftPart.subset (by simp), rightPart.subset (by simp)⟩)
  | [_, _, _], split =>
      cases split
      exact .inl leftPart

theorem triple_of_mem {α : Type} {first between : α} {left right : List α}
    (inLeft : first ∈ left) (inRight : between ∈ right) (last : α) :
    [first, between, last].Sublist (left ++ right ++ [last]) :=
  ((List.singleton_sublist.mpr inLeft).append
    (List.singleton_sublist.mpr inRight)).append (List.Sublist.refl [last])

/-! ## Walks over canonical trees -/

namespace Edges

variable {edges rest below : Edges} {label : Name} {payload? : Option (List UInt8)}

/-- What begins a name below one edge and a name below another begins the name above. -/
theorem begins_above (canonical : (Edges.edge label payload? below rest).Canonical)
    {start under : Name} (underStart : above ++ label <+: under) {beside : Node}
    (member : beside ∈ rest.nodes above) (beginsUnder : start <+: under)
    (beginsBeside : start <+: beside.name) : start <+: above := by
  cases canonical with
  | edge nonempty _ apart _ _ restOk =>
      rcases exists_label_begins member with ⟨other, isLabel, otherStart⟩
      have aboveUnder := (List.prefix_append above label).trans underStart
      rcases List.prefix_or_prefix_of_prefix beginsUnder aboveUnder with short | long
      · exact short
      · rcases long with ⟨more, rfl⟩
        by_cases ended : more = []
        · simp [ended]
        -- Behind the name above, both names go on with the same byte.
        have sameUnder : more.head? = label.head? :=
          head?_eq_of_begins ended nonempty beginsUnder underStart
        have sameBeside : more.head? = other.head? :=
          head?_eq_of_begins ended (restOk.label_ne_nil isLabel) beginsBeside otherStart
        exact (apart other isLabel (sameBeside.symm.trans sameUnder)).elim

theorem above_begins {node : Node} (member : node ∈ edges.nodes above) :
    above <+: node.name := by
  rcases exists_label_begins member with ⟨label, -, start⟩
  exact (List.prefix_append above label).trans start

theorem Canonical.together (canonical : edges.Canonical)
    {first between last start : Name}
    (triple : [first, between, last].Sublist ((edges.nodes above).map (·.name)))
    (beginsFirst : start <+: first) (beginsLast : start <+: last) :
    start <+: between := by
  induction canonical generalizing above with
  | none => cases triple
  | @edge label payload? below rest nonempty zeroFree apart needed belowOk restOk
        belowIH restIH =>
      have canonical := Canonical.edge nonempty zeroFree apart needed belowOk restOk
      have here :
          ∀ name ∈ (above ++ label) :: (below.nodes (above ++ label)).map (·.name),
          above ++ label <+: name := by
        intro name member
        rcases List.mem_cons.mp member with rfl | under
        · exact List.prefix_rfl
        · rcases List.mem_map.mp under with ⟨node, isNode, rfl⟩
          exact above_begins isNode
      have betweenIn := triple.subset (List.mem_cons_of_mem first List.mem_cons_self)
      rw [nodes, List.map_cons, List.map_append, ← List.cons_append] at triple
      rcases triple_append triple with under | ⟨firstHere, lastBeside⟩ | beside
      · rcases List.sublist_cons_iff.mp under with below | ⟨later, split, below⟩
        · exact belowIH below
        · cases split
          have betweenBelow := below.subset List.mem_cons_self
          exact beginsFirst.trans (here between (List.mem_cons_of_mem _ betweenBelow))
      · rcases List.mem_map.mp lastBeside with ⟨node, isNode, rfl⟩
        rcases List.mem_map.mp betweenIn with ⟨middle, isMiddle, rfl⟩
        have short :=
          begins_above canonical (here first firstHere) isNode beginsFirst beginsLast
        exact short.trans (above_begins isMiddle)
      · exact restIH beside

theorem Canonical.depthFirst_nodes (canonical : edges.Canonical) (above : Name) :
    DepthFirst ((edges.nodes above).map (·.name)) where
  aboveFirst := List.pairwise_map.mpr (canonical.pairwise_nodes above)
  together _ _ _ triple _ beginsFirst beginsLast :=
    canonical.together triple beginsFirst beginsLast

end Edges

/-- The names of a canonical tree are listed depth first. -/
theorem Tree.Canonical.depthFirst_entries {tree : Tree} (canonical : tree.Canonical) :
    DepthFirst (tree.entries.map (·.name)) := by
  have below := Edges.Canonical.depthFirst_nodes canonical []
  have whole : DepthFirst (tree.nodes.map (·.name)) := by
    constructor
    case aboveFirst => exact List.pairwise_map.mpr canonical.pairwise_nodes
    case together =>
      intro first between last triple start beginsFirst beginsLast
      rcases List.sublist_cons_iff.mp triple with inBelow | ⟨later, split, -⟩
      · exact below.together first between last inBelow start beginsFirst beginsLast
      · cases split
        rw [List.prefix_nil.mp beginsFirst]
        exact List.nil_prefix
  exact whole.sublist (names_filterMap_entry?_sublist _)

/-! ## Adding names in this order -/

namespace Edges

variable {edges result rest below : Edges} {label : Name}
  {payload? : Option (List UInt8)} {payload : List UInt8}

/-- A name that goes behind all others does not begin any of them. -/
theorem Canonical.not_begins (canonical : edges.Canonical)
    (ordered : DepthFirst ((edges.entries above).map (·.name) ++ [name])) {node : Node}
    (member : node ∈ edges.nodes above) : ¬ name <+: node.name := by
  intro start
  rcases canonical.exists_entry member with ⟨entry, stored, entryStart⟩
  have apart := (List.pairwise_append.mp ordered.aboveFirst).2.2
  exact apart entry.name (List.mem_map_of_mem stored) name (by simp)
    (start.trans entryStart)

theorem entries_split (above : Name) :
    (Edges.edge label payload? below rest).entries above =
      (Edges.edge label payload? below .none).entries above ++ rest.entries above := by
  simp

/-- If a name goes behind all others and begins like the first label, no other edge
follows. -/
theorem Canonical.entries_rest_eq_nil {shared : Name}
    (canonical : (Edges.edge label payload? below rest).Canonical)
    (nonempty : shared ≠ []) (isStart : shared <+: label)
    (begins : above ++ shared <+: name) (ordered : DepthFirst
      (((Edges.edge label payload? below rest).entries above).map (·.name) ++ [name])) :
    rest.entries above = [] := by
  have only : (Edges.edge label payload? below .none).Canonical := by
    cases canonical with
    | edge labelNonempty zeroFree _ needed belowOk _ =>
        exact .edge labelNonempty zeroFree (by simp [labels]) needed belowOk .none
  have head : ⟨above ++ label, payload?, below.labels⟩ ∈
      (Edges.edge label payload? below .none).nodes above := List.mem_cons_self
  rcases only.exists_entry head with ⟨first, firstStored, firstStart⟩
  by_contra others
  rcases List.exists_mem_of_ne_nil _ others with ⟨entry, stored⟩
  -- An entry behind the first edge would stand between two that begin like its label.
  have triple : [first.name, entry.name, name].Sublist
      (((Edges.edge label payload? below rest).entries above).map (·.name) ++
        [name]) := by
    rw [entries_split, List.map_append]
    exact triple_of_mem (List.mem_map_of_mem firstStored)
      (List.mem_map_of_mem stored) name
  have beginsFirst : above ++ shared <+: first.name :=
    ((List.prefix_append_right_inj above).mpr isStart).trans firstStart
  have beginsEntry := ordered.together _ _ _ triple _ beginsFirst begins
  rcases List.mem_map.mp
      ((names_filterMap_entry?_sublist _).subset (List.mem_map_of_mem stored)) with
    ⟨node, isNode, sameName⟩
  rw [← sameName] at beginsEntry
  have short :=
    (begins_above canonical firstStart isNode beginsFirst beginsEntry).length_le
  have longer := List.length_pos_iff.mpr nonempty
  rw [List.length_append] at short
  omega

/-- A name that goes behind all others adds its entry at the end. -/
theorem entries_of_insertion (canonical : edges.Canonical)
    (added : Insertion payload name edges result)
    (ordered : DepthFirst ((edges.entries above).map (·.name) ++ [above ++ name])) :
    result.entries above = edges.entries above ++ [⟨above ++ name, payload⟩] := by
  induction added generalizing above with
  | last => simp [leaf]
  | @beside name label payload? below rest others apart added ih =>
      cases canonical with
      | edge _ _ _ _ _ restOk =>
          have later :
              DepthFirst ((rest.entries above).map (·.name) ++ [above ++ name]) := by
            apply ordered.sublist
            rw [entries_split, List.map_append, List.append_assoc]
            exact List.sublist_append_right _ _
          rw [entries_edge, entries_edge, ih restOk later, List.append_assoc,
            List.append_assoc]
  | @atNode label below rest =>
      have head : ⟨above ++ label, Option.none, below.labels⟩ ∈
          (Edges.edge label Option.none below rest).nodes above := List.mem_cons_self
      exact (canonical.not_begins ordered head List.prefix_rfl).elim
  | @under label suffix payload? below rest lower longer added ih =>
      cases canonical with
      | edge nonempty zeroFree apart needed belowOk restOk =>
          have canonical := Canonical.edge nonempty zeroFree apart needed belowOk restOk
          have begins : above ++ label <+: above ++ (label ++ suffix) := by
            rw [← List.append_assoc]
            exact List.prefix_append _ suffix
          have alone :=
            canonical.entries_rest_eq_nil nonempty List.prefix_rfl begins ordered
          have later : DepthFirst
              ((below.entries (above ++ label)).map (·.name) ++
                [above ++ label ++ suffix]) := by
            apply ordered.sublist
            rw [entries_edge, alone, List.append_nil, List.map_append,
              List.append_assoc, List.append_assoc]
            exact List.sublist_append_right _ _
          rw [entries_edge, entries_edge, ih belowOk later, alone]
          simp only [List.append_nil, List.append_assoc]
  | @inside shared remainder payload? below rest nonempty longer =>
      have head : ⟨above ++ (shared ++ remainder), payload?, below.labels⟩ ∈
          (Edges.edge (shared ++ remainder) payload? below rest).nodes above :=
        List.mem_cons_self
      apply (canonical.not_begins ordered head ?_).elim
      rw [← List.append_assoc]
      exact List.prefix_append _ remainder
  | @fork shared remainder suffix payload? below rest nonempty labelLonger
        nameLonger apart =>
      have begins : above ++ shared <+: above ++ (shared ++ suffix) := by
        rw [← List.append_assoc]
        exact List.prefix_append _ suffix
      have alone :=
        canonical.entries_rest_eq_nil nonempty (List.prefix_append _ remainder)
          begins ordered
      rw [entries_edge, entries_edge, entries_edge, alone]
      simp [leaf]

end Edges

namespace Tree

variable {tree result : Tree} {entry : Entry}

/-- The empty name begins every name, so it only goes behind all others if there are
none. -/
theorem entries_eq_nil_of_unnamed
    (ordered : DepthFirst (tree.entries.map (·.name) ++ [[]])) :
    tree.entries = [] := by
  by_contra others
  rcases List.exists_mem_of_ne_nil _ others with ⟨entry, stored⟩
  have apart := (List.pairwise_append.mp ordered.aboveFirst).2.2
  exact apart entry.name (List.mem_map_of_mem stored) [] (by simp) List.nil_prefix

/-- An entry whose name goes behind all others is added at the end. -/
theorem Canonical.entries_of_insert (canonical : tree.Canonical)
    (inserted : tree.insert entry = .ok result)
    (ordered : DepthFirst (tree.entries.map (·.name) ++ [entry.name])) :
    result.entries = tree.entries ++ [entry] := by
  rw [insert, if_neg (zeroFree_of_insert inserted)] at inserted
  by_cases unnamed : entry.name = []
  · rw [if_pos (List.isEmpty_iff.mpr unnamed)] at inserted
    split at inserted
    next => cases inserted
    next =>
      cases inserted
      rw [unnamed] at ordered
      have nothing := entries_eq_nil_of_unnamed ordered
      have below := nothing
      rw [entries_eq, List.append_eq_nil_iff] at below
      rw [nothing, entries_eq, below.2, ← unnamed]
      rfl
  · rw [if_neg (mt List.isEmpty_iff.mp unnamed)] at inserted
    split at inserted
    next edges insertedBelow =>
      cases inserted
      have added := insertion_of_insert unnamed insertedBelow
      have later :
          DepthFirst ((tree.edges.entries []).map (·.name) ++ [[] ++ entry.name]) := by
        apply ordered.sublist
        rw [entries_eq, List.map_append, List.append_assoc]
        exact List.sublist_append_right _ _
      rw [entries_eq, entries_eq, Edges.entries_of_insertion canonical added later,
        List.append_assoc]
      rfl
    next => cases inserted

/-- Entries whose names go behind all others, one after the other, are added at the
end. -/
theorem Canonical.entries_of_foldlM_insert {added : List Entry}
    (canonical : tree.Canonical) (folded : added.foldlM insert tree = .ok result)
    (ordered : DepthFirst ((tree.entries ++ added).map (·.name))) :
    result.entries = tree.entries ++ added := by
  induction added generalizing tree with
  | nil =>
      cases folded
      exact (List.append_nil _).symm
  | cons entry added ih =>
      rw [List.foldlM_cons] at folded
      rcases bind_eq_ok.mp folded with ⟨next, inserted, folded⟩
      have here : DepthFirst (tree.entries.map (·.name) ++ [entry.name]) := by
        apply ordered.sublist
        rw [List.map_append]
        apply List.Sublist.append_left
        exact List.singleton_sublist.mpr List.mem_cons_self
      have grown := canonical.entries_of_insert inserted here
      have whole : next.entries ++ added = tree.entries ++ entry :: added := by
        rw [grown, List.append_assoc]
        rfl
      rw [← whole] at ordered ⊢
      exact ih (canonical.of_insert inserted) folded ordered

/-- Entries in depth-first order are listed by their tree in the order they are added
in. -/
theorem entries_of_depthFirst {stored : List Entry}
    (built : ofEntries stored = .ok tree) (ordered : DepthFirst (stored.map (·.name))) :
    tree.entries = stored :=
  canonical_empty.entries_of_foldlM_insert built ordered

end Tree

end Linkedit.Trie
