import Linkedit.Trie.Layout
import Linkedit.Proofs.Except
import Linkedit.Proofs.Trie.Insertion
import Mathlib.Data.List.Nodup

/-!
# Canonical radix trees

A tree that is built by adding names is canonical: labels are not empty and hold
no zero byte, the labels of one node differ in their first bytes, and a node
below the root ends a name or parts two of them. In a canonical tree every node
has a name of its own. The nodes with a payload are the entries that were added,
and adding fails exactly for a name with a zero byte or one that is there.
-/

namespace Linkedit.Trie

/-- The entry that ends at a node. -/
def Node.entry? (node : Node) : Option Entry := node.payload?.map (Entry.mk node.name)

namespace Edges

/-- The nodes below a node of the given name, each before the ones below it. -/
def nodes (above : Name) : Edges → List Node
  | .none => []
  | .edge label payload? below rest =>
      ⟨above ++ label, payload?, below.labels⟩ ::
        (below.nodes (above ++ label) ++ rest.nodes above)

/-- The entries that end below a node of the given name. -/
def entries (above : Name) (edges : Edges) : List Entry :=
  (edges.nodes above).filterMap Node.entry?

/-- What adding names keeps of the edges that leave a node. -/
inductive Canonical : Edges → Prop where
  | none : Canonical .none
  | edge {label : Name} {payload? : Option (List UInt8)} {below rest : Edges}
      (nonempty : label ≠ []) (zeroFree : 0 ∉ label)
      (apart : ∀ other ∈ rest.labels, other.head? ≠ label.head?)
      (needed : payload?.isSome ∨ 2 ≤ below.labels.length)
      (belowCanonical : below.Canonical) (restCanonical : rest.Canonical) :
      Canonical (.edge label payload? below rest)

@[simp] theorem entries_none (above : Name) : Edges.none.entries above = [] := rfl

@[simp] theorem entries_edge (above label : Name) (payload? : Option (List UInt8))
    (below rest : Edges) :
    (Edges.edge label payload? below rest).entries above =
      (payload?.map (Entry.mk (above ++ label))).toList ++
        (below.entries (above ++ label) ++ rest.entries above) := by
  simp only [entries, nodes, List.filterMap_cons, List.filterMap_append, Node.entry?]
  cases payload? <;> rfl

theorem canonical_leaf {label : Name} {payload : List UInt8} (nonempty : label ≠ [])
    (zeroFree : 0 ∉ label) : (leaf label payload).Canonical :=
  .edge nonempty zeroFree (by simp [labels]) (.inl rfl) .none .none

/-! ## Names of nodes -/

/-- The name of a node below begins with one of the labels. -/
theorem exists_label_begins {edges : Edges} {above : Name} {node : Node}
    (member : node ∈ edges.nodes above) :
    ∃ label ∈ edges.labels, above ++ label <+: node.name := by
  induction edges generalizing above with
  | none => cases member
  | edge label payload? below rest belowIH restIH =>
      simp only [nodes, List.mem_cons, List.mem_append] at member
      rcases member with rfl | under | beside
      · exact ⟨label, List.mem_cons_self, List.prefix_rfl⟩
      · rcases belowIH under with ⟨other, _, start⟩
        have first := (List.prefix_append _ other).trans start
        exact ⟨label, List.mem_cons_self, first⟩
      · rcases restIH beside with ⟨other, isLabel, start⟩
        exact ⟨other, List.mem_cons_of_mem label isLabel, start⟩

theorem Canonical.label_ne_nil {edges : Edges} (canonical : edges.Canonical)
    {label : Name} (member : label ∈ edges.labels) : label ≠ [] := by
  induction canonical with
  | none => cases member
  | edge nonempty _ _ _ _ _ _ restIH =>
      rcases List.mem_cons.mp member with rfl | later
      · exact nonempty
      · exact restIH later

theorem Canonical.zero_notMem_label {edges : Edges} (canonical : edges.Canonical)
    {label : Name} (member : label ∈ edges.labels) : 0 ∉ label := by
  induction canonical with
  | none => cases member
  | edge _ zeroFree _ _ _ _ _ restIH =>
      rcases List.mem_cons.mp member with rfl | later
      · exact zeroFree
      · exact restIH later

/-- Byte strings with a common start and different next bytes do not begin the
same name. -/
theorem head?_eq_of_begins {above left right name : Name} (leftLonger : left ≠ [])
    (rightLonger : right ≠ []) (leftStart : above ++ left <+: name)
    (rightStart : above ++ right <+: name) : left.head? = right.head? := by
  rcases leftStart with ⟨leftTail, rfl⟩
  rw [List.append_assoc, List.prefix_append_right_inj] at rightStart
  rcases rightStart with ⟨rightTail, whole⟩
  cases left with
  | nil => exact (leftLonger rfl).elim
  | cons leftByte left =>
      cases right with
      | nil => exact (rightLonger rfl).elim
      | cons rightByte right =>
          simp only [List.cons_append, List.cons.injEq] at whole
          simp [whole.1]

/-- The name of a node below is longer than the name above. -/
theorem Canonical.length_above_lt {edges : Edges} (canonical : edges.Canonical)
    {above : Name} {node : Node} (member : node ∈ edges.nodes above) :
    above.length < node.name.length := by
  rcases exists_label_begins member with ⟨label, isLabel, start⟩
  have longer := List.length_pos_iff.mpr (canonical.label_ne_nil isLabel)
  have bound := start.length_le
  rw [List.length_append] at bound
  omega

/-- A node comes before the ones whose names go on from its own. -/
theorem Canonical.pairwise_nodes {edges : Edges} (canonical : edges.Canonical)
    (above : Name) :
    (edges.nodes above).Pairwise fun earlier later =>
      ¬ later.name <+: earlier.name := by
  induction canonical generalizing above with
  | none => exact .nil
  | @edge label payload? below rest nonempty _ apart _ belowOk restOk belowIH restIH =>
      have besideApart : ∀ node ∈ rest.nodes above, ∀ name : Name,
          above ++ label <+: name → ¬ node.name <+: name := by
        intro node member name start nodeStart
        rcases exists_label_begins member with ⟨other, isLabel, otherStart⟩
        apply apart other isLabel
        exact head?_eq_of_begins (restOk.label_ne_nil isLabel) nonempty
          (otherStart.trans nodeStart) start
      constructor
      · intro later member
        rcases List.mem_append.mp member with under | beside
        · intro start
          exact Nat.not_lt.mpr start.length_le (belowOk.length_above_lt under)
        · exact besideApart later beside _ List.prefix_rfl
      · apply List.pairwise_append.mpr
        constructor
        · exact belowIH (above ++ label)
        constructor
        · exact restIH above
        · intro under underMember beside besideMember
          rcases exists_label_begins underMember with ⟨lower, _, start⟩
          apply besideApart beside besideMember
          exact (List.prefix_append _ lower).trans start

/-! ## Adding a name -/

variable {payload : List UInt8} {name : Name} {edges result : Edges}

/-- The first bytes of the labels stay, and that of the name may join them. -/
theorem head?_of_mem_labels (added : Insertion payload name edges result)
    {label : Name} (member : label ∈ result.labels) :
    label.head? = name.head? ∨ ∃ old ∈ edges.labels, label.head? = old.head? := by
  induction added with
  | @last name =>
      have equal : label = name := by simpa [leaf, labels] using member
      subst equal
      exact .inl rfl
  | beside apart added ih =>
      rcases List.mem_cons.mp member with rfl | later
      · exact .inr ⟨label, by simp [labels], rfl⟩
      · rcases ih later with same | ⟨old, isOld, same⟩
        · exact .inl same
        · exact .inr ⟨old, by simp [labels, isOld], same⟩
  | atNode => exact .inr ⟨label, member, rfl⟩
  | under => exact .inr ⟨label, member, rfl⟩
  | inside =>
      rcases List.mem_cons.mp member with rfl | later
      · exact .inl rfl
      · exact .inr ⟨label, by simp [labels, later], rfl⟩
  | @fork shared _ suffix _ _ _ nonempty =>
      rcases List.mem_cons.mp member with rfl | later
      · left
        cases label with
        | nil => exact (nonempty rfl).elim
        | cons => rfl
      · exact .inr ⟨label, by simp [labels, later], rfl⟩

theorem length_labels_le (added : Insertion payload name edges result) :
    edges.labels.length ≤ result.labels.length := by
  induction added with
  | last => exact Nat.zero_le _
  | beside _ _ ih => exact Nat.succ_le_succ ih
  | atNode | under | inside | fork => exact Nat.le_refl _

/-- Adding a name without zero bytes keeps edges canonical. -/
theorem Canonical.of_insertion (canonical : edges.Canonical)
    (added : Insertion payload name edges result) (nonempty : name ≠ [])
    (zeroFree : 0 ∉ name) : result.Canonical := by
  induction added with
  | last => exact canonical_leaf nonempty zeroFree
  | beside apart added ih =>
      cases canonical with
      | edge labelNonempty labelZeroFree restApart needed belowOk restOk =>
          have othersOk := ih restOk nonempty zeroFree
          apply Canonical.edge labelNonempty labelZeroFree ?_ needed belowOk othersOk
          intro other member
          rcases head?_of_mem_labels added member with same | ⟨old, isOld, same⟩
          · rw [same]
            exact apart.symm
          · rw [same]
            exact restApart old isOld
  | atNode =>
      cases canonical with
      | edge labelNonempty labelZeroFree restApart needed belowOk restOk =>
          exact .edge labelNonempty labelZeroFree restApart (.inl rfl) belowOk restOk
  | under longer added ih =>
      cases canonical with
      | edge labelNonempty labelZeroFree restApart needed belowOk restOk =>
          have suffixZeroFree := fun member => zeroFree (List.mem_append_right _ member)
          have lowerOk := ih belowOk longer suffixZeroFree
          apply Canonical.edge labelNonempty labelZeroFree restApart ?_ lowerOk restOk
          rcases needed with terminal | two
          · exact .inl terminal
          · exact .inr (two.trans (length_labels_le added))
  | @inside shared remainder payload? below _ start longer =>
      cases canonical with
      | edge labelNonempty labelZeroFree restApart needed belowOk restOk =>
          have remainderZeroFree := fun member =>
            labelZeroFree (List.mem_append_right _ member)
          have lower : Canonical (.edge remainder payload? below .none) := by
            apply Canonical.edge longer remainderZeroFree ?_ needed belowOk .none
            simp [labels]
          apply Canonical.edge start zeroFree ?_ (.inl rfl) lower restOk
          intro other member
          rw [← List.head?_append_of_ne_nil shared start]
          exact restApart other member
  | @fork shared remainder suffix payload? below _ start labelLonger nameLonger apart =>
      cases canonical with
      | edge labelNonempty labelZeroFree restApart needed belowOk restOk =>
          have suffixZeroFree := fun member => zeroFree (List.mem_append_right _ member)
          have sharedZeroFree := fun member => zeroFree (List.mem_append_left _ member)
          have remainderZeroFree := fun member =>
            labelZeroFree (List.mem_append_right _ member)
          have fresh : (leaf suffix payload).Canonical :=
            canonical_leaf nameLonger suffixZeroFree
          have lower :
              Canonical (.edge remainder payload? below (leaf suffix payload)) := by
            apply Canonical.edge labelLonger remainderZeroFree ?_ needed belowOk fresh
            simpa [labels, leaf] using apart
          apply Canonical.edge start sharedZeroFree ?apart ?needed lower restOk
          case apart =>
            intro other member
            rw [← List.head?_append_of_ne_nil shared start]
            exact restApart other member
          case needed =>
            right
            simp [labels, leaf]

/-- Adding a name adds its entry and keeps the others. -/
theorem entries_perm_of_insertion (added : Insertion payload name edges result)
    (above : Name) :
    (result.entries above).Perm (⟨above ++ name, payload⟩ :: edges.entries above) := by
  induction added generalizing above with
  | last => simp [leaf]
  | beside _ _ ih =>
      rw [entries_edge, entries_edge]
      apply (((ih above).append_left _).append_left _).trans
      rw [← List.append_assoc, ← List.append_assoc]
      exact List.perm_middle
  | atNode => simp
  | under _ _ ih =>
      rw [entries_edge, entries_edge]
      apply (((ih _).append_right _).append_left _).trans
      rw [List.append_assoc]
      exact List.perm_middle
  | inside => simp
  | fork =>
      simp only [leaf, entries_edge, entries_none, List.append_assoc, Option.map_none,
        Option.map_some, Option.toList_none, Option.toList_some, List.nil_append,
        List.append_nil, List.singleton_append]
      exact (List.perm_middle.append_left _).trans List.perm_middle

/-- Adding a name fails only if the name is there. -/
theorem mem_names_of_insert_eq_none (nonempty : name ≠ [])
    (refused : edges.insert name payload = Option.none) (above : Name) :
    above ++ name ∈ (edges.entries above).map (·.name) := by
  induction edges generalizing name above with
  | none => cases refused
  | edge label payload? below rest belowIH restIH =>
      rw [entries_edge, List.map_append, List.map_append, List.mem_append,
        List.mem_append]
      by_cases sameHead : label.head? = name.head?
      · rcases insert_edge_of_sameHead payload payload? below rest
            nonempty sameHead with
            ⟨shared, remainder, suffix, start, rfl, rfl, _, equation⟩
        rw [equation] at refused
        cases remainder with
        | nil =>
            cases suffix with
            | nil =>
                cases payload? with
                | none => cases refused
                | some stored =>
                    left
                    simp
            | cons byte suffix =>
                have lower := belowIH (by simp) (Option.map_eq_none_iff.mp refused)
                  (above ++ shared)
                rw [List.append_assoc] at lower
                rw [List.append_nil]
                exact .inr (.inl lower)
        | cons => cases suffix <;> cases refused
      · rw [insert, if_pos sameHead] at refused
        exact .inr (.inr (restIH nonempty (Option.map_eq_none_iff.mp refused) above))

end Edges

/-! ## Trees -/

theorem names_filterMap_entry?_sublist (nodes : List Node) :
    List.Sublist ((nodes.filterMap Node.entry?).map (·.name)) (nodes.map (·.name)) := by
  induction nodes with
  | nil => exact .slnil
  | cons node nodes ih =>
      rw [List.filterMap_cons, Node.entry?]
      cases node.payload? with
      | none => exact ih.cons _
      | some payload => exact ih.cons_cons _

/-- Nodes of which none begins an earlier one have different names. -/
theorem nodup_names_of_pairwise {nodes : List Node}
    (ordered : nodes.Pairwise fun earlier later => ¬ later.name <+: earlier.name) :
    (nodes.map (·.name)).Nodup := by
  apply List.pairwise_map.mpr
  apply ordered.imp
  intro earlier later apart equal
  apply apart
  rw [equal]

namespace Edges

theorem Canonical.nodup_entry_names {edges : Edges} (canonical : edges.Canonical)
    (above : Name) : ((edges.entries above).map (·.name)).Nodup := by
  have distinct := nodup_names_of_pairwise (canonical.pairwise_nodes above)
  exact distinct.sublist (names_filterMap_entry?_sublist _)

/-- In canonical edges, adding a name fails exactly if the name is there. -/
theorem Canonical.insert_eq_none_iff {edges : Edges} (canonical : edges.Canonical)
    {name : Name} (nonempty : name ≠ []) (zeroFree : 0 ∉ name)
    (payload : List UInt8) (above : Name) :
    edges.insert name payload = Option.none ↔
      above ++ name ∈ (edges.entries above).map (·.name) := by
  constructor
  · intro refused
    exact mem_names_of_insert_eq_none nonempty refused above
  · intro stored
    cases inserted : edges.insert name payload with
    | none => rfl
    | some result =>
        have added := insertion_of_insert nonempty inserted
        have distinct :=
          (canonical.of_insertion added nonempty zeroFree).nodup_entry_names above
        have names := (entries_perm_of_insertion added above).map (·.name)
        have fresh := (List.nodup_cons.mp (names.nodup_iff.mp distinct)).1
        exact (fresh stored).elim

end Edges

/-! ## Repeated names -/

/-- The first name in a list of entries that an earlier entry has. -/
def FirstRepeated (stored : List Entry) (name : Name) : Prop :=
  ∃ before entry after, stored = before ++ entry :: after ∧
    (before.map (·.name)).Nodup ∧ entry.name = name ∧ name ∈ before.map (·.name)

theorem exists_firstRepeated {stored : List Entry}
    (repeated : ¬ (stored.map (·.name)).Nodup) : ∃ name, FirstRepeated stored name := by
  induction stored using List.reverseRecOn with
  | nil => exact (repeated List.nodup_nil).elim
  | append_singleton stored last ih =>
      by_cases distinct : (stored.map (·.name)).Nodup
      · exists last.name, stored, last, []
        refine ⟨rfl, distinct, rfl, ?_⟩
        by_contra fresh
        rw [List.map_append, List.map_singleton, List.nodup_append_comm] at repeated
        exact repeated (List.nodup_cons.mpr ⟨fresh, distinct⟩)
      · rcases ih distinct with ⟨name, before, entry, after, rfl, found⟩
        exact ⟨name, before, entry, after ++ [last], by simp, found⟩

namespace Tree

/-- The nodes of a tree, each before the ones below it. -/
def nodes (tree : Tree) : List Node :=
  ⟨[], tree.payload?, tree.edges.labels⟩ :: tree.edges.nodes []

/-- The entries of a tree. -/
def entries (tree : Tree) : List Entry := tree.nodes.filterMap Node.entry?

/-- A tree is canonical if the edges that leave its root are. -/
def Canonical (tree : Tree) : Prop := tree.edges.Canonical

variable {tree : Tree}

theorem entries_eq (tree : Tree) :
    tree.entries =
      (tree.payload?.map (Entry.mk [])).toList ++ tree.edges.entries [] := by
  simp only [entries, nodes, List.filterMap_cons, Node.entry?]
  cases tree.payload? <;> rfl

/-- A node comes before the ones whose names go on from its own. -/
theorem Canonical.pairwise_nodes (canonical : tree.Canonical) :
    tree.nodes.Pairwise fun earlier later => ¬ later.name <+: earlier.name := by
  constructor
  · intro node member start
    exact Nat.not_lt.mpr start.length_le
      (Edges.Canonical.length_above_lt canonical member)
  · exact Edges.Canonical.pairwise_nodes canonical []

/-- Each node of a canonical tree has a name of its own. -/
theorem Canonical.nodup_names (canonical : tree.Canonical) :
    (tree.nodes.map (·.name)).Nodup :=
  nodup_names_of_pairwise canonical.pairwise_nodes

theorem Canonical.nodup_entry_names (canonical : tree.Canonical) :
    (tree.entries.map (·.name)).Nodup :=
  canonical.nodup_names.sublist (names_filterMap_entry?_sublist _)

theorem canonical_empty : Canonical {} := Edges.Canonical.none

/-- The empty name is stored in the root. -/
theorem nil_mem_names_iff (canonical : tree.Canonical) :
    [] ∈ tree.entries.map (·.name) ↔ tree.payload?.isSome := by
  have notBelow : [] ∉ (tree.edges.entries []).map (·.name) := by
    intro member
    rcases List.mem_map.mp ((names_filterMap_entry?_sublist _).subset member) with
        ⟨node, isNode, equal⟩
    have longer := Edges.Canonical.length_above_lt canonical isNode
    simp only [equal, List.length_nil, Nat.lt_irrefl] at longer
  rw [entries_eq, List.map_append, List.mem_append, or_iff_left notBelow]
  cases tree.payload? <;> simp

/-- Every other name is stored below the root. -/
theorem mem_names_iff {name : Name} (nonempty : name ≠ []) :
    name ∈ tree.entries.map (·.name) ↔
      name ∈ (tree.edges.entries []).map (·.name) := by
  rw [entries_eq, List.map_append, List.mem_append]
  apply or_iff_right
  cases tree.payload? with
  | none => simp
  | some payload => simpa using nonempty

/-- A new name without zero bytes is added, and the tree stays canonical. -/
theorem Canonical.insert_of_notMem (canonical : tree.Canonical) {entry : Entry}
    (zeroFree : 0 ∉ entry.name) (fresh : entry.name ∉ tree.entries.map (·.name)) :
    ∃ result, tree.insert entry = .ok result ∧ result.Canonical ∧
      result.entries.Perm (entry :: tree.entries) := by
  rw [insert, if_neg zeroFree]
  by_cases empty : entry.name = []
  · rw [empty, nil_mem_names_iff canonical] at fresh
    rw [if_pos (List.isEmpty_iff.mpr empty), if_neg fresh]
    refine ⟨_, rfl, canonical, ?_⟩
    have unused : tree.payload? = none := by simpa using fresh
    rw [entries_eq, entries_eq, unused, ← empty]
    exact List.Perm.refl _
  · rw [mem_names_iff empty] at fresh
    rw [if_neg (mt List.isEmpty_iff.mp empty)]
    cases inserted : tree.edges.insert entry.name entry.payload with
    | none =>
        have known := (Edges.Canonical.insert_eq_none_iff canonical empty zeroFree
          entry.payload []).mp inserted
        exact (fresh known).elim
    | some edges =>
        have added := insertion_of_insert empty inserted
        refine ⟨_, rfl, Edges.Canonical.of_insertion canonical added empty zeroFree, ?_⟩
        rw [entries_eq, entries_eq]
        apply ((Edges.entries_perm_of_insertion added []).append_left _).trans
        exact List.perm_middle

/-- A name that is there is refused. -/
theorem Canonical.insert_of_mem (canonical : tree.Canonical) {entry : Entry}
    (zeroFree : 0 ∉ entry.name) (stored : entry.name ∈ tree.entries.map (·.name)) :
    tree.insert entry = .error (.duplicateSymbol entry.name) := by
  rw [insert, if_neg zeroFree]
  by_cases empty : entry.name = []
  · rw [empty, nil_mem_names_iff canonical] at stored
    rw [if_pos (List.isEmpty_iff.mpr empty), if_pos stored]
  · rw [mem_names_iff empty] at stored
    rw [if_neg (mt List.isEmpty_iff.mp empty),
      (Edges.Canonical.insert_eq_none_iff canonical empty zeroFree
        entry.payload []).mpr stored]

/-! ## Lists of entries -/

/-- Adding entries with new names, one after the other. -/
theorem Canonical.foldlM_insert_of_nodup (canonical : tree.Canonical)
    {added : List Entry} (zeroFree : ∀ entry ∈ added, 0 ∉ entry.name)
    (distinct : ((tree.entries ++ added).map (·.name)).Nodup) :
    ∃ result, added.foldlM insert tree = .ok result ∧ result.Canonical ∧
      result.entries.Perm (tree.entries ++ added) := by
  induction added generalizing tree with
  | nil => exact ⟨tree, rfl, canonical, by simp⟩
  | cons entry added ih =>
      have fresh : entry.name ∉ tree.entries.map (·.name) := by
        rw [List.map_append, List.nodup_append] at distinct
        intro stored
        exact distinct.2.2 _ stored _ (by simp) rfl
      rcases canonical.insert_of_notMem (zeroFree entry List.mem_cons_self) fresh with
          ⟨next, inserted, nextCanonical, grown⟩
      have whole : (next.entries ++ added).Perm (tree.entries ++ entry :: added) :=
        (grown.append_right added).trans List.perm_middle.symm
      have laterZeroFree : ∀ later ∈ added, 0 ∉ later.name := by
        intro later member
        exact zeroFree later (List.mem_cons_of_mem entry member)
      have stillDistinct := (whole.map (·.name)).nodup_iff.mpr distinct
      rcases ih nextCanonical laterZeroFree stillDistinct with
          ⟨result, folded, resultCanonical, perm⟩
      refine ⟨result, ?_, resultCanonical, perm.trans whole⟩
      rw [List.foldlM_cons, inserted, ok_bind, folded]

/-- Entries with different names form a canonical tree that holds them. -/
theorem ofEntries_of_nodup {stored : List Entry}
    (zeroFree : ∀ entry ∈ stored, 0 ∉ entry.name)
    (distinct : (stored.map (·.name)).Nodup) :
    ∃ tree, ofEntries stored = .ok tree ∧ tree.Canonical ∧
      tree.entries.Perm stored :=
  canonical_empty.foldlM_insert_of_nodup zeroFree distinct

/-- The first name that is there already is refused as a duplicate. -/
theorem ofEntries_of_firstRepeated {stored : List Entry} {name : Name}
    (zeroFree : ∀ entry ∈ stored, 0 ∉ entry.name)
    (repeated : FirstRepeated stored name) :
    ofEntries stored = .error (.duplicateSymbol name) := by
  rcases repeated with ⟨before, entry, after, rfl, distinct, rfl, known⟩
  have beforeZeroFree : ∀ earlier ∈ before, 0 ∉ earlier.name := by
    intro earlier member
    exact zeroFree earlier (List.mem_append_left _ member)
  have entryZeroFree : 0 ∉ entry.name := zeroFree entry (by simp)
  rcases ofEntries_of_nodup beforeZeroFree distinct with ⟨tree, built, canonical, whole⟩
  have refused :=
    canonical.insert_of_mem entryZeroFree ((whole.map _).mem_iff.mpr known)
  rw [ofEntries] at built ⊢
  rw [List.foldlM_append, built, ok_bind, List.foldlM_cons, refused, error_bind]

theorem zeroFree_of_insert {entry : Entry} {result : Tree}
    (inserted : tree.insert entry = .ok result) : 0 ∉ entry.name := by
  intro zero
  rw [insert, if_pos zero] at inserted
  cases inserted

theorem Canonical.of_insert (canonical : tree.Canonical) {entry : Entry} {result : Tree}
    (inserted : tree.insert entry = .ok result) : result.Canonical := by
  have zeroFree := zeroFree_of_insert inserted
  by_cases stored : entry.name ∈ tree.entries.map (·.name)
  · cases (canonical.insert_of_mem zeroFree stored).symm.trans inserted
  · rcases canonical.insert_of_notMem zeroFree stored with
      ⟨other, same, otherCanonical, -⟩
    cases same.symm.trans inserted
    exact otherCanonical

theorem zeroFree_of_foldlM_insert {added : List Entry} {result : Tree}
    (folded : added.foldlM insert tree = .ok result) :
    ∀ entry ∈ added, 0 ∉ entry.name := by
  induction added generalizing tree with
  | nil => exact List.forall_mem_nil _
  | cons entry added ih =>
      rw [List.foldlM_cons] at folded
      rcases bind_eq_ok.mp folded with ⟨next, inserted, folded⟩
      exact List.forall_mem_cons.mpr ⟨zeroFree_of_insert inserted, ih folded⟩

/-- Which entries form a tree. -/
theorem exists_ofEntries_iff {stored : List Entry} :
    (∃ tree, ofEntries stored = .ok tree) ↔
      (∀ entry ∈ stored, 0 ∉ entry.name) ∧ (stored.map (·.name)).Nodup := by
  constructor
  · rintro ⟨tree, built⟩
    have zeroFree := zeroFree_of_foldlM_insert built
    refine ⟨zeroFree, ?_⟩
    by_contra repeated
    rcases exists_firstRepeated repeated with ⟨name, first⟩
    cases built.symm.trans (ofEntries_of_firstRepeated zeroFree first)
  · rintro ⟨zeroFree, distinct⟩
    rcases ofEntries_of_nodup zeroFree distinct with ⟨tree, built, -⟩
    exact ⟨tree, built⟩

/-- A tree of entries is canonical and holds them. -/
theorem canonical_of_ofEntries {stored : List Entry}
    (built : ofEntries stored = .ok tree) :
    tree.Canonical ∧ tree.entries.Perm stored := by
  rcases exists_ofEntries_iff.mp ⟨tree, built⟩ with ⟨zeroFree, distinct⟩
  rcases ofEntries_of_nodup zeroFree distinct with ⟨other, otherBuilt, canonical, whole⟩
  cases built.symm.trans otherBuilt
  exact ⟨canonical, whole⟩

end Tree

end Linkedit.Trie
