import Linkedit.Proofs.Trie.NodeFormat
import Mathlib.Data.List.Nodup

/-!
# Edge paths

An edge path says which edge to take at each node from the root on. A buffer holds a
tree if every edge path leads to a node and no two lead to the same offset. Its terminal
nodes are listed depth first if they come in the order of their paths, in which a path
comes before those that go on from it and an earlier edge before a later one.
-/

namespace Linkedit.Trie

variable {data : Bytes}

/-- Where an edge path leads: the labels on it put together, and an offset. -/
inductive Leads (data : Bytes) :
    (path : List Nat) → (name : Name) → (offset : Nat) → Prop where
  | root : Leads data [] [] 0
  | edge {path : List Nat} {name : Name} {offset index : Nat}
      {payload? : Option (Nat × Nat)} {children : List Child} {child : Child}
      (above : Leads data path name offset)
      (node : NodeAt data offset payload? children)
      (taken : children[index]? = some child) :
      Leads data (path ++ [index]) (name ++ child.label) child.offset

/-- Every edge path leads to a node, and no two of them to the same offset. -/
structure HoldsTree (data : Bytes) : Prop where
  readable : ∀ path name offset, Leads data path name offset →
    ∃ payload? children, NodeAt data offset payload? children
  unshared : ∀ path name other otherName offset, Leads data path name offset →
    Leads data other otherName offset → path = other

/-- The entry at the end of an edge path to a terminal node. -/
def EntryAt (data : Bytes) (path : List Nat) (entry : Entry) : Prop :=
  ∃ offset start stop children, Leads data path entry.name offset ∧
    NodeAt data offset (some (start, stop)) children ∧
      entry.payload = data.slice start stop

/-- The entries at the ends of all edge paths to terminal nodes, depth first: a path
before those that go on from it, and an earlier edge before a later one. -/
def ListsDepthFirst (data : Bytes) (found : List Entry) : Prop :=
  ∃ paths, paths.Pairwise (· < ·) ∧
    (∀ path, path ∈ paths ↔ ∃ entry, EntryAt data path entry) ∧
    List.Forall₂ (EntryAt data) paths found

theorem Leads.inv_append {path : List Nat} {index : Nat} {name : Name} {offset : Nat}
    (leads : Leads data (path ++ [index]) name offset) :
    ∃ above aboveOffset payload? children child, Leads data path above aboveOffset ∧
      NodeAt data aboveOffset payload? children ∧ children[index]? = some child ∧
      name = above ++ child.label ∧ offset = child.offset := by
  generalize whole : path ++ [index] = extended at leads
  cases leads with
  | root => simp at whole
  | edge above node taken =>
      rcases List.append_inj' whole rfl with ⟨rfl, same⟩
      cases same
      exact ⟨_, _, _, _, _, above, node, taken, rfl, rfl⟩

/-- An edge path leads to one place. -/
theorem Leads.unique {path : List Nat} {name other : Name} {offset otherOffset : Nat}
    (leads : Leads data path name offset)
    (otherLeads : Leads data path other otherOffset) :
    name = other ∧ offset = otherOffset := by
  induction leads generalizing other otherOffset with
  | root =>
      generalize whole : ([] : List Nat) = path at otherLeads
      cases otherLeads with
      | root => exact ⟨rfl, rfl⟩
      | edge => simp at whole
  | edge above node taken ih =>
      rcases otherLeads.inv_append with
        ⟨_, _, _, _, _, otherAbove, otherNode, otherTaken, rfl, rfl⟩
      rcases ih otherAbove with ⟨rfl, rfl⟩
      rcases node.unique otherNode with ⟨-, rfl⟩
      cases taken.symm.trans otherTaken
      exact ⟨rfl, rfl⟩

/-- The starts of an edge path lead somewhere. -/
theorem Leads.of_append {path rest : List Nat} {name : Name} {offset : Nat}
    (leads : Leads data (path ++ rest) name offset) :
    ∃ above aboveOffset, Leads data path above aboveOffset := by
  induction rest using List.reverseRecOn generalizing name offset with
  | nil =>
      rw [List.append_nil] at leads
      exact ⟨name, offset, leads⟩
  | append_singleton rest index ih =>
      rw [← List.append_assoc] at leads
      rcases leads.inv_append with ⟨above, aboveOffset, _, _, _, aboveLeads, -⟩
      exact ih aboveLeads

/-! ## Listings -/

theorem EntryAt.unique {path : List Nat} {entry other : Entry}
    (here : EntryAt data path entry) (there : EntryAt data path other) :
    entry = other := by
  rcases here with ⟨offset, start, stop, children, leads, node, payload⟩
  rcases there with ⟨_, otherStart, otherStop, _, otherLeads, otherNode, otherPayload⟩
  rcases leads.unique otherLeads with ⟨sameName, rfl⟩
  rcases node.unique otherNode with ⟨samePayload, -⟩
  cases samePayload
  cases entry
  cases other
  simp_all

/-- There is one listing. -/
theorem ListsDepthFirst.unique {found others : List Entry}
    (lists : ListsDepthFirst data found) (otherLists : ListsDepthFirst data others) :
    found = others := by
  rcases lists with ⟨paths, ordered, complete, listed⟩
  rcases otherLists with ⟨otherPaths, otherOrdered, otherComplete, otherListed⟩
  have members : ∀ path, path ∈ paths ↔ path ∈ otherPaths := by
    intro path
    rw [complete, otherComplete]
  have permuted : paths.Perm otherPaths :=
    (List.perm_ext_iff_of_nodup ordered.nodup otherOrdered.nodup).mpr members
  have same : paths = otherPaths := by
    apply permuted.eq_of_pairwise ?_ ordered otherOrdered
    intro path other _ _ less greater
    exact (List.lt_asymm less greater).elim
  subst same
  clear complete otherComplete ordered otherOrdered permuted members
  induction listed generalizing others with
  | nil =>
      cases otherListed
      rfl
  | cons here _ ih =>
      cases otherListed with
      | cons there othersListed => rw [here.unique there, ih othersListed]

end Linkedit.Trie
