import Linkedit.Trie.Walk
import Linkedit.Proofs.Cursor
import Mathlib.Data.List.Forall2
import Mathlib.Data.List.Perm.Subperm

/-!
# Trees in bytes

What a walk goes through is a tree of nodes that lie in the buffer, each at an
offset of its own. `Branches` is such a tree and `Reads` says that it lies in a
buffer. A walk over a tree that lies in the buffer visits its terminal nodes, each
before the ones below it, and a walk that succeeds went over such a tree.
-/

namespace Linkedit.Trie

/-- The children of a node as they lie in a buffer. Each has its label, its
offset, the range of its payload if it has one, and its own children. -/
inductive Branches where
  | none
  | child (label : Name) (offset : Nat) (payload? : Option (Nat × Nat))
      (below rest : Branches)

/-- A node with a payload: its name and the range of the payload. -/
structure Terminal where
  name : Name
  start : Nat
  stop : Nat

/-- The entry whose payload lies in the range of a terminal node. -/
def Terminal.entry (data : Bytes) (terminal : Terminal) : Entry :=
  ⟨terminal.name, data.slice terminal.start terminal.stop⟩

namespace Branches

/-- The edges to the children, in order. -/
def children : Branches → List Child
  | .none => []
  | .child label offset _ _ rest => ⟨label, offset⟩ :: rest.children

/-- The offsets of all nodes, each before the ones below it. -/
def offsets : Branches → List Nat
  | .none => []
  | .child _ offset _ below rest => offset :: (below.offsets ++ rest.offsets)

/-- The terminal nodes below a node of the given name, each before the ones below
it. -/
def terminals (above : Name) : Branches → List Terminal
  | .none => []
  | .child label _ payload? below rest =>
      (payload?.map fun range => ⟨above ++ label, range.1, range.2⟩).toList ++
        (below.terminals (above ++ label) ++ rest.terminals above)

/-- The nodes lie in the buffer: at each offset there is the header of the node,
followed by the edges to its children. -/
inductive Reads (data : Bytes) : Branches → Prop where
  | none : Reads data .none
  | child {label : Name} {offset position : Nat} {payload? : Option (Nat × Nat)}
      {below rest : Branches}
      (header : readHeader data offset = .ok ⟨payload?, position⟩)
      (edges : readChildren data position = .ok below.children)
      (belowReads : below.Reads data) (restReads : rest.Reads data) :
      Reads data (.child label offset payload? below rest)

/-- The root of a trie: a node at offset zero that no label leads to. -/
def root (payload? : Option (Nat × Nat)) (below : Branches) : Branches :=
  .child [] 0 payload? below .none

end Branches

/-! ## Lists that are related element by element -/

/-- In lists that are related element by element, each element of one has its partner in
the other. -/
theorem exists_of_forall₂ {α β : Type} {related : α → β → Prop} {first : List α}
    {second : List β} (all : List.Forall₂ related first second) {element : α}
    (member : element ∈ first) : ∃ other ∈ second, related element other := by
  induction all with
  | nil => cases member
  | @cons head image _ _ here _ ih =>
      rcases List.mem_cons.mp member with rfl | later
      · exact ⟨image, List.mem_cons_self, here⟩
      · rcases ih later with ⟨other, isOther, there⟩
        exact ⟨other, List.mem_cons_of_mem _ isOther, there⟩

/-! ## What the readers accept -/

variable {data : Bytes}

/-- The header of a node: a size inside the buffer, the payload of that size, and at
least one byte behind it. -/
theorem readHeader_eq_ok {offset : Nat} {header : Header} :
    readHeader data offset = .ok header ↔ ∃ size start, offset < data.size ∧
      Leb128.decodeUnsigned data offset = .ok (size, start) ∧
      start + size.toNat < data.size ∧
      header = ⟨if size = 0 then none else some (start, start + size.toNat),
        start + size.toNat⟩ := by
  constructor
  · intro read
    rw [readHeader] at read
    split at read
    next inBounds =>
      rcases bind_eq_ok.mp read with ⟨⟨size, start⟩, decoded, read⟩
      dsimp only at read
      split at read
      next fits =>
        cases read
        exact ⟨size, start, inBounds, mapError_eq_ok.mp decoded, fits, rfl⟩
      next => cases read
    next => cases read
  · rintro ⟨size, start, inBounds, decoded, fits, rfl⟩
    rw [readHeader, if_pos inBounds, decoded, mapError_ok, ok_bind]
    exact if_pos fits

theorem readHeader_offset_lt {offset : Nat} {header : Header}
    (read : readHeader data offset = .ok header) : offset < data.size := by
  rcases readHeader_eq_ok.mp read with ⟨_, _, inBounds, -⟩
  exact inBounds

theorem readHeader_children_lt {offset : Nat} {header : Header}
    (read : readHeader data offset = .ok header) : header.children < data.size := by
  rcases readHeader_eq_ok.mp read with ⟨_, _, -, -, fits, rfl⟩
  exact fits

/-- A payload is not empty and ends inside the buffer. -/
theorem readHeader_payload {offset start stop position : Nat}
    (read : readHeader data offset = .ok ⟨some (start, stop), position⟩) :
    start < stop ∧ stop < data.size := by
  rcases readHeader_eq_ok.mp read with ⟨size, first, -, -, fits, parts⟩
  rcases Header.mk.inj parts with ⟨payload, rfl⟩
  split at payload
  next => cases payload
  next nonzero =>
    cases payload
    have positive : size.toNat ≠ 0 := by
      intro zero
      apply nonzero
      exact UInt64.toNat_inj.mp zero
    omega

/-- A label holds no zero byte, and a child lies inside the buffer. -/
theorem child_spec_of_readEdges {cursor : Cursor} {count : Nat} {children : List Child}
    (read : readEdges cursor count = .ok children) :
    ∀ child ∈ children, 0 ∉ child.label ∧ child.offset < cursor.data.size := by
  induction count generalizing cursor children with
  | zero =>
      cases read
      simp
  | succ count ih =>
      rw [readEdges] at read
      rcases bind_eq_ok.mp read with ⟨⟨label, afterLabel⟩, labelRead, read⟩
      rcases bind_eq_ok.mp read with ⟨⟨offset, next⟩, offsetRead, read⟩
      rw [mapError_eq_ok] at labelRead offsetRead
      dsimp only at read
      split at read
      next inside =>
        rcases bind_eq_ok.mp read with ⟨others, othersRead, read⟩
        cases read
        have sameData : next.data = cursor.data :=
          (Cursor.unsigned_advances offsetRead).data_eq.trans
            (Cursor.text_advances labelRead).data_eq
        have othersSpec := ih othersRead
        rw [sameData] at othersSpec
        rw [List.forall_mem_cons]
        constructor
        · exact ⟨Cursor.zero_notMem_of_text labelRead, inside⟩
        · exact othersSpec
      next => cases read

theorem child_spec_of_readChildren {position : Nat} {children : List Child}
    (read : readChildren data position = .ok children) :
    ∀ child ∈ children, 0 ∉ child.label ∧ child.offset < data.size := by
  rcases bind_eq_ok.mp read with ⟨⟨count, cursor⟩, countRead, read⟩
  have sameData : cursor.data = data :=
    (Cursor.byte_advances (mapError_eq_ok.mp countRead)).data_eq
  have spec := child_spec_of_readEdges read
  rwa [sameData] at spec

namespace Branches

variable {branches : Branches}

theorem Reads.offset_lt (reads : branches.Reads data) :
    ∀ offset ∈ branches.offsets, offset < data.size := by
  induction reads with
  | none => simp [offsets]
  | child header edges _ _ belowIH restIH =>
      intro other member
      simp only [offsets, List.mem_cons, List.mem_append] at member
      rcases member with rfl | under | beside
      · exact readHeader_offset_lt header
      · exact belowIH other under
      · exact restIH other beside

/-- Nodes with offsets of their own are no more than the bytes of the buffer. -/
theorem Reads.length_offsets_le (reads : branches.Reads data)
    (distinct : branches.offsets.Nodup) : branches.offsets.length ≤ data.size := by
  have inside : branches.offsets ⊆ List.range data.size := by
    intro offset member
    exact List.mem_range.mpr (reads.offset_lt offset member)
  simpa using (List.subperm_of_subset distinct inside).length_le

/-- Names of terminal nodes hold no zero byte, and their payloads are not empty. -/
theorem Reads.terminal_spec (reads : branches.Reads data) {above : Name}
    (zeroFree : 0 ∉ above) (labels : ∀ child ∈ branches.children, 0 ∉ child.label) :
    ∀ terminal ∈ branches.terminals above,
      0 ∉ terminal.name ∧ terminal.start < terminal.stop ∧
        terminal.stop < data.size := by
  induction reads generalizing above with
  | none => simp [terminals]
  | @child label offset position payload? below rest header edges _ _ belowIH restIH =>
      have nameZeroFree : 0 ∉ above ++ label := by
        have labelZeroFree := labels ⟨label, offset⟩ (by simp [children])
        simp [zeroFree, labelZeroFree]
      intro terminal member
      simp only [terminals, List.mem_append] at member
      rcases member with own | under | beside
      · cases payload? with
        | none => simp at own
        | some range =>
            have equal : terminal = ⟨above ++ label, range.1, range.2⟩ := by
              simpa using own
            rw [equal]
            exact ⟨nameZeroFree, readHeader_payload header⟩
      · apply belowIH nameZeroFree ?_ terminal under
        intro child isChild
        exact (child_spec_of_readChildren edges child isChild).1
      · apply restIH zeroFree ?_ terminal beside
        intro child isChild
        exact labels child (List.mem_cons_of_mem _ isChild)

end Branches

end Linkedit.Trie
