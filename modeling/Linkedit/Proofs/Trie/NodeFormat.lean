import Linkedit.Proofs.Trie.ByteTree

/-!
# The format of a node

A node is a number, as many bytes of payload as the number says, a count, and as many
edges as the count says. An edge is a label that ends in a zero byte and the offset of
a node inside the buffer. The readers accept exactly these bytes.
-/

namespace Linkedit.Trie

variable {data : Bytes}

/-- The edges that are written from a position on. -/
inductive EdgesAt (data : Bytes) : (position count : Nat) → List Child → Prop where
  | none {position : Nat} : EdgesAt data position 0 []
  | edge {position stop next count : Nat} {offset : UInt64} {rest : List Child}
      (label : data.zeroFrom? position = some stop)
      (number : Leb128.decodeUnsigned data (stop + 1) = .ok (offset, next))
      (inside : offset.toNat < data.size) (others : EdgesAt data next count rest) :
      EdgesAt data position (count + 1)
        (⟨data.slice position stop, offset.toNat⟩ :: rest)

/-- The node that is written at an offset: the range of its payload, if that is not
empty, and its edges. -/
inductive NodeAt (data : Bytes) (offset : Nat) :
    (payload? : Option (Nat × Nat)) → (children : List Child) → Prop where
  | node {size : UInt64} {start : Nat} {count : UInt8} {children : List Child}
      (number : Leb128.decodeUnsigned data offset = .ok (size, start))
      (counted : data[start + size.toNat]? = some count)
      (edges : EdgesAt data (start + size.toNat + 1) count.toNat children) :
      NodeAt data offset (if size = 0 then none else some (start, start + size.toNat))
        children

theorem readEdges_eq_ok {position count : Nat} {children : List Child} :
    readEdges ⟨data, position⟩ count = .ok children ↔
      EdgesAt data position count children := by
  constructor
  · intro read
    induction count generalizing position children with
    | zero =>
        cases read
        exact .none
    | succ count ih =>
        rw [readEdges] at read
        rcases bind_eq_ok.mp read with ⟨⟨label, afterLabel⟩, labelRead, read⟩
        rcases bind_eq_ok.mp read with ⟨⟨offset, next⟩, offsetRead, read⟩
        rw [mapError_eq_ok] at labelRead offsetRead
        rw [Cursor.text] at labelRead
        rw [Cursor.unsigned] at offsetRead
        split at labelRead
        next stop found =>
          cases labelRead
          split at offsetRead
          next number after decoded =>
            cases offsetRead
            dsimp only at read
            split at read
            next inside =>
              rcases bind_eq_ok.mp read with ⟨others, othersRead, read⟩
              cases read
              exact .edge found decoded inside (ih othersRead)
            next => cases read
          next => cases offsetRead
        next => cases labelRead
  · intro edges
    induction edges with
    | none => rfl
    | edge label number inside others ih =>
        rw [readEdges]
        simp only [Cursor.text, Cursor.unsigned, label, number, mapError_ok, ok_bind,
          if_pos inside, ih]
        rfl

theorem readChildren_eq_ok {position : Nat} {children : List Child} :
    readChildren data position = .ok children ↔ ∃ count, data[position]? = some count ∧
      EdgesAt data (position + 1) count.toNat children := by
  constructor
  · intro read
    rcases bind_eq_ok.mp read with ⟨⟨count, cursor⟩, countRead, read⟩
    rw [mapError_eq_ok, Cursor.byte] at countRead
    split at countRead
    next counted =>
      cases countRead
      exact ⟨count, counted, readEdges_eq_ok.mp read⟩
    next => cases countRead
  · rintro ⟨count, counted, edges⟩
    rw [readChildren, Cursor.byte]
    simp only [counted, mapError_ok, ok_bind]
    exact readEdges_eq_ok.mpr edges

/-- The readers accept a node exactly if it is written in the format. -/
theorem nodeAt_iff {offset : Nat} {payload? : Option (Nat × Nat)}
    {children : List Child} :
    NodeAt data offset payload? children ↔ ∃ position,
      readHeader data offset = .ok ⟨payload?, position⟩ ∧
        readChildren data position = .ok children := by
  constructor
  · rintro ⟨number, counted, edges⟩
    refine ⟨_, readHeader_eq_ok.mpr ⟨_, _, ?_, number, ?_, rfl⟩,
      readChildren_eq_ok.mpr ⟨_, counted, edges⟩⟩
    · exact Nat.lt_of_lt_of_le (Leb128.decodeUnsigned_progress number).1
        (Leb128.decodeUnsigned_progress number).2
    · exact (Array.getElem?_eq_some_iff.mp counted).1
  · rintro ⟨position, header, edgesRead⟩
    rcases readHeader_eq_ok.mp header with ⟨size, start, -, number, -, parts⟩
    cases parts
    rcases readChildren_eq_ok.mp edgesRead with ⟨count, counted, edges⟩
    exact .node number counted edges

theorem NodeAt.offset_lt {offset : Nat} {payload? : Option (Nat × Nat)}
    {children : List Child} (node : NodeAt data offset payload? children) :
    offset < data.size := by
  rcases nodeAt_iff.mp node with ⟨position, header, -⟩
  exact readHeader_offset_lt header

/-- At an offset there is at most one node. -/
theorem NodeAt.unique {offset : Nat} {payload? otherPayload? : Option (Nat × Nat)}
    {children others : List Child} (node : NodeAt data offset payload? children)
    (other : NodeAt data offset otherPayload? others) :
    payload? = otherPayload? ∧ children = others := by
  rcases nodeAt_iff.mp node with ⟨position, header, edges⟩
  rcases nodeAt_iff.mp other with ⟨otherPosition, otherHeader, otherEdges⟩
  cases header.symm.trans otherHeader
  cases edges.symm.trans otherEdges
  exact ⟨rfl, rfl⟩

end Linkedit.Trie
