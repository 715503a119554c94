import Linkedit.Cursor
import Linkedit.Proofs.Except
import Linkedit.Proofs.Leb128

/-!
# Reading what is written

Each field is read back from a cursor that stands where the field is written,
and leaves the cursor behind it. A field that was read once is read again wherever
its bytes lie.
-/

namespace Linkedit.Cursor

variable {data : Bytes} {position : Nat}

theorem byte_of_holdsAt {byte : UInt8} (holds : data.HoldsAt position [byte]) :
    (Cursor.mk data position).byte = .ok (byte, ⟨data, position + 1⟩) := by
  simp [Cursor.byte, Bytes.holdsAt_singleton.mp holds]

theorem unsigned_of_holdsAt {value : Nat} (fits : value < 2 ^ 64)
    (holds : data.HoldsAt position (Leb128.encodeUnsigned value)) :
    (Cursor.mk data position).unsigned =
      .ok (UInt64.ofNat value, ⟨data, position + Leb128.unsignedSize value⟩) := by
  simp [Cursor.unsigned, Leb128.decodeUnsigned_encodeUnsigned holds fits]

theorem text_of_holdsAt {text : Name} (zeroFree : 0 ∉ text)
    (holds : data.HoldsAt position (text ++ [0])) :
    (Cursor.mk data position).text =
      .ok (text, ⟨data, position + text.length + 1⟩) := by
  have found := Bytes.zeroFrom?_of_holdsAt zeroFree holds
  have slice := (Bytes.holdsAt_append.mp holds).1.slice_eq
  simp [Cursor.text, found, slice]

/-- A text never holds the zero byte that ends it. -/
theorem zero_notMem_of_text {cursor next : Cursor} {text : Name}
    (read : cursor.text = .ok (text, next)) : 0 ∉ text := by
  unfold Cursor.text at read
  split at read
  next stop found =>
    cases read
    exact Bytes.zero_notMem_slice found
  next => cases read

/-! ## Reading elsewhere -/

/-- The bytes from a cursor up to another one. -/
def between (cursor next : Cursor) : List UInt8 :=
  cursor.data.slice cursor.position next.position

theorem between_self (cursor : Cursor) : cursor.between cursor = [] :=
  Bytes.slice_self _ _

theorem between_append {first middle last : Cursor} (data_eq : middle.data = first.data)
    (before : first.position ≤ middle.position)
    (behind : middle.position ≤ last.position) :
    first.between middle ++ middle.between last = first.between last := by
  rw [between, between, between, data_eq]
  exact Bytes.slice_append before behind

variable {α β : Type} {read : Cursor → Except Error (α × Cursor)}

/-- A read does not go back, and what it gives depends on the bytes alone that it passes
over. -/
structure Local (read : Cursor → Except Error (α × Cursor)) : Prop where
  data_eq : ∀ {cursor next value}, read cursor = .ok (value, next) →
    next.data = cursor.data
  position_le : ∀ {cursor next value}, read cursor = .ok (value, next) →
    cursor.position ≤ next.position
  elsewhere : ∀ {cursor next value}, read cursor = .ok (value, next) →
    ∀ {other : Bytes} {place : Nat}, other.HoldsAt place (cursor.between next) →
      read ⟨other, place⟩ = .ok (value, ⟨other, place + (cursor.between next).length⟩)

theorem local_byte : Local byte where
  data_eq read := (byte_advances read).data_eq
  position_le read := Nat.le_of_lt (byte_advances read).position_lt
  elsewhere := by
    intro cursor next value read other place holds
    unfold byte at read
    split at read
    next byte found =>
      cases read
      rcases Array.getElem?_eq_some_iff.mp found with ⟨inBounds, rfl⟩
      rw [between, Bytes.slice_cons inBounds (Nat.lt_succ_self _), Bytes.slice_self]
        at holds ⊢
      exact byte_of_holdsAt holds
    next => cases read

theorem local_unsigned : Local unsigned where
  data_eq read := (unsigned_advances read).data_eq
  position_le read := Nat.le_of_lt (unsigned_advances read).position_lt
  elsewhere := by
    intro cursor next value read other place holds
    unfold unsigned at read
    split at read
    next decoded =>
      cases read
      rw [unsigned, Leb128.decodeUnsigned_elsewhere decoded holds]
      rfl
    next => cases read

theorem local_signed : Local signed where
  data_eq read := (signed_advances read).data_eq
  position_le read := Nat.le_of_lt (signed_advances read).position_lt
  elsewhere := by
    intro cursor next value read other place holds
    unfold signed at read
    split at read
    next decoded =>
      cases read
      rw [signed, Leb128.decodeSigned_elsewhere decoded holds]
      rfl
    next => cases read

theorem local_text : Local text where
  data_eq read := (text_advances read).data_eq
  position_le read := Nat.le_of_lt (text_advances read).position_lt
  elsewhere := by
    intro cursor next value read other place holds
    unfold text at read
    split at read
    next stop found =>
      cases read
      rw [between, Bytes.slice_zeroFrom? found] at holds ⊢
      rw [text_of_holdsAt (Bytes.zero_notMem_slice found) holds, List.length_append]
      rfl
    next => cases read

theorem Local.pure (value : α) : Local fun cursor => .ok (value, cursor) where
  data_eq read := by cases read; rfl
  position_le read := by cases read; exact Nat.le_refl _
  elsewhere := by
    intro cursor next value read other place holds
    cases read
    rw [between_self]
    rfl

theorem Local.map (isLocal : Local read) (image : α → β) :
    Local fun cursor => (read cursor).map fun (value, next) => (image value, next) where
  data_eq mapped := by
    rcases map_eq_ok.mp mapped with ⟨_, first, same⟩
    cases same
    exact isLocal.data_eq first
  position_le mapped := by
    rcases map_eq_ok.mp mapped with ⟨_, first, same⟩
    cases same
    exact isLocal.position_le first
  elsewhere := by
    intro cursor next value mapped other place holds
    rcases map_eq_ok.mp mapped with ⟨_, first, same⟩
    cases same
    rw [isLocal.elsewhere first holds]
    rfl

/-- One read after another. -/
theorem Local.andThen {further : α → Cursor → Except Error (β × Cursor)}
    (first : Local read) (second : ∀ value, Local (further value)) :
    Local fun cursor => read cursor >>= fun found => further found.1 found.2 where
  data_eq both := by
    rcases bind_eq_ok.mp both with ⟨⟨value, middle⟩, begins, ends⟩
    exact ((second value).data_eq ends).trans (first.data_eq begins)
  position_le both := by
    rcases bind_eq_ok.mp both with ⟨⟨value, middle⟩, begins, ends⟩
    exact Nat.le_trans (first.position_le begins) ((second value).position_le ends)
  elsewhere := by
    intro cursor next result both other place holds
    rcases bind_eq_ok.mp both with ⟨⟨value, middle⟩, begins, ends⟩
    rw [← between_append (first.data_eq begins) (first.position_le begins)
      ((second value).position_le ends)] at holds ⊢
    rcases Bytes.holdsAt_append.mp holds with ⟨firstHolds, secondHolds⟩
    rw [first.elsewhere begins firstHolds, List.length_append, ← Nat.add_assoc]
    exact (second value).elsewhere ends secondHolds

end Linkedit.Cursor
