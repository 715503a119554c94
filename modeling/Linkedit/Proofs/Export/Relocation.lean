import Linkedit.Export.Payload
import Linkedit.Proofs.Trie.Fault

/-!
# Payloads where they lie

The payload of a node is decoded in the buffer of its trie, cut off where the payload
ends. What lies before the payload makes no difference, except that errors name places
that lie as much further on.
-/

namespace Linkedit

/-! ## Errors that are moved -/

/-- The error at a place that lies `distance` bytes further on. -/
def Error.movedBy (distance : Nat) : Error → Error
  | .truncated offset => .truncated (distance + offset)
  | .overflow offset => .overflow (distance + offset)
  | .invalidExportTrie offset fault => .invalidExportTrie (distance + offset) fault
  | .loadCommandOverflow offset => .loadCommandOverflow (distance + offset)
  | .parse offset fault => .parse (distance + offset) fault
  | error => error

/-- An error is a fault of the trie wherever it is moved. -/
theorem Error.inTrie_movedBy (distance : Nat) (error : Error) :
    (error.movedBy distance).inTrie = error.inTrie.movedBy distance := by
  cases error with
  | parse offset fault => cases fault <;> rfl
  | _ => rfl

/-! ## Ends of buffers -/

/-- A buffer ends in the bytes of another one, which begin at `start`. If that is behind
its end, the other one is empty. -/
def Bytes.EndsIn (whole : Bytes) (start : Nat) (part : Bytes) : Prop :=
  whole.toList.drop start = part.toList

namespace Bytes

/-- A buffer that is cut off at the end of a slice ends in the slice. -/
theorem endsIn_slice (data : Bytes) (start stop : Nat) :
    EndsIn (data.extract 0 stop) start (data.slice start stop).toArray := by
  simp [EndsIn, slice, List.extract_eq_take_drop, List.drop_take]

namespace EndsIn

variable {whole part : Bytes} {start : Nat}

theorem lt_size_iff (ends : whole.EndsIn start part) {position : Nat} :
    start + position < whole.size ↔ position < part.size := by
  have length := congrArg List.length ends
  simp only [List.length_drop, Array.length_toList] at length
  omega

theorem getElem_eq (ends : whole.EndsIn start part) {position : Nat}
    (inside : position < part.size) (wholeInside : start + position < whole.size) :
    whole[start + position] = part[position] := by
  have same := congrArg (fun bytes : List UInt8 => bytes[position]?) ends
  simpa [List.getElem?_drop, inside, wholeInside] using same

theorem slice_eq (ends : whole.EndsIn start part) (first last : Nat) :
    whole.slice (start + first) (start + last) = part.slice first last := by
  rw [EndsIn] at ends
  simp only [slice, Array.toList_extract, List.extract_eq_take_drop, ← ends,
    List.drop_drop, Nat.add_sub_add_left]

theorem zeroFrom?_eq (ends : whole.EndsIn start part) (position : Nat) :
    whole.zeroFrom? (start + position) = (part.zeroFrom? position).map (start + ·) := by
  fun_induction zeroFrom? part position with
  | case1 position inside zero =>
      rw [zeroFrom?, dif_pos (ends.lt_size_iff.mpr inside), ends.getElem_eq inside,
        if_pos zero]
      rfl
  | case2 position inside nonzero ih =>
      rw [zeroFrom?, dif_pos (ends.lt_size_iff.mpr inside), ends.getElem_eq inside,
        if_neg nonzero]
      exact ih
  | case3 position outside =>
      rw [zeroFrom?, dif_neg (mt ends.lt_size_iff.mp outside)]
      rfl

end EndsIn

end Bytes

/-! ## Reading alike -/

/-- A read in the whole buffer does what a read in its last part does: it gives the same
value and a place that matches, or it fails with an error that is moved. -/
inductive ReadsAlike {α : Type} (whole part : Bytes) (start : Nat) :
    Except Error (α × Cursor) → Except Error (α × Cursor) → Prop where
  | ok (value : α) (position : Nat) :
      ReadsAlike whole part start (.ok (value, ⟨whole, start + position⟩))
        (.ok (value, ⟨part, position⟩))
  | error (cause : Error) :
      ReadsAlike whole part start (.error (cause.movedBy start)) (.error cause)

variable {α β : Type} {whole part : Bytes} {start : Nat}

/-- What goes on alike after reads that are alike is alike. -/
theorem ReadsAlike.bind_eq {left right : Except Error (α × Cursor)}
    (alike : ReadsAlike whole part start left right)
    {leftNext rightNext : α × Cursor → Except Error β}
    (next : ∀ value position, leftNext (value, ⟨whole, start + position⟩) =
      (rightNext (value, ⟨part, position⟩)).mapError (Error.movedBy start)) :
    (left >>= leftNext) = (right >>= rightNext).mapError (Error.movedBy start) := by
  cases alike with
  | ok value position => exact next value position
  | error cause => rfl

namespace Bytes.EndsIn

theorem unsignedFrom_eq (ends : whole.EndsIn start part) (position shift value : Nat) :
    Leb128.unsignedFrom whole (start + position) shift value =
      ((Leb128.unsignedFrom part position shift value).mapError
        (Error.movedBy start)).map fun read => (read.1, start + read.2) := by
  fun_induction Leb128.unsignedFrom part position shift value with
  | case1 position shift value inside group tooLarge =>
      rw [Leb128.unsignedFrom, dif_pos (ends.lt_size_iff.mpr inside),
        ends.getElem_eq inside]
      exact if_pos tooLarge
  | case2 position shift value inside group fits last =>
      rw [Leb128.unsignedFrom, dif_pos (ends.lt_size_iff.mpr inside),
        ends.getElem_eq inside]
      exact (if_neg fits).trans (if_pos last)
  | case3 position shift value inside group fits more ih =>
      rw [Leb128.unsignedFrom, dif_pos (ends.lt_size_iff.mpr inside),
        ends.getElem_eq inside]
      exact ((if_neg fits).trans (if_neg more)).trans ih
  | case4 position shift value outside =>
      rw [Leb128.unsignedFrom, dif_neg (mt ends.lt_size_iff.mp outside)]
      rfl

theorem unsigned_alike (ends : whole.EndsIn start part) (position : Nat) :
    ReadsAlike whole part start (Cursor.unsigned ⟨whole, start + position⟩)
      (Cursor.unsigned ⟨part, position⟩) := by
  rw [Cursor.unsigned, Cursor.unsigned, Leb128.decodeUnsigned_eq,
    Leb128.decodeUnsigned_eq, ends.unsignedFrom_eq]
  cases Leb128.unsignedFrom part position 0 0 with
  | ok read => exact .ok read.1 read.2
  | error cause => exact .error cause

theorem text_alike (ends : whole.EndsIn start part) (position : Nat) :
    ReadsAlike whole part start (Cursor.text ⟨whole, start + position⟩)
      (Cursor.text ⟨part, position⟩) := by
  rw [Cursor.text, Cursor.text, ends.zeroFrom?_eq]
  cases part.zeroFrom? position with
  | none => exact .error (.parse position .unterminatedString)
  | some stop =>
      dsimp only [Option.map_some]
      rw [ends.slice_eq]
      exact .ok _ (stop + 1)

/-- A payload is decoded alike wherever it lies, if the buffer ends with it. -/
theorem decodePayload_eq (ends : whole.EndsIn start part) (name : Name) :
    Export.decodePayload name whole start =
      (Export.decodePayload name part 0).mapError (Error.movedBy start) := by
  rw [Export.decodePayload, Export.decodePayload]
  apply (ends.unsigned_alike 0).bind_eq
  intro flags afterFlags
  dsimp only
  split
  next =>
    apply (ends.unsigned_alike afterFlags).bind_eq
    intro other afterOther
    apply (ends.text_alike afterOther).bind_eq
    intro importName afterName
    rfl
  next =>
    apply (ends.unsigned_alike afterFlags).bind_eq
    intro address afterAddress
    dsimp only
    split
    next =>
      apply (ends.unsigned_alike afterAddress).bind_eq
      intro other afterOther
      rfl
    next => rfl

end Bytes.EndsIn

/-- The payload in a range is decoded as if it lay alone in a buffer. -/
theorem Export.decodePayload_range (data : Bytes) (name : Name) (start stop : Nat) :
    decodePayload name (data.extract 0 stop) start =
      (decodePayload name (data.slice start stop).toArray 0).mapError
        (Error.movedBy start) :=
  (Bytes.endsIn_slice data start stop).decodePayload_eq name

end Linkedit
