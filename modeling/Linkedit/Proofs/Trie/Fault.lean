import Linkedit.Proofs.Trie.Walk
import Linkedit.Trie.Lookup

/-!
# How reading a trie fails

The readers of a trie fail in one way only: with a fault of the trie at a place in
the buffer or at its end.
-/

namespace Linkedit

/-- A fault of the trie in a buffer. -/
def Error.IsFaultOf (data : Bytes) (error : Error) : Prop :=
  ∃ offset ≤ data.size, ∃ fault, error = .invalidExportTrie offset fault

variable {data : Bytes} {error : Error}

/-! ## Fields -/

theorem Leb128.isFault_of_decodeUnsigned {position : Nat}
    (inside : position ≤ data.size)
    (failed : decodeUnsigned data position = .error error) :
    error.inTrie.IsFaultOf data := by
  rcases decodeUnsigned_eq_error failed with ⟨place, bounded, rfl | rfl⟩
  · exact ⟨place, by omega, _, rfl⟩
  · exact ⟨place, by omega, _, rfl⟩

namespace Cursor

variable {cursor : Cursor}

theorem isFault_of_byte (inside : cursor.position ≤ cursor.data.size)
    (failed : cursor.byte = .error error) : error.inTrie.IsFaultOf cursor.data := by
  rw [byte] at failed
  split at failed
  next => cases failed
  next =>
    cases failed
    exact ⟨cursor.position, inside, _, rfl⟩

theorem isFault_of_unsigned (inside : cursor.position ≤ cursor.data.size)
    (failed : cursor.unsigned = .error error) : error.inTrie.IsFaultOf cursor.data := by
  rw [unsigned] at failed
  split at failed
  next => cases failed
  next cause decoded =>
    cases failed
    exact Leb128.isFault_of_decodeUnsigned inside decoded

theorem isFault_of_text (inside : cursor.position ≤ cursor.data.size)
    (failed : cursor.text = .error error) : error.inTrie.IsFaultOf cursor.data := by
  rw [text] at failed
  split at failed
  next => cases failed
  next =>
    cases failed
    exact ⟨cursor.position, inside, _, rfl⟩

/-- A fault behind a read is a fault of the buffer that was read from. -/
theorem Advances.isFault {next : Cursor} (advances : cursor.Advances next)
    (fault : next.position ≤ next.data.size → error.inTrie.IsFaultOf next.data) :
    error.inTrie.IsFaultOf cursor.data :=
  advances.data_eq ▸ fault (advances.data_eq ▸ advances.position_le)

end Cursor

/-! ## Payloads -/

/-- A payload that cannot be decoded is a fault of the trie. -/
theorem Export.isFault_of_decodePayload {name : Name} {start : Nat}
    (inside : start ≤ data.size)
    (failed : decodePayload name data start = .error error) :
    error.inTrie.IsFaultOf data := by
  rw [decodePayload] at failed
  rcases bind_eq_error.mp failed with noFlags | ⟨⟨flags, afterFlags⟩, read, failed⟩
  · exact Cursor.isFault_of_unsigned inside noFlags
  apply (Cursor.unsigned_advances read).isFault
  intro flagsInside
  dsimp only at failed flagsInside
  split at failed
  next =>
    rcases bind_eq_error.mp failed with noOther | ⟨⟨other, afterOther⟩, read, failed⟩
    · exact Cursor.isFault_of_unsigned flagsInside noOther
    apply (Cursor.unsigned_advances read).isFault
    intro otherInside
    rcases bind_eq_error.mp failed with noName | ⟨_, _, done⟩
    · exact Cursor.isFault_of_text otherInside noName
    · cases done
  next =>
    rcases bind_eq_error.mp failed with
      noAddress | ⟨⟨address, afterAddress⟩, read, failed⟩
    · exact Cursor.isFault_of_unsigned flagsInside noAddress
    apply (Cursor.unsigned_advances read).isFault
    intro addressInside
    dsimp only at failed addressInside
    split at failed
    next =>
      rcases bind_eq_error.mp failed with noResolver | ⟨_, _, done⟩
      · exact Cursor.isFault_of_unsigned addressInside noResolver
      · cases done
    next => cases failed

/-- A fault of the start of a buffer is a fault of the buffer. -/
theorem Error.IsFaultOf.of_extract {stop : Nat}
    (fault : error.IsFaultOf (data.extract 0 stop)) :
    error.IsFaultOf data := by
  rcases fault with ⟨offset, inside, kind, rfl⟩
  refine ⟨offset, ?_, kind, rfl⟩
  rw [Array.size_extract] at inside
  omega

/-- A payload that cannot be decoded in its range is a fault of the trie. -/
theorem Export.isFault_of_decodeRange {name : Name} {start stop : Nat}
    (order : start ≤ stop) (inside : stop ≤ data.size)
    (failed : decodePayload name (data.extract 0 stop) start = .error error) :
    error.inTrie.IsFaultOf data := by
  have startInside : start ≤ (data.extract 0 stop).size := by
    rw [Array.size_extract]
    omega
  exact (isFault_of_decodePayload startInside failed).of_extract

/-! ## Nodes -/

namespace Trie

theorem isFault_of_readHeader {offset : Nat} (inside : offset ≤ data.size)
    (failed : readHeader data offset = .error error) : error.IsFaultOf data := by
  rw [readHeader] at failed
  split at failed
  next =>
    rcases bind_eq_error.mp failed with early | ⟨⟨size, start⟩, -, late⟩
    · rcases mapError_eq_error.mp early with ⟨cause, decoded, rfl⟩
      exact Leb128.isFault_of_decodeUnsigned inside decoded
    · dsimp only at late
      split at late
      next => cases late
      next =>
        cases late
        exact ⟨offset, inside, _, rfl⟩
  next =>
    cases failed
    exact ⟨offset, inside, _, rfl⟩

theorem isFault_of_readEdges {cursor : Cursor} {count : Nat}
    (inside : cursor.position ≤ cursor.data.size)
    (failed : readEdges cursor count = .error error) : error.IsFaultOf cursor.data := by
  induction count generalizing cursor with
  | zero => cases failed
  | succ count ih =>
      rw [readEdges] at failed
      rcases bind_eq_error.mp failed with noLabel | ⟨⟨label, afterLabel⟩, read, failed⟩
      · rcases mapError_eq_error.mp noLabel with ⟨cause, read, rfl⟩
        exact Cursor.isFault_of_text inside read
      have labelRead := Cursor.text_advances (mapError_eq_ok.mp read)
      rw [← labelRead.data_eq]
      have afterInside : afterLabel.position ≤ afterLabel.data.size :=
        labelRead.data_eq ▸ labelRead.position_le
      rcases bind_eq_error.mp failed with noOffset | ⟨⟨offset, next⟩, read, failed⟩
      · rcases mapError_eq_error.mp noOffset with ⟨cause, read, rfl⟩
        exact Cursor.isFault_of_unsigned afterInside read
      have offsetRead := Cursor.unsigned_advances (mapError_eq_ok.mp read)
      dsimp only at failed
      split at failed
      next =>
        rcases bind_eq_error.mp failed with later | ⟨_, _, done⟩
        · rw [← offsetRead.data_eq]
          exact ih (offsetRead.data_eq ▸ offsetRead.position_le) later
        · cases done
      next =>
        cases failed
        exact ⟨afterLabel.position, afterInside, _, rfl⟩

theorem isFault_of_readChildren {position : Nat} (inside : position ≤ data.size)
    (failed : readChildren data position = .error error) : error.IsFaultOf data := by
  rw [readChildren] at failed
  rcases bind_eq_error.mp failed with noCount | ⟨⟨count, cursor⟩, read, failed⟩
  · rcases mapError_eq_error.mp noCount with ⟨cause, read, rfl⟩
    exact Cursor.isFault_of_byte inside read
  · have countRead := Cursor.byte_advances (mapError_eq_ok.mp read)
    have fault :=
      isFault_of_readEdges (countRead.data_eq ▸ countRead.position_le) failed
    rwa [countRead.data_eq] at fault

/-! ## Walks -/

/-- The range of a terminal node lies inside the buffer. -/
def Terminal.Inside (data : Bytes) (terminal : Terminal) : Prop :=
  terminal.start ≤ terminal.stop ∧ terminal.stop ≤ data.size

/-- The payload of a node that can be read lies inside the buffer. -/
theorem inside_of_readHeader {offset position : Nat} {payload? : Option (Nat × Nat)}
    (header : readHeader data offset = .ok ⟨payload?, position⟩) (name : Name) :
    ∀ terminal ∈ (payload?.map fun range => Terminal.mk name range.1 range.2).toList,
      terminal.Inside data := by
  intro terminal member
  rcases Option.map_eq_some_iff.mp (Option.mem_toList.mp member) with ⟨range, rfl, rfl⟩
  rcases readHeader_payload header with ⟨positive, bound⟩
  exact ⟨positive.le, bound.le⟩

/-- Inside the buffer, a visit fails with faults of the trie only. -/
def Visit.FaultsOf {α : Type} (data : Bytes) (visit : Visit α) : Prop :=
  ∀ name start stop error, start ≤ stop → stop ≤ data.size →
    visit name start stop = .error error → error.inTrie.IsFaultOf data

theorem Visit.FaultsOf.of_all {α : Type} {visit : Visit α} {found : Array α}
    {terminals : List Terminal} (visitFault : visit.FaultsOf data)
    (inside : ∀ terminal ∈ terminals, terminal.Inside data)
    (failed : visit.all found terminals = .error error) : error.IsFaultOf data := by
  induction terminals generalizing found with
  | nil => cases failed
  | cons terminal terminals ih =>
      rcases List.forall_mem_cons.mp inside with ⟨⟨order, bound⟩, others⟩
      rw [Visit.all, List.foldlM_cons] at failed
      rcases bind_eq_error.mp failed with first | ⟨found, -, later⟩
      · rcases mapError_eq_error.mp (map_eq_error.mp first) with ⟨cause, visited, rfl⟩
        exact visitFault _ _ _ _ order bound visited
      · exact ih others later

/-- A walk fails with a fault of the trie if its visits do. -/
theorem isFault_of_walkFrom {α : Type} {visit : Visit α} {fuel : Nat}
    {pending : List (Nat × Name)} {visited : Std.HashSet Nat} {found : Array α}
    (visitFault : visit.FaultsOf data)
    (inside : ∀ node ∈ pending, node.1 ≤ data.size)
    (failed : walkFrom data visit fuel pending visited found = .error error) :
    error.IsFaultOf data := by
  induction fuel generalizing pending visited found with
  | zero =>
      cases pending with
      | nil => cases failed
      | cons node pending =>
          cases failed
          exact ⟨node.1, inside node List.mem_cons_self, _, rfl⟩
  | succ fuel ih =>
      cases pending with
      | nil => cases failed
      | cons node pending =>
          rcases List.forall_mem_cons.mp inside with ⟨nodeInside, pendingInside⟩
          by_cases fresh : node.1 ∈ visited
          · rw [walkFrom, if_pos fresh] at failed
            cases failed
            exact ⟨node.1, nodeInside, _, rfl⟩
          cases header : readHeader data node.1 with
          | error cause =>
              rw [walkFrom, if_neg fresh, header] at failed
              cases failed
              exact isFault_of_readHeader nodeInside header
          | ok parts =>
              cases edges : readChildren data parts.children with
              | error cause =>
                  rw [walkFrom, if_neg fresh, header, ok_bind, edges] at failed
                  cases failed
                  exact isFault_of_readChildren (readHeader_children_lt header).le edges
              | ok children =>
                  rw [walkFrom_node fresh header edges] at failed
                  rcases bind_eq_error.mp failed with visitFailed | ⟨found, -, failed⟩
                  · exact visitFault.of_all (inside_of_readHeader header _) visitFailed
                  · apply ih ?_ failed
                    intro next member
                    rcases List.mem_append.mp member with below | later
                    · rcases List.mem_map.mp below with ⟨child, isChild, rfl⟩
                      exact (child_spec_of_readChildren edges child isChild).2.le
                    · exact pendingInside next later

theorem isFault_of_walk {α : Type} {visit : Visit α} (visitFault : visit.FaultsOf data)
    (failed : walk data visit = .error error) : error.IsFaultOf data := by
  rw [walk] at failed
  split at failed
  next => cases failed
  next =>
    apply isFault_of_walkFrom visitFault ?_ (map_eq_error.mp failed)
    intro node member
    cases List.mem_singleton.mp member
    exact Nat.zero_le _

/-- A trie that cannot be read has a fault. -/
theorem isFault_of_entries (failed : entries data = .error error) :
    error.IsFaultOf data := by
  apply isFault_of_walk ?_ failed
  intro name start stop cause _ _ visited
  cases visited

/-- A trie whose exports cannot be listed has a fault. -/
theorem isFault_of_exports (failed : exports data = .error error) :
    error.IsFaultOf data := by
  apply isFault_of_walk ?_ failed
  intro name start stop cause order bound visited
  exact Export.isFault_of_decodeRange order bound visited

/-! ## Lookups -/

/-- A lookup that fails on its way has met a fault. The proof follows the recursion of
the lookup, since what is left of the name gets shorter along each edge. -/
theorem isFault_of_lookupFrom {name remaining : Name} {offset : Nat}
    {visited : Std.HashSet Nat} (inside : offset ≤ data.size)
    (failed : lookupFrom data name remaining offset visited = .error error) :
    error.IsFaultOf data := by
  rw [lookupFrom] at failed
  split at failed
  next =>
    cases failed
    exact ⟨offset, inside, _, rfl⟩
  next =>
    rcases bind_eq_error.mp failed with
      noHeader | ⟨⟨payload?, position⟩, header, failed⟩
    · exact isFault_of_readHeader inside noHeader
    split at failed
    next =>
      dsimp only at failed
      split at failed
      next start stop =>
        rcases mapError_eq_error.mp (map_eq_error.mp failed) with ⟨cause, refused, rfl⟩
        rcases readHeader_payload header with ⟨positive, bound⟩
        exact Export.isFault_of_decodeRange positive.le bound.le refused
      next => cases failed
    next =>
      rcases bind_eq_error.mp failed with noChildren | ⟨children, edges, failed⟩
      · exact isFault_of_readChildren (readHeader_children_lt header).le noChildren
      split at failed
      next child found =>
        have childInside := (child_spec_of_readChildren edges child
          (List.mem_of_find?_eq_some found)).2
        have shorter := Child.drop_length_lt (List.find?_some found)
        exact isFault_of_lookupFrom childInside.le failed
      next => cases failed
termination_by remaining.length
decreasing_by exact shorter

/-- A lookup that fails has met a fault. -/
theorem isFault_of_lookup {name : Name} (failed : lookup data name = .error error) :
    error.IsFaultOf data := by
  rw [lookup] at failed
  split at failed
  next => cases failed
  next => exact isFault_of_lookupFrom (Nat.zero_le _) failed

end Trie

end Linkedit
