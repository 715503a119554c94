import Linkedit.Proofs.Export.Relocation
import Linkedit.Proofs.Trie.Listing
import Linkedit.Proofs.Trie.Prune

/-!
# The readers of a trie side by side

One reader lists the payloads of a trie as they are, another one decodes each of them
where it lies, and a lookup decodes a single one. Both listings go over the same tree of
nodes, and a payload decodes in the trie to what it decodes to on its own. So they
differ only in the payloads that cannot be decoded.
-/

namespace Linkedit.Trie

variable {data : Bytes}

/-! ## Payloads on their own -/

/-- The payload of an entry decodes on its own to an export. -/
def Entry.Decodes (entry : Entry) (symbol : Export) : Prop :=
  Export.decodePayload entry.name entry.payload.toArray 0 = .ok symbol

/-- A payload decodes where it lies to what it decodes to on its own. -/
theorem Terminal.decodes_iff {terminal : Terminal} {symbol : Export} :
    terminal.Decodes data symbol ↔ (terminal.entry data).Decodes symbol := by
  rw [Decodes, Export.decodePayload_range, mapError_eq_ok]
  rfl

/-- Each element of a list has a partner if and only if they can be listed. -/
theorem exists_forall₂_iff {α β : Type} {related : α → β → Prop} {list : List α} :
    (∃ others, List.Forall₂ related list others) ↔
      ∀ element ∈ list, ∃ other, related element other := by
  constructor
  · intro listed element member
    obtain ⟨others, all⟩ := listed
    obtain ⟨other, -, here⟩ := exists_of_forall₂ all member
    exact ⟨other, here⟩
  · intro each
    induction list with
    | nil => exact ⟨[], .nil⟩
    | cons element list ih =>
        obtain ⟨⟨other, here⟩, later⟩ := List.forall_mem_cons.mp each
        obtain ⟨others, all⟩ := ih later
        exact ⟨other :: others, .cons here all⟩

/-! ## Two listings of one trie -/

/-- The exports of a trie that lies in the buffer are what its payloads decode to. -/
theorem exports_of_reads {payload? : Option (Nat × Nat)} {below : Branches}
    (reads : (Branches.root payload? below).Reads data)
    (distinct : (Branches.root payload? below).offsets.Nodup) {symbols : List Export} :
    exports data = .ok symbols ↔ List.Forall₂ Entry.Decodes
      (((Branches.root payload? below).terminals []).map (Terminal.entry data))
      symbols := by
  rw [exports, walk_eq_of_reads reads distinct, map_eq_ok, List.forall₂_map_left_iff]
  simp only [← Terminal.decodes_iff]
  constructor
  · intro listed
    obtain ⟨result, visited, rfl⟩ := listed
    obtain ⟨values, whole, decodes⟩ := Visit.all_eq_ok.mp visited
    rw [whole]
    exact decodes
  · intro decodes
    refine ⟨symbols.toArray, ?_, rfl⟩
    exact Visit.all_eq_ok.mpr ⟨symbols, rfl, decodes⟩

/-- The exports of a trie are what the payloads of its entries decode to, in order. -/
theorem exports_eq_ok_iff {symbols : List Export} :
    exports data = .ok symbols ↔
      ∃ all, entries data = .ok all ∧ List.Forall₂ Entry.Decodes all symbols := by
  cases empty : data.isEmpty with
  | true =>
      rw [entries_of_isEmpty empty, exports, walk, if_pos empty]
      simp [eq_comm]
  | false =>
      constructor
      · intro listed
        obtain ⟨payload?, below, reads, distinct⟩ := exists_root_of_walk empty listed
        exact ⟨_, entries_of_reads reads distinct,
          (exports_of_reads reads distinct).mp listed⟩
      · intro decoded
        obtain ⟨all, read, decodes⟩ := decoded
        obtain ⟨payload?, below, reads, distinct⟩ := exists_root_of_walk empty read
        rw [entries_of_reads reads distinct] at read
        cases read
        exact (exports_of_reads reads distinct).mpr decodes

/-- The exports of a trie can be listed if its entries can and every payload decodes. -/
theorem exists_exports_iff :
    (∃ symbols, exports data = .ok symbols) ↔
      ∃ all, entries data = .ok all ∧ ∀ entry ∈ all, ∃ symbol,
        entry.Decodes symbol := by
  simp only [exports_eq_ok_iff, ← exists_forall₂_iff]
  rw [exists_comm]
  simp only [exists_and_left]

/-- The two listings of a trie agree, whatever its bytes. They go over the same nodes,
and a payload is decoded from the bytes of its range alone, so one listing succeeds
where the other does and each payload decodes. -/
theorem exports_decode_entries (data : Bytes) :
    (∀ symbols, exports data = .ok symbols ↔
      ∃ all, entries data = .ok all ∧ List.Forall₂ Entry.Decodes all symbols) ∧
    ((∃ symbols, exports data = .ok symbols) ↔
      ∃ all, entries data = .ok all ∧ ∀ entry ∈ all, ∃ symbol, entry.Decodes symbol) ∧
    ∀ name start stop, Export.decodePayload name (data.extract 0 stop) start =
      (Export.decodePayload name (data.slice start stop).toArray 0).mapError
        (Error.movedBy start) := by
  constructor
  · intro symbols
    exact exports_eq_ok_iff
  constructor
  · exact exists_exports_iff
  · exact Export.decodePayload_range data

/-- A trie of two entries whose payloads decode, and one of two whose payloads do
not. -/
theorem exports_decode_entries_nested :
    entries nested = .ok [⟨[97], [0, 7]⟩, ⟨[97, 98], [0, 9]⟩] ∧
      exports nested = .ok [⟨[97], 0, 7, 0, none⟩, ⟨[97, 98], 0, 9, 0, none⟩] ∧
      entries twoNames = .ok [⟨[97], [7]⟩, ⟨[98], [9]⟩] ∧
      ∀ symbols, exports twoNames ≠ .ok symbols := by
  have read : entries nested = .ok [⟨[97], [0, 7]⟩, ⟨[97, 98], [0, 9]⟩] := by
    rw [entries_of_reads reads_nested (by decide)]
    decide +kernel
  refine ⟨read, ?decoded, entries_twoNames, ?refused⟩
  case decoded =>
    have first : Entry.Decodes ⟨[97], [0, 7]⟩ ⟨[97], 0, 7, 0, none⟩ := by
      unfold Entry.Decodes
      decide +kernel
    have second : Entry.Decodes ⟨[97, 98], [0, 9]⟩ ⟨[97, 98], 0, 9, 0, none⟩ := by
      unfold Entry.Decodes
      decide +kernel
    exact ((exports_decode_entries nested).1 _).mpr
      ⟨_, read, .cons first (.cons second .nil)⟩
  case refused =>
    intro symbols listed
    rcases (exports_decode_entries twoNames).2.1.mp ⟨symbols, listed⟩ with
      ⟨all, found, each⟩
    cases entries_twoNames.symm.trans found
    rcases each ⟨[97], [7]⟩ List.mem_cons_self with ⟨symbol, decodes⟩
    have truncated : Export.decodePayload [97] #[7] 0 = .error (.truncated 1) := by
      decide +kernel
    cases truncated.symm.trans decodes

/-! ## Rebuilding from what was read -/

/-- Entries whose names hold no zero byte are never refused for their names. -/
theorem Layout.ofEntries_ne_invalidSymbolName {stored : List Entry}
    (zeroFree : ∀ entry ∈ stored, 0 ∉ entry.name) (name : Name) :
    Layout.ofEntries stored ≠ .error (.invalidSymbolName name) := by
  intro refused
  rw [Layout.ofEntries, map_eq_error] at refused
  by_cases distinct : (stored.map (·.name)).Nodup
  · obtain ⟨tree, built, -⟩ := Tree.ofEntries_of_nodup zeroFree distinct
    cases built.symm.trans refused
  · obtain ⟨other, repeated⟩ := exists_firstRepeated distinct
    cases (Tree.ofEntries_of_firstRepeated zeroFree repeated).symm.trans refused

theorem build_ne_invalidSymbolName {stored : List Entry}
    (zeroFree : ∀ entry ∈ stored, 0 ∉ entry.name) (name : Name) :
    build stored ≠ .error (.invalidSymbolName name) := by
  intro refused
  rw [build, map_eq_error] at refused
  exact Layout.ofEntries_ne_invalidSymbolName zeroFree name refused

theorem prune_ne_invalidSymbolName {all : List Entry} (read : entries data = .ok all)
    (remove : Name → Bool) (name : Name) :
    prune data remove ≠ .error (.invalidSymbolName name) := by
  intro refused
  rw [prune_of_entries read] at refused
  split at refused
  next => cases refused
  next =>
    rcases bind_eq_error.mp refused with notLaidOut | ⟨layout, -, noRoom⟩
    · exact Layout.ofEntries_ne_invalidSymbolName (zeroFree_survivors read)
        name notLaidOut
    · rw [Rewrite.apply] at noRoom
      split at noRoom
      next => cases noRoom
      next => cases noRoom

/-- The readers fail in one way only, whatever the bytes: with a fault of the trie at a
place in the buffer or at its end. The names that are read hold no zero byte, so a trie
that is built again from any of the entries, or by removing names, is never refused for
a name. -/
theorem readers_fail_inside (data : Bytes) :
    (∀ error, exports data = .error error → error.IsFaultOf data) ∧
    (∀ error, entries data = .error error → error.IsFaultOf data) ∧
    (∀ name error, lookup data name = .error error → error.IsFaultOf data) ∧
    ∀ all, entries data = .ok all →
      (∀ entry ∈ all, 0 ∉ entry.name) ∧
      (∀ chosen ⊆ all, ∀ name, build chosen ≠ .error (.invalidSymbolName name)) ∧
      ∀ remove name, prune data remove ≠ .error (.invalidSymbolName name) := by
  constructor
  · intro error
    exact isFault_of_exports
  constructor
  · intro error
    exact isFault_of_entries
  constructor
  · intro name error
    exact isFault_of_lookup
  · intro all read
    have zeroFree : ∀ entry ∈ all, 0 ∉ entry.name := by
      intro entry member
      exact (entry_spec_of_entries read entry member).1
    refine ⟨zeroFree, ?_, prune_ne_invalidSymbolName read⟩
    intro chosen subset
    apply build_ne_invalidSymbolName
    intro entry member
    exact zeroFree entry (subset member)

/-- A payload of five bytes in a trie of one byte. -/
theorem entries_cutOff :
    entries #[5] = .error (.invalidExportTrie 0 .terminalPastEnd) := by
  have header : readHeader #[5] 0 = .error (.invalidExportTrie 0 .terminalPastEnd) := by
    decide +kernel
  rw [entries, walk, if_neg (by decide), walkFrom, if_neg Std.HashSet.not_mem_empty,
    header]
  rfl

/-- A trie that is cut off has a fault, and two names that are read can be written
again. -/
theorem readers_fail_inside_cutOff :
    Error.IsFaultOf #[5] (.invalidExportTrie 0 .terminalPastEnd) ∧
      ∀ chosen ⊆ [⟨[97], [7]⟩, ⟨[98], [9]⟩], ∀ name,
        build chosen ≠ .error (.invalidSymbolName name) := by
  constructor
  · exact (readers_fail_inside #[5]).2.1 _ entries_cutOff
  · exact ((readers_fail_inside twoNames).2.2.2 _ entries_twoNames).2.1

end Linkedit.Trie
