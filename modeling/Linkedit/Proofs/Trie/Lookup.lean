import Linkedit.Trie.Lookup
import Linkedit.Proofs.Export.Payload
import Linkedit.Proofs.Trie.RoundTrip

/-!
# What a lookup finds

A lookup goes down one path of the tree that lies in the buffer. If the labels of
each node differ in their first bytes, that path is the only one that can spell the
name, so a lookup finds the node that a full listing shows.
-/

namespace Linkedit.Trie

variable {data : Bytes}

/-! ## Going down one path -/

namespace Branches

/-- The payload range at the node that the first fitting edges lead to. -/
def seek : Branches → (remaining : Name) → Option (Nat × Nat)
  | .none, _ => Option.none
  | .child label offset payload? below rest, remaining =>
      if Child.continues remaining ⟨label, offset⟩ then
        if remaining.drop label.length = [] then payload?
        else below.seek (remaining.drop label.length)
      else rest.seek remaining

/-- The labels of each node are not empty and differ in their first bytes. -/
inductive Apart : Branches → Prop where
  | none : Apart .none
  | child {label : Name} {offset : Nat} {payload? : Option (Nat × Nat)}
      {below rest : Branches} (nonempty : label ≠ [])
      (apart : ∀ other ∈ rest.children, other.label.head? ≠ label.head?)
      (belowApart : below.Apart) (restApart : rest.Apart) :
      Apart (.child label offset payload? below rest)

variable {branches : Branches} {above remaining : Name}

theorem continues_iff {label : Name} {offset : Nat} :
    Child.continues remaining ⟨label, offset⟩ = true ↔
      label ≠ [] ∧ label <+: remaining := by
  simp [Child.continues]

/-- What is reached is a terminal node with the name that was looked for. -/
theorem mem_terminals_of_seek {range : Nat × Nat}
    (reached : branches.seek remaining = some range) :
    ⟨above ++ remaining, range.1, range.2⟩ ∈ branches.terminals above := by
  induction branches generalizing above remaining with
  | none => cases reached
  | child label offset payload? below rest belowIH restIH =>
      rw [seek] at reached
      simp only [terminals, List.mem_append]
      split at reached
      next continues =>
        rcases (continues_iff.mp continues).2 with ⟨suffix, rfl⟩
        rw [List.drop_left] at reached
        split at reached
        next ended =>
          left
          simp [reached, ended]
        next =>
          right
          left
          rw [← List.append_assoc]
          exact belowIH reached
      next =>
        right
        right
        exact restIH reached

/-- The name of a terminal node goes on with one of the labels. -/
theorem exists_child_of_mem_terminals {terminal : Terminal}
    (member : terminal ∈ branches.terminals above) :
    ∃ child ∈ branches.children, above ++ child.label <+: terminal.name := by
  induction branches generalizing above with
  | none => cases member
  | child label offset payload? below rest belowIH restIH =>
      simp only [terminals, List.mem_append] at member
      rcases member with own | under | beside
      · obtain ⟨range, -, rfl⟩ : ∃ range, payload? = some range ∧
            ⟨above ++ label, range.1, range.2⟩ = terminal := by simpa using own
        exact ⟨⟨label, offset⟩, List.mem_cons_self, List.prefix_rfl⟩
      · rcases belowIH under with ⟨child, -, start⟩
        have first := (List.prefix_append _ child.label).trans start
        exact ⟨⟨label, offset⟩, List.mem_cons_self, first⟩
      · rcases restIH beside with ⟨child, isChild, start⟩
        exact ⟨child, List.mem_cons_of_mem _ isChild, start⟩

theorem Apart.label_ne_nil (apart : branches.Apart) {child : Child}
    (member : child ∈ branches.children) : child.label ≠ [] := by
  induction apart with
  | none => cases member
  | child nonempty _ _ _ _ restIH =>
      rcases List.mem_cons.mp member with rfl | later
      · exact nonempty
      · exact restIH later

/-- If labels differ in their first bytes, every terminal node is reached. -/
theorem Apart.seek_of_mem_terminals (apart : branches.Apart) {terminal : Terminal}
    (member : terminal ∈ branches.terminals above)
    (name : terminal.name = above ++ remaining) :
    branches.seek remaining = some (terminal.start, terminal.stop) := by
  induction apart generalizing above remaining with
  | none => cases member
  | @child label offset payload? below rest nonempty apart belowApart restApart belowIH
      restIH =>
      simp only [terminals, List.mem_append] at member
      rw [seek]
      rcases member with own | under | beside
      · obtain ⟨range, rfl, rfl⟩ : ∃ range, payload? = some range ∧
            ⟨above ++ label, range.1, range.2⟩ = terminal := by simpa using own
        rcases List.append_cancel_left name with rfl
        rw [if_pos (continues_iff.mpr ⟨nonempty, List.prefix_rfl⟩),
          if_pos List.drop_length]
      · rcases exists_child_of_mem_terminals under with ⟨child, isChild, start⟩
        have childNonempty := belowApart.label_ne_nil isChild
        rw [name, List.append_assoc, List.prefix_append_right_inj] at start
        rcases start with ⟨suffix, rfl⟩
        rw [List.append_assoc] at name ⊢
        rw [if_pos (continues_iff.mpr ⟨nonempty, List.prefix_append _ _⟩),
          List.drop_left, if_neg (by simp [childNonempty])]
        exact belowIH under (by rw [name, List.append_assoc])
      · rcases exists_child_of_mem_terminals beside with ⟨child, isChild, start⟩
        have childNonempty := restApart.label_ne_nil isChild
        have other : ¬ Child.continues remaining ⟨label, offset⟩ = true := by
          intro continues
          apply apart child isChild
          apply Edges.head?_eq_of_begins childNonempty nonempty start
          rw [name, List.prefix_append_right_inj]
          exact (continues_iff.mp continues).2
        rw [if_neg other]
        exact restIH beside name

/-- The payload range at the node of a trie that the first fitting edges lead to. -/
def seekRoot (payload? : Option (Nat × Nat)) (below : Branches) (name : Name) :
    Option (Nat × Nat) :=
  if name = [] then payload? else below.seek name

variable {payload? : Option (Nat × Nat)} {below : Branches}

theorem mem_terminals_of_seekRoot {name : Name} {range : Nat × Nat}
    (reached : seekRoot payload? below name = some range) :
    ⟨name, range.1, range.2⟩ ∈ (root payload? below).terminals [] := by
  rw [seekRoot] at reached
  split at reached
  next empty => simp [root, terminals, reached, empty]
  next =>
    have member : ⟨[] ++ name, range.1, range.2⟩ ∈ below.terminals [] :=
      mem_terminals_of_seek reached
    simp only [root, terminals, List.mem_append]
    exact .inr (.inl member)

theorem Apart.seekRoot_of_mem_terminals (apart : below.Apart) {terminal : Terminal}
    (member : terminal ∈ (root payload? below).terminals []) :
    seekRoot payload? below terminal.name = some (terminal.start, terminal.stop) := by
  simp only [root, terminals, List.append_nil, List.mem_append] at member
  rw [seekRoot]
  rcases member with own | under
  · obtain ⟨range, rfl, rfl⟩ : ∃ range, payload? = some range ∧
        ⟨[], range.1, range.2⟩ = terminal := by simpa using own
    rw [if_pos rfl]
  · rcases exists_child_of_mem_terminals under with ⟨child, isChild, start⟩
    have named : terminal.name ≠ [] := by
      intro unnamed
      rw [unnamed, List.nil_append, List.prefix_nil] at start
      exact apart.label_ne_nil isChild start
    rw [if_neg named]
    exact apart.seek_of_mem_terminals under (List.nil_append _).symm

end Branches

/-! ## A lookup goes down that path -/

/-- What a lookup says about the payload range it reached. -/
def reportPayload (data : Bytes) (name : Name) :
    Option (Nat × Nat) → Except Error (Option Export)
  | some (start, stop) =>
      (Export.decodePayload name (data.extract 0 stop) start).mapError
        Error.inTrie |>.map some
  | none => .ok none

/-- A lookup goes on along the first of the edges that continues the name. -/
def lookupAmong (data : Bytes) (name remaining : Name) (visited : Std.HashSet Nat)
    (children : List Child) : Except Error (Option Export) :=
  match children.find? (Child.continues remaining) with
  | some child =>
      lookupFrom data name (remaining.drop child.label.length) child.offset visited
  | none => .ok none

/-- One step of a lookup, at a node that can be read. -/
theorem lookupFrom_node {name remaining : Name} {offset position : Nat}
    {payload? : Option (Nat × Nat)} {children : List Child} {visited : Std.HashSet Nat}
    (fresh : offset ∉ visited)
    (header : readHeader data offset = .ok ⟨payload?, position⟩)
    (edges : readChildren data position = .ok children) :
    lookupFrom data name remaining offset visited =
      if remaining = [] then reportPayload data name payload?
      else lookupAmong data name remaining (visited.insert offset) children := by
  rw [lookupFrom, if_neg fresh, header, ok_bind, edges, ok_bind, lookupAmong]
  simp only [List.isEmpty_iff]
  split
  next => cases payload? <;> rfl
  next =>
    split
    next child found => rw [found]
    next found =>
      rw [found]
      rfl

namespace Branches

/-- A lookup among the children of a node reports what lies at the end of the path. -/
theorem Reads.lookupAmong_children {branches : Branches} (reads : branches.Reads data)
    {name remaining : Name} {visited : Std.HashSet Nat}
    (distinct : branches.offsets.Nodup)
    (fresh : ∀ offset ∈ branches.offsets, offset ∉ visited) :
    lookupAmong data name remaining visited branches.children =
      reportPayload data name (branches.seek remaining) := by
  induction reads generalizing remaining visited with
  | none => rfl
  | @child label offset position payload? below rest header edges _ _ belowIH restIH =>
      simp only [offsets, List.nodup_cons, List.nodup_append, List.mem_append,
        not_or] at distinct
      rcases distinct with ⟨⟨notBelow, -⟩, belowDistinct, restDistinct, -⟩
      simp only [offsets, List.forall_mem_cons, List.forall_mem_append] at fresh
      rcases fresh with ⟨first, freshBelow, freshBeside⟩
      rw [children, seek, lookupAmong]
      by_cases continues : Child.continues remaining ⟨label, offset⟩ = true
      · rw [List.find?_cons_of_pos continues, if_pos continues]
        dsimp only
        rw [lookupFrom_node first header edges]
        split
        next => rfl
        next => exact belowIH belowDistinct (fresh_insert notBelow freshBelow)
      · rw [List.find?_cons_of_neg continues, if_neg continues]
        exact restIH restDistinct freshBeside

/-- A lookup in a trie that lies in the buffer. -/
theorem lookup_of_reads {payload? : Option (Nat × Nat)} {below : Branches}
    (reads : (root payload? below).Reads data)
    (distinct : (root payload? below).offsets.Nodup) (name : Name) :
    lookup data name =
      reportPayload data name (seekRoot payload? below name) := by
  have rootLt : 0 < data.size := reads.offset_lt 0 (by simp [root, offsets])
  have notEmpty : ¬ data.isEmpty = true := by
    rw [Array.isEmpty_iff_size_eq_zero]
    omega
  cases reads with
  | child header edges belowReads _ =>
      simp only [root, offsets, List.append_nil, List.nodup_cons] at distinct
      rcases distinct with ⟨notBelow, belowDistinct⟩
      have unvisited : ∀ other ∈ below.offsets, other ∉ ({} : Std.HashSet Nat) := by
        intro other _
        exact Std.HashSet.not_mem_empty
      have belowFresh := fresh_insert notBelow unvisited
      rw [lookup, if_neg notEmpty,
        lookupFrom_node Std.HashSet.not_mem_empty header edges, seekRoot]
      split
      next => rfl
      next => exact belowReads.lookupAmong_children belowDistinct belowFresh

end Branches

/-! ## Lookups in written tries -/

theorem Edges.Canonical.apart_branches {edges : Edges} (canonical : edges.Canonical)
    (offset : Name → Nat) (above : Name) : (edges.branches offset above).Apart := by
  induction canonical generalizing above with
  | none => exact .none
  | @edge label payload? below rest nonempty _ apart _ _ _ belowIH restIH =>
      apply Branches.Apart.child nonempty ?_ (belowIH _) (restIH _)
      rw [children_branches]
      intro child isChild
      rcases List.mem_map.mp isChild with ⟨other, isLabel, rfl⟩
      exact apart other isLabel

namespace Tree

variable {tree : Tree} {offset : Name → Nat}

/-- The lookup of a stored name reports the bytes of its payload. -/
theorem Canonical.lookup_of_mem (canonical : tree.Canonical)
    (written : tree.WrittenIn data offset) {entry : Entry}
    (member : entry ∈ tree.entries) (nonempty : entry.payload ≠ []) :
    ∃ start stop, data.slice start stop = entry.payload ∧
      lookup data entry.name = reportPayload data entry.name (some (start, stop)) := by
  have read : entry ∈ tree.entries.filter fun entry => entry.payload ≠ [] := by
    simp [member, nonempty]
  rw [← written.map_entry_terminals] at read
  rcases List.mem_map.mp read with ⟨terminal, isTerminal, rfl⟩
  refine ⟨terminal.start, terminal.stop, rfl, ?_⟩
  have apart := Edges.Canonical.apart_branches canonical offset []
  have found := Branches.lookup_of_reads (canonical.reads_branches written)
    written.nodup_offsets terminal.name
  rwa [apart.seekRoot_of_mem_terminals isTerminal] at found

/-- The lookup of any other name finds nothing. -/
theorem Canonical.lookup_of_notMem (canonical : tree.Canonical)
    (written : tree.WrittenIn data offset) {name : Name}
    (unknown : ∀ entry ∈ tree.entries, entry.name ≠ name) :
    lookup data name = .ok none := by
  have found := Branches.lookup_of_reads (canonical.reads_branches written)
    written.nodup_offsets name
  cases reached : Branches.seekRoot (payloadRange 0 (tree.payload?.getD []))
      (tree.edges.branches offset []) name with
  | none => rwa [reached] at found
  | some range =>
      have isTerminal := Branches.mem_terminals_of_seekRoot reached
      have read := List.mem_map_of_mem (f := Terminal.entry data) isTerminal
      change _ ∈ ((tree.branches offset).terminals []).map (Terminal.entry data) at read
      rw [written.map_entry_terminals] at read
      exact (unknown _ (List.mem_filter.mp read).1 rfl).elim

end Tree

/-- In the trie of some exports, a lookup finds the exports under their names, as
their payloads decode, and finds nothing under any other name. -/
theorem lookup_buildExports {symbols : List Export}
    (distinct : (symbols.map (·.name)).Nodup)
    (zeroFree : ∀ symbol ∈ symbols, 0 ∉ symbol.name)
    (fits : Fits (symbols.map Entry.ofExport)) :
    ∃ bytes, buildExports symbols = .ok bytes ∧ ∀ name,
      (∀ symbol ∈ symbols, symbol.name = name → ∃ decoded,
        Export.decodePayload name symbol.encodePayload.toArray 0 = .ok decoded ∧
          lookup bytes.toArray name = .ok (some decoded)) ∧
      ((∀ symbol ∈ symbols, symbol.name ≠ name) →
        lookup bytes.toArray name = .ok none) := by
  have storedZeroFree : ∀ entry ∈ symbols.map Entry.ofExport, 0 ∉ entry.name :=
    List.forall_mem_map.mpr zeroFree
  have storedDistinct : ((symbols.map Entry.ofExport).map (·.name)).Nodup := by
    rwa [List.map_map]
  rcases Layout.ofEntries_of_nodup storedZeroFree storedDistinct with
      ⟨tree, layout, laidOut, canonical, whole, written⟩
  rcases Bytes.padTo_eq 8 layout.encode with ⟨zeros, padded⟩
  have lies := written (fits layout laidOut) (List.replicate zeros 0)
  have built : buildExports symbols =
      .ok (layout.encode ++ List.replicate zeros 0) := by
    rw [buildExports, build, laidOut, map_ok, padded]
  refine ⟨_, built, ?_⟩
  intro name
  constructor
  · rintro symbol member rfl
    exists symbol.normal
    constructor
    · apply Export.decodePayload_encodePayload
      simp [Bytes.HoldsAt]
    · have stored : Entry.ofExport symbol ∈ tree.entries :=
        whole.mem_iff.mpr (List.mem_map_of_mem member)
      rcases canonical.lookup_of_mem lies stored symbol.encodePayload_ne_nil with
          ⟨start, stop, slice, found⟩
      have holds := Bytes.holdsAt_extract_slice
        (layout.encode ++ List.replicate zeros 0).toArray start stop
      rw [slice] at holds
      apply found.trans
      rw [reportPayload, Entry.ofExport, Export.decodePayload_encodePayload holds]
      rfl
  · intro unknown
    apply canonical.lookup_of_notMem lies
    intro entry stored
    rcases List.mem_map.mp (whole.mem_iff.mp stored) with ⟨symbol, member, rfl⟩
    exact unknown symbol member

/-- Two exports, the name of one of them a start of the name of the other. A name
between the two is not found. -/
theorem lookup_buildExports_two :
    ∃ bytes,
        buildExports [⟨[95, 97, 98], 0, 4096, 0, none⟩, ⟨[95], 8, 0, 1, some [120]⟩] =
          .ok bytes ∧
      (∃ decoded, Export.decodePayload [95]
          (Export.encodePayload ⟨[95], 8, 0, 1, some [120]⟩).toArray 0 = .ok decoded ∧
        lookup bytes.toArray [95] = .ok (some decoded)) ∧
      lookup bytes.toArray [95, 97] = .ok none := by
  have fits : Fits ([⟨[95, 97, 98], 0, 4096, 0, none⟩, ⟨[95], 8, 0, 1, some [120]⟩].map
      Entry.ofExport) := by
    apply fits_of_room (by decide) (by decide)
    intro tree built
    cases built
    decide +kernel
  rcases lookup_buildExports (by decide) (by decide) fits with ⟨bytes, built, found⟩
  exact ⟨bytes, built, (found [95]).1 _ (by simp) rfl, (found [95, 97]).2 (by decide)⟩

end Linkedit.Trie
