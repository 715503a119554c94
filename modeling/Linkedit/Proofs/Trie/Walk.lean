import Linkedit.Proofs.Except
import Linkedit.Proofs.Trie.ByteTree

/-!
# What a walk visits

A walk keeps a stack of pending nodes. Below each node it meets a tree that lies
in the buffer, and the whole tree is gone through before the next pending node.
-/

namespace Linkedit.Trie

variable {data : Bytes} {α : Type}

/-- The pending nodes for the edges of a node that was reached `backwards`. -/
def pendingBelow (backwards : Name) (children : List Child) : List (Nat × Name) :=
  children.map fun child => (child.offset, child.label.reverse ++ backwards)

theorem pendingBelow_cons (backwards : Name) (child : Child) (children : List Child)
    (pending : List (Nat × Name)) :
    pendingBelow backwards (child :: children) ++ pending =
      (child.offset, child.label.reverse ++ backwards) ::
        (pendingBelow backwards children ++ pending) := rfl

/-- What a walk finds at a terminal node. -/
def Visit.at (visit : Visit α) (found : Array α) (terminal : Terminal) :
    Except Error (Array α) :=
  ((visit terminal.name terminal.start terminal.stop).mapError Error.inTrie).map
    found.push

/-- What a walk finds in a list of terminal nodes. -/
def Visit.all (visit : Visit α) (found : Array α) (terminals : List Terminal) :
    Except Error (Array α) :=
  terminals.foldlM visit.at found

@[simp] theorem Visit.all_nil (visit : Visit α) (found : Array α) :
    visit.all found [] = .ok found := rfl

theorem Visit.all_append (visit : Visit α) (found : Array α)
    (first second : List Terminal) :
    visit.all found (first ++ second) =
      visit.all found first >>= fun found => visit.all found second :=
  List.foldlM_append

/-- One step of a walk whose node can be read. -/
theorem walkFrom_node {visit : Visit α} {fuel offset position : Nat}
    {backwards : Name} {pending : List (Nat × Name)} {visited : Std.HashSet Nat}
    {found : Array α} {payload? : Option (Nat × Nat)} {children : List Child}
    (fresh : offset ∉ visited)
    (header : readHeader data offset = .ok ⟨payload?, position⟩)
    (edges : readChildren data position = .ok children) :
    walkFrom data visit (fuel + 1) ((offset, backwards) :: pending) visited found =
      visit.all found
          (payload?.map fun range => ⟨backwards.reverse, range.1, range.2⟩).toList >>=
        walkFrom data visit fuel (pendingBelow backwards children ++ pending)
          (visited.insert offset) := by
  rw [walkFrom, if_neg fresh, header, ok_bind, edges, ok_bind]
  cases payload? with
  | none => rfl
  | some range =>
      simp only [Visit.all, Visit.at, Option.map_some, Option.toList_some,
        List.foldlM_cons, List.foldlM_nil, bind_pure, pendingBelow]

/-- A walk that succeeds could read its first pending node. -/
theorem read_of_walkFrom {visit : Visit α} {fuel offset : Nat} {backwards : Name}
    {pending : List (Nat × Name)} {visited : Std.HashSet Nat} {found result : Array α}
    (walked : walkFrom data visit (fuel + 1) ((offset, backwards) :: pending) visited
      found = .ok result) :
    offset ∉ visited ∧ ∃ payload? position children,
      readHeader data offset = .ok ⟨payload?, position⟩ ∧
        readChildren data position = .ok children := by
  rw [walkFrom] at walked
  split at walked
  next => cases walked
  next fresh =>
    rcases bind_eq_ok.mp walked with ⟨⟨payload?, position⟩, header, walked⟩
    rcases bind_eq_ok.mp walked with ⟨children, edges, -⟩
    exact ⟨fresh, payload?, position, children, header, edges⟩

/-- Visiting another node leaves nodes fresh. -/
theorem fresh_insert {visited : Std.HashSet Nat} {offset : Nat} {others : List Nat}
    (apart : offset ∉ others) (fresh : ∀ other ∈ others, other ∉ visited) :
    ∀ other ∈ others, other ∉ visited.insert offset := by
  intro other member
  rw [Std.HashSet.mem_insert, not_or]
  constructor
  · intro equal
    rw [beq_iff_eq.mp equal] at apart
    exact apart member
  · exact fresh other member

/-! ## Walking over a tree that lies in the buffer -/

namespace Branches

/-- A walk goes over a tree that lies in the buffer and then on to the nodes that
were pending before. -/
theorem walkFrom_eq {branches : Branches} (reads : branches.Reads data)
    (visit : Visit α) (above : Name) {visited : Std.HashSet Nat} (fuel : Nat)
    (pending : List (Nat × Name)) (found : Array α)
    (distinct : branches.offsets.Nodup)
    (fresh : ∀ offset ∈ branches.offsets, offset ∉ visited) :
    walkFrom data visit (branches.offsets.length + fuel)
        (pendingBelow above.reverse branches.children ++ pending) visited found =
      visit.all found (branches.terminals above) >>=
        walkFrom data visit fuel pending (visited.insertMany branches.offsets) := by
  induction reads generalizing above visited fuel pending found with
  | none =>
      simp [offsets, children, terminals, pendingBelow]
  | @child label offset position payload? below rest header edges _ _ belowIH restIH =>
      simp only [offsets, List.nodup_cons, List.nodup_append, List.mem_append,
        not_or] at distinct
      rcases distinct with ⟨⟨notBelow, notBeside⟩, belowDistinct, restDistinct, apart⟩
      simp only [offsets, List.forall_mem_cons, List.forall_mem_append] at fresh
      rcases fresh with ⟨first, freshBelow, freshBeside⟩
      have belowFresh := fresh_insert notBelow freshBelow
      have restFresh : ∀ other ∈ rest.offsets,
          other ∉ (visited.insert offset).insertMany below.offsets := by
        intro other member
        have notUnder : other ∉ below.offsets := by
          intro under
          exact apart other under other member rfl
        rw [Std.HashSet.mem_insertMany_list, not_or]
        constructor
        · exact fresh_insert notBeside freshBeside other member
        · simpa using notUnder
      have count :
          (Branches.child label offset payload? below rest).offsets.length + fuel =
            below.offsets.length + (rest.offsets.length + fuel) + 1 := by
        simp only [offsets, List.length_cons, List.length_append]
        omega
      rw [count, children, pendingBelow_cons, ← List.reverse_append,
        walkFrom_node first header edges, List.reverse_reverse]
      simp only [terminals, Visit.all_append, offsets, Std.HashSet.insertMany_cons,
        Std.HashSet.insertMany_append, bind_assoc]
      congr 1
      funext found
      rw [belowIH (above ++ label) _ _ _ belowDistinct belowFresh]
      congr 1
      funext found
      exact restIH above _ _ _ restDistinct restFresh

end Branches

/-! ## What a successful walk went over -/

/-- If a walk succeeds, the pending nodes it starts from are the children of a tree
that lies in the buffer at offsets that were not visited before. -/
theorem exists_branches_of_walkFrom {visit : Visit α} (fuel : Nat)
    (children : List Child) {backwards : Name} {pending : List (Nat × Name)}
    {visited : Std.HashSet Nat} {found result : Array α}
    (walked : walkFrom data visit fuel (pendingBelow backwards children ++ pending)
      visited found = .ok result) :
    ∃ branches : Branches, branches.children = children ∧ branches.Reads data ∧
      branches.offsets.Nodup ∧ (∀ offset ∈ branches.offsets, offset ∉ visited) ∧
      ∃ left ≤ fuel, ∃ found, walkFrom data visit left pending
        (visited.insertMany branches.offsets) found = .ok result := by
  induction fuel using Nat.strongRecOn generalizing children backwards pending visited
    found with
  | ind fuel ih =>
      match children, fuel with
      | [], fuel =>
          exact ⟨.none, rfl,
            .none, by simp [Branches.offsets], by simp [Branches.offsets],
            fuel, le_rfl, found, by simpa [pendingBelow, Branches.offsets] using walked⟩
      | child :: _, 0 => cases walked
      | child :: children, fuel + 1 =>
          rcases read_of_walkFrom walked with
              ⟨fresh, payload?, position, grandchildren, header, edges⟩
          rw [pendingBelow_cons, walkFrom_node fresh header edges] at walked
          rcases bind_eq_ok.mp walked with ⟨found, -, walked⟩
          rcases ih fuel (Nat.lt_succ_self fuel) grandchildren walked with
              ⟨below, belowChildren, belowReads, belowDistinct,
                belowFresh, left, leftLe, found, restWalked⟩
          rcases ih left (Nat.lt_succ_of_le leftLe) children restWalked with
              ⟨rest, restChildren, restReads, restDistinct, restFresh, last, lastLe,
                found, pendingWalked⟩
          simp only [Std.HashSet.mem_insertMany_list, Std.HashSet.mem_insert,
            List.contains_iff_mem, beq_iff_eq, not_or] at belowFresh restFresh
          subst belowChildren
          exists .child child.label child.offset payload? below rest
          constructor
          · simp [Branches.children, restChildren]
          constructor
          · exact .child header edges belowReads restReads
          constructor
          · simp only [Branches.offsets, List.nodup_cons, List.nodup_append,
              List.mem_append]
            constructor
            · rintro (under | beside)
              · exact (belowFresh _ under).1 rfl
              · exact (restFresh _ beside).1.1 rfl
            · refine ⟨belowDistinct, restDistinct, ?_⟩
              rintro offset under other beside rfl
              exact (restFresh offset beside).2 under
          constructor
          · simp only [Branches.offsets, List.mem_cons, List.mem_append]
            rintro offset (rfl | under | beside)
            · exact fresh
            · exact (belowFresh offset under).2
            · exact (restFresh offset beside).1.2
          · refine ⟨last, by omega, found, ?_⟩
            simpa [Branches.offsets, Std.HashSet.insertMany_cons,
              Std.HashSet.insertMany_append] using pendingWalked

/-! ## Walking a whole trie -/

/-- A walk over a trie that lies in the buffer visits its terminal nodes. -/
theorem walk_eq_of_reads {payload? : Option (Nat × Nat)} {below : Branches}
    (reads : (Branches.root payload? below).Reads data)
    (distinct : (Branches.root payload? below).offsets.Nodup) (visit : Visit α) :
    walk data visit =
      (visit.all #[] ((Branches.root payload? below).terminals [])).map
        Array.toList := by
  have rootLt : 0 < data.size :=
    reads.offset_lt 0 (by simp [Branches.root, Branches.offsets])
  have notEmpty : ¬ data.isEmpty = true := by
    rw [Array.isEmpty_iff_size_eq_zero]
    omega
  have short : (Branches.root payload? below).offsets.length ≤ data.size + 1 :=
    Nat.le_succ_of_le (reads.length_offsets_le distinct)
  rcases Nat.exists_eq_add_of_le short with ⟨left, enough⟩
  have fresh : ∀ offset ∈ (Branches.root payload? below).offsets,
      offset ∉ ({} : Std.HashSet Nat) := fun _ _ => Std.HashSet.not_mem_empty
  have walked := Branches.walkFrom_eq reads visit [] left [] #[] distinct fresh
  have done : walkFrom data visit left [] (({} : Std.HashSet Nat).insertMany
      (Branches.root payload? below).offsets) = Except.ok := by
    funext found
    cases left <;> rfl
  rw [done] at walked
  rw [walk, if_neg notEmpty, enough]
  exact congrArg (Except.map Array.toList) (walked.trans (bind_pure _))

/-- A walk that succeeds on a buffer that is not empty went over a trie. -/
theorem exists_root_of_walk {visit : Visit α} {found : List α}
    (notEmpty : data.isEmpty = false) (walked : walk data visit = .ok found) :
    ∃ payload? below, (Branches.root payload? below).Reads data ∧
      (Branches.root payload? below).offsets.Nodup := by
  rw [walk, if_neg (by simp [notEmpty])] at walked
  rcases map_eq_ok.mp walked with ⟨result, walked, -⟩
  change walkFrom data visit (data.size + 1) (pendingBelow [] [⟨[], 0⟩] ++ []) {} #[] =
    .ok result at walked
  rcases exists_branches_of_walkFrom (data.size + 1) [⟨[], 0⟩] walked with
      ⟨branches, children, reads, distinct, -⟩
  match branches with
  | .none => cases children
  | .child _ _ payload? below .none =>
      cases children
      exact ⟨payload?, below, reads, distinct⟩
  | .child _ _ _ _ (.child ..) => cases children

theorem Visit.all_entries (found : Array Entry) (terminals : List Terminal) :
    Visit.all (fun name start stop => .ok ⟨name, data.slice start stop⟩)
      found terminals =
        .ok (found ++ (terminals.map (Terminal.entry data)).toArray) := by
  induction terminals generalizing found with
  | nil => simp
  | cons terminal terminals ih =>
      have step := ih (found.push (terminal.entry data))
      simp only [Visit.all, List.foldlM_cons] at step ⊢
      simp only [Visit.at, mapError_ok, map_ok, ok_bind]
      simpa [Terminal.entry] using step

/-- The entries of a trie that lies in the buffer are its terminal nodes. -/
theorem entries_of_reads {payload? : Option (Nat × Nat)} {below : Branches}
    (reads : (Branches.root payload? below).Reads data)
    (distinct : (Branches.root payload? below).offsets.Nodup) :
    entries data =
      .ok (((Branches.root payload? below).terminals []).map
        (Terminal.entry data)) := by
  rw [entries, walk_eq_of_reads reads distinct, Visit.all_entries]
  simp

theorem entries_of_isEmpty (empty : data.isEmpty = true) : entries data = .ok [] := by
  rw [entries, walk, if_pos empty]

/-- The names that are read from a trie hold no zero byte, and the payloads are not
empty. -/
theorem entry_spec_of_entries {found : List Entry} (read : entries data = .ok found) :
    ∀ entry ∈ found, 0 ∉ entry.name ∧ entry.payload ≠ [] ∧
      entry.payload.length < data.size := by
  cases empty : data.isEmpty with
  | true =>
      rw [entries_of_isEmpty empty] at read
      cases read
      simp
  | false =>
      rcases exists_root_of_walk empty read with ⟨payload?, below, reads, distinct⟩
      rw [entries_of_reads reads distinct] at read
      cases read
      intro entry member
      rcases List.mem_map.mp member with ⟨terminal, isTerminal, rfl⟩
      have unnamed : (0 : UInt8) ∉ ([] : Name) := List.not_mem_nil
      have rootLabel : ∀ child ∈ (Branches.root payload? below).children,
          0 ∉ child.label := by
        simp [Branches.root, Branches.children]
      rcases reads.terminal_spec unnamed rootLabel terminal isTerminal with
          ⟨zeroFree, nonempty, inside⟩
      have length : (terminal.entry data).payload.length =
          terminal.stop - terminal.start := by
        simp only [Terminal.entry, Bytes.slice, Array.length_toList, Array.size_extract]
        omega
      refine ⟨zeroFree, ?_, ?_⟩
      · apply List.ne_nil_of_length_pos
        omega
      · omega

end Linkedit.Trie
