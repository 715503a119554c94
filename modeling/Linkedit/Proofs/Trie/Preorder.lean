import Linkedit.Proofs.Trie.EdgePath
import Linkedit.Proofs.Trie.Walk

/-!
# What can be listed, and in which order

A walk visits the node at the first place ahead and puts the places below it in front of
the others. So what it visited comes in the order of edge paths, and every path was
either visited or goes on from a place ahead. A walk that is done visited every path,
each at an offset of its own, and in a tree a walk can always go on until it is done.
-/

namespace Linkedit.Trie

variable {data : Bytes}

/-! ## Paths that fork -/

/-- One path takes an earlier edge than the other where they part. -/
def Forks (path other : List Nat) : Prop :=
  ∃ common earlier later rest otherRest, earlier < later ∧
    path = common ++ earlier :: rest ∧ other = common ++ later :: otherRest

theorem Forks.lt {path other : List Nat} (forks : Forks path other) : path < other := by
  rcases forks with ⟨common, earlier, later, rest, otherRest, less, rfl, rfl⟩
  apply List.append_left_lt
  exact List.cons_lt_cons_iff.mpr (.inl less)

theorem Forks.append {path other : List Nat} (forks : Forks path other)
    (rest : List Nat) :
    Forks (path ++ rest) other := by
  rcases forks with ⟨common, earlier, later, behind, otherRest, less, rfl, rfl⟩
  exact ⟨common, earlier, later, behind ++ rest, otherRest, less, by simp, rfl⟩

theorem forks_of_lt {path : List Nat} {earlier later : Nat} (less : earlier < later) :
    Forks (path ++ [earlier]) (path ++ [later]) :=
  ⟨path, earlier, later, [], [], less, rfl, rfl⟩

theorem lt_append_singleton (path : List Nat) (index : Nat) :
    path < path ++ [index] := by
  have longer : path ++ [] < path ++ [index] := by
    apply List.append_left_lt
    exact List.nil_lt_cons _ _
  rwa [List.append_nil] at longer

/-! ## States of a walk -/

/-- Where an edge path leads. -/
structure Place where
  path : List Nat
  name : Name
  offset : Nat

/-- A node that was visited. -/
structure Stop extends Place where
  payload? : Option (Nat × Nat)

/-- The entry of a terminal node that was visited. -/
def Stop.entry? (data : Bytes) (stop : Stop) : Option Entry :=
  stop.payload?.map fun range => ⟨stop.name, data.slice range.1 range.2⟩

/-- The places that the edges of a node lead to. -/
def Place.below (place : Place) (children : List Child) : List Place :=
  children.mapIdx fun index child =>
    ⟨place.path ++ [index], place.name ++ child.label, child.offset⟩

/-- The states of a walk: the nodes that were visited, in order, and the places ahead. A
step visits the node at the first place ahead, unless one at its offset was visited. -/
inductive Walked (data : Bytes) :
    (stops : List Stop) → (ahead : List Place) → Prop where
  | start : Walked data [] [⟨[], [], 0⟩]
  | visit {stops : List Stop} {place : Place} {ahead : List Place}
      {payload? : Option (Nat × Nat)} {children : List Child}
      (before : Walked data stops (place :: ahead))
      (fresh : place.offset ∉ stops.map (·.offset))
      (node : NodeAt data place.offset payload? children) :
      Walked data (stops ++ [⟨place, payload?⟩]) (place.below children ++ ahead)

/-- A walk cannot go on: it is done, or the node at the next place was visited already
or cannot be read. -/
def Stuck (data : Bytes) (stops : List Stop) (place : Place) : Prop :=
  place.offset ∈ stops.map (·.offset) ∨
    ∀ payload? children, ¬ NodeAt data place.offset payload? children

variable {stops : List Stop} {ahead : List Place} {place : Place}

theorem mem_below {children : List Child} {other : Place} :
    other ∈ place.below children ↔ ∃ index child, children[index]? = some child ∧
      other = ⟨place.path ++ [index], place.name ++ child.label, child.offset⟩ := by
  rw [Place.below, List.mem_mapIdx]
  constructor
  · rintro ⟨index, inBounds, rfl⟩
    exact ⟨index, children[index], List.getElem?_eq_getElem inBounds, rfl⟩
  · rintro ⟨index, child, taken, rfl⟩
    rcases List.getElem?_eq_some_iff.mp taken with ⟨inBounds, rfl⟩
    exact ⟨index, inBounds, rfl⟩

/-- What each step of a walk keeps: the paths of the nodes visited are in order and come
before those ahead, the ones ahead fork, and no path is forgotten. -/
structure Explores (data : Bytes) (stops : List Stop) (ahead : List Place) : Prop where
  leads : ∀ stop ∈ stops, Leads data stop.path stop.name stop.offset
  node : ∀ stop ∈ stops, ∃ children, NodeAt data stop.offset stop.payload? children
  leadsAhead : ∀ place ∈ ahead, Leads data place.path place.name place.offset
  distinct : (stops.map (·.offset)).Nodup
  ordered : stops.Pairwise fun earlier later => earlier.path < later.path
  before : ∀ stop ∈ stops, ∀ place ∈ ahead, stop.path < place.path
  forks : ahead.Pairwise fun earlier later => Forks earlier.path later.path
  covers : ∀ path name offset, Leads data path name offset →
    (∃ stop ∈ stops, stop.path = path) ∨ ∃ place ∈ ahead, place.path <+: path

theorem explores_start (data : Bytes) : Explores data [] [⟨[], [], 0⟩] := by
  constructor
  case leadsAhead =>
    rw [List.forall_mem_singleton]
    exact .root
  case covers =>
    intro path name offset _
    exact .inr ⟨_, List.mem_singleton_self _, List.nil_prefix⟩
  all_goals simp

/-- The paths to the places below a node fork, and so do those from the ones ahead of
it. -/
theorem pairwise_forks_below {children : List Child}
    (forks : (place :: ahead).Pairwise fun earlier later =>
      Forks earlier.path later.path) :
    (place.below children ++ ahead).Pairwise
      fun earlier later => Forks earlier.path later.path := by
  rcases List.pairwise_cons.mp forks with ⟨first, others⟩
  apply List.pairwise_append.mpr
  refine ⟨?below, others, ?across⟩
  case below =>
    rw [Place.below, List.pairwise_iff_getElem]
    intro earlier later _ _ less
    simp only [List.getElem_mapIdx]
    exact forks_of_lt less
  case across =>
    intro lower member other isAhead
    rcases mem_below.mp member with ⟨index, child, -, rfl⟩
    exact (first other isAhead).append [index]

theorem Explores.visit (explores : Explores data stops (place :: ahead))
    (fresh : place.offset ∉ stops.map (·.offset)) {payload? : Option (Nat × Nat)}
    {children : List Child} (node : NodeAt data place.offset payload? children) :
    Explores data (stops ++ [⟨place, payload?⟩]) (place.below children ++ ahead) := by
  have here : Leads data place.path place.name place.offset :=
    explores.leadsAhead place List.mem_cons_self
  rcases List.pairwise_cons.mp explores.forks with ⟨first, -⟩
  have earlier : ∀ stop ∈ stops, stop.path < place.path := by
    intro stop isStop
    exact explores.before stop isStop place List.mem_cons_self
  constructor
  case leads =>
    rw [List.forall_mem_append, List.forall_mem_singleton]
    exact ⟨explores.leads, here⟩
  case node =>
    rw [List.forall_mem_append, List.forall_mem_singleton]
    exact ⟨explores.node, children, node⟩
  case leadsAhead =>
    rw [List.forall_mem_append]
    constructor
    · intro lower member
      rcases mem_below.mp member with ⟨index, child, taken, rfl⟩
      exact here.edge node taken
    · intro other isAhead
      exact explores.leadsAhead other (List.mem_cons_of_mem place isAhead)
  case distinct =>
    rw [List.map_append, List.map_singleton, List.nodup_append_comm]
    exact List.nodup_cons.mpr ⟨fresh, explores.distinct⟩
  case ordered =>
    apply List.pairwise_append.mpr
    refine ⟨explores.ordered, List.pairwise_singleton _ _, ?_⟩
    intro stop isStop last isLast
    cases List.mem_singleton.mp isLast
    exact earlier stop isStop
  case before =>
    intro stop isStop other isAhead
    rcases List.mem_append.mp isAhead with below | beside
    · rcases mem_below.mp below with ⟨index, child, -, rfl⟩
      have lower := lt_append_singleton place.path index
      rcases List.mem_append.mp isStop with old | new
      · exact List.lt_trans (earlier stop old) lower
      · cases List.mem_singleton.mp new
        exact lower
    · rcases List.mem_append.mp isStop with old | new
      · exact explores.before stop old other (List.mem_cons_of_mem place beside)
      · cases List.mem_singleton.mp new
        exact (first other beside).lt
  case forks => exact pairwise_forks_below explores.forks
  case covers =>
    intro path name offset leads
    rcases explores.covers path name offset leads with
      ⟨stop, isStop, rfl⟩ | ⟨other, isAhead, start⟩
    · exact .inl ⟨stop, List.mem_append_left _ isStop, rfl⟩
    · rcases List.mem_cons.mp isAhead with rfl | beside
      · rcases start with ⟨rest, rfl⟩
        cases rest with
        | nil =>
            exact .inl ⟨_, List.mem_append_right _ (List.mem_singleton_self _), by simp⟩
        | cons index rest =>
            -- The path goes on from this node, so it takes one of its edges.
            rw [List.append_cons other.path] at leads ⊢
            rcases leads.of_append with ⟨lowerName, lowerOffset, lower⟩
            rcases lower.inv_append with
              ⟨above, _, _, _, child, aboveLeads, aboveNode, taken, -, -⟩
            rcases here.unique aboveLeads with ⟨rfl, rfl⟩
            rcases node.unique aboveNode with ⟨-, rfl⟩
            refine .inr
              ⟨_, List.mem_append_left _ (mem_below.mpr ⟨index, child, taken, rfl⟩), ?_⟩
            exact List.prefix_append (other.path ++ [index]) rest
      · exact .inr ⟨other, List.mem_append_right _ beside, start⟩

theorem Walked.explores (walked : Walked data stops ahead) :
    Explores data stops ahead := by
  induction walked with
  | start => exact explores_start data
  | visit _ fresh node ih => exact ih.visit fresh node

namespace Explores

/-- Not more nodes are visited than there are bytes. -/
theorem length_le (explores : Explores data stops ahead) :
    stops.length ≤ data.size := by
  have inside : stops.map (·.offset) ⊆ List.range data.size := by
    intro offset member
    rcases List.mem_map.mp member with ⟨stop, isStop, rfl⟩
    rcases explores.node stop isStop with ⟨children, node⟩
    exact List.mem_range.mpr node.offset_lt
  simpa using (List.subperm_of_subset explores.distinct inside).length_le

/-- In a tree a walk can always go on. -/
theorem not_stuck (explores : Explores data stops (place :: ahead))
    (tree : HoldsTree data) :
    ¬ Stuck data stops place := by
  have here : Leads data place.path place.name place.offset :=
    explores.leadsAhead place List.mem_cons_self
  rintro (visited | unreadable)
  · rcases List.mem_map.mp visited with ⟨stop, isStop, same⟩
    have there := explores.leads stop isStop
    rw [same] at there
    have samePath := tree.unshared _ _ _ _ _ there here
    have less := explores.before stop isStop place List.mem_cons_self
    rw [samePath] at less
    exact List.lt_irrefl _ less
  · rcases tree.readable _ _ _ here with ⟨payload?, children, node⟩
    exact unreadable payload? children node

/-- A walk that is done visited the end of every edge path. -/
theorem exists_stop (explores : Explores data stops []) {path : List Nat} {name : Name}
    {offset : Nat} (leads : Leads data path name offset) :
    ∃ stop ∈ stops, stop.path = path ∧ stop.name = name ∧ stop.offset = offset := by
  rcases explores.covers path name offset leads with
    ⟨stop, isStop, rfl⟩ | ⟨place, isAhead, -⟩
  · rcases (explores.leads stop isStop).unique leads with ⟨sameName, sameOffset⟩
    exact ⟨stop, isStop, rfl, sameName, sameOffset⟩
  · cases isAhead

/-- Only in a tree a walk is done at some time. -/
theorem holdsTree (explores : Explores data stops []) : HoldsTree data := by
  constructor
  case readable =>
    intro path name offset leads
    rcases explores.exists_stop leads with ⟨stop, isStop, -, -, rfl⟩
    rcases explores.node stop isStop with ⟨children, node⟩
    exact ⟨stop.payload?, children, node⟩
  case unshared =>
    intro path name other otherName offset leads otherLeads
    rcases explores.exists_stop leads with ⟨stop, isStop, rfl, -, sameOffset⟩
    rcases explores.exists_stop otherLeads with
      ⟨otherStop, isOther, rfl, -, otherOffset⟩
    have same := sameOffset.trans otherOffset.symm
    rw [List.inj_on_of_nodup_map explores.distinct isStop isOther same]

end Explores

/-! ## The program's walk -/

/-- A place ahead, as a walk keeps it. -/
def Place.pending (place : Place) : Nat × Name := (place.offset, place.name.reverse)

/-- The entries of the terminal nodes that were visited. -/
def entriesOf (data : Bytes) (stops : List Stop) : List Entry :=
  stops.filterMap (Stop.entry? data)

theorem entriesOf_append (data : Bytes) (stops others : List Stop) :
    entriesOf data (stops ++ others) = entriesOf data stops ++ entriesOf data others :=
  List.filterMap_append

theorem map_pending_below (place : Place) (children : List Child) :
    (place.below children).map Place.pending =
      pendingBelow place.name.reverse children := by
  apply List.ext_getElem
  · simp [Place.below, pendingBelow]
  · simp [Place.below, pendingBelow, Place.pending]

theorem visit_entry (found : Array Entry) (place : Place)
    (payload? : Option (Nat × Nat)) :
    Visit.all (fun name start stop => .ok ⟨name, data.slice start stop⟩) found
        (payload?.map fun range =>
          ⟨place.name.reverse.reverse, range.1, range.2⟩).toList =
      .ok (found ++ (entriesOf data [⟨place, payload?⟩]).toArray) := by
  rw [Visit.all_entries, List.reverse_reverse]
  cases payload? <;> rfl

/-- A walk goes on from each of its states until it is done or stuck. The fuel is never
used up, since it exceeds the number of offsets. -/
theorem Walked.halts {fuel : Nat} (walked : Walked data stops ahead)
    (enough : data.size < stops.length + fuel) {visited : Std.HashSet Nat}
    (known : ∀ offset, offset ∈ visited ↔ offset ∈ stops.map (·.offset)) :
    let answer :=
      walkFrom data (fun name start stop => .ok ⟨name, data.slice start stop⟩) fuel
        (ahead.map Place.pending) visited (entriesOf data stops).toArray
    ∃ allStops left, Walked data allStops left ∧
      (left = [] ∧ answer = .ok (entriesOf data allStops).toArray ∨
        ∃ place others error, left = place :: others ∧ Stuck data allStops place ∧
          answer = .error error) := by
  induction fuel generalizing stops ahead visited with
  | zero =>
      have bound := walked.explores.length_le
      omega
  | succ fuel ih =>
      cases ahead with
      | nil => exact ⟨stops, [], walked, .inl ⟨rfl, rfl⟩⟩
      | cons place ahead =>
          by_cases stuck : Stuck data stops place
          · refine ⟨stops, place :: ahead, walked, .inr ?_⟩
            cases answer :
              walkFrom data _ (fuel + 1) ((place :: ahead).map Place.pending) visited
              (entriesOf data stops).toArray with
            | error error => exact ⟨place, ahead, error, rfl, stuck, rfl⟩
            | ok result =>
                rcases read_of_walkFrom answer with
                  ⟨unvisited, payload?, position, children, header, edges⟩
                rcases stuck with known' | unreadable
                · exact (unvisited ((known _).mpr known')).elim
                · exact (unreadable _ _ (nodeAt_iff.mpr ⟨position, header, edges⟩)).elim
          · rw [Stuck, not_or, not_forall] at stuck
            rcases stuck with ⟨fresh, payload?, node⟩
            rw [not_forall_not] at node
            rcases node with ⟨children, node⟩
            rcases nodeAt_iff.mp node with ⟨position, header, edges⟩
            have next := walked.visit fresh node
            have unvisited : place.offset ∉ visited := mt (known _).mp fresh
            dsimp only
            rw [List.map_cons, Place.pending, walkFrom_node unvisited header edges,
              visit_entry, ok_bind, ← map_pending_below, ← List.map_append,
              List.append_toArray, ← entriesOf_append]
            apply ih next
            · rw [List.length_append, List.length_singleton]
              omega
            · intro offset
              rw [Std.HashSet.mem_insert, beq_iff_eq, known, List.map_append,
                List.mem_append, List.map_singleton, List.mem_singleton, or_comm,
                eq_comm]

/-! ## What is listed -/

theorem forall₂_entryAt
    (leads : ∀ stop ∈ stops, Leads data stop.path stop.name stop.offset)
    (node : ∀ stop ∈ stops, ∃ children,
      NodeAt data stop.offset stop.payload? children) :
    List.Forall₂ (EntryAt data) ((stops.filter (·.payload?.isSome)).map (·.path))
      (entriesOf data stops) := by
  induction stops with
  | nil => exact .nil
  | cons stop stops ih =>
      rcases List.forall_mem_cons.mp leads with ⟨here, othersLead⟩
      rcases List.forall_mem_cons.mp node with ⟨⟨children, written⟩, others⟩
      have rest := ih othersLead others
      rcases stop with ⟨place, payload?⟩
      cases payload? with
      | none => exact rest
      | some range => exact .cons ⟨_, _, _, children, here, written, rfl⟩ rest

/-- A walk that is done visited the terminal nodes in the order of their paths. -/
theorem Explores.listsDepthFirst (explores : Explores data stops []) :
    ListsDepthFirst data (entriesOf data stops) := by
  have listed := forall₂_entryAt explores.leads explores.node
  refine ⟨_, ?ordered, ?complete, listed⟩
  case ordered => exact List.pairwise_map.mpr (explores.ordered.filter _)
  case complete =>
    intro path
    constructor
    · intro member
      rcases exists_of_forall₂ listed member with ⟨entry, -, here⟩
      exact ⟨entry, here⟩
    · rintro ⟨entry, offset, start, stop, children, leads, node, -⟩
      rcases explores.exists_stop leads with ⟨visited, isStop, rfl, -, rfl⟩
      rcases explores.node visited isStop with ⟨others, written⟩
      apply List.mem_map_of_mem
      rw [List.mem_filter, (written.unique node).1]
      exact ⟨isStop, rfl⟩

/-- A walk over a buffer that is not empty ends. -/
theorem entries_halts (notEmpty : data.isEmpty = false) :
    ∃ stops left, Walked data stops left ∧
      (left = [] ∧ entries data = .ok (entriesOf data stops) ∨
        ∃ place others error, left = place :: others ∧ Stuck data stops place ∧
          entries data = .error error) := by
  have unvisited : ∀ offset, offset ∈ ({} : Std.HashSet Nat) ↔
      offset ∈ ([] : List Stop).map (·.offset) := by
    simp
  have enough : data.size < ([] : List Stop).length + (data.size + 1) := by simp
  rcases (@Walked.start data).halts enough unvisited with ⟨stops, left, walked, outcome⟩
  refine ⟨stops, left, walked, ?_⟩
  rw [entries, walk, if_neg (by simp [notEmpty])]
  rcases outcome with ⟨done, answer⟩ | ⟨place, others, error, rest, stuck, answer⟩
  · refine .inl ⟨done, ?_⟩
    exact congrArg (Except.map Array.toList) answer
  · refine .inr ⟨place, others, error, rest, stuck, ?_⟩
    exact congrArg (Except.map Array.toList) answer

/-- A buffer that is not empty can be listed exactly if it holds a tree, and the listing
shows the terminal nodes depth first. -/
theorem entries_eq_ok_iff (notEmpty : data.isEmpty = false) (found : List Entry) :
    entries data = .ok found ↔ HoldsTree data ∧ ListsDepthFirst data found := by
  rcases entries_halts notEmpty with
    ⟨stops, left, walked, ⟨rfl, answer⟩ | ⟨place, others, error, rfl, stuck, answer⟩⟩
  · have explores := walked.explores
    rw [answer]
    constructor
    · intro same
      cases same
      exact ⟨explores.holdsTree, explores.listsDepthFirst⟩
    · rintro ⟨-, lists⟩
      rw [explores.listsDepthFirst.unique lists]
  · rw [answer]
    constructor
    · intro same
      cases same
    · rintro ⟨tree, -⟩
      exact (walked.explores.not_stuck tree stuck).elim

theorem exists_entries_iff (notEmpty : data.isEmpty = false) :
    (∃ found, entries data = .ok found) ↔ HoldsTree data := by
  constructor
  · rintro ⟨found, listed⟩
    exact ((entries_eq_ok_iff notEmpty found).mp listed).1
  · intro tree
    rcases entries_halts notEmpty with
      ⟨stops, left, walked, ⟨rfl, answer⟩ | ⟨place, others, error, rfl, stuck, -⟩⟩
    · exact ⟨_, answer⟩
    · exact (walked.explores.not_stuck tree stuck).elim

theorem HoldsTree.isEmpty_eq_false (tree : HoldsTree data) : data.isEmpty = false := by
  rcases tree.readable _ _ _ .root with ⟨payload?, children, node⟩
  have size := node.offset_lt
  rw [← Bool.not_eq_true, Array.isEmpty_iff_size_eq_zero]
  exact Nat.ne_of_gt size

/-- No more entries are listed than there are bytes. -/
theorem length_le_of_entries {found : List Entry} (listed : entries data = .ok found) :
    found.length ≤ data.size := by
  cases empty : data.isEmpty with
  | true =>
      rw [entries_of_isEmpty empty] at listed
      cases listed
      exact Nat.zero_le _
  | false =>
      rcases entries_halts empty with
        ⟨stops, left, walked, ⟨rfl, answer⟩ | ⟨place, others, error, rfl, -, answer⟩⟩
      · cases answer.symm.trans listed
        calc (entriesOf data stops).length
            ≤ stops.length := List.length_filterMap_le _ _
          _ ≤ data.size := walked.explores.length_le
      · cases answer.symm.trans listed

/-- A walk visits no offset twice, so it ends after as many nodes at most as there are
bytes: when it is done, or at a place whose offset it visited before or where no node is
written. It succeeds exactly on trees, and what it lists are the terminal nodes depth
first. The empty buffer lists nothing. -/
theorem walk_accepts_trees (data : Bytes) :
    (∀ stops ahead, Walked data stops ahead →
      (stops.map (·.offset)).Nodup ∧ stops.length ≤ data.size) ∧
    (data.isEmpty = false → ∃ stops left, Walked data stops left ∧
      (left = [] ∧ entries data = .ok (entriesOf data stops) ∨
        ∃ place others error, left = place :: others ∧ Stuck data stops place ∧
          entries data = .error error)) ∧
    ((∃ found, entries data = .ok found) ↔ data.isEmpty ∨ HoldsTree data) ∧
    (∀ found, entries data = .ok found ↔
      data.isEmpty ∧ found = [] ∨ HoldsTree data ∧ ListsDepthFirst data found) ∧
    ∀ found, entries data = .ok found → found.length ≤ data.size := by
  refine ⟨?once, entries_halts, ?accepts, ?lists, fun _ => length_le_of_entries⟩
  case once =>
    intro stops ahead walked
    exact ⟨walked.explores.distinct, walked.explores.length_le⟩
  case accepts =>
    cases empty : data.isEmpty with
    | true => simp [entries_of_isEmpty empty]
    | false => simp [exists_entries_iff empty]
  case lists =>
    intro found
    cases empty : data.isEmpty with
    | true =>
        have noTree : ¬ HoldsTree data := by
          intro tree
          cases empty.symm.trans tree.isEmpty_eq_false
        simp [entries_of_isEmpty empty, noTree, eq_comm]
    | false => simp [entries_eq_ok_iff empty]

end Linkedit.Trie
