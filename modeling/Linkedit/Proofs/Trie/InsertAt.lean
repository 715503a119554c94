import Linkedit.Proofs.Trie.Arena

/-!
# Following a name down the arena

A name is followed down the arena as `Edges.insert` goes down the tree: to the next
edge, to the node below, or to the place where the name leaves the tree. So the nodes of
the arena become those of the tree with the name, and a name that is there is refused
with nothing changed.
-/

namespace Linkedit.Trie

/-! ## Common starts -/

theorem commonStart_append_self (left suffix : Name) :
    commonStart left (left ++ suffix) = left := by
  induction left with
  | nil => simp [commonStart]
  | cons byte left ih => simp [commonStart, ih]

theorem commonStart_of_apart (shared : Name) {left right : Name}
    (apart : left.head? ≠ right.head?) :
    commonStart (shared ++ left) (shared ++ right) = shared := by
  induction shared with
  | nil =>
      cases left with
      | nil => simp [commonStart]
      | cons byte left =>
          cases right with
          | nil => simp [commonStart]
          | cons other right =>
              have different : byte ≠ other := by simpa using apart
              simp [commonStart, different]
  | cons byte shared ih => simp [commonStart, ih]

/-- The node that lies at a place, where the entries have the given payloads. -/
def Cell.node (payload : Nat → List UInt8) (cell : Cell) : Node :=
  ⟨cell.name, cell.terminal?.map payload, cell.labels⟩

namespace Arena

/-- The nodes of the arena, where the entries have the given payloads. -/
def nodes (payload : Nat → List UInt8) (arena : Arena) : List Node :=
  arena.toList.map (Cell.node payload)

variable {arena : Arena} {place index : Nat} {cell : Cell}

/-! ## One step down -/

section Steps

variable (found : arena[place]? = some cell) (index : Nat) {suffix : Name}

include found

theorem getD_eq : arena.getD place {} = cell := by
  rw [Array.getD_eq_getD_getElem?, found, Option.getD_some]

/-- The name ends at the node. -/
theorem insertAt_end :
    insertAt index cell.name arena place cell.name.length =
      if cell.terminal?.isSome then (.error (.duplicateSymbol cell.name), arena)
      else (.ok (), arena.setTerminal place index) := by
  rw [insertAt, getD_eq found]
  split
  · rfl
  · next onward =>
      rw [List.drop_length] at onward
      cases onward

/-- No edge continues the name. -/
theorem insertAt_grow (nonempty : suffix ≠ [])
    (apart : ∀ label ∈ cell.labels, label.head? ≠ suffix.head?) :
    insertAt index (cell.name ++ suffix) arena place cell.name.length =
      (.ok (), arena.grow place suffix ⟨cell.name ++ suffix, some index, []⟩) := by
  rw [insertAt, getD_eq found]
  split
  · next ended =>
      rw [List.drop_left] at ended
      exact (nonempty ended).elim
  · next first rest onward =>
      rw [List.drop_left] at onward
      subst onward
      split
      · rfl
      · next link isLink =>
          have sameHead := List.find?_some isLink
          have member := List.mem_of_find?_eq_some isLink
          exact (apart _ (List.mem_map_of_mem member) (of_decide_eq_true sameHead)).elim

/-- The first bytes of an edge continue the name. -/
theorem insertAt_edge {front back : List Link} {link : Link}
    (edges : cell.edges = front ++ link :: back)
    (apart : ∀ label ∈ front.map (·.label), label.head? ≠ suffix.head?)
    (nonempty : suffix ≠ []) (sameHead : link.label.head? = suffix.head?) :
    let shared := commonStart link.label suffix
    insertAt index (cell.name ++ suffix) arena place cell.name.length =
      if shared.length = link.label.length then
        insertAt index (cell.name ++ suffix) arena link.child
          (cell.name.length + shared.length)
      else
        insertAt index (cell.name ++ suffix)
          (arena.split place link shared (cell.name ++ shared)) arena.size
          (cell.name.length + shared.length) := by
  intro shared
  have middle : (cell.name ++ suffix).take (cell.name.length + shared.length) =
      cell.name ++ shared := by
    rw [List.take_length_add_append,
      ← List.prefix_iff_eq_take.mp (commonStart_prefix_right link.label suffix)]
  rw [insertAt, getD_eq found]
  split
  · next ended =>
      rw [List.drop_left] at ended
      exact (nonempty ended).elim
  · next first rest onward =>
      rw [List.drop_left] at onward
      subst onward
      have isFirst : (cell.edges.find? fun link => link.label.head? = some first) =
          some link := by
        rw [List.find?_eq_some_iff_append]
        refine ⟨decide_eq_true sameHead, front, back, edges, ?_⟩
        intro earlier member
        simpa using apart _ (List.mem_map_of_mem member)
      split
      · next none =>
          cases none.symm.trans isFirst
      · next other isOther =>
          cases isOther.symm.trans isFirst
          simp only [middle, shared]

/-- A whole label continues the name. -/
theorem insertAt_follow {front back : List Link} {link : Link}
    (edges : cell.edges = front ++ link :: back)
    (apart : ∀ label ∈ front.map (·.label), label.head? ≠ link.label.head?)
    (longer : link.label ≠ []) {child : Cell}
    (named : child.name = cell.name ++ link.label) :
    insertAt index (child.name ++ suffix) arena place cell.name.length =
      insertAt index (child.name ++ suffix) arena link.child child.name.length := by
  have sameHead : (link.label ++ suffix).head? = link.label.head? :=
    List.head?_append_of_ne_nil _ longer
  have step := insertAt_edge found index edges (sameHead ▸ apart)
    (List.append_ne_nil_of_left_ne_nil longer suffix) sameHead.symm
  simp only [commonStart_append_self, if_true] at step
  rw [named, List.append_assoc, step, List.length_append]

/-- The name leaves the tree in the middle of a label, or ends there. -/
theorem insertAt_split {front back : List Link} {link : Link}
    (edges : cell.edges = front ++ link :: back)
    (apart : ∀ label ∈ front.map (·.label), label.head? ≠ link.label.head?)
    {shared remainder : Name} (label : link.label = shared ++ remainder)
    (nonempty : shared ≠ []) (longer : remainder ≠ [])
    (parts : suffix.head? ≠ remainder.head?) :
    insertAt index (cell.name ++ shared ++ suffix) arena place cell.name.length =
      insertAt index (cell.name ++ shared ++ suffix)
        (arena.split place link shared (cell.name ++ shared)) arena.size
        (cell.name ++ shared).length := by
  have sameHead : (shared ++ suffix).head? = link.label.head? := by
    rw [label, List.head?_append_of_ne_nil _ nonempty,
      List.head?_append_of_ne_nil _ nonempty]
  have step := insertAt_edge found index edges (sameHead ▸ apart)
    (List.append_ne_nil_of_left_ne_nil nonempty suffix) sameHead.symm
  have shorter : shared.length ≠ link.label.length := by
    have positive := List.length_pos_iff.mpr longer
    rw [label, List.length_append]
    omega
  simp only [label, commonStart_of_apart shared parts.symm] at step
  rw [← label, if_neg shorter] at step
  rw [List.append_assoc, step, List.length_append]

end Steps

/-- The node that is put in the middle of an edge. -/
theorem getElem?_split_size (found : arena[place]? = some cell) (link : Link)
    (shared name : Name) :
    (arena.split place link shared name)[arena.size]? =
      some { name, edges := [⟨link.label.drop shared.length, link.child⟩] } := by
  have inBounds := (Array.getElem?_eq_some_iff.mp found).1
  rw [split, Array.getElem?_modify, if_neg (Nat.ne_of_lt inBounds),
    Array.getElem?_push_size]

/-! ## The nodes of the arena -/

section Nodes

variable {payload : Nat → List UInt8} {rest : List Node}
  (found : arena[place]? = some cell)
  (holds : (arena.nodes payload).Perm (cell.node payload :: rest))

include found holds

theorem nodes_modify (change : Cell → Cell) :
    (nodes payload (arena.modify place change)).Perm
      ((change cell).node payload :: rest) := by
  rcases exists_others found with ⟨others, apart, changed⟩
  have same := ((apart.map (Cell.node payload)).symm.trans holds).cons_inv
  exact ((changed change).map (Cell.node payload)).trans (same.cons _)

theorem nodes_setTerminal (index : Nat) :
    ((arena.setTerminal place index).nodes payload).Perm
      (⟨cell.name, some (payload index), cell.labels⟩ :: rest) :=
  nodes_modify found holds fun cell => { cell with terminal? := some index }

theorem nodes_push_modify (new : Cell) (change : Cell → Cell) :
    (nodes payload (Array.modify (Array.push arena new) place change)).Perm
      ((change cell).node payload :: new.node payload :: rest) := by
  rcases exists_others_push found new with ⟨others, apart, changed⟩
  have same := ((apart.map (Cell.node payload)).symm.trans holds).cons_inv
  exact ((changed change).map (Cell.node payload)).trans ((same.cons _).cons _)

theorem nodes_grow (label : Name) (leaf : Cell) :
    (nodes payload (arena.grow place label leaf)).Perm
      (⟨cell.name, cell.terminal?.map payload, cell.labels ++ [label]⟩ ::
        leaf.node payload :: rest) := by
  have grown := nodes_push_modify found holds leaf fun cell =>
    { cell with edges := cell.edges ++ [⟨label, arena.size⟩] }
  simpa [Cell.node, Cell.labels, grow] using grown

theorem nodes_split {front back : List Link} {link : Link}
    (edges : cell.edges = front ++ link :: back) (first : link ∉ front)
    (shared name : Name) :
    (nodes payload (arena.split place link shared name)).Perm
      (⟨cell.name, cell.terminal?.map payload,
          front.map (·.label) ++ shared :: back.map (·.label)⟩ ::
        ⟨name, none, [link.label.drop shared.length]⟩ :: rest) := by
  have cut := nodes_push_modify found holds
    { name, edges := [⟨link.label.drop shared.length, link.child⟩] } fun cell =>
      { cell with edges := cell.edges.replace link ⟨shared, arena.size⟩ }
  simpa [Cell.node, Cell.labels, split, edges, List.replace_append_right first] using
    cut

end Nodes

/-! ## Following the tree -/

section Permutations

variable (node child : Node) (below beside rest : List Node)

theorem perm_child_first :
    (node :: ((child :: (below ++ beside)) ++ rest)).Perm
      (child :: (below ++ (node :: (beside ++ rest)))) := by
  rw [List.cons_append, List.append_assoc]
  exact (List.Perm.swap _ _ _).trans (List.perm_middle.symm.cons _)

theorem perm_child_last :
    (node :: ((child :: (below ++ beside)) ++ rest)).Perm
      (node :: (beside ++ (child :: (below ++ rest)))) := by
  have swapped := (@List.perm_append_comm _ (child :: below) beside).append_right rest
  rw [List.append_assoc beside] at swapped
  exact swapped.cons node

theorem perm_leaf_last (own leaf : Node) :
    (own :: leaf :: node :: ((child :: (below ++ beside)) ++ rest)).Perm
      (node :: ((own :: ((child :: (below ++ [leaf])) ++ beside)) ++ rest)) := by
  have nodeFirst :=
    @List.perm_middle _ node [own, leaf] ((child :: (below ++ beside)) ++ rest)
  have leafLast := (@List.perm_middle _ leaf (child :: below) (beside ++ rest)).symm
  apply nodeFirst.trans
  simpa using leafLast

end Permutations

/-- A name is followed down to a node of the arena. Some of its labels do not continue
the name, the others are those of the edges, and the rest of the tree lies elsewhere. -/
structure Faces (payload : Nat → List UInt8) (arena : Arena) (place : Nat) (cell : Cell)
    (suffix : Name) (front : List Name) (edges : Edges) (rest : List Node) : Prop where
  found : arena[place]? = some cell
  labels : cell.labels = front ++ edges.labels
  apart : ∀ label ∈ front, label.head? ≠ suffix.head?
  holds :
    (arena.nodes payload).Perm (cell.node payload :: (edges.nodes cell.name ++ rest))
  distinct : ((arena.nodes payload).map (·.name)).Nodup

namespace Faces

variable {payload : Nat → List UInt8} {front : List Name} {label suffix : Name}
  {payload? : Option (List UInt8)} {below edges : Edges} {rest : List Node}
  {names : List Name}
  (faces :
    Faces payload arena place cell suffix front (.edge label payload? below edges) rest)

include faces

/-- The first edge does not continue the name. -/
theorem beside (different : label.head? ≠ suffix.head?) :
    Faces payload arena place cell suffix (front ++ [label]) edges
      (⟨cell.name ++ label, payload?, below.labels⟩ ::
        (below.nodes (cell.name ++ label) ++ rest)) where
  found := faces.found
  labels := by rw [faces.labels, Edges.labels, List.append_assoc, List.singleton_append]
  apart :=
    List.forall_mem_append.mpr ⟨faces.apart, List.forall_mem_singleton.mpr different⟩
  holds := faces.holds.trans (perm_child_last _ _ _ _ _)
  distinct := faces.distinct

/-- The first edge continues the name: it is the first of the node that does. -/
theorem exists_link (sameHead : label.head? = suffix.head?) :
    ∃ frontLinks link backLinks, cell.edges = frontLinks ++ link :: backLinks ∧
      frontLinks.map (·.label) = front ∧ link.label = label ∧
      backLinks.map (·.label) = edges.labels ∧
      (∀ other ∈ frontLinks.map (·.label), other.head? ≠ link.label.head?) ∧
      link ∉ frontLinks := by
  rcases List.map_eq_append_iff.mp faces.labels with
    ⟨frontLinks, others, whole, isFront, isBack⟩
  rcases List.map_eq_cons_iff.mp isBack with ⟨link, backLinks, rfl, isLabel, isRest⟩
  have apart : ∀ other ∈ frontLinks.map (·.label), other.head? ≠ link.label.head? := by
    rw [isFront, isLabel, sameHead]
    exact faces.apart
  refine ⟨frontLinks, link, backLinks, whole, isFront, isLabel, isRest, apart, ?_⟩
  intro member
  exact apart _ (List.mem_map_of_mem member) rfl

/-- The name goes on below the first edge. -/
theorem follow (linked : arena.Linked names) (longer : label ≠ [])
    (sameHead : label.head? = suffix.head?) :
    ∃ next child, child.name = cell.name ++ label ∧
      child.terminal?.map payload = payload? ∧
      (∀ further, Faces payload arena next child further [] below
        (cell.node payload :: (edges.nodes cell.name ++ rest))) ∧
      ∀ index further,
        insertAt index (child.name ++ further) arena place cell.name.length =
          insertAt index (child.name ++ further) arena next child.name.length := by
  rcases faces.exists_link sameHead with
      ⟨frontLinks, link, backLinks, whole, -, rfl, -, apart, -⟩
  have member : link ∈ cell.edges := by simp [whole]
  rcases linked.exists_child faces.found member with ⟨child, found, named⟩
  have isCell : child ∈ arena.toList :=
    Array.mem_toList_iff.mpr (Array.mem_of_getElem? found)
  have isNode : ⟨cell.name ++ link.label, payload?, below.labels⟩ ∈
      arena.nodes payload := by
    apply faces.holds.mem_iff.mpr
    exact List.mem_cons_of_mem _ (List.mem_append_left _ List.mem_cons_self)
  have same :=
    List.inj_on_of_nodup_map faces.distinct (List.mem_map_of_mem isCell) isNode named
  refine ⟨link.child, child, named, congrArg Node.payload? same, ?_, ?_⟩
  · intro further
    refine ⟨found, congrArg Node.labels same, by simp, ?_, faces.distinct⟩
    rw [same, named]
    exact faces.holds.trans (perm_child_first _ _ _ _ _)
  · intro index further
    exact insertAt_follow faces.found index whole apart longer named

end Faces

/-- The name leaves the tree in the middle of the first edge, or ends there. -/
theorem Faces.cut {payload : Nat → List UInt8} {front : List Name}
    {shared remainder suffix : Name} {payload? : Option (List UInt8)}
    {below edges : Edges} {rest : List Node} {names : List Name}
    (faces : Faces payload arena place cell suffix front
      (.edge (shared ++ remainder) payload? below edges) rest)
    (linked : arena.Linked names) (nonempty : shared ≠ []) (longer : remainder ≠ [])
    (sameHead : shared.head? = suffix.head?) :
    ∃ (middle : Arena) (next : Nat) (own : Cell), own.name = cell.name ++ shared ∧
      own.terminal? = none ∧ own.labels = [remainder] ∧ middle[next]? = some own ∧
      middle.Linked names ∧
      (middle.nodes payload).Perm
        (own.node payload ::
          ⟨cell.name, cell.terminal?.map payload, front ++ shared :: edges.labels⟩ ::
          ((Edges.edge (shared ++ remainder) payload? below edges).nodes cell.name ++
            rest)) ∧
      ∀ index tail, tail.head? ≠ remainder.head? →
        insertAt index (own.name ++ tail) arena place cell.name.length =
          insertAt index (own.name ++ tail) middle next own.name.length := by
  have startsLike : (shared ++ remainder).head? = suffix.head? := by
    rw [List.head?_append_of_ne_nil _ nonempty, sameHead]
  rcases faces.exists_link startsLike with
      ⟨frontLinks, link, backLinks, whole, rfl, isLabel, isBack, apart, isFirst⟩
  have drop : link.label.drop shared.length = remainder := by
    rw [isLabel, List.drop_left]
  refine ⟨arena.split place link shared (cell.name ++ shared), arena.size,
    _, rfl, rfl, ?_,
    getElem?_split_size faces.found link shared _,
      linked.split faces.found whole isFirst isLabel,
    ?_, ?_⟩
  · rw [Cell.labels, List.map_singleton, drop]
  · have cut :=
      nodes_split faces.found faces.holds whole isFirst shared (cell.name ++ shared)
    rw [isBack] at cut
    exact cut.trans (.swap _ _ _)
  · intro index tail parts
    exact insertAt_split faces.found index whole apart isLabel nonempty longer parts

/-- Following a new name down does what adding it to the edges does to the tree. -/
theorem exists_insertAt {payload : Nat → List UInt8} {names : List Name} {suffix : Name}
    {edges result : Edges} {front : List Name} {rest : List Node}
    (added : Insertion (payload index) suffix edges result)
    (canonical : edges.Canonical) (nonempty : suffix ≠ []) (linked : arena.Linked names)
    (faces : Faces payload arena place cell suffix front edges rest)
    (named : names[index]? = some (cell.name ++ suffix)) :
    ∃ after, insertAt index (cell.name ++ suffix) arena place cell.name.length =
      (.ok (), after) ∧
      after.Linked names ∧
      (after.nodes payload).Perm
        (⟨cell.name, cell.terminal?.map payload, front ++ result.labels⟩ ::
          (result.nodes cell.name ++ rest)) := by
  induction added generalizing place cell front rest with
  | @last name =>
      have noEdge : ∀ label ∈ cell.labels, label.head? ≠ name.head? := by
        rw [faces.labels, Edges.labels, List.append_nil]
        exact faces.apart
      refine ⟨_, insertAt_grow faces.found index nonempty noEdge, ?_, ?_⟩
      · apply linked.grow faces.found rfl rfl
        rintro number ⟨⟩
        exact named
      · have grown :=
          nodes_grow faces.found faces.holds name ⟨cell.name ++ name, some index, []⟩
        rwa [faces.labels, Edges.labels, List.append_nil] at grown
  | @beside name label payload? below edges others different added ih =>
      cases canonical with
      | edge _ _ _ _ _ restCanonical =>
          rcases ih restCanonical nonempty (faces.beside different) named with
              ⟨after, ran, afterLinked, holds⟩
          refine ⟨after, ran, afterLinked, holds.trans ?_⟩
          rw [List.append_assoc, List.singleton_append]
          exact (perm_child_last _ _ _ _ _).symm
  | @atNode label below edges =>
      rcases faces.follow linked nonempty rfl with
          ⟨next, child, childNamed, free, childFaces, step⟩
      have found := (childFaces []).found
      have ends := step index []
      rw [List.append_nil, insertAt_end found, Option.map_eq_none_iff.mp free,
        childNamed] at ends
      rw [← childNamed] at named
      have set := nodes_setTerminal found (childFaces []).holds index
      rw [(childFaces []).labels, childNamed, Cell.node, faces.labels] at set
      exact ⟨_, ends, linked.setTerminal found named,
        set.trans (perm_child_first _ _ _ _ _).symm⟩
  | @under label suffix payload? below edges lower longer added ih =>
      cases canonical with
      | edge labelNonempty _ _ _ belowCanonical _ =>
          have sameHead : label.head? = (label ++ suffix).head? :=
            (List.head?_append_of_ne_nil _ labelNonempty).symm
          rcases faces.follow linked labelNonempty sameHead with
              ⟨next, child, childNamed, payloadSame, childFaces, step⟩
          rw [← List.append_assoc, ← childNamed] at named ⊢
          rcases ih belowCanonical longer (childFaces suffix) named with
              ⟨after, ran, afterLinked, holds⟩
          rw [payloadSame, childNamed, Cell.node, faces.labels] at holds
          exact ⟨after, (step index suffix).trans ran, afterLinked,
            holds.trans (perm_child_first _ _ _ _ _).symm⟩
  | @inside shared remainder payload? below edges start longer =>
      rcases faces.cut linked start longer rfl with
          ⟨middle, next, own, ownNamed, free, labels, found, cutLinked, holds, step⟩
      have ends := step index [] fun none =>
        longer (List.head?_eq_none_iff.mp none.symm)
      rw [List.append_nil, insertAt_end found, free, ownNamed] at ends
      rw [← ownNamed] at named
      have set := nodes_setTerminal found holds index
      rw [ownNamed, labels] at set
      refine ⟨_, ends, cutLinked.setTerminal found named, ?_⟩
      apply set.trans
      apply (List.Perm.swap _ _ _).trans
      simp only [Edges.nodes, Edges.labels, List.cons_append, List.append_assoc,
        List.nil_append]
      exact List.Perm.refl _
  | @fork shared remainder suffix payload? below edges start longer
        suffixLonger parts =>
      have sameHead : shared.head? = (shared ++ suffix).head? :=
        (List.head?_append_of_ne_nil _ start).symm
      rcases faces.cut linked start longer sameHead with
          ⟨middle, next, own, ownNamed, free, labels, found, cutLinked, holds, step⟩
      have noEdge : ∀ label ∈ own.labels, label.head? ≠ suffix.head? := by
        rw [labels]
        exact List.forall_mem_singleton.mpr parts.symm
      have grows := step index suffix parts
      rw [insertAt_grow found index suffixLonger noEdge] at grows
      have grown := nodes_grow found holds suffix ⟨own.name ++ suffix, some index, []⟩
      rw [labels, free] at grown
      rw [← List.append_assoc, ← ownNamed] at named ⊢
      refine ⟨_, grows, ?_, grown.trans ?_⟩
      · apply cutLinked.grow found rfl rfl
        rintro number ⟨⟩
        exact named
      · rw [ownNamed]
        simp only [Edges.nodes, Edges.leaf, List.append_assoc, List.append_nil]
        exact perm_leaf_last _ _ _ _ _ _ _

/-- Following a name that is there down ends at its node, and it is refused. -/
theorem insertAt_of_stored {payload : Nat → List UInt8} {names : List Name}
    {suffix : Name} {edges : Edges} {front : List Name} {rest : List Node}
    (canonical : edges.Canonical) (linked : arena.Linked names)
    (faces : Faces payload arena place cell suffix front edges rest) {node : Node}
    (member : node ∈ edges.nodes cell.name) (stored : node.payload?.isSome)
    (named : node.name = cell.name ++ suffix) (index : Nat) :
    insertAt index node.name arena place cell.name.length =
      (.error (.duplicateSymbol node.name), arena) := by
  induction canonical generalizing place cell suffix front rest with
  | none => cases member
  | @edge label payload? below edges longer _ apart _ _ restCanonical belowIH restIH =>
      simp only [Edges.nodes, List.mem_cons, List.mem_append] at member
      rcases member with rfl | under | beside
      · have ends : suffix = label := (List.append_cancel_left named).symm
        rcases faces.follow linked longer (by rw [ends]) with
            ⟨next, child, childNamed, terminal, childFaces, step⟩
        have here := step index []
        rw [List.append_nil, insertAt_end (childFaces []).found,
          ← Option.isSome_map (f := payload), terminal, if_pos stored, childNamed]
          at here
        exact here
      · rcases Edges.exists_label_begins under with ⟨lower, -, begins⟩
        have onward := (List.prefix_append (cell.name ++ label) lower).trans begins
        rw [named, List.prefix_append_right_inj] at onward
        rcases onward with ⟨further, rfl⟩
        have sameHead := @List.head?_append_of_ne_nil _ label further longer
        rcases faces.follow linked longer sameHead.symm with
            ⟨next, child, childNamed, -, childFaces, step⟩
        rw [← List.append_assoc, ← childNamed] at named
        rw [← childNamed] at under
        have refused := belowIH (childFaces further) under named
        rw [named] at refused ⊢
        exact (step index further).trans refused
      · rcases Edges.exists_label_begins beside with ⟨other, isLabel, begins⟩
        have otherLonger := restCanonical.label_ne_nil isLabel
        have different : label.head? ≠ suffix.head? := by
          rw [named, List.prefix_append_right_inj] at begins
          rcases begins with ⟨further, rfl⟩
          rw [List.head?_append_of_ne_nil _ otherLonger]
          exact (apart other isLabel).symm
        exact restIH (faces.beside different) beside named

end Arena

end Linkedit.Trie
