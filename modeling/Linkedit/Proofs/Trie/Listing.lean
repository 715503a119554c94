import Linkedit.Proofs.Trie.Lookup
import Mathlib.Data.List.Forall2

/-!
# Lookups in a trie that can be listed

The bytes of a trie are untrusted: edges may have no labels, and labels of one node may
begin alike. A lookup takes the first edge that fits, so there it may miss names that a
full listing shows. It never shows anything else, and it never fails on a trie that can
be listed.
-/

namespace Linkedit.Trie

variable {data : Bytes}

/-! ## Labels that tell names apart -/

/-- The offsets that edges lead to from the root on. -/
inductive Reachable (data : Bytes) : (offset : Nat) → Prop where
  | root : Reachable data 0
  | child {offset : Nat} {header : Header} {children : List Child} {child : Child}
      (reached : Reachable data offset)
      (headerRead : readHeader data offset = .ok header)
      (childrenRead : readChildren data header.children = .ok children)
      (member : child ∈ children) : Reachable data child.offset

/-- The labels of edges are not empty and differ in their first bytes. -/
structure Distinguishes (children : List Child) : Prop where
  nonempty : ∀ child ∈ children, child.label ≠ []
  apart : children.Pairwise fun first second => first.label.head? ≠ second.label.head?

/-- At every node that can be reached, the labels are not empty and differ in their
first bytes. -/
def Radix (data : Bytes) : Prop :=
  ∀ offset header children, Reachable data offset →
    readHeader data offset = .ok header →
    readChildren data header.children = .ok children → Distinguishes children

namespace Branches

variable {branches below : Branches} {payload? : Option (Nat × Nat)}

theorem Reads.apart (reads : branches.Reads data) (radix : Radix data)
    (reached : ∀ child ∈ branches.children, Reachable data child.offset)
    (distinguishes : Distinguishes branches.children) : branches.Apart := by
  induction reads with
  | none => exact .none
  | @child label offset position payload? below rest header edges _ _ belowIH restIH =>
      rcases List.forall_mem_cons.mp reached with ⟨here, beside⟩
      rcases List.forall_mem_cons.mp distinguishes.nonempty with
        ⟨nonempty, othersNonempty⟩
      rcases List.pairwise_cons.mp distinguishes.apart with ⟨apart, othersApart⟩
      apply Apart.child nonempty
      case apart =>
        intro other member
        exact (apart other member).symm
      case belowApart =>
        apply belowIH
        · intro child member
          exact here.child header edges member
        · exact radix offset _ _ here header edges
      case restApart => exact restIH beside ⟨othersNonempty, othersApart⟩

theorem Apart.distinguishes (apart : branches.Apart) :
    Distinguishes branches.children := by
  induction apart with
  | none => exact ⟨List.forall_mem_nil _, .nil⟩
  | child nonempty apart _ _ _ restIH =>
      constructor
      case nonempty => exact List.forall_mem_cons.mpr ⟨nonempty, restIH.nonempty⟩
      case apart =>
        apply List.Pairwise.cons ?_ restIH.apart
        intro other member
        exact (apart other member).symm

/-- Below some offset there lies a tree whose labels tell names apart. -/
def ApartAt (data : Bytes) (offset : Nat) : Prop :=
  ∃ payload? position, ∃ below : Branches,
    readHeader data offset = .ok ⟨payload?, position⟩ ∧
    readChildren data position = .ok below.children ∧ below.Reads data ∧ below.Apart

theorem Reads.apartAt_child (reads : branches.Reads data) (apart : branches.Apart) :
    ∀ child ∈ branches.children, ApartAt data child.offset := by
  induction reads with
  | none => exact List.forall_mem_nil _
  | child header edges belowReads _ _ restIH =>
      cases apart with
      | child nonempty apart belowApart restApart =>
          rw [children, List.forall_mem_cons]
          constructor
          · exact ⟨_, _, _, header, edges, belowReads, belowApart⟩
          · exact restIH restApart

/-- Every node that can be reached is a node of the tree that lies in the buffer. -/
theorem Reads.apartAt_of_reachable (reads : (root payload? below).Reads data)
    (apart : below.Apart) {offset : Nat} (reached : Reachable data offset) :
    ApartAt data offset := by
  induction reached with
  | root =>
      cases reads with
      | child header edges belowReads _ =>
          exact ⟨_, _, _, header, edges, belowReads, apart⟩
  | child _ headerRead childrenRead member ih =>
      rcases ih with ⟨payload?, position, below, header, edges, belowReads, belowApart⟩
      cases headerRead.symm.trans header
      cases childrenRead.symm.trans edges
      exact belowReads.apartAt_child belowApart _ member

/-- Labels tell names apart in the bytes if and only if they do in the tree. -/
theorem Reads.radix_iff_apart (reads : (root payload? below).Reads data) :
    Radix data ↔ below.Apart := by
  constructor
  · intro radix
    cases reads with
    | child header edges belowReads _ =>
        apply belowReads.apart radix
        · intro child member
          exact Reachable.root.child header edges member
        · exact radix 0 _ _ .root header edges
  · intro apart offset header children reached headerRead childrenRead
    rcases reads.apartAt_of_reachable apart reached with
      ⟨payload?, position, below, belowHeader, edges, -, belowApart⟩
    cases headerRead.symm.trans belowHeader
    cases childrenRead.symm.trans edges
    exact belowApart.distinguishes

/-! ## Names of terminal nodes -/

theorem Apart.length_above_lt (apart : branches.Apart) {above : Name}
    {terminal : Terminal} (member : terminal ∈ branches.terminals above) :
    above.length < terminal.name.length := by
  rcases exists_child_of_mem_terminals member with ⟨child, isChild, start⟩
  have longer := List.length_pos_iff.mpr (apart.label_ne_nil isChild)
  have bound := start.length_le
  rw [List.length_append] at bound
  omega

theorem name_of_mem_own {name : Name} {terminal : Terminal}
    (own :
      terminal ∈ (payload?.map fun range => Terminal.mk name range.1 range.2).toList) :
    terminal.name = name := by
  rcases Option.map_eq_some_iff.mp (Option.mem_toList.mp own) with ⟨range, -, rfl⟩
  rfl

/-- Different terminal nodes have different names. -/
theorem Apart.pairwise_terminals (apart : branches.Apart) (above : Name) :
    (branches.terminals above).Pairwise fun first second =>
      first.name ≠ second.name := by
  induction apart generalizing above with
  | none => exact .nil
  | @child label offset payload? below rest nonempty apart belowApart restApart belowIH
      restIH =>
      have besideApart : ∀ terminal ∈ rest.terminals above,
          ¬ above ++ label <+: terminal.name := by
        intro terminal member start
        rcases exists_child_of_mem_terminals member with ⟨other, isChild, otherStart⟩
        apply apart other isChild
        exact Edges.head?_eq_of_begins (restApart.label_ne_nil isChild)
          nonempty otherStart start
      simp only [terminals, List.pairwise_append, List.mem_append]
      refine ⟨?own, ⟨belowIH _, restIH _, ?beside⟩, ?behind⟩
      case own => cases payload? <;> simp
      case beside =>
        intro under underMember other otherMember same
        rcases exists_child_of_mem_terminals underMember with ⟨child, -, start⟩
        apply besideApart other otherMember
        rw [← same]
        exact (List.prefix_append _ child.label).trans start
      case behind =>
        intro own ownMember other otherMember same
        have ownName : own.name = above ++ label := name_of_mem_own ownMember
        rcases otherMember with under | beside
        · have longer := belowApart.length_above_lt under
          rw [← same, ownName] at longer
          exact Nat.lt_irrefl _ longer
        · apply besideApart other beside
          rw [← same, ownName]

/-- Different terminal nodes of a trie have different names. -/
theorem Apart.nodup_names (apart : below.Apart) (payload? : Option (Nat × Nat)) :
    (((root payload? below).terminals []).map (·.name)).Nodup := by
  apply List.pairwise_map.mpr
  simp only [root, terminals, List.append_nil, List.pairwise_append]
  refine ⟨?own, apart.pairwise_terminals [], ?behind⟩
  case own => cases payload? <;> simp
  case behind =>
    intro own ownMember other otherMember same
    have unnamed : own.name = [] := name_of_mem_own ownMember
    have longer := apart.length_above_lt otherMember
    rw [← same, unnamed] at longer
    exact Nat.lt_irrefl _ longer

end Branches

/-! ## What a listing shows -/

/-- A walk succeeds if every visit does, and then it finds one thing at each terminal
node. -/
theorem Visit.all_eq_ok {α : Type} {visit : Visit α} {found result : Array α}
    {terminals : List Terminal} :
    visit.all found terminals = .ok result ↔
      ∃ values, result.toList = found.toList ++ values ∧
        List.Forall₂ (fun terminal value =>
          visit terminal.name terminal.start terminal.stop = .ok value)
              terminals values := by
  induction terminals generalizing found with
  | nil => simp [Visit.all_nil, eq_comm]
  | cons terminal terminals ih =>
      rw [Visit.all, List.foldlM_cons]
      constructor
      · intro visited
        rcases bind_eq_ok.mp visited with ⟨next, here, visited⟩
        rcases map_eq_ok.mp here with ⟨value, isValue, rfl⟩
        rcases ih.mp visited with ⟨values, whole, others⟩
        refine ⟨value :: values, ?_, .cons (mapError_eq_ok.mp isValue) others⟩
        rw [whole, Array.toList_push, List.append_assoc]
        rfl
      · rintro ⟨values, whole, visited⟩
        cases visited with
        | @cons _ value _ values here others =>
            have step : visit.at found terminal = .ok (found.push value) := by
              rw [Visit.at, here, mapError_ok, map_ok]
            rw [step, ok_bind]
            apply ih.mpr
            refine ⟨values, ?_, others⟩
            rw [whole, Array.toList_push, List.append_assoc]
            rfl

/-- Some terminal node decodes to an export. -/
def Terminal.Decodes (data : Bytes) (terminal : Terminal) (symbol : Export) : Prop :=
  Export.decodePayload terminal.name (data.extract 0 terminal.stop) terminal.start =
    .ok symbol

theorem Terminal.Decodes.name_eq {terminal : Terminal} {symbol : Export}
    (decodes : terminal.Decodes data symbol) : symbol.name = terminal.name :=
  Export.name_of_decodePayload decodes

/-- A trie that can be listed is empty, or it lies in the buffer and its terminal nodes
decode to the exports of the listing. -/
theorem exports_cases {all : List Export} (listed : exports data = .ok all) :
    (all = [] ∧ ∀ name, lookup data name = .ok none) ∨
      ∃ payload? below, (Branches.root payload? below).Reads data ∧
        (Branches.root payload? below).offsets.Nodup ∧
        List.Forall₂ (Terminal.Decodes data)
          ((Branches.root payload? below).terminals []) all := by
  cases empty : data.isEmpty with
  | true =>
      left
      rw [exports, walk, if_pos empty] at listed
      cases listed
      refine ⟨rfl, ?_⟩
      intro name
      rw [lookup, if_pos empty]
  | false =>
      right
      rcases exists_root_of_walk empty listed with ⟨payload?, below, reads, distinct⟩
      refine ⟨payload?, below, reads, distinct, ?_⟩
      rw [exports, walk_eq_of_reads reads distinct] at listed
      rcases map_eq_ok.mp listed with ⟨result, visited, rfl⟩
      rcases Visit.all_eq_ok.mp visited with ⟨values, whole, decodes⟩
      rw [whole]
      exact decodes

theorem map_name_eq {terminals : List Terminal} {all : List Export}
    (decodes : List.Forall₂ (Terminal.Decodes data) terminals all) :
    all.map (·.name) = terminals.map (·.name) := by
  induction decodes with
  | nil => rfl
  | cons here _ ih => rw [List.map_cons, List.map_cons, here.name_eq, ih]

/-! ## Lookups -/

theorem Terminal.Decodes.report {terminal : Terminal} {symbol : Export}
    (decodes : terminal.Decodes data symbol) :
    reportPayload data terminal.name (some (terminal.start, terminal.stop)) =
      .ok (some symbol) := by
  rw [Decodes] at decodes
  rw [reportPayload, decodes, mapError_ok, map_ok]

/-- In a trie that can be listed a lookup finds nothing, or an export of the listing. -/
theorem lookup_of_exports {all : List Export} (listed : exports data = .ok all)
    (name : Name) :
    lookup data name = .ok none ∨
      ∃ symbol ∈ all, symbol.name = name ∧ lookup data name = .ok (some symbol) := by
  rcases exports_cases listed with
    ⟨-, nothing⟩ | ⟨payload?, below, reads, distinct, decodes⟩
  · exact .inl (nothing name)
  · rw [Branches.lookup_of_reads reads distinct]
    cases reached : Branches.seekRoot payload? below name with
    | none => exact .inl rfl
    | some range =>
        have isTerminal := Branches.mem_terminals_of_seekRoot reached
        rcases exists_of_forall₂ decodes isTerminal with ⟨symbol, isListed, here⟩
        exact .inr ⟨symbol, isListed, here.name_eq, here.report⟩

/-- If labels tell names apart, a lookup finds every export of the listing. -/
theorem lookup_of_mem_exports {all : List Export} (listed : exports data = .ok all)
    (radix : Radix data) {symbol : Export} (member : symbol ∈ all) :
    lookup data symbol.name = .ok (some symbol) := by
  rcases exports_cases listed with
    ⟨rfl, -⟩ | ⟨payload?, below, reads, distinct, decodes⟩
  · cases member
  · rcases exists_of_forall₂ decodes.flip member with ⟨terminal, isTerminal, here⟩
    have apart := reads.radix_iff_apart.mp radix
    rw [Branches.lookup_of_reads reads distinct, Terminal.Decodes.name_eq here,
      apart.seekRoot_of_mem_terminals isTerminal]
    exact Terminal.Decodes.report here

/-- If labels tell names apart, no name is listed twice. -/
theorem nodup_names_of_exports {all : List Export} (listed : exports data = .ok all)
    (radix : Radix data) : (all.map (·.name)).Nodup := by
  rcases exports_cases listed with ⟨rfl, -⟩ | ⟨payload?, below, reads, -, decodes⟩
  · exact .nil
  · rw [map_name_eq decodes]
    exact (reads.radix_iff_apart.mp radix).nodup_names payload?

/-- The labels of a trie that was built tell names apart. -/
theorem radix_build {stored : List Entry} {bytes : List UInt8}
    (built : build stored = .ok bytes) (small : bytes.length < 2 ^ 64) :
    Radix bytes.toArray := by
  rcases exists_written_of_build built small with ⟨tree, offset, canonical, -, written⟩
  apply (canonical.reads_branches written).radix_iff_apart.mpr
  exact Edges.Canonical.apart_branches canonical offset []

/-- Whatever its bytes, a trie that can be listed can be looked up in, and a lookup
finds nothing but what is listed under that name. If the labels of every node that can
be reached are not empty and differ in their first bytes, no name is listed twice, and a
lookup finds exactly what is listed. -/
theorem lookup_agrees_with_listing {all : List Export}
    (listed : exports data = .ok all) :
    (∀ name, ∃ found, lookup data name = .ok found ∧
      ∀ symbol ∈ found, symbol.name = name ∧ symbol ∈ all) ∧
    (Radix data → (all.map (·.name)).Nodup ∧
      ∀ name symbol, lookup data name = .ok (some symbol) ↔
        symbol ∈ all ∧ symbol.name = name) := by
  constructor
  · intro name
    rcases lookup_of_exports listed name with
      nothing | ⟨symbol, isListed, isName, found⟩
    · exact ⟨none, nothing, by simp⟩
    · refine ⟨some symbol, found, ?_⟩
      simp [isListed, isName]
  · intro radix
    refine ⟨nodup_names_of_exports listed radix, ?_⟩
    intro name symbol
    constructor
    · intro found
      rcases lookup_of_exports listed name with
        nothing | ⟨other, isListed, isName, otherFound⟩
      · cases found.symm.trans nothing
      · cases found.symm.trans otherFound
        exact ⟨isListed, isName⟩
    · rintro ⟨isListed, rfl⟩
      exact lookup_of_mem_exports listed radix isListed

/-- A trie of two names, the second one below the first. -/
def nested : Bytes := #[0, 1, 97, 0, 5, 2, 0, 7, 1, 98, 0, 12, 2, 0, 9, 0]

/-- The two nodes of `nested` below the root. -/
def nestedBelow : Branches :=
  .child [97] 5 (some (6, 8)) (.child [98] 12 (some (13, 15)) .none .none) .none

theorem reads_nested : (Branches.root none nestedBelow).Reads nested := by
  have root : readHeader nested 0 = .ok ⟨none, 1⟩ := by decide +kernel
  have rootEdges : readChildren nested 1 = .ok [⟨[97], 5⟩] := by decide +kernel
  have first : readHeader nested 5 = .ok ⟨some (6, 8), 8⟩ := by decide +kernel
  have firstEdges : readChildren nested 8 = .ok [⟨[98], 12⟩] := by decide +kernel
  have second : readHeader nested 12 = .ok ⟨some (13, 15), 15⟩ := by decide +kernel
  have secondEdges : readChildren nested 15 = .ok [] := by decide +kernel
  exact .child root rootEdges
    (.child first firstEdges (.child second secondEdges .none .none) .none) .none

theorem apart_nestedBelow : nestedBelow.Apart := by
  apply Branches.Apart.child (by decide) (by simp [Branches.children]) ?_ .none
  exact .child (by decide) (by simp [Branches.children]) .none .none

theorem exports_nested :
    exports nested = .ok [⟨[97], 0, 7, 0, none⟩, ⟨[97, 98], 0, 9, 0, none⟩] := by
  rw [exports, walk_eq_of_reads reads_nested (by decide)]
  decide +kernel

theorem lookup_agrees_with_listing_nested :
    exports nested = .ok [⟨[97], 0, 7, 0, none⟩, ⟨[97, 98], 0, 9, 0, none⟩] ∧
      Radix nested ∧ lookup nested [97, 98] = .ok (some ⟨[97, 98], 0, 9, 0, none⟩) ∧
      ∀ symbol, lookup nested [98] ≠ .ok (some symbol) := by
  have radix : Radix nested := reads_nested.radix_iff_apart.mpr apart_nestedBelow
  rcases (lookup_agrees_with_listing exports_nested).2 radix with ⟨-, found⟩
  refine ⟨exports_nested, radix, (found _ _).mpr (by simp), ?_⟩
  intro symbol isFound
  rcases (found _ _).mp isFound with ⟨isListed, isName⟩
  rcases List.mem_pair.mp isListed with rfl | rfl
  · cases isName
  · cases isName

end Linkedit.Trie
