import Linkedit.Trie.Tree
import Mathlib.Data.List.Infix

/-!
# How a name is added

Adding a name changes the edges at one place. There the name ends at a node, or
goes on past every edge, or leaves an edge in the middle of its label, which is
then split. `Insertion` names these cases, so that what adding a name preserves
is shown by going through them.
-/

namespace Linkedit.Trie

/-! ## Common starts -/

theorem commonStart_prefix_left (left right : Name) :
    commonStart left right <+: left := by
  fun_induction commonStart left right with
  | case1 byte lefts rights ih => exact List.cons_prefix_cons.mpr ⟨rfl, ih⟩
  | case2 => exact List.nil_prefix
  | case3 => exact List.nil_prefix

theorem commonStart_prefix_right (left right : Name) :
    commonStart left right <+: right := by
  fun_induction commonStart left right with
  | case1 byte lefts rights ih => exact List.cons_prefix_cons.mpr ⟨rfl, ih⟩
  | case2 => exact List.nil_prefix
  | case3 => exact List.nil_prefix

theorem commonStart_append_drop_left (left right : Name) :
    commonStart left right ++ left.drop (commonStart left right).length = left :=
  List.prefix_iff_eq_append.mp (commonStart_prefix_left left right)

theorem commonStart_append_drop_right (left right : Name) :
    commonStart left right ++ right.drop (commonStart left right).length = right :=
  List.prefix_iff_eq_append.mp (commonStart_prefix_right left right)

/-- Behind the common start two byte strings differ at once, if both go on. -/
theorem head?_ne_of_drop_commonStart {left right : Name}
    (leftRest : left.drop (commonStart left right).length ≠ [])
    (rightRest : right.drop (commonStart left right).length ≠ []) :
    (left.drop (commonStart left right).length).head? ≠
      (right.drop (commonStart left right).length).head? := by
  fun_induction commonStart left right with
  | case1 byte lefts rights ih =>
      simp only [List.length_cons, List.drop_succ_cons] at leftRest rightRest ⊢
      exact ih leftRest rightRest
  | case2 left lefts right rights different => simpa using different
  | case3 left right notCons =>
      cases left with
      | nil => simp at leftRest
      | cons byte lefts =>
          cases right with
          | nil => simp at rightRest
          | cons other rights => exact (notCons _ _ _ _ rfl rfl).elim

theorem commonStart_ne_nil {left right : Name} (nonempty : right ≠ [])
    (sameHead : left.head? = right.head?) : commonStart left right ≠ [] := by
  cases right with
  | nil => exact (nonempty rfl).elim
  | cons byte rights =>
      cases left with
      | nil => simp at sameHead
      | cons other lefts =>
          have equal : other = byte := by simpa using sameHead
          simp [commonStart, equal]

/-! ## The cases of adding a name -/

/-- What edges become when a name with its payload is added below them. -/
inductive Insertion (payload : List UInt8) : Name → Edges → Edges → Prop where
  /-- No edge continues the name. -/
  | last {name : Name} : Insertion payload name .none (Edges.leaf name payload)
  /-- The first edge does not continue the name. -/
  | beside {name label : Name} {payload? : Option (List UInt8)}
      {below rest others : Edges} (apart : label.head? ≠ name.head?)
      (added : Insertion payload name rest others) :
      Insertion payload name (.edge label payload? below rest)
        (.edge label payload? below others)
  /-- The name ends at a node that has no payload yet. -/
  | atNode {label : Name} {below rest : Edges} :
      Insertion payload label (.edge label none below rest)
        (.edge label (some payload) below rest)
  /-- The name goes on below the first edge. -/
  | under {label suffix : Name} {payload? : Option (List UInt8)}
      {below rest lower : Edges} (longer : suffix ≠ [])
      (added : Insertion payload suffix below lower) :
      Insertion payload (label ++ suffix) (.edge label payload? below rest)
        (.edge label payload? lower rest)
  /-- The name ends in the middle of the first label. -/
  | inside {shared remainder : Name} {payload? : Option (List UInt8)}
      {below rest : Edges} (nonempty : shared ≠ []) (longer : remainder ≠ []) :
      Insertion payload shared (.edge (shared ++ remainder) payload? below rest)
        (.edge shared (some payload) (.edge remainder payload? below .none) rest)
  /-- The name and the first label part after a common start. -/
  | fork {shared remainder suffix : Name} {payload? : Option (List UInt8)}
      {below rest : Edges} (nonempty : shared ≠ []) (labelLonger : remainder ≠ [])
      (nameLonger : suffix ≠ []) (apart : suffix.head? ≠ remainder.head?) :
      Insertion payload (shared ++ suffix)
        (.edge (shared ++ remainder) payload? below rest)
        (.edge shared none
          (.edge remainder payload? below (Edges.leaf suffix payload)) rest)

/-- Adding a name whose first byte is that of the first label: both are cut
behind their common start. -/
theorem insert_edge_of_sameHead {label name : Name} (payload : List UInt8)
    (payload? : Option (List UInt8)) (below rest : Edges) (nonempty : name ≠ [])
    (sameHead : label.head? = name.head?) :
    ∃ shared remainder suffix : Name, shared ≠ [] ∧
      label = shared ++ remainder ∧ name = shared ++ suffix ∧
      (remainder ≠ [] → suffix ≠ [] → suffix.head? ≠ remainder.head?) ∧
      (Edges.edge label payload? below rest).insert name payload =
        match remainder, suffix with
        | [], [] =>
            if payload?.isSome then none
            else some (.edge label (some payload) below rest)
        | [], suffix =>
            (below.insert suffix payload).map (.edge label payload? · rest)
        | remainder, [] =>
            some (.edge shared (some payload)
              (.edge remainder payload? below .none) rest)
        | remainder, suffix =>
            some (.edge shared none
              (.edge remainder payload? below (Edges.leaf suffix payload)) rest) := by
  exists commonStart label name, label.drop (commonStart label name).length,
    name.drop (commonStart label name).length
  constructor
  · exact commonStart_ne_nil nonempty sameHead
  constructor
  · exact (commonStart_append_drop_left label name).symm
  constructor
  · exact (commonStart_append_drop_right label name).symm
  constructor
  · intro labelLonger nameLonger
    exact (head?_ne_of_drop_commonStart labelLonger nameLonger).symm
  · rw [Edges.insert, if_neg (not_not.mpr sameHead)]
    rfl

/-- Adding a name that succeeds falls under one of the cases. -/
theorem insertion_of_insert {name : Name} {payload : List UInt8}
    {edges result : Edges} (nonempty : name ≠ [])
    (inserted : edges.insert name payload = some result) :
    Insertion payload name edges result := by
  induction edges generalizing name result with
  | none =>
      cases inserted
      exact .last
  | edge label payload? below rest belowIH restIH =>
      by_cases sameHead : label.head? = name.head?
      · rcases insert_edge_of_sameHead payload payload? below rest
            nonempty sameHead with
            ⟨shared, remainder, suffix, start, rfl, rfl, apart, equation⟩
        rw [equation] at inserted
        cases remainder with
        | nil =>
            rw [List.append_nil] at inserted ⊢
            cases suffix with
            | nil =>
                cases payload? with
                | none =>
                    cases inserted
                    rw [List.append_nil]
                    exact .atNode
                | some => cases inserted
            | cons byte suffix =>
                rcases Option.map_eq_some_iff.mp inserted with ⟨lower, added, rfl⟩
                apply Insertion.under
                · simp
                · exact belowIH (by simp) added
        | cons labelByte remainder =>
            cases suffix with
            | nil =>
                cases inserted
                rw [List.append_nil]
                exact .inside start (by simp)
            | cons byte suffix =>
                cases inserted
                apply Insertion.fork start
                · simp
                · simp
                · exact apart (by simp) (by simp)
      · rw [Edges.insert, if_pos sameHead] at inserted
        rcases Option.map_eq_some_iff.mp inserted with ⟨others, added, rfl⟩
        apply Insertion.beside sameHead
        exact restIH nonempty added

end Linkedit.Trie
