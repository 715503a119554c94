import Linkedit.Proofs.Bind.Events

/-!
# The links of a pointer chain

Where a chain goes depends on the file alone, and the ordinal table only says what the
slots on the way are bound to. The links of a chain and the places that a walk comes to
are listed here without the table.
-/

namespace Linkedit.Bind

variable {program : Program}

/-- A slot of a pointer chain, with the pointer in it. -/
structure Link where
  offset : Nat
  pointer : ChainPointer

/-- The links that a walk reads from `offset` on. -/
def chainLinks (program : Program) (segment : Segment) (offset : Nat) : List Link :=
  if chainOffset offset chainStride ≤ segment.fileSize.toNat then
    match program.image.word64? (segment.fileOffset.toNat + offset) with
    | none => []
    | some raw =>
        let pointer : ChainPointer := ⟨raw⟩
        let next := chainOffset offset (pointer.next * chainStride)
        ⟨offset, pointer⟩ ::
          if _ended : pointer.next = 0 then []
          else if _samePage : next / chainPage = offset / chainPage then
            if _inSegment : next < segment.size.toNat then
              chainLinks program segment next
            else []
          else []
  else []
termination_by chainPage - offset % chainPage
decreasing_by
  exact chainOffset_lt segment.size.toNat_lt_size _inSegment _ended _samePage

/-- The offsets that a walk comes to from `offset` on. Only the last one may hold no
link that can be read. -/
def chainPlaces (program : Program) (segment : Segment) (offset : Nat) : List Nat :=
  offset ::
    if chainOffset offset chainStride ≤ segment.fileSize.toNat then
      match program.image.word64? (segment.fileOffset.toNat + offset) with
      | none => []
      | some raw =>
          let pointer : ChainPointer := ⟨raw⟩
          let next := chainOffset offset (pointer.next * chainStride)
          if _ended : pointer.next = 0 then []
          else if _samePage : next / chainPage = offset / chainPage then
            if _inSegment : next < segment.size.toNat then
              chainPlaces program segment next
            else []
          else []
    else []
termination_by chainPage - offset % chainPage
decreasing_by
  exact chainOffset_lt segment.size.toNat_lt_size _inSegment _ended _samePage

/-- The place of a link that could not be read. -/
def Problem.unread? : Problem → Option Nat
  | .linkOutsideContent offset _ | .linkPastImage offset => some offset
  | _ => none

/-- Whether a problem is one that ends a walk. -/
def Problem.endsChain : Problem → Bool
  | .linkOutsideContent .. | .linkPastImage _ | .linkCrossesPage _
  | .linkLeavesSegment .. =>
      true
  | _ => false

/-- A walk gives the events of its links, and at most one problem at its end. It comes
to the places of its links, and to the place that the problem says could not be read. -/
theorem walkChain_eq (program : Program) (index : Nat) (segment : Segment)
    (entries : Array Target) (offset : Nat) :
    ∃ ending : Option Problem, walkChain program index segment entries offset =
      ((chainLinks program segment offset).flatMap fun link =>
        linkEvents index segment entries link.offset link.pointer) ++
        (ending.map Event.problem).toList ∧
      chainPlaces program segment offset =
        (chainLinks program segment offset).map (·.offset) ++
          (ending.bind Problem.unread?).toList ∧
      ∀ problem ∈ ending, problem.endsChain = true := by
  fun_induction walkChain program index segment entries offset with
  | case1 offset content missing =>
      exists some (.linkPastImage offset)
      rw [chainLinks, chainPlaces, if_pos content, if_pos content, missing]
      exact ⟨rfl, rfl, by simp [Problem.endsChain]⟩
  | case2 offset content raw word pointer next ih =>
      rw [chainLinks, chainPlaces, if_pos content, if_pos content, word]
      simp only [List.flatMap_cons, List.append_assoc]
      by_cases ended : pointer.next = 0
      · exists none
        rw [dif_pos ended, dif_pos ended, dif_pos ended]
        exact ⟨rfl, rfl, by simp⟩
      rw [dif_neg ended, dif_neg ended, dif_neg ended]
      by_cases samePage : next / chainPage = offset / chainPage
      · rw [dif_pos samePage, dif_pos samePage, dif_pos samePage]
        by_cases inSegment : next < segment.size.toNat
        · rw [dif_pos inSegment, dif_pos inSegment, dif_pos inSegment]
          rcases ih ended samePage inSegment with ⟨ending, further, places, ends⟩
          exists ending
          rw [further, places]
          exact ⟨rfl, rfl, ends⟩
        · rw [dif_neg inSegment, dif_neg inSegment, dif_neg inSegment]
          exact ⟨some (.linkLeavesSegment offset segment.name), rfl, rfl,
            by simp [Problem.endsChain]⟩
      · rw [dif_neg samePage, dif_neg samePage, dif_neg samePage]
        exact ⟨some (.linkCrossesPage offset), rfl, rfl, by simp [Problem.endsChain]⟩
  | case3 offset outside =>
      exists some (.linkOutsideContent offset segment.name)
      rw [chainLinks, chainPlaces, if_neg outside, if_neg outside]
      exact ⟨rfl, rfl, by simp [Problem.endsChain]⟩

end Linkedit.Bind
