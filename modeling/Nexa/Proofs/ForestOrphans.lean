import Nexa.Proofs.ForestInsertion

/-! # Orphans that are tried again

`ProcessOrphans` takes all orphans off their map and tries them in groups. Those of the group at hand and
of the groups behind it wait, and in the end each of them is linked or parked again.
-/

namespace Nexa

open Option

variable {ν : Type} {memory : NodeMemory} {k : TailstormK} {ctx : ForestContext ν memory} {rounds : ℕ}
  {forest next : CTailstormForest ν} {pending later stillUnlinked : List CTreeNodeRef} {linked : List Uint256}

/-- The nodes of these lists, and no others, wait. -/
def CTailstormForest.Waits (memory : NodeMemory) (forest : CTailstormForest ν)
    (pending later : List CTreeNodeRef) : Prop :=
  forest.Consistent memory {node | node ∈ pending ++ later} ∅ ∧ (pending ++ later).Nodup

namespace CTailstormForest.Waits

variable {node : CTreeNodeRef}

theorem of_perm {others rest : List CTreeNodeRef} (waits : forest.Waits memory pending later)
    (perm : (pending ++ later).Perm (others ++ rest)) : forest.Waits memory others rest := by
  have same : {node | node ∈ pending ++ later} = {node | node ∈ others ++ rest} := Set.ext fun _ => perm.mem_iff
  exact ⟨same ▸ waits.1, perm.nodup_iff.mp waits.2⟩

theorem tail (consistent : next.Consistent memory ({other | other ∈ node :: pending ++ later} \ {node}) ∅)
    (distinct : (node :: pending ++ later).Nodup) : next.Waits memory pending later := by
  obtain ⟨fresh, distinct⟩ := List.nodup_cons.mp distinct
  refine ⟨?_, distinct⟩
  convert consistent using 1
  ext other
  constructor
  · intro listed
    exact ⟨List.mem_cons_of_mem _ listed, fun same => fresh (same ▸ listed)⟩
  · rintro ⟨listed, different⟩
    exact (List.mem_cons.mp listed).resolve_left different

theorem known (waits : forest.Waits memory (node :: pending) later) :
    forest.mapAllNodes.lookup (memory.hash node) = some node :=
  waits.1.accounted.waits List.mem_cons_self

theorem foldl_addSubblockOrphan (waits : forest.Waits memory pending later) :
    (pending.foldl (fun forest node => forest.addSubblockOrphan memory node) forest).Waits memory [] later := by
  induction pending generalizing forest with
  | nil => exact waits
  | cons node pending ih =>
    obtain ⟨parked, loose⟩ := waits.1.addSubblockOrphan waits.known
    have settled := parked.accounted.settle (loose (waits.1.accounted.waitsApart List.mem_cons_self))
    exact ih (.tail ⟨settled, parked.groves, parked.regular⟩ waits.2)

end CTailstormForest.Waits

section

variable (waits : forest.Waits memory pending later)

include waits

theorem waits_of_orphanPass (ended : orphanPass k ctx rounds pending forest = some (linked, stillUnlinked, next)) :
    next.Waits memory stillUnlinked later := by
  induction pending generalizing forest later linked stillUnlinked with
  | nil =>
    cases ended
    exact waits
  | cons node pending ih =>
    obtain ⟨⟨fOK, inserted⟩, insertion, ended⟩ := bind_eq_some_iff.mp ended
    obtain ⟨⟨more, left, last⟩, passed, ended⟩ := bind_eq_some_iff.mp ended
    have self : forest.knownNode memory node = node := by
      exact congrArg (getD · node) waits.known
    have consistent := waits.1.insert (waits.1.regular waits.known).1 insertion
    rw [self] at consistent
    cases fOK with
    | true =>
      cases ended
      exact ih (.tail consistent waits.2) passed
    | false =>
      cases ended
      have still : inserted.Waits memory (node :: pending) later := ⟨consistent, waits.2⟩
      have moved := ih (still.of_perm List.perm_middle.symm) passed
      rw [self]
      exact moved.of_perm List.perm_middle

theorem waits_of_orphanPasses {left : ℕ}
    (ended : orphanPasses k ctx rounds left pending forest = some (linked, stillUnlinked, next)) :
    next.Waits memory stillUnlinked later := by
  induction left generalizing forest pending linked with
  | zero => cases ended
  | succ left ih =>
    rw [orphanPasses] at ended
    split_ifs at ended with none
    · cases ended
      exact none ▸ waits
    · obtain ⟨⟨first, remaining, passed⟩, pass, ended⟩ := bind_eq_some_iff.mp ended
      have waits := waits_of_orphanPass waits pass
      dsimp only at ended
      split_ifs at ended
      · cases ended
        exact waits
      · obtain ⟨⟨more, rest, last⟩, passes, ⟨⟩⟩ := bind_eq_some_iff.mp ended
        exact ih waits passes

theorem waits_of_orphanGroup {prevhash : Uint256}
    (ended : orphanGroup k ctx rounds forest prevhash pending = some (linked, next)) : next.Waits memory [] later := by
  rw [orphanGroup] at ended
  split_ifs at ended
  · cases ended
    exact waits.foldl_addSubblockOrphan
  · obtain ⟨⟨links, left, passed⟩, passes, ⟨⟩⟩ := bind_eq_some_iff.mp ended
    exact (waits_of_orphanPasses waits passes).foldl_addSubblockOrphan

end

theorem consistent_of_orphanGroups {groups : List (Uint256 × List CTreeNodeRef)}
    (waits : forest.Waits memory [] (groups.flatMap Prod.snd))
    (ended : orphanGroups k ctx rounds groups forest = some (linked, next)) : next.Consistent memory ∅ ∅ := by
  induction groups generalizing forest linked with
  | nil =>
    cases ended
    have none : {node : CTreeNodeRef | node ∈ ([] : List CTreeNodeRef)} = ∅ := by simp
    exact none ▸ waits.1
  | cons group groups ih =>
    obtain ⟨⟨first, between⟩, one, ended⟩ := bind_eq_some_iff.mp ended
    obtain ⟨⟨more, last⟩, others, ⟨⟩⟩ := bind_eq_some_iff.mp ended
    exact ih (waits_of_orphanGroup waits one) others

theorem orphansByPrev_perm (memory : NodeMemory) {orphans : List CTreeNodeRef} (distinct : orphans.Nodup) :
    ((orphansByPrev memory orphans).flatMap Prod.snd).Perm orphans := by
  have sorted := List.perm_insertionSort (· ≤ ·) (orphans.map (hashPrevBlock memory)).dedup
  rw [orphansByPrev, List.flatMap_map]
  refine (List.perm_ext_iff_of_nodup ?_ distinct).mpr fun node => ?_
  · refine List.nodup_flatMap.mpr ⟨fun prevhash _ => distinct.filter _, ?_⟩
    refine (sorted.nodup_iff.mpr (List.nodup_dedup _)).imp fun {a b} different node inA inB => different ?_
    have prevA := of_decide_eq_true (List.mem_filter.mp inA).2
    have prevB := of_decide_eq_true (List.mem_filter.mp inB).2
    exact prevA.symm.trans prevB
  · rw [List.mem_flatMap]
    constructor
    · rintro ⟨prevhash, -, listed⟩
      exact List.mem_of_mem_filter listed
    · intro listed
      refine ⟨hashPrevBlock memory node, ?_, List.mem_filter.mpr ⟨listed, decide_eq_true rfl⟩⟩
      exact sorted.mem_iff.mpr (List.mem_dedup.mpr (List.mem_map_of_mem listed))

theorem CTailstormForest.Consistent.orphanRound (consistent : forest.Consistent memory ∅ ∅)
    (ended : orphanRound k ctx rounds forest = some (linked, next)) : next.Consistent memory ∅ ∅ := by
  rw [Nexa.orphanRound] at ended
  split_ifs at ended
  have keyed {hash : Uint256} {node : CTreeNodeRef} (found : forest.mapNodesUnlinked.lookup hash = some node) :
      memory.hash node = hash := consistent.accounted.keyed (consistent.accounted.loose found)
  have distinct : (inKeyOrder forest.mapNodesUnlinked).Nodup := (nodup_map_inKeyOrder _ keyed).of_map
  have perm := orphansByPrev_perm memory distinct
  refine consistent_of_orphanGroups ⟨?_, perm.nodup_iff.mpr distinct⟩ ended
  have same : {node | node ∈ [] ++ (orphansByPrev memory (inKeyOrder forest.mapNodesUnlinked)).flatMap Prod.snd} =
      {node | forest.mapNodesUnlinked.lookup (memory.hash node) = some node} := by
    ext node
    refine perm.mem_iff.trans ((mem_inKeyOrder _).trans ⟨?_, fun found => ⟨_, found⟩⟩)
    rintro ⟨hash, found⟩
    change forest.mapNodesUnlinked.lookup (memory.hash node) = some node
    rw [keyed found, found]
  rw [same]
  exact ⟨consistent.accounted.release, consistent.groves, consistent.regular⟩

theorem CTailstormForest.Consistent.processOrphans {left : ℕ} (consistent : forest.Consistent memory ∅ ∅)
    (ended : processOrphans k ctx rounds left forest = some (linked, next)) : next.Consistent memory ∅ ∅ := by
  induction left generalizing forest linked with
  | zero => cases ended
  | succ left ih =>
    rw [Nexa.processOrphans] at ended
    obtain ⟨⟨first, between⟩, round, ended⟩ := bind_eq_some_iff.mp ended
    have consistent := consistent.orphanRound round
    dsimp only at ended
    split_ifs at ended
    · cases ended
      exact consistent
    · obtain ⟨⟨more, last⟩, rounds, ⟨⟩⟩ := bind_eq_some_iff.mp ended
      exact ih consistent rounds

end Nexa
