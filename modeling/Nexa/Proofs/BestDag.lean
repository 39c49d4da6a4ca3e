import Nexa.Proofs.ForestRuns

/-! # The best dag

Over any sequence of insertions, removals and regenerations the nodes of a tree are numbered without
gaps, parents first. In every grove of a forest, `GetBestDag` returns uncles and then processed subblocks,
each behind all its ancestors, and never more than a summary block commits.
-/

namespace Nexa

open List

variable {ν : Type} {k : TailstormK}

/-- A subblock is inserted under the node that was made for it, and the copies that `GetUncles` makes are marked. -/
def TailstormOp.Marked (heap : DagHeap) : TailstormOp ν → Prop
  | .insert _ newNode => (heap newNode).fUncle = false
  | .addUncles uncles => ∀ uncle ∈ uncles, (heap uncle).fUncle = true
  | .remove _ => True
  | .regenerate _ => True

instance (heap : DagHeap) : (op : TailstormOp ν) → Decidable (op.Marked heap)
  | .insert _ newNode => inferInstanceAs (Decidable ((heap newNode).fUncle = false))
  | .addUncles uncles => inferInstanceAs (Decidable (∀ uncle ∈ uncles, (heap uncle).fUncle = true))
  | .remove _ => .isTrue trivial
  | .regenerate _ => .isTrue trivial

namespace TailstormTree

variable {tree next : TailstormTree ν} {rounds : ℕ}

/-! ## Runs -/

theorem Kept.step {op : TailstormOp ν} (kept : tree.Kept) (marked : op.Marked tree.heap)
    (ended : tree.step k rounds op = some next) : next.Kept ∧ DagRun tree.toTreeState next.toTreeState := by
  cases op with
  | insert ctx newNode =>
    obtain ⟨⟨added, _⟩, inserted, rfl⟩ := Option.map_eq_some_iff.mp ended
    exact kept.insertIntoTree marked inserted
  | addUncles uncles =>
    cases ended
    exact ⟨(kept.addUncles marked).kept, (kept.addUncles marked).run⟩
  | remove hash => exact kept.remove ended
  | regenerate ctx => exact ⟨(kept.reGenerateDagData ended).kept, (kept.reGenerateDagData ended).run⟩

/-- The trees that operations lead to, from nodes without links. -/
inductive Reachable (k : TailstormK) : TailstormTree ν → Prop where
  | start {heap : DagHeap} {view : ν} (bare : ∀ node, (heap node).setAncestors = ∅ ∧ (heap node).setDescendants = ∅) :
    Reachable k { heap, view }
  | step {tree next : TailstormTree ν} {rounds : ℕ} {op : TailstormOp ν} (before : Reachable k tree)
    (marked : op.Marked tree.heap) (ended : tree.step k rounds op = some next) : Reachable k next

theorem Reachable.kept (reachable : tree.Reachable k) : tree.Kept := by
  induction reachable with
  | start bare => exact kept_of_bare bare _
  | step _ marked ended ih => exact (ih.step marked ended).1

/-- The tree with an order is a tree of the dag and its links: the operations of that model lead to it. -/
theorem Reachable.toTreeState (reachable : tree.Reachable k) : tree.toTreeState.Reachable := by
  induction reachable with
  | start bare => exact .start bare
  | step before marked ended ih => exact (before.kept.step marked ended).2.reachable ih

/-- In every tree that operations lead to, the nodes of the dag have the numbers from 1 to the size of the dag, and
each has a larger number than its parents. -/
theorem Reachable.nSequenceId_perm (reachable : tree.Reachable k) :
    (tree.dagNodes.map tree.nSequenceId).Perm (List.range' 1 tree.dagNodes.length) ∧
      ∀ node ∈ tree.dagNodes, ∀ parent ∈ (tree.heap node).setAncestors,
        parent ∈ tree.dagNodes ∧ tree.nSequenceId parent < tree.nSequenceId node := by
  obtain ⟨sound, ordered, -, -⟩ := reachable.kept
  refine ⟨?_, fun node listed parent above => ⟨?_, ?_⟩⟩
  · rw [length_dagNodes]
    exact ordered.dense
  · exact (mem_dagNodes sound).mpr (sound.links.linked above).1
  · exact ordered.parents_lt ((mem_dagNodes sound).mp listed) above

def sampleSubblocks : DagHeap
  | 0 => { hash := 1, subblock := some { hash := 1, prevHashes := {9}, hashPrevBlock := 9 } }
  | 1 => { hash := 2, subblock := some { hash := 2, prevHashes := {1}, hashPrevBlock := 9 } }
  | 2 => { hash := 3, subblock := some { hash := 3, prevHashes := {9}, hashPrevBlock := 9 } }
  | 3 => { hash := 4, fUncle := true, subblock := some { hash := 4, prevHashes := {8}, hashPrevBlock := 8 } }
  | _ => {}

def sampleTreeContext : TreeContext Unit where
  chainTip := ⟨9, 5⟩
  lookupBlockIndex _ := some ⟨9, 5⟩
  coinsSummaryRoot _ := none
  clear := id
  connectDagTransactions _ view := some (none, view)

def sampleTreeOps : List (TailstormOp Unit) :=
  [.insert sampleTreeContext 0, .insert sampleTreeContext 2, .addUncles [3], .remove 3, .insert sampleTreeContext 1,
    .regenerate sampleTreeContext]

def sampleTree : Option (TailstormTree Unit) :=
  sampleTreeOps.foldlM (fun tree op => if op.Marked tree.heap then tree.step sampleK 8 op else none)
    { heap := sampleSubblocks, view := () }

theorem reachable_sampleTree {tree : TailstormTree Unit} (ran : sampleTree = some tree) : tree.Reachable sampleK := by
  have bare : ∀ node, (sampleSubblocks node).setAncestors = ∅ ∧ (sampleSubblocks node).setDescendants = ∅ := by
    intro node
    unfold sampleSubblocks
    split <;> exact ⟨rfl, rfl⟩
  refine foldlM_option_inv _ (fun _ reachable ended => ?_) (.start bare) ran
  split_ifs at ended with marked
  exact reachable.step marked ended

theorem sampleTree_eq : sampleTree.map TailstormTree.dagNodes = some [0, 1] := by decide +kernel

theorem Reachable.nSequenceId_perm_sampleTree :
    ∃ tree, sampleTree = some tree ∧ tree.dagNodes = [0, 1] ∧ [tree.nSequenceId 0, tree.nSequenceId 1].Perm [1, 2] := by
  obtain ⟨tree, ran, nodes⟩ := Option.map_eq_some_iff.mp sampleTree_eq
  have numbers := (Reachable.nSequenceId_perm (reachable_sampleTree ran)).1
  rw [nodes] at numbers
  exact ⟨tree, ran, nodes, numbers⟩

/-! ## The best dag -/

theorem pushUntilFull_eq {n : ℕ} {dag : List CTreeNodeRef} (nodes : List CTreeNodeRef) (room : dag.length < n) :
    pushUntilFull n dag nodes = dag ++ nodes.take (n - dag.length) := by
  induction nodes generalizing dag with
  | nil => rw [pushUntilFull, take_nil, append_nil]
  | cons node nodes ih =>
    have size : (dag ++ [node]).length = dag.length + 1 := length_append
    rw [pushUntilFull]
    split_ifs with full
    · have one : n - dag.length = 1 := by omega
      rw [one, take_one, head?_cons, Option.toList_some]
    · rw [ih (by omega), append_assoc, singleton_append, ← take_succ_cons]
      congr 2
      omega

/-- The uncles, then the processed subblocks. -/
def candidates (tree : TailstormTree ν) : List CTreeNodeRef :=
  inKeyOrder tree.mapUncles ++ tree.sortedDag.filter tree.fProcessed

theorem snd_getBestDag (tree : TailstormTree ν) : (tree.getBestDag k).2 = tree.candidates.take (k.val - 1) := by
  have places : 0 < k.val - 1 := Nat.sub_pos_of_lt k.property
  rw [getBestDag, candidates]
  dsimp only
  split_ifs with empty room
  · have dag : tree.sortedDag = [] := by rw [sortedDag, empty.1, length_nil, range_zero, filterMap_nil]
    have uncles : inKeyOrder tree.mapUncles = [] := by
      rw [← length_eq_zero_iff, length_inKeyOrder, empty.2, length_nil]
    rw [dag, uncles, filter_nil, append_nil, take_nil]
  · rw [pushUntilFull_eq _ room]
    rw [pushUntilFull_eq _ places, nil_append, length_nil, Nat.sub_zero] at room ⊢
    rw [length_take] at room ⊢
    rw [take_append, min_eq_right (by omega)]
  · rw [pushUntilFull_eq _ places, nil_append, length_nil, Nat.sub_zero] at room ⊢
    rw [length_take] at room
    rw [take_append_of_le_length (by omega)]

section Candidates

variable (kept : tree.Kept)

include kept

variable {node : CTreeNodeRef}

theorem Kept.isUncle_of_mem_mapUncles (listed : node ∈ inKeyOrder tree.mapUncles) : tree.heap.isUncle node = true := by
  obtain ⟨hash, found⟩ := (mem_inKeyOrder tree.mapUncles).mp listed
  exact (kept.flagged.uncle found).2

theorem Kept.mem_sortedDag_iff : node ∈ tree.sortedDag ↔ tree.Linked node :=
  kept.ordered.mem_sortedDag.trans (mem_dagNodes kept.sound)

theorem Kept.isUncle_of_mem_sortedDag (listed : node ∈ tree.sortedDag) :
    tree.heap.isUncle node = false := kept.flagged.regular (kept.mem_sortedDag_iff.mp listed)

/-- Behind a node that is no uncle there are no uncles, and only nodes with larger numbers. -/
theorem Kept.candidates_pairwise : tree.candidates.Pairwise fun a b =>
    tree.heap.isUncle a = false → tree.heap.isUncle b = false ∧ tree.nSequenceId a < tree.nSequenceId b := by
  have numbers := (Ordered.sortedDag_pairwise tree).filter fun node => tree.fProcessed node
  refine pairwise_append.mpr ⟨pairwise_of_forall_mem_list fun a listed b _ regular => ?_,
    numbers.imp_of_mem fun {a b} _ listed less _ => ⟨?_, less⟩, fun a listed b _ regular => ?_⟩
  · cases (kept.isUncle_of_mem_mapUncles listed).symm.trans regular
  · exact kept.isUncle_of_mem_sortedDag (mem_of_mem_filter listed)
  · cases (kept.isUncle_of_mem_mapUncles listed).symm.trans regular

theorem Kept.candidates_nodup : tree.candidates.Nodup := by
  have uncles : (inKeyOrder tree.mapUncles).Nodup :=
    (nodup_map_inKeyOrder tree.mapUncles fun found => (kept.flagged.uncle found).1).of_map
  refine nodup_append.mpr ⟨uncles, (Ordered.sortedDag_nodup tree).filter _, fun a uncle b listed same => ?_⟩
  have regular := kept.isUncle_of_mem_sortedDag (mem_of_mem_filter listed)
  cases (kept.isUncle_of_mem_mapUncles uncle).symm.trans (same ▸ regular)

/-- The ancestors of a processed subblock are processed and have lower numbers. -/
theorem Kept.processed_ancestor {ancestor : CTreeNodeRef}
    (path : Relation.TransGen (IsParent tree.heap.parents) ancestor node) (flag : tree.fProcessed node = true) :
    tree.Linked ancestor ∧ tree.fProcessed ancestor = true ∧ tree.nSequenceId ancestor < tree.nSequenceId node := by
  induction path with
  | single above =>
    obtain ⟨linkedParent, linked⟩ := kept.sound.links.linked above
    exact ⟨linkedParent, kept.processed _ _ linked above flag, kept.ordered.parents_lt linked above⟩
  | tail _ above ih =>
    have linked := (kept.sound.links.linked above).2
    obtain ⟨linkedAncestor, processed, less⟩ := ih (kept.processed _ _ linked above flag)
    exact ⟨linkedAncestor, processed, less.trans (kept.ordered.parents_lt linked above)⟩

theorem Kept.ancestor_mem {placed rest : List CTreeNodeRef} {ancestor : CTreeNodeRef}
    (split : tree.candidates = placed ++ node :: rest) (regular : tree.heap.isUncle node = false)
    (path : Relation.TransGen (IsParent tree.heap.parents) ancestor node) : ancestor ∈ placed := by
  have listed : node ∈ tree.candidates := split ▸ mem_append_right placed mem_cons_self
  have processed : node ∈ tree.sortedDag.filter tree.fProcessed := by
    refine (mem_append.mp listed).resolve_left fun uncle => ?_
    cases (kept.isUncle_of_mem_mapUncles uncle).symm.trans regular
  obtain ⟨linked, flag, less⟩ := kept.processed_ancestor path (of_mem_filter processed)
  have candidate : ancestor ∈ tree.candidates :=
    mem_append_right _ (mem_filter.mpr ⟨kept.mem_sortedDag_iff.mpr linked, flag⟩)
  -- what stands behind the node has a larger number
  have behind := (pairwise_append.mp (split ▸ kept.candidates_pairwise)).2.1
  rw [split] at candidate
  rcases mem_append.mp candidate with before | after
  · exact before
  rcases mem_cons.mp after with rfl | after
  · exact absurd less (lt_irrefl _)
  · exact absurd ((pairwise_cons.mp behind).1 ancestor after regular).2 less.asymm

end Candidates

end TailstormTree

/-- In every grove of a forest, `GetBestDag` returns at most `tailstorm_k - 1` nodes without repetition, the uncles
first, and every other node behind all its ancestors. -/
theorem CTailstormForest.Reachable.getBestDag_spec {memory : NodeMemory} {forest : CTailstormForest ν}
    {grove : GroveRef}
    {tree : TailstormTree ν} (reachable : forest.Reachable memory k) (live : forest.HasGrove grove)
    (own : (forest.groves grove).tree = tree) :
    (tree.getBestDag k).2.length ≤ k.val - 1 ∧ (tree.getBestDag k).2.Nodup ∧
      (tree.getBestDag k).2.Pairwise (fun a b => tree.heap.isUncle b = true → tree.heap.isUncle a = true) ∧
      ∀ placed node rest, (tree.getBestDag k).2 = placed ++ node :: rest → tree.heap.isUncle node = false →
        ∀ ancestor, Relation.TransGen (IsParent tree.heap.parents) ancestor node → ancestor ∈ placed := by
  have kept : tree.Kept := own ▸ (reachable.consistent.groves live).tree
  rw [TailstormTree.snd_getBestDag]
  refine ⟨length_take_le _ _, kept.candidates_nodup.take, ?_, fun placed node rest split regular ancestor path => ?_⟩
  · refine kept.candidates_pairwise.take.imp fun {a b} behind uncle => ?_
    by_contra regular
    cases uncle.symm.trans (behind (Bool.not_eq_true _ ▸ regular)).1
  · have whole : tree.candidates = placed ++ node :: (rest ++ tree.candidates.drop (k.val - 1)) := by
      rw [← cons_append, ← append_assoc, ← split, take_append_drop]
    exact kept.ancestor_mem whole regular path

def CTailstormForest.sampleGrown : Option (CTailstormForest Unit) := do
  let forest ← sampleForest 6 fun forest op => op.Careful forest
  let op : ForestOp Unit (sampleMemory 6) := .insert (sampleForestContext 6 true) 2
  if op.Careful forest then forest.step TailstormTree.sampleK 8 op else none

theorem CTailstormForest.sampleGrown_eq : sampleGrown.map (fun forest => (inKeyOrder forest.mapAllGrovesByNode,
    ((forest.groves 1).tree.getBestDag ⟨4, by decide⟩).2, (forest.groves 1).tree.heap.isUncle 2,
    decide (0 ∈ (forest.groves 1).tree.heap.parents 2))) = some ([1, 1, 1], [0, 2, 1], false, true) := by decide +kernel

theorem CTailstormForest.Reachable.getBestDag_spec_sampleForest : ∃ forest, sampleGrown = some forest ∧
      ((forest.groves 1).tree.getBestDag ⟨4, by decide⟩).2 = [0] ++ 2 :: [1] ∧
      ([0] ++ 2 :: [1]).length ≤ 4 - 1 ∧ ([0] ++ 2 :: [1]).Nodup ∧
      IsParent (forest.groves 1).tree.heap.parents 0 2 ∧ 0 ∈ [0] := by
  obtain ⟨forest, ran, facts⟩ := Option.map_eq_some_iff.mp sampleGrown_eq
  simp only [Prod.mk.injEq, decide_eq_true_eq] at facts
  obtain ⟨groves, best, regular, parent⟩ := facts
  have listed : 1 ∈ inKeyOrder forest.mapAllGrovesByNode := by simp [groves]
  obtain ⟨before, ranBefore, ended⟩ := Option.bind_eq_some_iff.mp ran
  dsimp only at ended
  split_ifs at ended with careful
  have reachable := (reachable_sampleForest ranBefore).step careful ended
  obtain ⟨length, nodup, -, ancestors⟩ := Reachable.getBestDag_spec reachable ((mem_inKeyOrder _).mp listed) rfl
  have before := ancestors [0] 2 [1] best regular 0 (.single parent)
  rw [best] at length nodup
  exact ⟨forest, ran, best, length, nodup, parent, before⟩

/-- In every forest that operations lead to, no linked subblock competes with its own ancestry, and its ancestors are
linked and have lower numbers, so that none is above itself. -/
theorem CTailstormForest.Reachable.ancestry_spec {memory : NodeMemory} {forest : CTailstormForest ν} {grove : GroveRef}
    {tree : TailstormTree ν} (reachable : forest.Reachable memory k) (live : forest.HasGrove grove)
    (own : (forest.groves grove).tree = tree) :
    (∀ node, tree.Linked node → ¬ tree.heap.OwnDoubleSpend node) ∧
      ∀ node ancestor, Relation.TransGen (IsParent tree.heap.parents) ancestor node →
        tree.Linked ancestor ∧ tree.nSequenceId ancestor < tree.nSequenceId node := by
  have kept : tree.Kept := own ▸ (reachable.consistent.groves live).tree
  refine ⟨fun _ linked => kept.sound.clean linked, fun node ancestor path => ?_⟩
  induction path with
  | single above =>
    obtain ⟨linkedAncestor, linked⟩ := kept.sound.links.linked above
    exact ⟨linkedAncestor, kept.ordered.parents_lt linked above⟩
  | tail _ above ih =>
    exact ⟨ih.1, ih.2.trans (kept.ordered.parents_lt (kept.sound.links.linked above).2 above)⟩

theorem CTailstormForest.Reachable.ancestry_spec_sampleForest :
    ∃ forest, sampleForest 6 (fun forest op => op.Careful forest) = some forest ∧ forest.HasGrove 1 ∧
      ∀ node, (forest.groves 1).tree.Linked node → ¬ (forest.groves 1).tree.heap.OwnDoubleSpend node := by
  obtain ⟨forest, ran, facts⟩ := Option.map_eq_some_iff.mp sampleForest_eq
  simp only [Prod.mk.injEq] at facts
  obtain ⟨-, groves, -⟩ := facts
  have listed : 1 ∈ inKeyOrder forest.mapAllGrovesByNode := by simp [groves]
  have live : forest.HasGrove 1 := (mem_inKeyOrder _).mp listed
  exact ⟨forest, ran, live, (Reachable.ancestry_spec (reachable_sampleForest ran) live rfl).1⟩

end Nexa
