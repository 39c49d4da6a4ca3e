import Nexa.Proofs.ForestOrphans

/-! # Runs of the forest

Over any sequence of operations that prune whole groves, every node of the forest is in exactly one grove
or an orphan. `ClearByHeight` goes by the heights that subblocks state. It clears the grove that a pruned
subblock builds on, and an orphan with a wrong height takes away the nodes of a grove that stays.
-/

namespace Nexa.CTailstormForest

open List AList

variable {ν : Type} {memory : NodeMemory} {k : TailstormK} {ctx : ForestContext ν memory} {rounds : ℕ}
  {forest next : CTailstormForest ν} {grove : GroveRef} {node : CTreeNodeRef} {hash : Uint256}

/-! ## Removal -/

theorem Consistent.settle_of_notMem {after : TailstormTree ν} (consistent : forest.Consistent memory ∅ ∅)
    (live : forest.HasGrove grove) (free : forest.mapAllGrovesByNode.lookup hash = none)
    (facts : after.Kept ∧ after.toTreeState = (forest.groves grove).tree.toTreeState ∧
      after.expunged = ((forest.groves grove).tree.heap node).hash :: (forest.groves grove).tree.expunged)
    (sameHash : ((forest.groves grove).tree.heap node).hash = hash) :
    ((forest.setTree grove after).eraseExpunged grove).Consistent memory ∅ ∅ := by
  obtain ⟨kept, sameTree, record⟩ := facts
  have before := consistent.groves live
  have sameHeap := congrArg TreeState.heap sameTree
  have sameDag := congrArg TreeState.dag sameTree
  rw [sameHash, before.clean] at record
  refine consistent.settleTree ?_ ?_ nofun
  · obtain ⟨sound, ordered, processed, flagged⟩ := kept
    refine ⟨⟨sound, ⟨ordered.dense, ordered.parents_lt⟩, processed, flagged.uncle, flagged.regular⟩, fun other => ?_,
      fun other => ?_, fun other => ?_, rfl⟩
    · rw [record, lookup_eraseAll, before.nodes, sameDag]
      split_ifs with self
      · rw [mem_singleton.mp self, lookup_eq_none.mpr (consistent.notMem_dag live free)]
      · rfl
    · rw [sameHeap]
      exact before.same other
    · rw [sameHeap, before.fUncle]
  · rw [record]
    intro other listed owner found
    rw [mem_singleton.mp listed] at found
    cases free.symm.trans found

theorem Consistent.remove {removed : Bool} (consistent : forest.Consistent memory ∅ ∅)
    (ended : forest.remove rounds hash = some (removed, next)) : next.Consistent memory ∅ ∅ := by
  rw [CTailstormForest.remove] at ended
  split at ended
  · next node grove known found =>
    obtain ⟨left, taken, ended⟩ := Option.bind_eq_some_iff.mp ended
    obtain ⟨after, renumbered, ⟨⟩⟩ := Option.bind_eq_some_iff.mp ended
    have live := hasGrove_of_getGrove found
    have kept := consistent.groves live
    have sameHash := (kept.same node).1.trans (consistent.accounted.keyed known)
    by_cases listed : hash ∈ (forest.groves grove).tree.dag
    · have linked : (forest.groves grove).tree.Linked node := by
        obtain ⟨member, inDag⟩ := Option.isSome_iff_exists.mp (lookup_isSome.mpr listed)
        obtain ⟨value, inGrove, read⟩ := consistent.accounted.owned (consistent.owner_of_mem_dag live listed)
        have same : member = node := by
          have inGrove : (forest.groves grove).mapGroveNodes.lookup hash = some value := inGrove
          rw [kept.nodes, inDag] at inGrove
          exact (Option.some.inj inGrove).trans (Option.some.inj (read.symm.trans known))
        rw [TreeState.Linked, sameHash, inDag, same]
      exact consistent.settle live (kept.tree.settles_removeFromGrove linked taken renumbered)
    · -- an orphan under the hash of a root
      have free : forest.mapAllGrovesByNode.lookup hash = none := by
        refine Option.eq_none_iff_forall_ne_some.mpr fun owner owned => listed ?_
        obtain rfl := Option.some.inj ((getGrove_of_lookup owned).symm.trans found)
        obtain ⟨value, inGrove, -⟩ := consistent.accounted.owned owned
        exact lookup_isSome.mp (Option.isSome_of_eq_some ((kept.nodes hash).symm.trans inGrove))
      exact consistent.settle_of_notMem live free
        (kept.tree.kept_removeFromGrove_of_notMem (sameHash.symm ▸ listed) taken renumbered) sameHash
  · cases ended
    exact consistent

/-! ## Pruning -/

/-- The grove is the node's own, or `GetGrove` may find it for the summary block that the node builds on. -/
def Touches (memory : NodeMemory) (forest : CTailstormForest ν) (node : CTreeNodeRef) (grove : GroveRef) : Prop :=
  forest.mapAllGrovesByNode.lookup (memory.heap node).hash = some grove ∨
    forest.mapAllGrovesByNode.lookup (hashPrevBlock memory node) = some grove ∨
    (forest.groves grove).roothash = hashPrevBlock memory node

instance (forest : CTailstormForest ν) (node : CTreeNodeRef) (grove : GroveRef) :
    Decidable (forest.Touches memory node grove) :=
  inferInstanceAs (Decidable (_ ∨ _ ∨ _))

/-- Every grove that a pruned node touches has only nodes that are pruned. -/
def PrunesWhole (memory : NodeMemory) (forest : CTailstormForest ν) (nPruneHeight : ℕ) : Prop :=
  ∀ node ∈ inKeyOrder forest.mapAllNodes, isPruned memory nPruneHeight node →
    ∀ grove ∈ inKeyOrder forest.mapAllGrovesByNode, forest.Touches memory node grove →
      ∀ member ∈ inKeyOrder (forest.groves grove).mapGroveNodes, isPruned memory nPruneHeight member

instance (forest : CTailstormForest ν) (nPruneHeight : ℕ) : Decidable (forest.PrunesWhole memory nPruneHeight) :=
  inferInstanceAs (Decidable (∀ node ∈ _, _ → ∀ grove ∈ _, _ → ∀ member ∈ _, _))

/-- The forest without the nodes that are gone. Other groves than those that a pruned node touches are unchanged. -/
structure Pruned (memory : NodeMemory) (nPruneHeight : ℕ) (forest : CTailstormForest ν) (gone : List Uint256)
    (next : CTailstormForest ν) : Prop where
  all : ∀ hash, next.mapAllNodes.lookup hash = if hash ∈ gone then none else forest.mapAllNodes.lookup hash
  owner : ∀ hash, next.mapAllGrovesByNode.lookup hash =
    if hash ∈ gone then none else forest.mapAllGrovesByNode.lookup hash
  loose : ∀ hash, next.mapNodesUnlinked.lookup hash = if hash ∈ gone then none else forest.mapNodesUnlinked.lookup hash
  roothash : ∀ grove, (next.groves grove).roothash = (forest.groves grove).roothash
  groves : ∀ grove, next.groves grove = forest.groves grove ∨
    ∃ hash node, forest.mapAllNodes.lookup hash = some node ∧ isPruned memory nPruneHeight node ∧
      forest.Touches memory node grove

theorem Pruned.refl (memory : NodeMemory) (nPruneHeight : ℕ) (forest : CTailstormForest ν) :
    forest.Pruned memory nPruneHeight [] forest :=
  ⟨fun _ => rfl, fun _ => rfl, fun _ => rfl, fun _ => rfl, fun _ => .inl rfl⟩

section Pruned

variable {nPruneHeight : ℕ} {gone : List Uint256}

section

variable (pruned : forest.Pruned memory nPruneHeight gone next)

include pruned

theorem Pruned.lookup_owner (found : next.mapAllGrovesByNode.lookup hash = some grove) :
    forest.mapAllGrovesByNode.lookup hash = some grove := by
  rw [pruned.owner] at found
  split_ifs at found
  exact found

theorem Pruned.setGrove {changed : CTailstormGrove ν} (known : forest.mapAllNodes.lookup hash = some node)
    (low : isPruned memory nPruneHeight node) (touches : forest.Touches memory node grove)
    (root : changed.roothash = (next.groves grove).roothash) :
    forest.Pruned memory nPruneHeight gone (next.setGrove grove changed) := by
  refine ⟨pruned.all, pruned.owner, pruned.loose, fun other => ?_, fun other => ?_⟩
  · by_cases self : other = grove
    · rw [self, groves_setGrove_self, root, pruned.roothash]
    · rw [groves_setGrove_of_ne self, pruned.roothash]
  · by_cases self : other = grove
    · exact .inr ⟨hash, node, known, low, self ▸ touches⟩
    · rw [groves_setGrove_of_ne self]
      exact pruned.groves other

end

theorem lookup_erase_concat {α : Type} {before after : AList fun _ : Uint256 => α}
    (same : ∀ hash, after.lookup hash = if hash ∈ gone then none else before.lookup hash) (last hash : Uint256) :
    (after.erase last).lookup hash = if hash ∈ gone ++ [last] then none else before.lookup hash := by
  rw [lookup_erase_eq_ite, same]
  by_cases self : hash = last <;> simp [self]

theorem Pruned.pruneNode (pruned : forest.Pruned memory nPruneHeight gone next)
    (known : forest.mapAllNodes.lookup hash = some node) (sameHash : (memory.heap node).hash = hash)
    (low : isPruned memory nPruneHeight node) :
    forest.Pruned memory nPruneHeight (gone ++ [hash]) (next.pruneNode memory hash node) := by
  have cleared : forest.Pruned memory nPruneHeight gone
      (((next.getGrove (hashPrevBlock memory node)).map next.clearGrove).getD next) := by
    cases found : next.getGrove (hashPrevBlock memory node) with
    | none => exact pruned
    | some grove =>
      refine pruned.setGrove known low ?_ rfl
      rw [getGrove] at found
      split at found
      · next owner owned => exact .inr (.inl (pruned.lookup_owner (Option.some.inj found ▸ owned)))
      · have root := find?_some found
        rw [decide_eq_true_eq] at root
        exact .inr (.inr ((pruned.roothash grove).symm.trans root.1.symm))
  have unlinked : forest.Pruned memory nPruneHeight gone
      ((((next.getGrove (hashPrevBlock memory node)).map next.clearGrove).getD next).clearLinks hash node) := by
    rw [clearLinks]
    split
    · exact cleared
    · next grove owned => exact cleared.setGrove known low (.inl (sameHash ▸ cleared.lookup_owner owned)) rfl
  exact ⟨lookup_erase_concat unlinked.all hash, lookup_erase_concat unlinked.owner hash,
    lookup_erase_concat unlinked.loose hash, unlinked.roothash, unlinked.groves⟩

theorem Pruned.foldl {entries : List (Σ _ : Uint256, CTreeNodeRef)}
    (pruned : forest.Pruned memory nPruneHeight gone next)
    (known : ∀ entry ∈ entries, forest.mapAllNodes.lookup entry.1 = some entry.2 ∧
      (memory.heap entry.2).hash = entry.1) :
    forest.Pruned memory nPruneHeight
      (gone ++ (entries.filter fun entry => isPruned memory nPruneHeight entry.2).map Sigma.fst)
      (entries.foldl (fun forest entry =>
        if isPruned memory nPruneHeight entry.2 then forest.pruneNode memory entry.1 entry.2 else forest) next) := by
  induction entries generalizing gone next with
  | nil =>
    rw [filter_nil, map_nil, append_nil]
    exact pruned
  | cons entry entries ih =>
    obtain ⟨⟨found, sameHash⟩, others⟩ := forall_mem_cons.mp known
    rw [foldl_cons, filter_cons]
    split_ifs with low
    · have rest := ih (pruned.pruneNode found sameHash low) others
      rwa [append_assoc] at rest
    · exact ih pruned others

section

variable (consistent : forest.Consistent memory ∅ ∅) (whole : forest.PrunesWhole memory nPruneHeight)
include consistent whole

theorem Consistent.of_pruned (pruned : forest.Pruned memory nPruneHeight gone next)
    (low : ∀ hash, hash ∈ gone ↔ ∃ node, forest.mapAllNodes.lookup hash = some node ∧
      isPruned memory nPruneHeight node) :
    next.Consistent memory ∅ ∅ := by
  -- no pruned node touches a grove with a node that stays
  have stays {hash : Uint256} {grove : GroveRef} (owned : forest.mapAllGrovesByNode.lookup hash = some grove)
      (outside : hash ∉ gone) {node : CTreeNodeRef} {other : Uint256}
      (known : forest.mapAllNodes.lookup other = some node) (prunes : isPruned memory nPruneHeight node)
      (touches : forest.Touches memory node grove) : False := by
    obtain ⟨member, inGrove, read⟩ := consistent.accounted.owned owned
    refine outside ((low hash).mpr ⟨member, read, ?_⟩)
    exact whole node ((mem_inKeyOrder _).mpr ⟨other, known⟩) prunes grove ((mem_inKeyOrder _).mpr ⟨hash, owned⟩) touches
      member ((mem_inKeyOrder _).mpr ⟨hash, inGrove⟩)
  have same {hash : Uint256} {grove : GroveRef} (owned : forest.mapAllGrovesByNode.lookup hash = some grove)
      (outside : hash ∉ gone) : next.groves grove = forest.groves grove := by
    refine (pruned.groves grove).resolve_right ?_
    rintro ⟨other, node, known, prunes, touches⟩
    exact stays owned outside known prunes touches
  refine ⟨consistent.accounted.thin pruned.all pruned.owner pruned.loose (fun {hash grove} owned outside other => ?_)
    nofun, fun {grove} live => ?_, fun {hash node} found => ?_⟩
  · change (next.groves grove).mapGroveNodes.lookup other =
      if other ∈ gone then none else (forest.groves grove).mapGroveNodes.lookup other
    rw [same owned outside]
    split_ifs with doomed
    · refine Option.eq_none_iff_forall_ne_some.mpr fun member inGrove => ?_
      have ownedToo : forest.mapAllGrovesByNode.lookup other = some grove :=
        consistent.accounted.member ⟨hash, owned⟩ inGrove
      obtain ⟨node, known, prunes⟩ := (low other).mp doomed
      have sameHash : (memory.heap node).hash = other := consistent.accounted.keyed known
      exact stays owned outside known prunes (.inl (sameHash ▸ ownedToo))
    · rfl
  · obtain ⟨hash, found⟩ := live
    have owned := pruned.lookup_owner found
    have outside : hash ∉ gone := by
      intro doomed
      have erased := pruned.owner hash
      rw [if_pos doomed] at erased
      cases erased.symm.trans found
    rw [same owned outside]
    exact consistent.groves ⟨hash, owned⟩
  · rw [pruned.all] at found
    split_ifs at found
    exact consistent.regular found

theorem Consistent.clearByHeight : (forest.clearByHeight memory nPruneHeight).Consistent memory ∅ ∅ := by
  have sorted := perm_insertionSort (fun x y => x.1 ≤ y.1) forest.mapAllNodes.entries
  have known {entry : Σ _ : Uint256, CTreeNodeRef} :
      entry ∈ forest.mapAllNodes.entries.insertionSort (fun x y => x.1 ≤ y.1) ↔
        forest.mapAllNodes.lookup entry.1 = some entry.2 :=
    sorted.mem_iff.trans mem_lookup_iff.symm
  have pruned := (Pruned.refl memory nPruneHeight forest).foldl fun entry listed =>
    ⟨known.mp listed, consistent.accounted.keyed (known.mp listed)⟩
  refine consistent.of_pruned whole pruned fun hash => ?_
  rw [nil_append, mem_map]
  constructor
  · rintro ⟨entry, listed, rfl⟩
    obtain ⟨listed, low⟩ := mem_filter.mp listed
    exact ⟨entry.2, known.mp listed, low⟩
  · rintro ⟨node, found, low⟩
    exact ⟨⟨hash, node⟩, mem_filter.mpr ⟨known.mpr found, low⟩, rfl⟩

end

end Pruned

/-! ## Runs -/

end Nexa.CTailstormForest

namespace Nexa

variable {ν : Type} {memory : NodeMemory} {k : TailstormK} {forest next : CTailstormForest ν}

/-- A subblock is inserted under the node that was made for it, `AddSubblockOrphan` is called for a node of the
forest, and `ClearByHeight` prunes whole groves. -/
def ForestOp.Careful (forest : CTailstormForest ν) : ForestOp ν memory → Prop
  | .insert _ newNode => (memory.heap newNode).fUncle = false
  | .addSubblockOrphan newNode => forest.mapAllNodes.lookup (memory.heap newNode).hash = some newNode
  | .processOrphans _ => True
  | .orphanRound _ => True
  | .remove _ => True
  | .clearByHeight nPruneHeight => forest.PrunesWhole memory nPruneHeight
  | .reconsiderDag _ => True

instance (forest : CTailstormForest ν) : (op : ForestOp ν memory) → Decidable (op.Careful forest)
  | .insert _ newNode => inferInstanceAs (Decidable ((memory.heap newNode).fUncle = false))
  | .addSubblockOrphan newNode =>
    inferInstanceAs (Decidable (forest.mapAllNodes.lookup (memory.heap newNode).hash = some newNode))
  | .processOrphans _ => .isTrue trivial
  | .orphanRound _ => .isTrue trivial
  | .remove _ => .isTrue trivial
  | .clearByHeight nPruneHeight => inferInstanceAs (Decidable (forest.PrunesWhole memory nPruneHeight))
  | .reconsiderDag _ => .isTrue trivial

def TailstormTree.sampleK : TailstormK := ⟨4, by decide⟩

namespace CTailstormForest

theorem Consistent.step {rounds : ℕ} {op : ForestOp ν memory} (consistent : forest.Consistent memory ∅ ∅)
    (careful : op.Careful forest) (ended : forest.step k rounds op = some next) : next.Consistent memory ∅ ∅ := by
  cases op with
  | insert ctx newNode =>
    obtain ⟨⟨added, _⟩, inserted, rfl⟩ := Option.map_eq_some_iff.mp ended
    have consistent := consistent.insert careful inserted
    rwa [Set.empty_sdiff, Bool.cond_self] at consistent
  | addSubblockOrphan newNode =>
    obtain rfl := Option.some.inj ended
    exact (consistent.addSubblockOrphan careful).1
  | processOrphans ctx =>
    obtain ⟨⟨linked, _⟩, processed, rfl⟩ := Option.map_eq_some_iff.mp ended
    exact consistent.processOrphans processed
  | orphanRound ctx =>
    obtain ⟨⟨linked, _⟩, processed, rfl⟩ := Option.map_eq_some_iff.mp ended
    exact consistent.orphanRound processed
  | remove hash =>
    obtain ⟨⟨removed, _⟩, taken, rfl⟩ := Option.map_eq_some_iff.mp ended
    exact consistent.remove taken
  | clearByHeight nPruneHeight =>
    obtain rfl := Option.some.inj ended
    exact consistent.clearByHeight careful
  | reconsiderDag ctx =>
    rw [CTailstormForest.step] at ended
    split at ended
    · exact Option.some.inj ended ▸ consistent
    · next grove found => exact (consistent.reGenerateDagData (hasGrove_of_getGrove found) ended).1

/-- The forests that careful operations lead to, from one without nodes. -/
inductive Reachable (memory : NodeMemory) (k : TailstormK) : CTailstormForest ν → Prop where
  | start (groves : GroveRef → CTailstormGrove ν) : Reachable memory k { groves }
  | step {forest next : CTailstormForest ν} {rounds : ℕ} {op : ForestOp ν memory} (before : Reachable memory k forest)
    (careful : op.Careful forest) (ended : forest.step k rounds op = some next) : Reachable memory k next

theorem Reachable.consistent (reachable : forest.Reachable memory k) : forest.Consistent memory ∅ ∅ := by
  induction reachable with
  | start groves =>
    refine ⟨⟨nofun, nofun, ?_, nofun, nofun, nofun, nofun, nofun, nofun⟩, ?_, nofun⟩
    · rintro hash grove node ⟨_, found⟩
      cases found
    · rintro grove ⟨_, found⟩
      cases found
  | step _ careful ended ih => exact ih.step careful ended

/-- `mapAllNodes` is the disjoint union of the nodes of all groves and the orphans, and `mapAllGrovesByNode` takes
exactly the nodes of the groves to theirs. -/
structure Partitioned (forest : CTailstormForest ν) : Prop where
  nodes : ∀ hash node, forest.mapAllNodes.lookup hash = some node ↔
    (∃ grove, forest.HasGrove grove ∧ (forest.groves grove).mapGroveNodes.lookup hash = some node) ∨
      forest.mapNodesUnlinked.lookup hash = some node
  disjoint : ∀ hash grove, forest.HasGrove grove → hash ∈ (forest.groves grove).mapGroveNodes →
    hash ∉ forest.mapNodesUnlinked
  groves : ∀ hash grove, forest.mapAllGrovesByNode.lookup hash = some grove ↔
    forest.HasGrove grove ∧ hash ∈ (forest.groves grove).mapGroveNodes

theorem Consistent.groves_partition (consistent : forest.Consistent memory ∅ ∅) : forest.Partitioned := by
  have accounted := consistent.accounted
  refine ⟨fun hash node => ⟨fun known => ?_, ?_⟩, fun hash grove live listed parked => ?_, fun hash grove => ⟨?_, ?_⟩⟩
  · cases owned : forest.mapAllGrovesByNode.lookup hash with
    | some grove =>
      obtain ⟨member, inGrove, read⟩ := accounted.owned owned
      obtain rfl := Option.some.inj (read.symm.trans known)
      exact .inl ⟨grove, ⟨hash, owned⟩, inGrove⟩
    | none =>
      cases parked : forest.mapNodesUnlinked.lookup hash with
      | some orphan => exact .inr ((accounted.loose parked).symm.trans known)
      | none => exact absurd (accounted.covered known owned parked) (Set.notMem_empty node)
  · rintro (⟨grove, live, inGrove⟩ | parked)
    · obtain ⟨member, found, read⟩ := accounted.owned (accounted.member live inGrove)
      exact (Option.some.inj (found.symm.trans inGrove)) ▸ read
    · exact accounted.loose parked
  · obtain ⟨node, inGrove⟩ := Option.isSome_iff_exists.mp (AList.lookup_isSome.mpr listed)
    obtain ⟨orphan, parked⟩ := Option.isSome_iff_exists.mp (AList.lookup_isSome.mpr parked)
    exact Set.notMem_empty _ (accounted.apart parked (accounted.member live inGrove))
  · intro owned
    obtain ⟨node, inGrove, -⟩ := accounted.owned owned
    exact ⟨⟨hash, owned⟩, AList.lookup_isSome.mp (Option.isSome_of_eq_some inGrove)⟩
  · rintro ⟨live, listed⟩
    obtain ⟨node, inGrove⟩ := Option.isSome_iff_exists.mp (AList.lookup_isSome.mpr listed)
    exact accounted.member live inGrove

/-- In every forest that careful operations lead to, each node is in one grove or an orphan. -/
theorem Reachable.partitioned (reachable : forest.Reachable memory k) : forest.Partitioned :=
  reachable.consistent.groves_partition

variable (height : ℕ)

def sampleMemory : NodeMemory where
  heap
    | 0 => { hash := 1, subblock := some { hash := 1, prevHashes := {9}, hashPrevBlock := 9 } }
    | 1 => { hash := 2, subblock := some { hash := 2, prevHashes := {9}, hashPrevBlock := 9 } }
    | 2 => { hash := 3, subblock := some { hash := 3, prevHashes := {1}, hashPrevBlock := 9 } }
    | _ => {}
  height
    | 0 => height
    | _ => 6
  bare node := by
    split <;> exact ⟨rfl, rfl⟩

def sampleForestContext (known : Bool) : ForestContext Unit (sampleMemory height) where
  chainTip := ⟨9, 5⟩
  lookupBlockIndex _ := if known then some ⟨9, 5⟩ else none
  coinsSummaryRoot _ := none
  clear := id
  connectDagTransactions _ view := some (none, view)
  pprev _ := some ⟨8, 4⟩
  isLinked _ := true
  tailstormEnforceDepth := 2
  chainWorkFits _ _ := true
  newView := ()
  getUncles _ _ := []
  marked _ _ := nofun

def sampleForestOps : List (ForestOp Unit (sampleMemory height)) :=
  [.insert (sampleForestContext height false) 0, .insert (sampleForestContext height true) 1,
    .processOrphans (sampleForestContext height true), .clearByHeight 3]

def sampleMaps (forest : CTailstormForest Unit) : List Uint256 × List GroveRef × List (List Uint256) × List Uint256 :=
  (forest.mapAllNodes.keys, inKeyOrder forest.mapAllGrovesByNode,
    (inKeyOrder forest.mapAllGrovesByNode).map fun grove => (forest.groves grove).mapGroveNodes.keys,
    forest.mapNodesUnlinked.keys)

def sampleForest (allowed : CTailstormForest Unit → ForestOp Unit (sampleMemory height) → Bool) :
    Option (CTailstormForest Unit) :=
  (sampleForestOps height).foldlM (fun forest op => if allowed forest op then forest.step ⟨4, by decide⟩ 8 op else none)
    { groves := fun _ => { tree := { heap := (sampleMemory height).heap, view := () } } }

theorem reachable_sampleForest {forest : CTailstormForest Unit}
    (ran : sampleForest 6 (fun forest op => op.Careful forest) = some forest) :
    forest.Reachable (sampleMemory 6) ⟨4, by decide⟩ := by
  refine List.foldlM_option_inv _ (fun _ reachable ended => ?_) (.start _) ran
  split_ifs at ended with careful
  exact reachable.step (of_decide_eq_true careful) ended

theorem sampleForest_eq : (sampleForest 6 fun forest op => op.Careful forest).map
    (fun forest => (forest.mapAllNodes.keys, inKeyOrder forest.mapAllGrovesByNode,
      ((forest.groves 1).tree.getBestDag ⟨4, by decide⟩).2)) = some ([2, 1], [1, 1], [0, 1]) := by decide +kernel

theorem Reachable.partitioned_sampleForest :
    ∃ forest, sampleForest 6 (fun forest op => op.Careful forest) = some forest ∧
      forest.mapAllNodes.keys = [2, 1] ∧ forest.Partitioned := by
  obtain ⟨forest, ran, facts⟩ := Option.map_eq_some_iff.mp sampleForest_eq
  exact ⟨forest, ran, (Prod.mk.inj facts).1, Reachable.partitioned (reachable_sampleForest ran)⟩

/-- `ClearByHeight` prunes an orphan that states height 3, and the grove on its summary block loses its node with
height 6, which stays in `mapAllNodes` and in `mapAllGrovesByNode`. -/
theorem exists_not_partitioned :
    ∃ forest, sampleForest 3 (fun forest op => op matches .clearByHeight _ || op.Careful forest) = some forest ∧
      ¬ forest.Partitioned := by
  have ran : (sampleForest 3 fun forest op => op matches .clearByHeight _ || op.Careful forest).map sampleMaps =
      some ([2], [1], [[]], []) := by decide +kernel
  obtain ⟨forest, ran, maps⟩ := Option.map_eq_some_iff.mp ran
  simp only [sampleMaps, Prod.mk.injEq] at maps
  obtain ⟨nodes, groves, members, orphans⟩ := maps
  refine ⟨forest, ran, fun partitioned => ?_⟩
  have listed : (2 : Uint256) ∈ forest.mapAllNodes := by
    rw [AList.mem_keys, nodes]
    exact List.mem_singleton_self _
  obtain ⟨node, known⟩ := Option.isSome_iff_exists.mp (AList.lookup_isSome.mpr listed)
  rcases (partitioned.nodes 2 node).mp known with ⟨grove, ⟨hash, live⟩, inGrove⟩ | parked
  · have only : grove = 1 := List.mem_singleton.mp (groves ▸ (mem_inKeyOrder _).mpr ⟨hash, live⟩)
    rw [groves, List.map_singleton, List.singleton_inj] at members
    have inKeys := AList.mem_keys.mp (AList.lookup_isSome.mp (Option.isSome_of_eq_some inGrove))
    rw [only, members] at inKeys
    cases inKeys
  · have inKeys := AList.mem_keys.mp (AList.lookup_isSome.mp (Option.isSome_of_eq_some parked))
    rw [orphans] at inKeys
    cases inKeys

end CTailstormForest

end Nexa
