import Nexa.Model.Tailstorm.Grove

/-! # The index of spends

A scan of a subblock reports a conflict exactly if one of its transactions and another transaction,
of the same subblock or indexed for one of its ancestors, consume the same outpoint. The index holds
the spends of exactly those subblocks that are linked.
-/

namespace Nexa

open List AList

/-- The transactions of a node. -/
def DagHeap.txns (heap : DagHeap) (node : CTreeNodeRef) : List CTransaction :=
  ((heap node).subblock.map DagSubblock.vtx).getD []

/-- A transaction of the node with this id consumes the outpoint. -/
def DagHeap.Spends (heap : DagHeap) (node : CTreeNodeRef) (txid : Uint256) (outpoint : COutPoint) : Prop :=
  ∃ tx ∈ heap.txns node, tx.getId = txid ∧ outpoint ∈ consumedBy tx.vin

theorem consumedBy_of_isCoinBase {tx : CTransaction} (coinbase : tx.isCoinBase) : consumedBy tx.vin = [] := by
  rw [isEmpty_iff.mp coinbase]
  rfl

namespace CDagConflictRegistry

/-! ## A scan -/

section

variable (registry : CDagConflictRegistry) (setAncestors : Finset CTreeNodeRef) (newNode : CTreeNodeRef)

variable {spend : CDagSpend} {outpoint : COutPoint}

theorem hasConflict_scanTx (scan : ScanState) (tx : CTransaction) :
    (registry.scanTx setAncestors newNode scan tx).hasConflict ↔ scan.hasConflict ∨ ∃ outpoint ∈ consumedBy tx.vin,
        ∃ prior ∈ registry.spendIndex.values outpoint ++ scan.localSpends.values outpoint,
          competes setAncestors newNode tx.getId prior := by
  rw [scanTx]
  split_ifs with coinbase
  · simp [consumedBy_of_isCoinBase coinbase]
  · simp only [Bool.or_eq_true, any_eq_true]

variable (txs : List CTransaction)

theorem mem_localSpends_foldl :
    spend ∈ (txs.foldl (registry.scanTx setAncestors newNode) {}).localSpends.values outpoint ↔
      ∃ tx ∈ txs, outpoint ∈ consumedBy tx.vin ∧ spend = ⟨tx.getId, newNode⟩ := by
  induction txs using reverseRecOn with
  | nil => simp
  | append_singleton txs tx ih =>
    rw [foldl_append, foldl_cons, scanTx]
    split_ifs with coinbase
    · simp [ih, consumedBy_of_isCoinBase coinbase]
    · let spends : COutPoint → List CDagSpend := fun _ => [⟨tx.getId, newNode⟩]
      refine (MultiMap.mem_values_foldl_append id spends _ _).trans ?_
      simp [spends, ih]

/-- One of the transactions and another one, indexed for an ancestor or among themselves, consume the same outpoint. -/
def Conflicts : Prop := ∃ tx ∈ txs, ∃ outpoint ∈ consumedBy tx.vin,
    (∃ prior ∈ registry.spendIndex.values outpoint, competes setAncestors newNode tx.getId prior) ∨
      ∃ other ∈ txs, other.getId ≠ tx.getId ∧ outpoint ∈ consumedBy other.vin

theorem hasConflict_foldl : (txs.foldl (registry.scanTx setAncestors newNode) {}).hasConflict ↔
      registry.Conflicts setAncestors newNode txs := by
  induction txs using reverseRecOn with
  | nil => simp [Conflicts]
  | append_singleton txs tx ih =>
    rw [foldl_append, foldl_cons, foldl_nil, hasConflict_scanTx, ih]
    simp only [mem_append, mem_localSpends_foldl, Conflicts]
    constructor
    · rintro (⟨first, listed, outpoint, consumed, found⟩ | ⟨outpoint, consumed, prior, listed | local', competing⟩)
      · refine ⟨first, .inl listed, outpoint, consumed, found.imp_right ?_⟩
        exact .imp fun _ => .imp_left .inl
      · exact ⟨tx, .inr mem_cons_self, outpoint, consumed, .inl ⟨prior, listed, competing⟩⟩
      · obtain ⟨other, member, consumedOther, rfl⟩ := local'
        rw [competes, decide_eq_true_eq] at competing
        exact ⟨tx, .inr mem_cons_self, outpoint, consumed, .inr ⟨other, .inl member, competing.1, consumedOther⟩⟩
    · rintro ⟨first, listed | last, outpoint, consumed,
        ⟨prior, indexed, competing⟩ | ⟨other, member, ids, consumedOther⟩⟩
      · exact .inl ⟨first, listed, outpoint, consumed, .inl ⟨prior, indexed, competing⟩⟩
      · rcases member with member | last
        · exact .inl ⟨first, listed, outpoint, consumed, .inr ⟨other, member, ids, consumedOther⟩⟩
        · obtain rfl := mem_singleton.mp last
          exact .inr ⟨outpoint, consumedOther, _, .inr ⟨first, listed, consumed, rfl⟩, by simp [competes, ids.symm]⟩
      · obtain rfl := mem_singleton.mp last
        exact .inr ⟨outpoint, consumed, prior, .inl indexed, competing⟩
      · obtain rfl := mem_singleton.mp last
        rcases member with member | last
        · exact .inr ⟨outpoint, consumed, _, .inr ⟨other, member, consumedOther, rfl⟩, by simp [competes, ids]⟩
        · exact absurd (congrArg CTransaction.getId (mem_singleton.mp last)) ids

end

/-! ## Writing and removing the spends of a subblock -/

section

variable (registry : CDagConflictRegistry) (hash : Uint256) (localSpends : MultiMap COutPoint CDagSpend)

theorem mem_spendIndex_commit {spend : CDagSpend} {outpoint : COutPoint} :
    spend ∈ (registry.commit hash localSpends).spendIndex.values outpoint ↔
      spend ∈ registry.spendIndex.values outpoint ∨ spend ∈ localSpends.values outpoint := by
  rw [MultiMap.mem_values_iff localSpends]
  exact MultiMap.mem_values_foldl_append (fun entry : Σ _ : COutPoint, List CDagSpend => entry.1)
    (fun entry => entry.2) _ _

theorem mem_spendsBySubblock_commit {other : Uint256} {outpoint : COutPoint} :
    outpoint ∈ (registry.commit hash localSpends).spendsBySubblock.values other ↔
      outpoint ∈ registry.spendsBySubblock.values other ∨
        hash = other ∧ ∃ spend, spend ∈ localSpends.values outpoint := by
  let outpoints : (Σ _ : COutPoint, List CDagSpend) → List COutPoint := fun entry =>
    replicate entry.2.length entry.1
  refine (MultiMap.mem_values_foldl_append (fun _ => hash) outpoints _ _).trans (or_congr_right ?_)
  simp only [outpoints, mem_replicate, MultiMap.mem_values_iff]
  constructor
  · rintro ⟨entry, listed, same, filled, rfl⟩
    obtain ⟨spend, member⟩ := exists_mem_of_length_pos (Nat.pos_of_ne_zero filled)
    exact ⟨same, spend, entry, listed, rfl, member⟩
  · rintro ⟨same, spend, entry, listed, rfl, member⟩
    exact ⟨entry, listed, same, (length_pos_of_mem member).ne', rfl⟩

end

section

variable (registry : CDagConflictRegistry) (heap : DagHeap) (node : CTreeNodeRef) {hash : Uint256}

theorem mem_indexed_unlink :
    hash ∈ (registry.unlink heap node).indexed ↔ hash ≠ (heap node).hash ∧ hash ∈ registry.indexed := by
  rw [unlink]
  split_ifs with known
  · exact Finset.mem_erase
  · refine (and_iff_right_of_imp fun member same => known ?_).symm
    exact same ▸ member

theorem spendsBySubblock_unlink (other : hash ≠ (heap node).hash) :
    (registry.unlink heap node).spendsBySubblock.values hash = registry.spendsBySubblock.values hash := by
  rw [unlink]
  split_ifs
  · exact (MultiMap.values_erase _ _ _).trans (if_neg other)
  · rfl

end

end CDagConflictRegistry

/-! ## The index and the dag -/

/-- The two heaps hold the same subblocks. Only links differ. -/
def DagHeap.SameNodes (heap next : DagHeap) : Prop :=
  ∀ node, (next node).hash = (heap node).hash ∧ (next node).subblock = (heap node).subblock

theorem DagHeap.SameNodes.txns_eq {heap next : DagHeap} (same : heap.SameNodes next) (node : CTreeNodeRef) :
    next.txns node = heap.txns node := by
  rw [txns, txns, (same node).2]

namespace TreeState

/-- The dag holds this node. -/
def Linked (tree : TreeState) (node : CTreeNodeRef) : Prop := tree.dag.lookup (tree.heap node).hash = some node

variable {tree : TreeState} {node : CTreeNodeRef}

theorem Linked.mem_dag (linked : tree.Linked node) : (tree.heap node).hash ∈ tree.dag :=
  lookup_isSome.mp (Option.isSome_of_eq_some linked)

theorem linked_relink_iff {heap : DagHeap} (same : tree.heap.SameNodes heap) :
    ({ tree with heap } : TreeState).Linked node ↔ tree.Linked node := by
  rw [Linked, (same node).1]
  rfl

theorem linked_expunge_iff {other : CTreeNodeRef} :
    (tree.expunge node).Linked other ↔ tree.Linked other ∧ (tree.heap other).hash ≠ (tree.heap node).hash := by
  rw [Linked, expunge, lookup_erase_eq_ite]
  split_ifs with same
  · exact iff_of_false id fun rest => rest.2 same
  · exact (and_iff_left same).symm

/-- The tree once the node is in the dag and its spends are in the index. -/
def admitNode (tree : TreeState) (newNode : CTreeNodeRef) (localSpends : MultiMap COutPoint CDagSpend) : TreeState :=
  { tree with
    dag := tree.dag.insert (tree.heap newNode).hash newNode
    conflictRegistry := tree.conflictRegistry.commit (tree.heap newNode).hash localSpends }

theorem linked_admit_iff {newNode other : CTreeNodeRef} (fresh : (tree.heap newNode).hash ∉ tree.dag)
    {localSpends : MultiMap COutPoint CDagSpend} :
    (tree.admitNode newNode localSpends).Linked other ↔ tree.Linked other ∨ other = newNode := by
  rw [Linked, admitNode, lookup_insert_eq_ite]
  split_ifs with same
  · have unknown : ¬ tree.Linked other := fun linked => fresh (same ▸ linked.mem_dag)
    rw [Option.some_inj, or_iff_right unknown, eq_comm]
  · refine (or_iff_left fun equal => same ?_).symm
    exact equal ▸ rfl

/-- The index holds the spends of the linked nodes. -/
structure Indexed (tree : TreeState) : Prop where
  hash_eq : ∀ {hash node}, tree.dag.lookup hash = some node → (tree.heap node).hash = hash
  mem_indexed : ∀ {hash}, hash ∈ tree.conflictRegistry.indexed ↔ hash ∈ tree.dag
  mem_spendIndex : ∀ {spend outpoint}, spend ∈ tree.conflictRegistry.spendIndex.values outpoint ↔
    tree.Linked spend.subblock ∧ tree.heap.Spends spend.subblock spend.txid outpoint
  listed : ∀ {spend outpoint}, spend ∈ tree.conflictRegistry.spendIndex.values outpoint →
    outpoint ∈ tree.conflictRegistry.spendsBySubblock.values (tree.heap spend.subblock).hash

namespace Indexed

theorem relink (indexed : tree.Indexed) {heap : DagHeap} (same : tree.heap.SameNodes heap) :
    ({ tree with heap } : TreeState).Indexed where
  hash_eq found := (same _).1.trans (indexed.hash_eq found)
  mem_indexed := indexed.mem_indexed
  mem_spendIndex {spend outpoint} := by
    rw [linked_relink_iff same, DagHeap.Spends, same.txns_eq]
    exact indexed.mem_spendIndex
  listed {spend outpoint} member := by
    rw [(same spend.subblock).1]
    exact indexed.listed member

theorem expunge (indexed : tree.Indexed) (node : CTreeNodeRef) : (tree.expunge node).Indexed := by
  have gone {spend : CDagSpend} {outpoint : COutPoint} :
      spend ∈ (tree.conflictRegistry.unlink tree.heap node).spendIndex.values outpoint ↔
        spend ∈ tree.conflictRegistry.spendIndex.values outpoint ∧
          (tree.heap spend.subblock).hash ≠ (tree.heap node).hash := by
    rw [CDagConflictRegistry.unlink]
    split_ifs with known
    · simp only [MultiMap.values_foldl_prune, mem_dedup]
      split_ifs with touched
      · rw [mem_filter, decide_eq_true_eq]
      · refine (and_iff_left_of_imp fun member same => touched ?_).symm
        exact same ▸ indexed.listed member
    · refine (and_iff_left_of_imp fun member same => known ?_).symm
      exact same ▸ indexed.mem_indexed.mpr (indexed.mem_spendIndex.mp member).1.mem_dag
  refine ⟨fun {hash} _ found => ?_, ?_, ?_, fun {spend _} member => ?_⟩
  · rw [TreeState.expunge, lookup_erase_eq_ite] at found
    split_ifs at found
    exact indexed.hash_eq found
  · intro hash
    rw [TreeState.expunge, CDagConflictRegistry.mem_indexed_unlink, mem_erase, indexed.mem_indexed]
  · intro spend outpoint
    rw [linked_expunge_iff, and_right_comm]
    exact gone.trans (and_congr_left fun _ => indexed.mem_spendIndex)
  · obtain ⟨member, other⟩ := gone.mp member
    exact (tree.conflictRegistry.spendsBySubblock_unlink tree.heap node other).symm ▸ indexed.listed member

theorem admitNode (indexed : tree.Indexed) {newNode : CTreeNodeRef} (fresh : (tree.heap newNode).hash ∉ tree.dag)
    {localSpends : MultiMap COutPoint CDagSpend}
    (spends : ∀ {spend outpoint}, spend ∈ localSpends.values outpoint ↔
      spend.subblock = newNode ∧ tree.heap.Spends newNode spend.txid outpoint) :
    (tree.admitNode newNode localSpends).Indexed := by
  refine ⟨fun {hash _} found => ?_, ?_, ?_, fun {spend _} member => ?_⟩
  · rw [TreeState.admitNode, lookup_insert_eq_ite] at found
    split_ifs at found with same
    · exact Option.some.inj found ▸ same.symm
    · exact indexed.hash_eq found
  · intro hash
    rw [TreeState.admitNode, CDagConflictRegistry.commit, Finset.mem_insert, mem_insert, indexed.mem_indexed]
  · intro spend outpoint
    rw [linked_admit_iff fresh, or_and_right]
    refine (tree.conflictRegistry.mem_spendIndex_commit _ localSpends).trans (or_congr indexed.mem_spendIndex ?_)
    exact spends.trans (and_congr_right fun same => by rw [same]; rfl)
  · refine (tree.conflictRegistry.mem_spendsBySubblock_commit _ localSpends).mpr ?_
    rcases (tree.conflictRegistry.mem_spendIndex_commit _ localSpends).mp member with old | new
    · exact .inl (indexed.listed old)
    · exact .inr ⟨(spends.mp new).1 ▸ rfl, spend, new⟩

end Indexed

end TreeState

end Nexa
