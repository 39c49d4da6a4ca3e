import Nexa.Model.Tailstorm.Dag
import Nexa.ToMathlib.MultiMap

/-! # Subblocks linked to and removed from a tree

`InsertIntoTree` links a subblock to its parents in the dag. `checkUpdateAncestryInsertIntoDag` admits
it unless it double spends within its own ancestry, which is read off an index of the spends of all
linked subblocks. `RemoveFromGrove` removes a subblock together with its descendants.
-/

namespace Nexa

/-! ## The index of spends -/

/-- This txid spent an outpoint in this subblock. -/
structure CDagSpend where
  txid : Uint256
  subblock : CTreeNodeRef
deriving DecidableEq

structure CDagConflictRegistry where
  spendIndex : MultiMap COutPoint CDagSpend := ∅
  spendsBySubblock : MultiMap Uint256 COutPoint := ∅
  indexed : Finset Uint256 := ∅

namespace CDagConflictRegistry

section

variable (registry : CDagConflictRegistry) (setAncestors : Finset CTreeNodeRef) (newNode : CTreeNodeRef)

/-- The spends already visited in this subblock and the flag `hasConflict`. -/
structure ScanState where
  localSpends : MultiMap COutPoint CDagSpend := ∅
  hasConflict : Bool := false

/-- A competing spend in the subblock or its ancestry. One in an unrelated branch is allowed. -/
def competes (txid : Uint256) (prior : CDagSpend) : Bool :=
  prior.txid ≠ txid ∧ (prior.subblock = newNode ∨ prior.subblock ∈ setAncestors)

def scanTx (scan : ScanState) (ptx : CTransaction) : ScanState :=
  if ptx.isCoinBase then scan
  else
    let txid := ptx.getId
    let hasConflict := (consumedBy ptx.vin).any fun prevout =>
      (registry.spendIndex.values prevout ++ scan.localSpends.values prevout).any (competes setAncestors newNode txid)
    { localSpends := (consumedBy ptx.vin).foldl (fun spends prevout => spends.append prevout [⟨txid, newNode⟩])
        scan.localSpends
      hasConflict := scan.hasConflict || hasConflict }

end

variable (registry : CDagConflictRegistry)

def commit (hash : Uint256) (localSpends : MultiMap COutPoint CDagSpend) :
    CDagConflictRegistry where
  spendIndex := localSpends.entries.foldl (fun index entry => index.append entry.1 entry.2) registry.spendIndex
  spendsBySubblock := localSpends.entries.foldl
    (fun outpoints entry => outpoints.append hash (List.replicate entry.2.length entry.1)) registry.spendsBySubblock
  indexed := insert hash registry.indexed

/-- `ScanSpends`: whether there is a conflict, and the index. -/
def scanSpends (heap : DagHeap) (rounds : ℕ) (newNode : CTreeNodeRef)
    (commits : Bool) : Option (Bool × CDagConflictRegistry) :=
  match (heap newNode).subblock with
  | none => some (false, registry)
  | some subblock =>
    if commits ∧ (heap newNode).hash ∈ registry.indexed then some (false, registry)
    else do
      let setAncestors ← calculateAncestors heap.parents rounds newNode
      let scan := subblock.vtx.foldl (registry.scanTx setAncestors newNode) {}
      pure (scan.hasConflict, if commits then registry.commit (heap newNode).hash scan.localSpends else registry)

/-- `Unlink`: removes the spends of a subblock. -/
def unlink (heap : DagHeap) (node : CTreeNodeRef) : CDagConflictRegistry :=
  let hash := (heap node).hash
  if hash ∉ registry.indexed then registry
  else
    let touched := (registry.spendsBySubblock.values hash).dedup
    { spendIndex := touched.foldl (MultiMap.prune fun spend => (heap spend.subblock).hash ≠ hash) registry.spendIndex
      spendsBySubblock := registry.spendsBySubblock.erase hash
      indexed := registry.indexed.erase hash }

end CDagConflictRegistry

/-! ## The tree -/

/-- A `CTailstormTree` and the nodes in memory. -/
structure TreeState where
  heap : DagHeap
  dag : AList fun _ : Uint256 => CTreeNodeRef := ∅
  conflictRegistry : CDagConflictRegistry := {}

/-- The transactions of a subblock after the coinbase are in increasing txid order. -/
def inTxidOrder (vtx : List CTransaction) : Bool :=
  let txids := vtx.tail.map CTransaction.getId
  (txids.zip txids.tail).all fun (txid, next) => txid < next

namespace TreeState

variable (tree : TreeState)

/-- `checkUpdateAncestryInsertIntoDag`: whether the subblock is admitted, and the tree. -/
def checkUpdateAncestryInsertIntoDag (rounds : ℕ) (newNode : CTreeNodeRef) :
    Option (Bool × TreeState) := do
  let vtx := ((tree.heap newNode).subblock.map DagSubblock.vtx).getD []
  if !inTxidOrder vtx then return (false, tree)
  let (hasConflict, _) ← tree.conflictRegistry.scanSpends tree.heap rounds newNode false
  if hasConflict then return (false, tree)
  let hash := (tree.heap newNode).hash
  let dag := if hash ∈ tree.dag then tree.dag else tree.dag.insert hash newNode
  let (_, conflictRegistry) ← tree.conflictRegistry.scanSpends tree.heap rounds newNode true
  pure (true, { tree with dag, conflictRegistry })

def clearLinks (heap : DagHeap) (node : CTreeNodeRef) : DagHeap :=
  Function.update heap node { heap node with setAncestors := ∅, setDescendants := ∅ }

/-- Removes a node from the descendants of its ancestors, and then its own links. -/
def unlinkNode (node : CTreeNodeRef) : TreeState :=
  let heap := fun other =>
    if other ∈ (tree.heap node).setAncestors then
      { tree.heap other with setDescendants := (tree.heap other).setDescendants.erase node }
    else tree.heap other
  { tree with heap := clearLinks heap node }

/-- `AddAncestors` and `AddDescendant` for a node and its parents. -/
def linkNode (newNode : CTreeNodeRef) (setPrevNodes : Finset CTreeNodeRef) : TreeState :=
  let setAncestors := (tree.heap newNode).setAncestors ∪ setPrevNodes
  let heap := Function.update tree.heap newNode { tree.heap newNode with setAncestors }
  let linked := fun node =>
    if node ∈ setPrevNodes then { heap node with setDescendants := insert newNode (heap node).setDescendants }
    else heap node
  { tree with heap := linked }

/-- `AddSubblockOrphan`, as far as the tree is concerned. -/
def addSubblockOrphan (newNode : CTreeNodeRef) : TreeState :=
  if (tree.heap newNode).hash ∈ tree.dag then tree else tree.unlinkNode newNode

/-- The nodes of the parents, if all of them are in the dag. A base subblock has none. -/
def prevNodes (subblock : DagSubblock) : Option (Finset CTreeNodeRef) :=
  if subblock.prevHashes = {subblock.hashPrevBlock} then some ∅
  else if subblock.prevHashes ⊆ tree.dag.keys.toFinset then
    some (subblock.prevHashes.biUnion fun prevHash => (tree.dag.lookup prevHash).toFinset)
  else none

/-- `InsertIntoTree`. A subblock that is too deep below the chain tip is not tried. A subblock that is not admitted
loses its links again: `RemoveDescendant` for its parents is part of `AddSubblockOrphan`. -/
def insertIntoTree (rounds : ℕ) (newNode : CTreeNodeRef) (tooDeep : Bool) : Option TreeState :=
  match (tree.heap newNode).subblock with
  | none => some tree
  | some subblock =>
    if (tree.heap newNode).hash ∈ tree.dag then some tree
    else
      match tree.prevNodes subblock with
      | none => some (tree.addSubblockOrphan newNode)
      | some setPrevNodes => do
        let tree := tree.linkNode newNode setPrevNodes
        if tooDeep then return tree.addSubblockOrphan newNode
        let (added, tree) ← tree.checkUpdateAncestryInsertIntoDag rounds newNode
        pure (if added then tree else tree.addSubblockOrphan newNode)

/-- Takes a subblock out of the dag and its spends out of the index. -/
def expunge (subblock : CTreeNodeRef) : TreeState :=
  { tree with
    dag := tree.dag.erase (tree.heap subblock).hash
    conflictRegistry := tree.conflictRegistry.unlink tree.heap subblock }

def removeFromGrove : ℕ → TreeState → CTreeNodeRef → Option TreeState
  | 0, _, _ => none
  | rounds + 1, tree, subblock => do
    let tree := tree.expunge subblock
    let descendantCopy := (tree.heap subblock).setDescendants
    let tree ← (descendantCopy.sort (· ≤ ·)).foldlM (removeFromGrove rounds) tree
    pure (tree.unlinkNode subblock)

/-- `ClearByHeight`, as far as the tree and its nodes are concerned. -/
def clear : TreeState where
  heap := fun node => { tree.heap node with setAncestors := ∅, setDescendants := ∅ }

end TreeState

inductive TreeOp where
  | insert (newNode : CTreeNodeRef) (tooDeep : Bool)
  | remove (hash : Uint256)
  | clear

/-- One operation. What is removed is found by its hash. -/
def TreeState.step (rounds : ℕ) (tree : TreeState) : TreeOp → Option TreeState
  | .insert newNode tooDeep => tree.insertIntoTree rounds newNode tooDeep
  | .remove hash =>
    match tree.dag.lookup hash with
    | none => some tree
    | some node => removeFromGrove rounds tree node
  | .clear => some tree.clear

end Nexa
