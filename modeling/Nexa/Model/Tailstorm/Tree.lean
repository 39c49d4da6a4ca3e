import Nexa.Model.Tailstorm.Grove
import Nexa.Model.Tailstorm.SummaryDag

/-! # The order of a tree and the coins it has applied

The subblocks of a tree are numbered in dag order, and the first of them, as many as the uncles leave
places for, are processed: their transactions are applied to the view of the tree. `Insert` appends a
subblock that comes last to the view. In all other cases `ReGenerateDagData` numbers the dag afresh and
applies the selected subblocks from the start, after it has removed those with transactions that fail.

Which blocks are known and what `ConnectDagTransactions` says of the transactions is passed along. An
operation that does not return is `none`.
-/

namespace Nexa

/-- `tailstorm_k`. The parameters of every network assert that it is at least 2. -/
abbrev TailstormK := { k : ℕ // 2 ≤ k }

/-- What a tree reads of a `CBlockIndex`. -/
structure SummaryIndex where
  hash : Uint256
  height : ℕ
deriving DecidableEq, Repr

/-- The state of the node that a tree depends on. -/
structure TreeContext (ν : Type) where
  chainTip : SummaryIndex
  lookupBlockIndex : Uint256 → Option SummaryIndex
  coinsSummaryRoot : COutPoint → Option Coin
  clear : ν → ν
  /-- `ConnectDagTransactions` on a child of the view, which is flushed if all transactions connect: `badTxid`
  otherwise, and the view. -/
  connectDagTransactions : List CTransaction → ν → Option (Option Uint256 × ν)

/-- A `CTailstormTree` with the order of its dag and the coins it has applied, and the nodes in memory. -/
structure TailstormTree (ν : Type) extends TreeState where
  /-- `nSequenceId` and `fProcessed` of the nodes. -/
  nSequenceId : CTreeNodeRef → ℕ := fun _ => 0
  fProcessed : CTreeNodeRef → Bool := fun _ => false
  mapUncles : AList fun _ : Uint256 => CTreeNodeRef := ∅
  mapDagTxns : AList fun _ : Uint256 => CTransaction := ∅
  pindexSummaryRoot : Option SummaryIndex := none
  view : ν
  /-- The hashes that `RemoveFromGrove` has taken out, also of the maps of the forest. -/
  expunged : List Uint256 := []

/-- The values of a `std::map` in the order of its keys. -/
def inKeyOrder {α : Type} (map : AList fun _ : Uint256 => α) : List α :=
  (map.entries.insertionSort fun x y => x.1 ≤ y.1).map Sigma.snd

def emplaceTxn (txns : AList fun _ : Uint256 => CTransaction) (ptx : CTransaction) :
    AList fun _ : Uint256 => CTransaction :=
  if ptx.getId ∈ txns then txns else txns.insert ptx.getId ptx

/-- Numbers the nodes from `nSequenceId + 1` on. -/
def numberNodes : ℕ → List CTreeNodeRef → (CTreeNodeRef → ℕ) → CTreeNodeRef → ℕ
  | _, [], ids => ids
  | nSequenceId, node :: rest, ids =>
    numberNodes (nSequenceId + 1) rest (Function.update ids node (nSequenceId + 1))

namespace TailstormTree

variable {ν : Type} (k : TailstormK) (ctx : TreeContext ν) (rounds : ℕ) (tree : TailstormTree ν)

/-! ## Order and selection -/

/-- The nodes of the dag in the order of the map. -/
def dagNodes : List CTreeNodeRef := inKeyOrder tree.dag

def vtx (node : CTreeNodeRef) : List CTransaction := ((tree.heap node).subblock.map DagSubblock.vtx).getD []

def selectionSize : ℕ := (k.val - 1) - min tree.mapUncles.keys.length (k.val - 1)

def needsRegeneration : Bool :=
  tree.dagNodes.any fun node => tree.fProcessed node != decide (tree.nSequenceId node ≤ tree.selectionSize k)

/-- `SortedDag`: each node at the place of its number. A node whose place is taken is left out. -/
def sortedDag : List CTreeNodeRef :=
  (List.range tree.dag.keys.length).filterMap fun nIndex =>
    tree.dagNodes.find? fun node => tree.nSequenceId node = nIndex + 1

def renumberDag : Option (TailstormTree ν) :=
  (tree.heap.orderDag rounds tree.dagNodes).map fun ordered =>
    { tree with nSequenceId := numberNodes 0 ordered tree.nSequenceId }

/-- `checkUpdateAncestryInsertIntoDag`. Once the selection is full, a subblock is placed last. -/
def checkUpdateAncestryInsertIntoDag (newNode : CTreeNodeRef) : Option (Bool × TailstormTree ν) := do
  let fSelectionFull := decide (tree.selectionSize k ≤ tree.dag.keys.length)
  let (added, linked) ← tree.toTreeState.checkUpdateAncestryInsertIntoDag rounds newNode
  if !added then return (false, tree)
  let tree := { tree with toTreeState := linked, fProcessed := Function.update tree.fProcessed newNode false }
  if fSelectionFull then
    return (true, { tree with nSequenceId := Function.update tree.nSequenceId newNode tree.dag.keys.length })
  let tree ← tree.renumberDag rounds
  pure (true, tree)

/-! ## Removal -/

/-- Takes a subblock out of the maps. -/
def expunge (subblock : CTreeNodeRef) : TailstormTree ν :=
  { tree with
    toTreeState := tree.toTreeState.expunge subblock
    mapUncles := tree.mapUncles.erase (tree.heap subblock).hash
    expunged := (tree.heap subblock).hash :: tree.expunged }

end TailstormTree

def TailstormTree.removeFromGrove {ν : Type} :
    ℕ → TailstormTree ν → CTreeNodeRef → Option (TailstormTree ν)
  | 0, _, _ => none
  | rounds + 1, tree, subblock => do
    let tree := tree.expunge subblock
    let descendantCopy := (tree.heap subblock).setDescendants
    let tree ← (descendantCopy.sort (· ≤ ·)).foldlM (removeFromGrove rounds) tree
    pure { tree with toTreeState := tree.toTreeState.unlinkNode subblock }

namespace TailstormTree

variable {ν : Type} (k : TailstormK) (ctx : TreeContext ν) (rounds : ℕ) (tree : TailstormTree ν)

/-- `removeBadSubblocks`: a subblock may have gone with an earlier one. -/
def removeBadSubblocks (vBad : List Uint256) : Option (TailstormTree ν) :=
  vBad.foldlM (fun tree hash =>
    match tree.dag.lookup hash with
    | some node => removeFromGrove rounds tree node
    | none => some tree) tree

/-! ## Regeneration -/

variable (vDag : List CTreeNodeRef)

/-- The transactions of the selected subblocks that are not excluded. -/
def includedTxns (setTxnExclusions : Finset Uint256) : AList fun _ : Uint256 => CTransaction :=
  ((vDag.flatMap fun node => (tree.vtx node).tail).filter fun ptx => ptx.getId ∉ setTxnExclusions).foldl emplaceTxn ∅

/-- `GetTxnExclusionSet` for nodes of the tree. -/
def txnExclusions : Option (Finset Uint256) :=
  (getTxnExclusionSet rounds (vDag.map fun node => some (tree.heap node)) (some ctx.coinsSummaryRoot)).map Prod.fst

/-- The subblocks that a summary block would commit. -/
def selectedDag : List CTreeNodeRef := tree.sortedDag.take (tree.selectionSize k)

/-- The tree before any transaction is applied. -/
def cleared : TailstormTree ν :=
  { tree with
    mapDagTxns := ∅
    view := ctx.clear tree.view
    fProcessed := fun node => if node ∈ tree.dagNodes then false else tree.fProcessed node }

/-- The loop of `ReGenerateDagData`. -/
def regenerateLoop : ℕ → TailstormTree ν → Option (TailstormTree ν)
  | 0, _ => none
  | left + 1, tree => do
    let tree ← tree.renumberDag rounds
    let vDag := tree.selectedDag k
    let setTxnExclusions ← tree.txnExclusions ctx rounds vDag
    let mapIncluded := tree.includedTxns vDag setTxnExclusions
    let tree := tree.cleared ctx
    let (failed, view) ← ctx.connectDagTransactions (inKeyOrder mapIncluded) tree.view
    match failed with
    | none =>
      return { tree with
        view, mapDagTxns := mapIncluded
        fProcessed := fun node => if node ∈ vDag then true else tree.fProcessed node }
    | some badTxid =>
      let bad := vDag.filter fun node => (tree.vtx node).any fun ptx => ptx.getId = badTxid
      if bad = [] then return { tree with view }
      let tree ← { tree with view }.removeBadSubblocks rounds (bad.map fun node => (tree.heap node).hash)
      regenerateLoop left tree

/-- `ReGenerateDagData`. Only a dag that extends the chain tip is regenerated. -/
def reGenerateDagData : Option (TailstormTree ν) :=
  match tree.dagNodes with
  | [] => some tree
  | treenode :: _ =>
    if (tree.heap treenode).subblock.map DagSubblock.hashPrevBlock = some ctx.chainTip.hash then
      regenerateLoop k ctx rounds rounds tree
    else some tree

/-! ## Insertion -/

variable (newNode : CTreeNodeRef) (setTxnExclusions : Finset Uint256)

/-- A subblock of the dag apart from the arrival has a transaction that is included now and not applied. -/
def suppliesInput : Bool :=
  tree.sortedDag.any fun node => node ≠ newNode ∧ (tree.vtx node).any fun ptx =>
    !ptx.isCoinBase && decide (ptx.getId ∉ setTxnExclusions) && decide (ptx.getId ∉ tree.mapDagTxns)

/-- The transactions of the arrival that are not applied yet and not excluded. -/
def appendedTxns : AList fun _ : Uint256 => CTransaction :=
  ((tree.vtx newNode).filter fun ptx => !ptx.isCoinBase && decide (ptx.getId ∉ tree.mapDagTxns) &&
    decide (ptx.getId ∉ setTxnExclusions)).foldl emplaceTxn ∅

/-- Applies the arrival on top of the view. It is removed again if one of its transactions fails. -/
def appendSubblock : Option (TailstormTree ν) := do
  let mapIncluded := tree.appendedTxns newNode setTxnExclusions
  let (failed, view) ← ctx.connectDagTransactions (inKeyOrder mapIncluded) tree.view
  match failed with
  | some _ => removeFromGrove rounds { tree with view } newNode
  | none =>
    pure { tree with
      view
      mapDagTxns := (inKeyOrder mapIncluded).foldl emplaceTxn tree.mapDagTxns
      fProcessed := Function.update tree.fProcessed newNode true }

variable (next : TailstormTree ν) (newNode : CTreeNodeRef)

/-- Every node keeps its number and the arrival lands behind them. -/
def isAppend : Bool :=
  !tree.needsRegeneration k && decide (next.nSequenceId newNode = next.dag.keys.length) &&
    tree.dagNodes.all fun node => next.nSequenceId node = tree.nSequenceId node

/-- The rest of `Insert` when the arrival has been admitted to the dag and there is room for it in the selection. -/
def applyAdmitted : Option (TailstormTree ν) :=
  if !tree.isAppend k next newNode then next.reGenerateDagData k ctx rounds
  else if next.selectionSize k < next.nSequenceId newNode then some next
  else do
    let setTxnExclusions ← next.txnExclusions ctx rounds next.sortedDag
    if next.suppliesInput newNode setTxnExclusions then next.reGenerateDagData k ctx rounds
    else next.appendSubblock ctx rounds newNode setTxnExclusions

/-- `CTailstormTree::Insert`: whether the subblock is in the dag or has been, and the tree. -/
def insert : Option (Bool × TailstormTree ν) :=
  match tree.pindexSummaryRoot with
  | none => some (false, tree)
  | some pindexSummaryRoot =>
    if (tree.heap newNode).hash ∈ tree.dag then some (true, tree)
    else if 2 < (ctx.chainTip.height : ℤ) - pindexSummaryRoot.height then some (false, tree)
    else if ctx.chainTip ≠ pindexSummaryRoot ∨ tree.selectionSize k ≤ tree.dag.keys.length then
      tree.checkUpdateAncestryInsertIntoDag k rounds newNode
    else do
      let (added, next) ← tree.checkUpdateAncestryInsertIntoDag k rounds newNode
      if !added then return (false, next)
      let next ← tree.applyAdmitted k ctx rounds next newNode
      pure (true, next)

/-- `AddSubblockOrphan`, as far as the tree is concerned. -/
def addSubblockOrphan : TailstormTree ν :=
  if (tree.heap newNode).hash ∈ tree.dag then tree
  else
    { tree with
      toTreeState := tree.toTreeState.unlinkNode newNode
      fProcessed := Function.update tree.fProcessed newNode false }

/-- `InitializeTree` sets the root before the first subblock is inserted. -/
def initializeTree (subblock : DagSubblock) : Option (TailstormTree ν) :=
  if tree.dag.keys = [] then
    (ctx.lookupBlockIndex subblock.hashPrevBlock).map fun pindex => { tree with pindexSummaryRoot := some pindex }
  else some tree

/-- Inserts a subblock that is linked to its parents. One that is not admitted loses its links again. -/
def insertLinked : Option (Bool × TailstormTree ν) := do
  let (added, tree) ← tree.insert k ctx rounds newNode
  pure (if added then (true, tree) else (false, tree.addSubblockOrphan newNode))

/-- `InsertIntoTree` without the maps of the grove and the forest: whether the subblock was added. -/
def insertIntoTree : Option (Bool × TailstormTree ν) :=
  match (tree.heap newNode).subblock with
  | none => some (false, tree)
  | some subblock =>
    if (tree.heap newNode).hash ∈ tree.dag then some (true, tree)
    else if subblock.prevHashes = {subblock.hashPrevBlock} then do
      let tree ← tree.initializeTree ctx subblock
      tree.insertLinked k ctx rounds newNode
    else
      match tree.prevNodes subblock with
      | none => some (false, tree.addSubblockOrphan newNode)
      | some setPrevNodes =>
        insertLinked k ctx rounds { tree with toTreeState := tree.toTreeState.linkNode newNode setPrevNodes } newNode

/-- New uncles, which `GetUncles` copies from the dag of the epoch before. -/
def addUncles (uncles : List CTreeNodeRef) : TailstormTree ν :=
  uncles.foldl (fun tree uncle =>
    if (tree.heap uncle).hash ∈ tree.mapUncles then tree
    else { tree with mapUncles := tree.mapUncles.insert (tree.heap uncle).hash uncle }) tree

/-- `Remove`: the subblock, its descendants, and then the order of what is left. -/
def remove (hash : Uint256) : Option (TailstormTree ν) :=
  match tree.dag.lookup hash with
  | none => some tree
  | some node => do
    let tree ← removeFromGrove rounds tree node
    tree.renumberDag rounds

/-! ## The best dag -/

/-- Appends nodes until there are `nNumSubblocksToReturn`. The comparison comes after a node is appended. -/
def pushUntilFull (nNumSubblocksToReturn : ℕ) : List CTreeNodeRef → List CTreeNodeRef → List CTreeNodeRef
  | dag, [] => dag
  | dag, node :: rest =>
    if (dag ++ [node]).length = nNumSubblocksToReturn then dag ++ [node]
    else pushUntilFull nNumSubblocksToReturn (dag ++ [node]) rest

/-- `CTailstormGrove::GetBestDag`: the result and what is appended to an empty list. -/
def getBestDag : Bool × List CTreeNodeRef :=
  if tree.dag.keys = [] ∧ tree.mapUncles.keys = [] then (false, [])
  else
    let nNumSubblocksToReturn := k.val - 1
    let dag := pushUntilFull nNumSubblocksToReturn [] (inKeyOrder tree.mapUncles)
    if dag.length < nNumSubblocksToReturn then
      (true, pushUntilFull nNumSubblocksToReturn dag (tree.sortedDag.filter tree.fProcessed))
    else (true, dag)

end TailstormTree

/-! ## Runs -/

inductive TailstormOp (ν : Type) where
  | insert (ctx : TreeContext ν) (newNode : CTreeNodeRef)
  | addUncles (uncles : List CTreeNodeRef)
  | remove (hash : Uint256)
  | regenerate (ctx : TreeContext ν)

def TailstormTree.step {ν : Type} (k : TailstormK) (rounds : ℕ) (tree : TailstormTree ν) :
    TailstormOp ν → Option (TailstormTree ν)
  | .insert ctx newNode => (tree.insertIntoTree k ctx rounds newNode).map Prod.snd
  | .addUncles uncles => some (tree.addUncles uncles)
  | .remove hash => tree.remove rounds hash
  | .regenerate ctx => tree.reGenerateDagData k ctx rounds

end Nexa
