import Nexa.Model.Tailstorm.Tree

/-! # The forest

Each grove holds the tree of one summary block. The forest knows all nodes, the grove of every linked
node, and the orphans, which wait for their parents. `_Insert` links a subblock or makes it an orphan,
`ProcessOrphans` tries the orphans again, `Remove` takes a subblock and its descendants out, and
`ClearByHeight` prunes old epochs.

The nodes are made once and for all, and every tree has its own copy of the links between them. Summary
block orphans and the best grove are left out. What the chain and the miners' data say is passed along.
-/

namespace Nexa

abbrev GroveRef := ℕ

/-- The nodes that have been made, with their subblocks and the heights that these state. -/
structure NodeMemory where
  heap : DagHeap
  height : CTreeNodeRef → ℕ
  bare : ∀ node, (heap node).setAncestors = ∅ ∧ (heap node).setDescendants = ∅

def hashPrevBlock (memory : NodeMemory) (node : CTreeNodeRef) : Uint256 :=
  ((memory.heap node).subblock.map DagSubblock.hashPrevBlock).getD 0

/-- The only parent is the summary block. -/
def DagSubblock.isBase (subblock : DagSubblock) : Bool := subblock.prevHashes = {subblock.hashPrevBlock}

structure CTailstormGrove (ν : Type) where
  /-- Null until the tree is initialized. -/
  roothash : Uint256 := 0
  mapGroveNodes : AList fun _ : Uint256 => CTreeNodeRef := ∅
  tree : TailstormTree ν

structure CTailstormForest (ν : Type) where
  groves : GroveRef → CTailstormGrove ν
  mapAllNodes : AList fun _ : Uint256 => CTreeNodeRef := ∅
  mapAllGrovesByNode : AList fun _ : Uint256 => GroveRef := ∅
  mapNodesUnlinked : AList fun _ : Uint256 => CTreeNodeRef := ∅

/-- The state of the node that the forest depends on. -/
structure ForestContext (ν : Type) (memory : NodeMemory) extends TreeContext ν where
  pprev : SummaryIndex → Option SummaryIndex
  isLinked : SummaryIndex → Bool
  tailstormEnforceDepth : ℕ
  /-- The work that the subblock states is the work of the summary block and its own. -/
  chainWorkFits : SummaryIndex → CTreeNodeRef → Bool
  newView : ν
  /-- `GetUncles`: copies of the subblocks of the epoch before that its summary block does not commit. -/
  getUncles : CTailstormForest ν → GroveRef → List CTreeNodeRef
  marked : ∀ forest grove, ∀ uncle ∈ getUncles forest grove, (memory.heap uncle).fUncle = true

namespace CTailstormForest

variable {ν : Type} {memory : NodeMemory} (k : TailstormK) (ctx : ForestContext ν memory) (rounds : ℕ)
  (forest : CTailstormForest ν)

/-! ## Groves -/

variable (hash : Uint256)

/-- `GetGrove`: the grove of a subblock, or else the first one with this root. -/
def getGrove : Option GroveRef :=
  match forest.mapAllGrovesByNode.lookup hash with
  | some grove => some grove
  | none => (inKeyOrder forest.mapAllGrovesByNode).find? fun grove =>
      hash = (forest.groves grove).roothash ∧ (forest.groves grove).roothash ≠ 0

variable (ref : GroveRef)

def setGrove (grove : CTailstormGrove ν) : CTailstormForest ν :=
  { forest with groves := Function.update forest.groves ref grove }

def setTree (tree : TailstormTree ν) : CTailstormForest ν :=
  forest.setGrove ref { forest.groves ref with tree }

/-- The maps without the subblocks that `RemoveFromGrove` has taken out of a tree. -/
def eraseExpunged : CTailstormForest ν :=
  let grove := forest.groves ref
  let gone := grove.tree.expunged
  let mapGroveNodes := grove.mapGroveNodes.eraseAll gone
  { forest.setGrove ref { grove with mapGroveNodes, tree := { grove.tree with expunged := [] } } with
    mapAllNodes := forest.mapAllNodes.eraseAll gone
    mapAllGrovesByNode := forest.mapAllGrovesByNode.eraseAll gone
    mapNodesUnlinked := forest.mapNodesUnlinked.eraseAll gone }

def freshGrove : GroveRef := (inKeyOrder forest.mapAllGrovesByNode).foldr max 0 + 1

/-! ## Orphans -/

/-- The maps once a subblock is an orphan. -/
def parkOrphan (newNode : CTreeNodeRef) : CTailstormForest ν :=
  { forest with
    mapAllGrovesByNode := forest.mapAllGrovesByNode.erase hash
    mapNodesUnlinked := forest.mapNodesUnlinked.emplace hash newNode }

/-- `AddSubblockOrphan`. Its nodes are no copies of uncles, so that `fUncle = false` changes nothing. -/
def addSubblockOrphan (memory : NodeMemory) (newNode : CTreeNodeRef) : CTailstormForest ν :=
  let hash := (memory.heap newNode).hash
  match forest.getGrove hash with
  | none => forest.parkOrphan hash newNode
  | some grove =>
    let tree := (forest.groves grove).tree
    if hash ∈ tree.dag then forest
    else (forest.setTree grove (tree.addSubblockOrphan newNode)).parkOrphan hash newNode

def removeSubblockOrphan : CTailstormForest ν :=
  { forest with mapNodesUnlinked := forest.mapNodesUnlinked.erase hash }

/-! ## Insertion into a grove -/

variable (grove : GroveRef)

def reGenerateDagData : Option (CTailstormForest ν) := do
  let tree ← (forest.groves grove).tree.reGenerateDagData k ctx.toTreeContext rounds
  pure ((forest.setTree grove tree).eraseExpunged grove)

variable (treenode : CTreeNodeRef)

/-- The groves of the next epoch whose summary block has the same predecessor as the subblock. -/
def targetGroves : List GroveRef :=
  let potentialGroves := ((inKeyOrder forest.mapAllNodes).filter fun node =>
    memory.height node = memory.height treenode + 1).filterMap fun node => forest.getGrove (memory.heap node).hash
  (potentialGroves.dedup.insertionSort (· ≤ ·)).filter fun grove =>
    ((forest.groves grove).tree.pindexSummaryRoot.bind ctx.pprev).map SummaryIndex.hash =
      some (hashPrevBlock memory treenode)

/-- Pushes uncles to one grove. A dag that has grown too large and extends the chain tip is regenerated. -/
def pushUnclesTo : Option (CTailstormForest ν) :=
  let tree := (forest.groves grove).tree.addUncles (ctx.getUncles forest grove)
  let forest := forest.setTree grove tree
  if k.val ≤ tree.mapUncles.keys.length + tree.dag.keys.length ∧ tree.pindexSummaryRoot = some ctx.chainTip then
    forest.reGenerateDagData k ctx rounds grove
  else some forest

def pushUncles : Option (CTailstormForest ν) :=
  if (forest.getGrove (memory.heap treenode).hash).isSome then
    (forest.targetGroves ctx treenode).foldlM (pushUnclesTo k ctx rounds) forest
  else some forest

/-- The end of `InsertIntoTree`: new uncles for this grove and for those of the next epoch. -/
def updateUncles (newNode : CTreeNodeRef) : Option (CTailstormForest ν) :=
  let forest :=
    match forest.getGrove (memory.heap newNode).hash with
    | none => forest
    | some own => forest.setTree grove ((forest.groves grove).tree.addUncles (ctx.getUncles forest own))
  forest.pushUncles k ctx rounds newNode

end CTailstormForest

/-- The grove once the tree has been initialized. -/
def CTailstormGrove.rooted {ν : Type} (grove : CTailstormGrove ν) (subblock : DagSubblock) : CTailstormGrove ν :=
  if subblock.isBase ∧ grove.tree.dag.keys = [] then { grove with roothash := subblock.hashPrevBlock } else grove

namespace CTailstormForest

variable {ν : Type} {memory : NodeMemory} (k : TailstormK) (ctx : ForestContext ν memory) (rounds : ℕ)
  (forest : CTailstormForest ν)

/-- `CTailstormGrove::InsertIntoTree`: whether it returns a node, and the forest. Only a base subblock that is not
added returns early. -/
def insertIntoTree (ref : GroveRef) (newNode : CTreeNodeRef) : Option (Bool × CTailstormForest ν) :=
  match (memory.heap newNode).subblock with
  | none => some (false, forest)
  | some subblock =>
    let hash := (memory.heap newNode).hash
    let grove := forest.groves ref
    if hash ∈ grove.tree.dag then some (true, forest.removeSubblockOrphan hash)
    else if hash ∈ grove.mapGroveNodes then do
      let forest ← forest.updateUncles k ctx rounds ref newNode
      pure (false, forest)
    else do
      let (added, tree) ← grove.tree.insertIntoTree k ctx.toTreeContext rounds newNode
      let grove := grove.rooted subblock
      if added then
        let mapGroveNodes := grove.mapGroveNodes.insert hash newNode
        let forest := (forest.setGrove ref { grove with mapGroveNodes, tree }).eraseExpunged ref
        let forest ← forest.updateUncles k ctx rounds ref newNode
        pure (true, forest)
      else
        let forest := (forest.setGrove ref { grove with tree }).parkOrphan hash newNode
        if subblock.isBase then return (false, forest)
        let forest ← forest.updateUncles k ctx rounds ref newNode
        pure (false, forest)

/-! ## Insertion into the forest -/

/-- The node under which a subblock is known, or else the new one. -/
def knownNode (memory : NodeMemory) (newNode : CTreeNodeRef) : CTreeNodeRef :=
  (forest.mapAllNodes.lookup (memory.heap newNode).hash).getD newNode

/-- The conditions `fIsLinked` and `shouldCreateOrHasPrevGrove`. -/
def canLink (pindex : SummaryIndex) : Bool :=
  match ctx.pprev pindex with
  | none => false
  | some pprev => ctx.isLinked pindex && (pindex.height ≠ 0 && (forest.getGrove pprev.hash).isSome ||
      decide ((ctx.chainTip.height : ℤ) - ctx.tailstormEnforceDepth ≤ pindex.height) ||
      (forest.getGrove pindex.hash).isSome)

def assign (hash : Uint256) (grove : GroveRef) : CTailstormForest ν :=
  { forest with mapAllGrovesByNode := forest.mapAllGrovesByNode.insert hash grove }

/-- Inserts a node into the grove of its summary block, which is made if there is none. -/
def insertIntoGrove (pindex : SummaryIndex) (node : CTreeNodeRef) : Option (Bool × CTailstormForest ν) :=
  let hash := (memory.heap node).hash
  if hash ∈ forest.mapAllGrovesByNode then some (true, forest)
  else
    match forest.getGrove pindex.hash with
    | some grove =>
      (forest.assign hash grove).insertIntoTree k ctx rounds grove node
    | none =>
      let grove := forest.freshGrove
      let forest := forest.setGrove grove { tree := { heap := memory.heap, view := ctx.newView } }
      (forest.assign hash grove).insertIntoTree k ctx rounds grove node

/-- `_Insert` once the node is in `mapAllNodes`. A subblock that states a wrong height or work is not kept if it is
new. -/
def insertKnown (inserted : Bool) (newNode node : CTreeNodeRef) (subblock : DagSubblock) :
    Option (Bool × CTailstormForest ν) :=
  let hash := (memory.heap newNode).hash
  match ctx.lookupBlockIndex subblock.hashPrevBlock with
  | none => some (false, forest.addSubblockOrphan memory node)
  | some pindex =>
    if !forest.canLink ctx pindex then some (false, forest.addSubblockOrphan memory node)
    else if memory.height newNode ≠ pindex.height + 1 ∨ !ctx.chainWorkFits pindex newNode then
      some (false, if inserted then { forest with mapAllNodes := forest.mapAllNodes.erase hash } else forest)
    else do
      let (fOK, forest) ← forest.insertIntoGrove k ctx rounds pindex node
      pure (fOK, if fOK then forest.removeSubblockOrphan hash else forest.addSubblockOrphan memory node)

def insert (newNode : CTreeNodeRef) : Option (Bool × CTailstormForest ν) :=
  match (memory.heap newNode).subblock with
  | none => some (false, forest)
  | some subblock =>
    let hash := (memory.heap newNode).hash
    let inserted := decide (hash ∉ forest.mapAllNodes)
    let node := forest.knownNode memory newNode
    let forest := { forest with mapAllNodes := forest.mapAllNodes.emplace hash newNode }
    forest.insertKnown k ctx rounds inserted newNode node subblock

/-! ## Orphans that are tried again -/

def canInsertForPrev (prevhash : Uint256) : Bool :=
  match ctx.lookupBlockIndex prevhash with
  | none => false
  | some pindex => ctx.isLinked pindex &&
      (decide ((ctx.chainTip.height : ℤ) - ctx.tailstormEnforceDepth ≤ pindex.height) ||
        (forest.getGrove pindex.hash).isSome ||
        (ctx.pprev pindex).any fun pprev => pindex.height ≠ 0 && (forest.getGrove pprev.hash).isSome)

end CTailstormForest

section ProcessOrphans

variable {ν : Type} {memory : NodeMemory} (k : TailstormK) (ctx : ForestContext ν memory) (rounds : ℕ)

/-- One pass over the orphans of a group: the linked hashes, the orphans that are left, and the forest. -/
def orphanPass : List CTreeNodeRef → CTailstormForest ν →
    Option (List Uint256 × List CTreeNodeRef × CTailstormForest ν)
  | [], forest => some ([], [], forest)
  | node :: pending, forest => do
    let known := forest.knownNode memory node
    let (fOK, forest) ← forest.insert k ctx rounds node
    let (linked, stillUnlinked, forest) ← orphanPass pending forest
    pure (if fOK then ((memory.heap node).hash :: linked, stillUnlinked, forest)
      else (linked, known :: stillUnlinked, forest))

/-- Passes until one links nothing. -/
def orphanPasses : ℕ → List CTreeNodeRef → CTailstormForest ν →
    Option (List Uint256 × List CTreeNodeRef × CTailstormForest ν)
  | 0, _, _ => none
  | left + 1, pending, forest => do
    if pending = [] then return ([], [], forest)
    let (linked, pending, forest) ← orphanPass k ctx rounds pending forest
    if linked = [] then return ([], pending, forest)
    let (more, pending, forest) ← orphanPasses left pending forest
    pure (linked ++ more, pending, forest)

variable (forest : CTailstormForest ν)

/-- One group of orphans, which wait for the same summary block. -/
def orphanGroup (prevhash : Uint256) (pending : List CTreeNodeRef) :
    Option (List Uint256 × CTailstormForest ν) := do
  if !forest.canInsertForPrev ctx prevhash then
    return ([], pending.foldl (fun forest node => forest.addSubblockOrphan memory node) forest)
  let (linked, pending, forest) ← orphanPasses k ctx rounds rounds pending forest
  pure (linked, pending.foldl (fun forest node => forest.addSubblockOrphan memory node) forest)

def orphansByPrev (memory : NodeMemory) (orphans : List CTreeNodeRef) : List (Uint256 × List CTreeNodeRef) :=
  ((orphans.map (hashPrevBlock memory)).dedup.insertionSort (· ≤ ·)).map fun prevhash =>
    (prevhash, orphans.filter fun node => hashPrevBlock memory node = prevhash)

def orphanGroups : List (Uint256 × List CTreeNodeRef) → CTailstormForest ν →
    Option (List Uint256 × CTailstormForest ν)
  | [], forest => some ([], forest)
  | (prevhash, pending) :: groups, forest => do
    let (linked, forest) ← orphanGroup k ctx rounds forest prevhash pending
    let (more, forest) ← orphanGroups groups forest
    pure (linked ++ more, forest)

/-- One round of the loop of `ProcessOrphans`. -/
def orphanRound : Option (List Uint256 × CTailstormForest ν) :=
  let orphans := inKeyOrder forest.mapNodesUnlinked
  if ∀ node ∈ orphans, (memory.heap node).subblock.isSome then
    orphanGroups k ctx rounds (orphansByPrev memory orphans) { forest with mapNodesUnlinked := ∅ }
  else none

/-- `ProcessOrphans`: the linked hashes, and the forest. -/
def processOrphans : ℕ → CTailstormForest ν → Option (List Uint256 × CTailstormForest ν)
  | 0, _ => none
  | left + 1, forest => do
    let (linked, forest) ← orphanRound k ctx rounds forest
    if linked = [] then return ([], forest)
    let (more, forest) ← processOrphans left forest
    pure (linked ++ more, forest)

end ProcessOrphans

namespace CTailstormForest

variable {ν : Type} (memory : NodeMemory) (rounds : ℕ) (forest : CTailstormForest ν)

/-! ## Removal and pruning -/

/-- `Remove`: whether a subblock was removed, and the forest. -/
def remove (hash : Uint256) : Option (Bool × CTailstormForest ν) :=
  match forest.mapAllNodes.lookup hash, forest.getGrove hash with
  | some node, some grove => do
    let tree ← TailstormTree.removeFromGrove rounds (forest.groves grove).tree node
    let tree ← tree.renumberDag rounds
    pure (true, (forest.setTree grove tree).eraseExpunged grove)
  | _, _ => some (false, forest)

/-- The node has a subblock that states a height up to the given one. -/
def isPruned (nPruneHeight : ℕ) (node : CTreeNodeRef) : Bool :=
  (memory.heap node).subblock.isSome && decide (memory.height node ≤ nPruneHeight)

def clearGrove (ref : GroveRef) : CTailstormForest ν :=
  let grove := forest.groves ref
  let tree := { grove.tree with dag := ∅, mapUncles := ∅, conflictRegistry := {}, mapDagTxns := ∅ }
  forest.setGrove ref { grove with mapGroveNodes := ∅, tree }

def clearLinks (hash : Uint256) (node : CTreeNodeRef) : CTailstormForest ν :=
  match forest.mapAllGrovesByNode.lookup hash with
  | none => forest
  | some grove =>
    let tree := (forest.groves grove).tree
    forest.setTree grove { tree with heap := TreeState.clearLinks tree.heap node }

/-- One node of the loop of `ClearByHeight`. -/
def pruneNode (hash : Uint256) (node : CTreeNodeRef) : CTailstormForest ν :=
  let forest := ((forest.getGrove (hashPrevBlock memory node)).map forest.clearGrove).getD forest
  let forest := forest.clearLinks hash node
  { forest with
    mapAllNodes := forest.mapAllNodes.erase hash
    mapAllGrovesByNode := forest.mapAllGrovesByNode.erase hash
    mapNodesUnlinked := forest.mapNodesUnlinked.erase hash }

def clearByHeight (nPruneHeight : ℕ) : CTailstormForest ν :=
  (forest.mapAllNodes.entries.insertionSort fun x y => x.1 ≤ y.1).foldl (fun forest entry =>
    if isPruned memory nPruneHeight entry.2 then forest.pruneNode memory entry.1 entry.2 else forest) forest

end CTailstormForest

/-! ## Runs -/

/-- What happens to a forest. `ProcessOrphans` processes summary block orphans between its rounds. -/
inductive ForestOp (ν : Type) (memory : NodeMemory) where
  | insert (ctx : ForestContext ν memory) (newNode : CTreeNodeRef)
  | addSubblockOrphan (newNode : CTreeNodeRef)
  | processOrphans (ctx : ForestContext ν memory)
  | orphanRound (ctx : ForestContext ν memory)
  | remove (hash : Uint256)
  | clearByHeight (nPruneHeight : ℕ)
  | reconsiderDag (ctx : ForestContext ν memory)

def CTailstormForest.step {ν : Type} {memory : NodeMemory} (k : TailstormK) (rounds : ℕ) (forest : CTailstormForest ν) :
    ForestOp ν memory → Option (CTailstormForest ν)
  | .insert ctx newNode => (forest.insert k ctx rounds newNode).map Prod.snd
  | .addSubblockOrphan newNode => some (forest.addSubblockOrphan memory newNode)
  | .processOrphans ctx => (Nexa.processOrphans k ctx rounds rounds forest).map Prod.snd
  | .orphanRound ctx => (Nexa.orphanRound k ctx rounds forest).map Prod.snd
  | .remove hash => (forest.remove rounds hash).map Prod.snd
  | .clearByHeight nPruneHeight => some (forest.clearByHeight memory nPruneHeight)
  | .reconsiderDag ctx =>
    match forest.getGrove ctx.chainTip.hash with
    | none => some forest
    | some grove => forest.reGenerateDagData k ctx rounds grove

end Nexa
