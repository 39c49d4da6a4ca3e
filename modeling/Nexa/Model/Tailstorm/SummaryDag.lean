import Mathlib.Data.Finset.Option
import Nexa.Model.Tailstorm.Dag

/-! # The dag of a summary block

`GetTxnExclusionSet` lets the first spend of an outpoint in dag order win and leaves out what cannot
be sourced. `AnalyzeSummaryDag` builds a private graph from the subblocks that a summary block
commits, orders it and looks for the excluded transactions.
-/

namespace Nexa

/-! ## Excluded transactions -/

/-- What `GetTxnExclusionSet` collects in its walk over the dag. `spentBy` knows for each outpoint the
transaction that spends it first. -/
structure TxnScan where
  mapTx : AList fun _ : Uint256 => CTransaction := ∅
  createdBy : AList fun _ : COutPoint => Uint256 := ∅
  spentBy : AList fun _ : COutPoint => Uint256 := ∅
  losers : Finset Uint256 := ∅
  order : List Uint256 := []

namespace TxnScan

def create (txid : Uint256) (scan : TxnScan) (outpoint : COutPoint) : TxnScan :=
  if outpoint ∈ scan.createdBy then scan
  else { scan with createdBy := scan.createdBy.insert outpoint txid }

/-- The first spend of an outpoint is good; any later one loses to it. -/
def spend (txid : Uint256) (scan : TxnScan) (input : CTxIn) : TxnScan :=
  if input.isReadOnly then scan
  else if input.prevout ∈ scan.spentBy then { scan with losers := insert txid scan.losers }
  else { scan with spentBy := scan.spentBy.insert input.prevout txid }

/-- A transaction carried by an earlier subblock is already recorded; it is not a second spend. -/
def add (scan : TxnScan) (ptx : CTransaction) : TxnScan :=
  if ptx.isCoinBase ∨ ptx.getId ∈ scan.mapTx then scan
  else
    let txid := ptx.getId
    let scan := { scan with mapTx := scan.mapTx.insert txid ptx, order := scan.order ++ [txid] }
    let scan := ((List.range ptx.vout.length).map ptx.outpointAt).foldl (create txid) scan
    ptx.vin.foldl (spend txid) scan

end TxnScan

/-- The transactions of a node. Uncles are only proofs of work; theirs are not part of the dag. -/
def dagTxns : Option DagNode → List CTransaction
  | some { fUncle := false, subblock := some subblock, .. } => subblock.vtx
  | _ => []

def TxnScan.ofNodes (sortedNodes : List (Option DagNode)) : TxnScan := (sortedNodes.flatMap dagTxns).foldl add {}

def isUnspent (coins : COutPoint → Option Coin) (outpoint : COutPoint) : Bool :=
  match coins outpoint with
  | some coin => !coin.isSpent
  | none => false

section

variable (scan : TxnScan) (pcoins : Option (COutPoint → Option Coin))

/-- The flag `sourced`: all inputs are created by an included transaction or are not created in this dag
and unspent in the coins at its root, if these are passed. -/
def sourced (included : Finset Uint256) (ptx : CTransaction) : Bool :=
  ptx.vin.all fun input =>
    match scan.createdBy.lookup input.prevout, pcoins with
    | some creator, _ => creator ∈ included
    | none, some coins => isUnspent coins input.prevout
    | none, none => true

/-- One step of a pass: the included transactions and the flag `changed`. -/
def sourceStep (state : Finset Uint256 × Bool) (txid : Uint256) : Finset Uint256 × Bool :=
  if txid ∈ scan.losers ∨ txid ∈ state.1 then state
  else
    match scan.mapTx.lookup txid with
    | some ptx => if sourced scan pcoins state.1 ptx then (insert txid state.1, true) else state
    | none => state

/-- Passes over all transactions until one changes nothing. -/
def sourceLoop : ℕ → Finset Uint256 → Option (Finset Uint256)
  | 0, _ => none
  | rounds + 1, included =>
    let (included, changed) := scan.order.foldl (sourceStep scan pcoins) (included, false)
    if changed then sourceLoop rounds included else some included

end

/-- `GetTxnExclusionSet`: the excluded transactions and, among them, those that lose to an earlier spend. -/
def getTxnExclusionSet (rounds : ℕ) (sortedNodes : List (Option DagNode))
    (pcoins : Option (COutPoint → Option Coin)) : Option (Finset Uint256 × Finset Uint256) := do
  let scan := TxnScan.ofNodes sortedNodes
  let included ← sourceLoop scan pcoins rounds ∅
  pure (scan.order.toFinset \ included, scan.losers)

/-! ## The dag of a summary block -/

/-- The reasons for which `AnalyzeSummaryDag` rejects the subblocks of a summary block. -/
inductive DagReject where
  | missingSubblock
  | duplicateSubblock
  | noParent
  | incomplete
  | cycle
deriving DecidableEq, Repr

/-- `strReject`. -/
def DagReject.text : DagReject → String
  | missingSubblock => "bad-summary-dag-missing-subblock"
  | duplicateSubblock => "bad-summary-dag-duplicate-subblock"
  | noParent => "bad-summary-dag-no-parent"
  | incomplete => "bad-summary-dag-incomplete"
  | cycle => "bad-summary-dag-cycle"

/-- `vOrdered` and `setTxnExclusions`. -/
structure SummaryDag where
  vOrdered : List (Option DagSubblock)
  setTxnExclusions : Finset Uint256

/-- The private graph: the fresh nodes, where they are, and how they are found by hash. -/
structure SummaryGraph where
  heap : DagHeap := fun _ => {}
  mapNodes : AList fun _ : Uint256 => CTreeNodeRef := ∅
  nodes : List CTreeNodeRef := []

namespace SummaryGraph

/-- A fresh node for a subblock, at the address that `make_shared` returns. -/
def addSubblock (alloc : ℕ → CTreeNodeRef) (graph : SummaryGraph) :
    Option DagSubblock → Except DagReject SummaryGraph
  | none => .error .missingSubblock
  | some subblock =>
    if subblock.hash ∈ graph.mapNodes then .error .duplicateSubblock
    else
      let node := alloc graph.nodes.length
      .ok {
        heap := Function.update graph.heap node { hash := subblock.hash, subblock := some subblock }
        mapNodes := graph.mapNodes.insert subblock.hash node
        nodes := graph.nodes ++ [node] }

variable (graph : SummaryGraph) (hashSummaryRoot : Uint256)

/-- The parents of a node. A base subblock's only parent is the summary root, which is no node. -/
def parentsOf (subblock : DagSubblock) :
    Except DagReject (Finset CTreeNodeRef) :=
  if subblock.prevHashes = ∅ then .error .noParent
  else if subblock.prevHashes = {hashSummaryRoot} then .ok ∅
  else if subblock.prevHashes ⊆ graph.mapNodes.keys.toFinset then
    .ok (subblock.prevHashes.biUnion fun prevHash => (graph.mapNodes.lookup prevHash).toFinset)
  else .error .incomplete

/-- The graph with `node->setAncestors` filled. -/
def withAncestors (node : CTreeNodeRef) (setAncestors : Finset CTreeNodeRef) : SummaryGraph :=
  { graph with heap := Function.update graph.heap node { graph.heap node with setAncestors } }

def linkNode (graph : SummaryGraph) (node : CTreeNodeRef) :
    Except DagReject SummaryGraph :=
  match (graph.heap node).subblock with
  | none => .ok graph
  | some subblock => (graph.parentsOf hashSummaryRoot subblock).map (graph.withAncestors node)

def ofSubblocks (alloc : ℕ → CTreeNodeRef) (hashSummaryRoot : Uint256) (vSubblocks : List (Option DagSubblock)) :
    Except DagReject SummaryGraph := do
  let graph ← vSubblocks.foldlM (addSubblock alloc) {}
  graph.nodes.foldlM (linkNode hashSummaryRoot) graph

/-- The order of the nodes and what follows from it. -/
def analyze (rounds : ℕ) (coinsSummaryRoot : COutPoint → Option Coin) :
    Option (Except DagReject SummaryDag) := do
  let ordered ← graph.heap.orderDag rounds graph.nodes
  if ordered.length ≠ graph.nodes.length then pure (.error .cycle)
  else
    let (setTxnExclusions, _) ←
      getTxnExclusionSet rounds (ordered.map fun node => some (graph.heap node)) (some coinsSummaryRoot)
    pure (.ok { vOrdered := ordered.map fun node => (graph.heap node).subblock, setTxnExclusions })

end SummaryGraph

def analyzeSummaryDag (alloc : ℕ → CTreeNodeRef) (rounds : ℕ) (hashSummaryRoot : Uint256)
    (vSubblocks : List (Option DagSubblock)) (coinsSummaryRoot : COutPoint → Option Coin) :
    Option (Except DagReject SummaryDag) :=
  match SummaryGraph.ofSubblocks alloc hashSummaryRoot vSubblocks with
  | .error strReject => some (.error strReject)
  | .ok graph => graph.analyze rounds coinsSummaryRoot

end Nexa
