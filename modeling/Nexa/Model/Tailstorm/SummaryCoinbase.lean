import Nexa.Model.Consensus.Pow
import Nexa.Model.Primitives.Block
import Nexa.Model.Tailstorm.Dag

/-! # The coinbase of a summary block

`ValidateSummaryBlockCoinbase` shares the block reward in proportion to the scores of the dag; the
summary block itself has the score K-1 and what is left over from rounding. The coinbase of a summary
block is compared with these shares after the outputs have been grouped by script.
-/

namespace Nexa

/-! ## The dag -/

/-- The nodes in memory, numbered so that parents come before their children: no links in a circle. -/
structure CTailstormTree where
  node : DagHeap
  parents_lt : ∀ ref, ∀ parent ∈ node.parents ref, parent < ref

/-- A dag as `GetDagForBlock` collects it from the nodes of a tree: no node is listed twice. -/
structure BestDag where
  nodes : List CTreeNodeRef
  nodup : nodes.Nodup

variable (tree : CTailstormTree)

/-- `CalculateAncestors`. Every round leads to smaller numbers, so that `node` of them come to the end. -/
def CTailstormTree.ancestors (node : CTreeNodeRef) : Finset CTreeNodeRef :=
  (calculateAncestors tree.node.parents (node + 1) node).getD ∅

def getDagScores (dagNodes : List CTreeNodeRef) : DagScores :=
  scoresOf tree.node.isUncle tree.ancestors dagNodes

/-! ## Outputs grouped by script -/

/-- The bytes of two scripts of one length, compared from the first on. -/
def bytesBefore : Bytes → Bytes → Bool
  | a :: as, b :: bs => decide (a < b) || (decide (a = b) && bytesBefore as bs)
  | _, _ => false

/-- The order of scripts in a `std::map`: shorter ones come first. -/
def CScript.before (a b : CScript) : Bool :=
  decide (a.length < b.length) || (decide (a.length = b.length) && bytesBefore a b)

/-- A `std::map<CScript, CTxOut>`. -/
abbrev OutputMap := AList fun _ : CScript => CTxOut

/-- The entries in the order in which a loop over the map meets them. -/
def OutputMap.inOrder (outputs : OutputMap) : List (Σ _ : CScript, CTxOut) :=
  outputs.entries.insertionSort fun x y => y.1.before x.1 = false

/-- Combines outputs that have the same script. -/
def groupOutputs : List CTxOut → OutputMap → Validation OutputMap
  | [], outputs => pure outputs
  | out :: rest, outputs =>
    match outputs.lookup out.scriptPubKey with
    | none => groupOutputs rest (outputs.insert out.scriptPubKey out)
    | some grouped => do
      let nValue ← grouped.nValue.add out.nValue
      groupOutputs rest (outputs.insert out.scriptPubKey { grouped with nValue })

def sumAmounts : CAmount → List CAmount → Validation CAmount
  | total, [] => pure total
  | total, amount :: rest => do
    let total ← total.add amount
    sumAmounts total rest

/-! ## The check of the coinbase -/

/-- `nBlockReward * score / nTotalScores`. -/
def rewardShare (nBlockReward : CAmount) (score nTotalScores : UInt32) : Validation CAmount := do
  let product ← CAmount.ofResult (nBlockReward.toInt * score.toNat)
  assertThat (nTotalScores ≠ 0)
  CAmount.ofResult (product.toInt.tdiv nTotalScores.toNat)

/-- The first output of the first transaction of a subblock. -/
def DagNode.payout (node : DagNode) : Option CTxOut := do
  let subblock ← node.subblock
  let coinbase ← subblock.vtx.head?
  coinbase.vout.head?

def CTailstormTree.payoutScript (ref : CTreeNodeRef) : Option CScript := (tree.node ref).payout.map CTxOut.scriptPubKey

/-- The outputs for the nodes that have a score. -/
def shareOutputs (nBlockReward : CAmount) (nTotalScores : UInt32) :
    List (Σ _ : CTreeNodeRef, UInt32) → Validation (List CTxOut)
  | [] => pure []
  | ⟨ref, score⟩ :: rest =>
    match (tree.node ref).payout with
    | none => crash
    | some out => do
      let nValue ← rewardShare nBlockReward score nTotalScores
      let vout ← shareOutputs nBlockReward nTotalScores rest
      pure ({ out with nValue } :: vout)

variable (params : Params)

def summaryBlockScore : UInt32 := params.tailstormK - 1

def totalScores (mapScores : DagScores) : UInt32 :=
  mapScores.entries.foldl (fun total entry => total + entry.2) (summaryBlockScore params)

/-- The outputs the dag asks for, as the check and the miner compute them. The last share is that of the summary block,
with the remainder; a vector longer than there are scores ends in null outputs. -/
def rewardOutputs (nBlockReward : CAmount) (setBestDag : BestDag) (summary : CAmount → CTxOut) :
    Validation (List CTxOut) := do
  let mapScores := getDagScores tree setBestDag.nodes
  let nTotalScores := totalScores params mapScores
  -- the vector was resized for the nodes of the dag and the summary block
  assertThat (mapScores.entries.length ≤ setBestDag.nodes.length)
  let vout ← shareOutputs tree nBlockReward nTotalScores mapScores.entries
  let nTotalSubsidies ← sumAmounts 0 (vout.map CTxOut.nValue)
  let nSummaryBlockReward ← rewardShare nBlockReward (summaryBlockScore params) nTotalScores
  let nTotalSubsidies ← nTotalSubsidies.add nSummaryBlockReward
  let remainder ← CAmount.ofResult (nBlockReward.toInt - nTotalSubsidies.toInt)
  let nValue ← nSummaryBlockReward.add remainder
  pure (vout ++ summary nValue :: List.replicate (setBestDag.nodes.length - mapScores.entries.length) ({} : CTxOut))

/-- The comparison of the coinbase with the dag: a group with the same value on both sides is settled,
the others are added up. -/
def compareOutputs (several : Bool) : List (Σ _ : CScript, CTxOut) → OutputMap → CAmount →
    Validation (OutputMap × CAmount)
  | [], mapGroupedDagOutputs, nCoinbaseSummary => pure (mapGroupedDagOutputs, nCoinbaseSummary)
  | ⟨pubkey, out⟩ :: rest, mapGroupedDagOutputs, nCoinbaseSummary =>
    if several && (mapGroupedDagOutputs.lookup pubkey).any fun due => due.nValue = out.nValue then
      compareOutputs several rest (mapGroupedDagOutputs.erase pubkey) nCoinbaseSummary
    else do
      let nCoinbaseSummary ← nCoinbaseSummary.add out.nValue
      compareOutputs several rest mapGroupedDagOutputs nCoinbaseSummary

/-- What is left on the two sides adds up to the same amount. -/
def compareSums (mapCoinbaseOutputs mapGroupedDagOutputs : OutputMap) : Validation Bool := do
  let (unsettled, nCoinbaseSummary) ← compareOutputs (1 < mapCoinbaseOutputs.entries.length)
    mapCoinbaseOutputs.inOrder mapGroupedDagOutputs 0
  let nGroupedSummaryValue ← sumAmounts 0 (unsettled.inOrder.map fun entry => entry.2.nValue)
  pure (decide (nGroupedSummaryValue = nCoinbaseSummary))

/-- The loop over the dag when the coinbase has one script only. -/
def allPaidBy (mapCoinbaseOutputs : OutputMap) : List CTreeNodeRef → Validation Bool
  | [] => pure true
  | ref :: rest =>
    match tree.payoutScript ref with
    | none => crash
    | some script => if script ∈ mapCoinbaseOutputs then allPaidBy mapCoinbaseOutputs rest else pure false

/-- The special case of a single coinbase script, which must be that of every subblock. -/
def checkSingleScript (mapCoinbaseOutputs : OutputMap) (nodes : List CTreeNodeRef) : Validation Bool :=
  if mapCoinbaseOutputs.entries.length = 1 then allPaidBy tree mapCoinbaseOutputs nodes else pure true

/-- The outputs of the coinbase but for the last one, which holds data. -/
def CBlock.coinbasePayouts (block : CBlock) : List CTxOut := (block.vtx.head?.elim [] CTransaction.vout).dropLast

def validateSummaryBlockCoinbase (nBlockReward : CAmount) (block : CBlock)
    (setBestDag : BestDag) : Validation Bool := do
  -- the check does not know the script of the summary block
  let vout ← rewardOutputs tree params nBlockReward setBestDag fun nValue => { nValue }
  let mapGroupedDagOutputs ← groupOutputs vout ∅
  assertThat (block.vtx ≠ [])
  let mapCoinbaseOutputs ← groupOutputs block.coinbasePayouts ∅
  let allPaid ← checkSingleScript tree mapCoinbaseOutputs setBestDag.nodes
  if allPaid then compareSums mapCoinbaseOutputs mapGroupedDagOutputs else pure false

end Nexa
