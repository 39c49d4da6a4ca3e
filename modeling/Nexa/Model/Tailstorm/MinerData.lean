import Nexa.Model.Primitives.BlockHeader
import Nexa.Model.Tailstorm.Dag

/-! # The miner data of subblocks and summary blocks

`GenerateMinerData`: while the best dag has fewer than `tailstorm_k - 1` nodes it names the tips of the
dag, which the next subblock builds on; a dag of that size is summarized, uncles first.
-/

namespace Nexa

/-- What is read of a node. `CheckBlockHeader` keeps subblocks with a longer nonce out of the dag. -/
structure MinerDataNode where
  hash : Uint256 := 0
  fUncle : Bool := false
  setDescendants : Finset CTreeNodeRef := ∅
  subblock : CBlockHeader := {}
  nonce_le : subblock.nonce.length ≤ maxNonceSize := by decide

namespace MinerDataNode

def isTip (node : MinerDataNode) : Bool := node.setDescendants.card = 0

def proof (node : MinerDataNode) : SubblockProof := node.subblock.ownProof

end MinerDataNode

/-- The counter, the example of the bits and the list that the two loops of `GenerateMinerData` fill. -/
structure PackedNodes where
  count : UInt8 := 0
  nBits : UInt32 := 0
  vMinerData : List SubblockProof := []

/-- The first bits are kept as an example; bits of 0 count as not yet set. -/
def exampleBits (kept nBits : UInt32) : Validation UInt32 :=
  if kept = 0 then pure nBits
  else do
    assertThat (kept = nBits)
    pure kept

/-- The loop over the uncles, and the loop over the other subblocks. -/
def packNodes (fUncle : Bool) : List MinerDataNode → PackedNodes → Validation PackedNodes
  | [], packed => pure packed
  | node :: rest, packed =>
    if node.fUncle = fUncle then do
      let nBits ← exampleBits packed.nBits node.subblock.nBits
      packNodes fUncle rest { count := packed.count + 1, nBits, vMinerData := packed.vMinerData ++ [node.proof] }
    else packNodes fUncle rest packed

/-- Serialization of a `std::pair` of a commitment and a nonce. -/
def SubblockProof.serialize (proof : SubblockProof) : Bytes := proof.1.toBytes ++ writeVector proof.2

/-- The fields in the order in which `GenerateMinerData` writes them. -/
def CSummaryBlockMinerData.serialize (minerData : CSummaryBlockMinerData) : Bytes :=
  minerDataSummaryBlockVersion :: (minerData.prevOfprevhash.toBytes ++ ([minerData.nUncles] ++
    (bytesLE 4 minerData.nBitsUncle.toNat ++ ([minerData.nSubblocks] ++ (bytesLE 4 minerData.nBitsSubblock.toNat ++
      (writeCompactSize minerData.vSubblockProofs.length ++
        minerData.vSubblockProofs.flatMap SubblockProof.serialize))))))

/-- `(size_t)tailstorm_k - 1`, the number of nodes that a summary block credits. -/
def creditedNodes (tailstormK : UInt32) : ℕ := (tailstormK.toUInt64 - 1).toNat

def generateMinerData (tailstormK : UInt32) (setBestDag : List MinerDataNode) (prevOfprevhash : Uint256) :
    Validation Bytes :=
  if setBestDag.length < creditedNodes tailstormK then
    let tips := (setBestDag.filter fun node => !node.fUncle && node.isTip).map MinerDataNode.hash
    pure (minerDataSubblockVersion :: (writeCompactSize tips.length ++ tips.flatMap Uint256.toBytes))
  else do
    assertThat (setBestDag.length = creditedNodes tailstormK)
    let uncles ← packNodes true setBestDag {}
    let subblocks ← packNodes false setBestDag { vMinerData := uncles.vMinerData }
    pure (CSummaryBlockMinerData.serialize
      { prevOfprevhash, nUncles := uncles.count, nBitsUncle := uncles.nBits, nSubblocks := subblocks.count,
        nBitsSubblock := subblocks.nBits, vSubblockProofs := subblocks.vMinerData })

end Nexa
