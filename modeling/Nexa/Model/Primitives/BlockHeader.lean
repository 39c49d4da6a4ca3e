import Nexa.Model.Core.ArithUint256

/-! # Block headers and Tailstorm miner data

A header commits to its parent, its difficulty and an extended part that holds everything else.
The `minerData` bytes start with a version: 0 for the blocks before the Tailstorm fork, 1 for a
subblock and 2 for a summary block. A summary block lists the proofs of work of the subblocks (and of
uncles from the previous epoch) it collects, and two counts that say how many of each it credits.
-/

namespace Nexa

/-- `CBlockHeader`; the defaults are those of `SetNull`. -/
structure CBlockHeader where
  hashPrevBlock : Uint256 := 0
  nBits : UInt32 := 0
  hashAncestor : Uint256 := 0
  hashMerkleRoot : Uint256 := 0
  hashTxFilter : Uint256 := 0
  nTime : UInt32 := 0
  height : UInt32 := 0
  chainWork : Uint256 := 0
  size : UInt64 := 0
  txCount : UInt64 := 0
  feePoolAmt : UInt64 := 0
  utxoCommitment : Bytes := []
  minerData : Bytes := []
  nonce : Bytes := []
deriving DecidableEq, Repr

def maxNonceSize : ℕ := 16

def minerDataSubblockVersion : UInt8 := 1

def minerDataSummaryBlockVersion : UInt8 := 2

namespace CBlockHeader

variable (block : CBlockHeader)

/-- The digest of the mini header, which is all a very light client keeps of the parent link. -/
def miniHash : Uint256 := sha256 (block.hashPrevBlock.toBytes ++ bytesLE 4 block.nBits.toNat)

/-- The bytes of the extended header that precede the nonce; the height is widened to 64 bits. -/
def extHeader : Bytes :=
  block.hashAncestor.toBytes ++ block.hashTxFilter.toBytes ++ block.hashMerkleRoot.toBytes ++
    bytesLE 4 block.nTime.toNat ++ bytesLE 8 block.height.toNat ++ block.chainWork.toBytes ++
    bytesLE 8 block.size.toNat ++ bytesLE 8 block.txCount.toNat ++ bytesLE 8 block.feePoolAmt.toNat ++
    writeVector block.utxoCommitment ++ writeVector block.minerData

/-- `GetMiningHeaderCommitment`: everything but the nonce. -/
def getMiningHeaderCommitment : Uint256 := sha256 (block.miniHash.toBytes ++ (sha256 block.extHeader).toBytes)

/-- `GetHash`: the identity of the block, with the nonce inside the extended header. -/
def getHash : Uint256 :=
  sha256 (block.miniHash.toBytes ++ (sha256 (block.extHeader ++ writeVector block.nonce)).toBytes)

end CBlockHeader

/-- The global `GetMiningHash`, also applied to the proofs that a summary block lists. -/
def getMiningHash (headerCommitment : Uint256) (nonce : Bytes) : Uint256 :=
  hash256 (headerCommitment.toBytes ++ writeVector nonce)

def CBlockHeader.getMiningHash (block : CBlockHeader) : Uint256 :=
  Nexa.getMiningHash block.getMiningHeaderCommitment block.nonce

/-- A proof of work as minerData stores it: a mining header commitment and a nonce. -/
abbrev SubblockProof := Uint256 × Bytes

/-- The hash that is tested against a target for a listed proof. -/
def SubblockProof.powHash (proof : SubblockProof) : Uint256 := getMiningHash proof.1 proof.2

/-- The proof of work a header itself supplies, in the form other headers could list it. -/
def CBlockHeader.ownProof (block : CBlockHeader) : SubblockProof := (block.getMiningHeaderCommitment, block.nonce)

structure CSummaryBlockMinerData where
  prevOfprevhash : Uint256 := 0
  nUncles : UInt8 := 0
  nBitsUncle : UInt32 := 0
  nSubblocks : UInt8 := 0
  nBitsSubblock : UInt32 := 0
  vSubblockProofs : List SubblockProof := []
deriving DecidableEq, Repr

/-- The fields in the order in which `ParseSummaryBlockMinerData` extracts them. -/
def readSummaryBlockMinerData : Reader (UInt8 × CSummaryBlockMinerData) := do
  let minerDataVersion ← readUInt8
  let prevOfprevhash ← readUint256
  let nUncles ← readUInt8
  let nBitsUncle ← readUInt32
  let nSubblocks ← readUInt8
  let nBitsSubblock ← readUInt32
  let vSubblockProofs ← readList (do
    let miningHeaderCommitment ← readUint256
    let nonce ← readVector
    pure (miningHeaderCommitment, nonce))
  pure (minerDataVersion, { prevOfprevhash, nUncles, nBitsUncle, nSubblocks, nBitsSubblock, vSubblockProofs })

variable (data : Bytes)

/-- `ParseSummaryBlockMinerData`: data that cannot be read, or is of another version, gives the
empty record. Bytes after the proofs are ignored. -/
def parseSummaryBlockMinerData : CSummaryBlockMinerData :=
  match readSummaryBlockMinerData data with
  | some ((minerDataVersion, minerData), _) =>
    if minerDataVersion ≠ minerDataSummaryBlockVersion then {} else minerData
  | none => {}

def getMinerDataVersion : UInt8 := data.headD 0

namespace CBlockHeader

variable (block : CBlockHeader)

def isSummaryBlock : Bool := getMinerDataVersion block.minerData ≠ minerDataSubblockVersion

def isTailstormSummaryBlock : Bool := getMinerDataVersion block.minerData = minerDataSummaryBlockVersion

def isSubblock : Bool := getMinerDataVersion block.minerData = minerDataSubblockVersion

/-- `NumSubblocks`: the number of proofs, whatever the two counts say. -/
def numSubblocks : ℕ := (parseSummaryBlockMinerData block.minerData).vSubblockProofs.length

/-- `GetBlockWork`: the credit comes from the counts, not from the proofs. -/
def getBlockWork : Uint256 :=
  let work := getWorkForDifficultyBits block.nBits
  if block.isTailstormSummaryBlock then
    let tsData := parseSummaryBlockMinerData block.minerData
    let work :=
      if 0 < tsData.nUncles then
        work + getWorkForDifficultyBits tsData.nBitsUncle * BitVec.ofNat 256 tsData.nUncles.toNat
      else work
    work + getWorkForDifficultyBits tsData.nBitsSubblock * BitVec.ofNat 256 tsData.nSubblocks.toNat
  else work

end CBlockHeader

/-- The miner data of a summary block could be read to its last field. -/
def MinerDataParses : Prop := (readSummaryBlockMinerData data).isSome

instance (data : Bytes) : Decidable (MinerDataParses data) := inferInstanceAs (Decidable (_ = true))

theorem minerDataParses_of_proofs {data : Bytes}
    (listed : (parseSummaryBlockMinerData data).vSubblockProofs ≠ []) : MinerDataParses data := by
  unfold parseSummaryBlockMinerData at listed
  split at listed
  · next read => simp [MinerDataParses, read]
  · exact (listed rfl).elim

theorem isTailstormSummaryBlock_of_proofs {block : CBlockHeader}
    (listed : (parseSummaryBlockMinerData block.minerData).vSubblockProofs ≠ []) : block.isTailstormSummaryBlock := by
  unfold parseSummaryBlockMinerData at listed
  split at listed
  · next read =>
    split_ifs at listed with version
    · exact (listed rfl).elim
    · -- the version byte is the first field that is read
      simp only [readSummaryBlockMinerData, bind, StateT.bind, Option.bind_eq_some_iff,
        Prod.exists] at read
      obtain ⟨_, _, first, _, _, -, _, _, -, _, _, -, _, _, -, _, _, -, _, _, -, ⟨rfl, -⟩, -⟩ := read
      rw [CBlockHeader.isTailstormSummaryBlock]
      cases data : block.minerData with
      | nil => simp [data, readUInt8, readLE, readBytes, Functor.map, StateT.map] at first
      | cons byte data =>
        simp only [data, readUInt8, readLE, readBytes, Functor.map, StateT.map] at first
        simp at first
        simpa [getMinerDataVersion, ← first.1, natLE] using version
  · exact (listed rfl).elim

end Nexa
