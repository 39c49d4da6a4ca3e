import Nexa.Model.Chain.Daa
import Nexa.Model.Consensus.HeaderValidation

/-! # Header checks against the chain

`ContextualCheckBlockHeader` of `validation/validation.cpp`, cut into the groups of checks the source
makes one after the other, and the chains of headers it accepts together with `CheckBlockHeader`.
-/

namespace Nexa

variable (node : NodeContext) (block : CBlockHeader) (pindexPrev : BlockIndexRef)

/-- The height a child of `pindexPrev` has, a `uint32_t`. -/
def childHeight : BlockIndexRef → UInt32
  | [] => 0
  | prev :: _ => UInt32.ofNat (prev.height + 1)

/-- The ancestor hash of a summary block. A null `pindexPrev` is dereferenced. -/
def checkAncestorHash : Validation Unit := do
  match ← getChildsConsensusAncestor pindexPrev with
  | [] =>
    rejectIf (block.height ≠ 0) 100 .invalid "bad-ancestor-hash"
    rejectIf (block.hashAncestor ≠ 0) 100 .invalid "bad-ancestor-hash"
  | ancestor :: _ => rejectIf (block.hashAncestor ≠ ancestor.getHash) 100 .invalid "bad-ancestor-hash"

/-- The mining hashes of a summary block: of the proofs it lists and of its own. -/
def prevHashes (prevHeader : CBlockHeader) : List Uint256 :=
  (parseSummaryBlockMinerData prevHeader.minerData).vSubblockProofs.map SubblockProof.powHash ++
    [prevHeader.ownProof.powHash]

/-- Proofs that were used in the previous block cannot be used again as uncles. -/
def checkUncles : Validation Unit :=
  match pindexPrev with
  | [] => pure ()
  | prev :: _ =>
    let ret := parseSummaryBlockMinerData block.minerData
    if prev.header.isTailstormSummaryBlock && block.isTailstormSummaryBlock then
      rejectIf (∃ uncle ∈ ret.vSubblockProofs.take ret.nUncles.toNat, uncle.powHash ∈ prevHashes prev.header)
        100 .invalid "bad-blk-uncle"
    else if block.isTailstormSummaryBlock then
      rejectIf (0 < ret.nUncles) 100 .invalid "bad-blk-uncles-present"
    else pure ()

/-- The adaptive block size limit, divided by K for a subblock. -/
def checkSize : Validation Unit :=
  match pindexPrev with
  | [] => pure ()
  | prev :: _ =>
    if block.isSummaryBlock then
      rejectIf (node.getNextMaxBlockSize prev < block.size) 100 .invalid "bad-blk-size"
    else do
      assertThat (node.params.tailstormK ≠ 0)
      rejectIf ((node.getNextMaxBlockSize prev).toNat / node.params.tailstormK.toNat < block.size.toNat)
        100 .invalid "bad-subblock-size"

def checkDiffBits : Validation Unit := do
  let legacy := block.isSummaryBlock && !block.isTailstormSummaryBlock
  let expectedNbits ← getNextWorkRequired node.params pindexPrev block (!legacy)
  rejectIf (block.nBits ≠ expectedNbits) 100 .invalid "bad-diffbits"

/-- The counts and the grandparent hash in the miner data of a Tailstorm summary block. -/
def checkMinerData : Validation Unit := do
  let ret := parseSummaryBlockMinerData block.minerData
  rejectIf (ret.vSubblockProofs.length ≠ node.params.tailstormK.toNat - 1 ∧
      ret.vSubblockProofs.length ≠ ret.nUncles.toNat + ret.nSubblocks.toNat)
    100 .invalid "bad-miner-data-size"
  if childHeight pindexPrev < 2 then
    rejectIf (ret.prevOfprevhash ≠ 0) 100 .invalid "bad-miner-data-grandparent-hash"
  else
    match pindexPrev with
    | _ :: pprev :: _ =>
      if ret.nUncles ≠ 0 then
        rejectIf (ret.prevOfprevhash ≠ pprev.getHash) 100 .invalid
          "bad-miner-data-uncles-but-incorrect-grandparent-hash"
      else
        rejectIf (¬(ret.prevOfprevhash = pprev.getHash ∨ ret.prevOfprevhash = 0)) 100 .invalid
          "bad-miner-no-uncles-bad-grandparent-hash"
    | _ => crash

/-- The chain work before the block plus what its counts claim. -/
def expectedChainWork : Uint256 :=
  let ret := parseSummaryBlockMinerData block.minerData
  let before := match pindexPrev with
    | [] => 0
    | prev :: _ => prev.header.chainWork
  before + BitVec.ofNat 256 ret.nUncles.toNat * getWorkForDifficultyBits ret.nBitsUncle +
    BitVec.ofNat 256 ret.nSubblocks.toNat * getWorkForDifficultyBits ret.nBitsSubblock +
    getWorkForDifficultyBits block.nBits

/-- The timestamp rule at the end. -/
def checkTimestamp : Validation Unit :=
  match pindexPrev with
  | [] => pure ()
  | _ :: _ => rejectIf ((block.nTime.toNat : ℤ) ≤ getMedianTimePast pindexPrev) 0 .invalid "time-too-old"

/-- The checkpoint rules and the timestamp rule, which a header of the main chain skips. -/
def checkCheckpointsAndTime : Validation Unit := do
  let nHeight := (childHeight pindexPrev).toNat
  if block.isSummaryBlock && node.fCheckpointsEnabled then
    rejectIf (node.checkAgainstCheckpoint nHeight block.getHash = false) 0 .checkpoint "bad-header-at-checkpoint"
    if node.chainActive[nHeight]? = some block then pure ()
    else
      rejectIf (node.getLastCheckpoint.any fun pcheckpoint => nHeight < pcheckpoint.height)
        100 .fork "bad-fork-prior-to-checkpoint"
      checkTimestamp block pindexPrev
  else checkTimestamp block pindexPrev

def contextualCheckBlockHeader : Validation Unit := do
  let fSummaryBlock := block.isSummaryBlock
  rejectIf (fSummaryBlock ∧ block.height ≠ childHeight pindexPrev) 100 .invalid "bad-height"
  rejectIf (block.feePoolAmt ≠ 0) 100 .invalid "bad-fee-pool"
  rejectIf (2 < getMinerDataVersion block.minerData) 100 .invalid "bad-miner-data-version"
  if fSummaryBlock then checkAncestorHash block pindexPrev
  rejectIf (!node.isUpgrade2Pending pindexPrev ∧ !node.isUpgrade2Activated pindexPrev ∧ 0 < block.numSubblocks)
    100 .invalid "bad-miner-data"
  rejectIf (node.isUpgrade2Activated pindexPrev ∧ fSummaryBlock ∧ !block.isTailstormSummaryBlock)
    100 .invalid "bad-block-invalid"
  rejectIf (block.hashTxFilter ≠ 0) 100 .invalid "bad-txfilter"
  checkUncles block pindexPrev
  checkSize node block pindexPrev
  checkDiffBits node block pindexPrev
  if fSummaryBlock then
    if block.isTailstormSummaryBlock then checkMinerData node block pindexPrev
    rejectIf (block.chainWork ≠ expectedChainWork block pindexPrev) 100 .invalid "bad-chainwork"
  checkCheckpointsAndTime node block pindexPrev

/-- A header that both functions accept on top of `pindexPrev`. -/
structure AcceptedHeader : Prop where
  header : checkBlockHeader node.crypto node.params node.adjustedTime block true = .ok ()
  contextual : contextualCheckBlockHeader node block pindexPrev = .ok ()

instance : Decidable (AcceptedHeader node block pindexPrev) :=
  decidable_of_iff (_ ∧ _) ⟨fun both => ⟨both.1, both.2⟩, fun both => ⟨both.1, both.2⟩⟩

variable {node block pindexPrev}

theorem contextualCheckBlockHeader_summary (summary : block.isSummaryBlock)
    (accepted : contextualCheckBlockHeader node block pindexPrev = .ok ()) :
    block.height = childHeight pindexPrev ∧ checkAncestorHash block pindexPrev = .ok () ∧
      checkUncles block pindexPrev = .ok () ∧
      (block.isTailstormSummaryBlock → checkMinerData node block pindexPrev = .ok ()) ∧
      block.chainWork = expectedChainWork block pindexPrev := by
  simp only [contextualCheckBlockHeader, summary, true_and, ↓reduceIte, Validation.seq_eq_ok_iff,
    rejectIf_eq_ok_iff, not_not] at accepted
  obtain ⟨height, -, -, ancestor, -, -, -, uncles, -, -, rest⟩ := accepted
  split_ifs at rest with tailstorm
  · simp only [Validation.seq_eq_ok_iff, rejectIf_eq_ok_iff, not_not] at rest
    exact ⟨height, ancestor, uncles, fun _ => rest.1, rest.2.1⟩
  · simp only [Validation.seq_eq_ok_iff, rejectIf_eq_ok_iff, not_not] at rest
    exact ⟨height, ancestor, uncles, fun contradiction => (tailstorm contradiction).elim, rest.1⟩

end Nexa
