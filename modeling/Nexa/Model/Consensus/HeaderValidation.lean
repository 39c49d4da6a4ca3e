import Nexa.Model.Consensus.Pow

/-! # Context-free header checks

`CheckTailstormSummaryBlockProofOfWork` and `CheckBlockHeader` of `validation/headervalidation.cpp`.
The proofs a summary block lists are classified by position: the first `nUncles` of them belong to
the previous epoch and are tested with `nBitsUncle`, the others with `nBitsSubblock`.
-/

namespace Nexa

open List

variable (crypto : Crypto) (params : Params)

/-- The loop over `vSubblockProofs`; `count` is the position and `setExists` the hashes seen so far. -/
def checkSubblockProofs (block : CBlockHeader) (ret : CSummaryBlockMinerData) :
    ℕ → List Uint256 → List SubblockProof → Validation Unit
  | _, _, [] => pure ()
  | count, setExists, proof :: rest => do
    let powHash := proof.powHash
    if ret.nUncles.toNat ≤ count then
      let met ← checkProofOfWork crypto params powHash block.hashPrevBlock ret.nBitsSubblock
      rejectIf (met = false) 50 .invalid "bad-blk-subblock-high-hash"
    else
      let met ← checkProofOfWork crypto params powHash ret.prevOfprevhash ret.nBitsUncle
      rejectIf (met = false) 50 .invalid "bad-blk-subblock-high-hash"
    rejectIf (powHash ∈ setExists) 50 .invalid "bad-blk-duplicate-mining-hash"
    checkSubblockProofs block ret (count + 1) (powHash :: setExists) rest

def checkTailstormSummaryBlockProofOfWork (block : CBlockHeader) : Validation Unit := do
  let ret := parseSummaryBlockMinerData block.minerData
  -- A summary block must reference K-1 subblocks; the source joins the two tests with `&&`.
  rejectIf (ret.vSubblockProofs.length ≠ params.tailstormK.toNat - 1 ∧
      ret.vSubblockProofs.length ≠ ret.nUncles.toNat + ret.nSubblocks.toNat)
    100 .invalid "bad-blk-wrong-number-of-subblocks"
  let met ← checkProofOfWork crypto params block.getMiningHash block.hashPrevBlock block.nBits
  rejectIf (met = false) 50 .invalid "bad-blk-subblock-high-hash"
  checkSubblockProofs crypto params block ret 0 [] ret.vSubblockProofs
  rejectIf (ret.nUncles ≠ 0 ∧ ret.prevOfprevhash = 0) 50 .invalid "bad-blk-invalid-uncle-parent"

/-- `MAX_FUTURE_BLOCK_TIME`: two hours. -/
def maxFutureBlockTime : ℤ := 2 * 60 * 60

/-- `CheckBlockHeader`; `adjustedTime` is `GetAdjustedTime()`. -/
def checkBlockHeader (adjustedTime : ℤ) (block : CBlockHeader) (fCheckPOW : Bool) : Validation Unit := do
  rejectIf (block.size = 0) 100 .invalid "bad-size"
  rejectIf (maxNonceSize < block.nonce.length) 100 .invalid "bad-nonce"
  if fCheckPOW then
    if getMinerDataVersion block.minerData = minerDataSummaryBlockVersion then
      checkTailstormSummaryBlockProofOfWork crypto params block
    else
      let prevhash :=
        if getMinerDataVersion block.minerData = minerDataSubblockVersion then block.hashPrevBlock else 0
      let met ← checkProofOfWork crypto params block.getMiningHash prevhash block.nBits
      rejectIf (met = false) 50 .invalid "high-hash"
  rejectIf (adjustedTime + maxFutureBlockTime < block.nTime.toNat) 0 .invalid "time-too-new"
  rejectIf (block.utxoCommitment.length ≠ 0) 100 .invalid "bad-utxo-commitment"

/-- The bits against which the proof at position `count` is tested. -/
def CSummaryBlockMinerData.proofBits (ret : CSummaryBlockMinerData) (count : ℕ) : UInt32 :=
  if ret.nUncles.toNat ≤ count then ret.nBitsSubblock else ret.nBitsUncle

/-- The epoch hash against which the proof at position `count` of a summary block is tested. -/
def CBlockHeader.proofEpoch (block : CBlockHeader) (ret : CSummaryBlockMinerData) (count : ℕ) : Uint256 :=
  if ret.nUncles.toNat ≤ count then block.hashPrevBlock else ret.prevOfprevhash

variable {crypto params} {block : CBlockHeader}

theorem checkSubblockProofs_eq_ok_iff (ret : CSummaryBlockMinerData) (count : ℕ) (setExists : List Uint256)
    (proofs : List SubblockProof) :
    checkSubblockProofs crypto params block ret count setExists proofs = .ok () ↔
      (∀ entry ∈ proofs.zipIdx count, checkProofOfWork crypto params entry.1.powHash
        (block.proofEpoch ret entry.2) (ret.proofBits entry.2) = .ok true) ∧
      (proofs.map SubblockProof.powHash).Nodup ∧ ∀ proof ∈ proofs, proof.powHash ∉ setExists := by
  induction proofs generalizing count setExists with
  | nil => simp [checkSubblockProofs, pure, Except.pure]
  | cons proof rest ih =>
    have step : checkSubblockProofs crypto params block ret count setExists (proof :: rest) = .ok () ↔
        checkProofOfWork crypto params proof.powHash (block.proofEpoch ret count) (ret.proofBits count) = .ok true ∧
        proof.powHash ∉ setExists ∧
        checkSubblockProofs crypto params block ret (count + 1) (proof.powHash :: setExists) rest = .ok () := by
      simp only [checkSubblockProofs, CBlockHeader.proofEpoch, CSummaryBlockMinerData.proofBits]
      split_ifs with position <;>
        simp only [Validation.bind_eq_ok_iff, rejectIf_eq_ok_iff] <;>
        grind
    rw [step, ih]
    constructor
    · rintro ⟨met, fresh, checked, distinct, unseen⟩
      refine ⟨?_, ?_, ?_⟩
      · rw [zipIdx_cons, forall_mem_cons]
        exact ⟨met, checked⟩
      · rw [map_cons, nodup_cons]
        refine ⟨fun member => ?_, distinct⟩
        obtain ⟨other, listed, same⟩ := mem_map.mp member
        exact unseen other listed (same ▸ mem_cons_self)
      · rw [forall_mem_cons]
        exact ⟨fresh, fun other listed seen => unseen other listed (mem_cons_of_mem _ seen)⟩
    · rintro ⟨checked, distinct, unseen⟩
      rw [zipIdx_cons, forall_mem_cons] at checked
      rw [map_cons, nodup_cons] at distinct
      rw [forall_mem_cons] at unseen
      refine ⟨checked.1, unseen.1, checked.2, distinct.2, fun other listed seen => ?_⟩
      rcases mem_cons.mp seen with same | seen
      · exact distinct.1 (same ▸ mem_map_of_mem listed)
      · exact unseen.2 other listed seen

theorem checkTailstormSummaryBlockProofOfWork_eq_ok_iff :
    checkTailstormSummaryBlockProofOfWork crypto params block = .ok () ↔
      let ret := parseSummaryBlockMinerData block.minerData
      (ret.vSubblockProofs.length = params.tailstormK.toNat - 1 ∨
        ret.vSubblockProofs.length = ret.nUncles.toNat + ret.nSubblocks.toNat) ∧
      checkProofOfWork crypto params block.getMiningHash block.hashPrevBlock block.nBits = .ok true ∧
      (∀ entry ∈ ret.vSubblockProofs.zipIdx, checkProofOfWork crypto params entry.1.powHash
        (block.proofEpoch ret entry.2) (ret.proofBits entry.2) = .ok true) ∧
      (ret.vSubblockProofs.map SubblockProof.powHash).Nodup ∧
      (ret.nUncles ≠ 0 → ret.prevOfprevhash ≠ 0) := by
  simp only [checkTailstormSummaryBlockProofOfWork, Validation.bind_eq_ok_iff, rejectIf_eq_ok_iff, Bool.not_eq_false]
  have loop := @checkSubblockProofs_eq_ok_iff crypto params block
    (parseSummaryBlockMinerData block.minerData) 0 [] (parseSummaryBlockMinerData block.minerData).vSubblockProofs
  constructor
  · rintro ⟨-, count, met, own, -, rfl, ⟨⟩, proofs, parent⟩
    obtain ⟨checked, distinct, -⟩ := loop.mp proofs
    exact ⟨by tauto, own, checked, distinct, by tauto⟩
  · rintro ⟨count, own, checked, distinct, parent⟩
    exact ⟨(), by tauto, true, own, (), rfl, (), loop.mpr ⟨checked, distinct, by simp⟩, by tauto⟩

theorem tailstormProofs_of_checkBlockHeader {adjustedTime : ℤ} (tailstorm : block.isTailstormSummaryBlock)
    (accepted : checkBlockHeader crypto params adjustedTime block true = .ok ()) :
    checkTailstormSummaryBlockProofOfWork crypto params block = .ok () := by
  simp only [checkBlockHeader, of_decide_eq_true tailstorm, ↓reduceIte, Validation.bind_eq_ok_iff] at accepted
  obtain ⟨-, -, -, -, ⟨⟩, proofs, -⟩ := accepted
  exact proofs

end Nexa
