import Nexa.Model.Chain.ContextualHeader

/-! # Work credited to a Tailstorm summary header

`GetBlockWork` credits a summary header by the two counts in its miner data, while the proofs of work
that are actually verified are the listed ones. The count rule that should tie the two together joins
its tests with `&&`, so either of them alone is enough. This module states what the rule was meant to
give and proves exactly for which headers the code gives it.
-/

namespace Nexa

open CBlockHeader List

variable {crypto : Crypto} {params : Params} {node : NodeContext} {block : CBlockHeader} {pindexPrev : BlockIndexRef}

/-- What a summary header is meant to prove: `tailstorm_k - 1` distinct proofs, matching the counts. -/
structure SummaryProofsComplete (crypto : Crypto) (params : Params) (block : CBlockHeader)
    (ret : CSummaryBlockMinerData) : Prop where
  parses : MinerDataParses block.minerData
  length : ret.vSubblockProofs.length = params.tailstormK.toNat - 1
  distinct : (ret.vSubblockProofs.map SubblockProof.powHash).Nodup
  counts : ret.nUncles.toNat + ret.nSubblocks.toNat = params.tailstormK.toNat - 1
  uncles : ∀ proof ∈ ret.vSubblockProofs.take ret.nUncles.toNat, ret.prevOfprevhash ≠ 0 ∧
    checkProofOfWork crypto params proof.powHash ret.prevOfprevhash ret.nBitsUncle = .ok true
  subblocks : ∀ proof ∈ ret.vSubblockProofs.drop ret.nUncles.toNat,
    checkProofOfWork crypto params proof.powHash block.hashPrevBlock ret.nBitsSubblock = .ok true

/-- Every listed proof met the bits of its position. -/
def ProofsChecked (crypto : Crypto) (params : Params) (block : CBlockHeader) (ret : CSummaryBlockMinerData) : Prop :=
  ∀ entry ∈ ret.vSubblockProofs.zipIdx, checkProofOfWork crypto params entry.1.powHash
    (block.proofEpoch ret entry.2) (ret.proofBits entry.2) = .ok true

namespace ProofsChecked

variable {ret : CSummaryBlockMinerData} (checked : ProofsChecked crypto params block ret)
include checked

theorem getElem {position : ℕ} (bound : position < ret.vSubblockProofs.length) :
    checkProofOfWork crypto params (SubblockProof.powHash ret.vSubblockProofs[position])
      (block.proofEpoch ret position) (ret.proofBits position) = .ok true :=
  checked (_, position) (mk_mem_zipIdx_iff_getElem?.mpr (getElem?_eq_getElem bound))

theorem uncle {proof : SubblockProof} (listed : proof ∈ ret.vSubblockProofs.take ret.nUncles.toNat) :
    checkProofOfWork crypto params proof.powHash ret.prevOfprevhash ret.nBitsUncle = .ok true := by
  obtain ⟨position, bound, rfl⟩ := mem_take_iff_getElem.mp listed
  have met := checked.getElem (lt_of_lt_of_le bound (min_le_right _ _))
  have uncle : ¬ret.nUncles.toNat ≤ position := by omega
  simpa only [proofEpoch, CSummaryBlockMinerData.proofBits, uncle, ↓reduceIte] using met

theorem subblock {proof : SubblockProof} (listed : proof ∈ ret.vSubblockProofs.drop ret.nUncles.toNat) :
    checkProofOfWork crypto params proof.powHash block.hashPrevBlock ret.nBitsSubblock = .ok true := by
  obtain ⟨position, bound, rfl⟩ := mem_drop_iff_getElem.mp listed
  have met := checked.getElem bound
  have subblock : ret.nUncles.toNat ≤ position + ret.nUncles.toNat := by omega
  simp only [proofEpoch, CSummaryBlockMinerData.proofBits, subblock, ↓reduceIte] at met
  simpa only [Nat.add_comm] using met

end ProofsChecked

/-- An accepted summary header is complete exactly when its two count tests have the same outcome. -/
theorem summaryProofsComplete_iff (several : 2 ≤ params.tailstormK.toNat)
    (accepted : checkTailstormSummaryBlockProofOfWork crypto params block = .ok ()) :
    let ret := parseSummaryBlockMinerData block.minerData
    SummaryProofsComplete crypto params block ret ↔ (ret.vSubblockProofs.length = params.tailstormK.toNat - 1 ↔
        ret.vSubblockProofs.length = ret.nUncles.toNat + ret.nSubblocks.toNat) := by
  intro ret
  obtain ⟨counted, -, checked, distinct, parent⟩ := checkTailstormSummaryBlockProofOfWork_eq_ok_iff.mp accepted
  constructor
  · intro complete
    have counts := complete.counts
    constructor <;> intro <;> omega
  · intro agree
    have length : ret.vSubblockProofs.length = params.tailstormK.toNat - 1 := by tauto
    have nonempty : ret.vSubblockProofs ≠ [] := ne_nil_of_length_pos (by omega)
    refine ⟨minerDataParses_of_proofs nonempty, length, distinct, by have := agree.mp length; omega, ?_, ?_⟩
    · intro proof listed
      refine ⟨parent fun zero => ?_, ProofsChecked.uncle checked listed⟩
      rw [zero] at listed
      simp at listed
    · exact fun proof listed => ProofsChecked.subblock checked listed

def sampleNode : NodeContext where
  crypto := ⟨fun _ _ => none⟩
  params := { powAlgorithm := 0, powLimit := (2 ^ 255 - 1 : ℕ), fPowNoRetargeting := true, tailstormK := 2 }
  adjustedTime := 2000

def sampleGenesis : CBlockIndex where
  header := { nBits := 0x207fffff, nTime := 1000, size := 200, chainWork := 2 }
  nNextMaxBlockSize := 100000

def sampleGenesisHash : Uint256 := 0xe1274c4fd3c4bbb07759a711a1fceed42e6fe674f50981a71dfc9227269c6494

def sampleSummary (nSubblocks : UInt8) (chainWork : Uint256) (nonce : Bytes) : CBlockHeader where
  hashPrevBlock := sampleGenesisHash
  nBits := 0x207fffff
  hashAncestor := sampleGenesisHash
  nTime := 1001
  height := 1
  chainWork := chainWork
  size := 300
  minerData := 2 :: replicate 37 0 ++ [nSubblocks, 0xff, 0xff, 0x7f, 0x20, 1, 7] ++ replicate 31 0 ++ [1, 1]
  nonce := nonce

theorem summaryProofsComplete_one_subblock :
    SummaryProofsComplete sampleNode.crypto sampleNode.params (sampleSummary 1 6 [3])
      (parseSummaryBlockMinerData (sampleSummary 1 6 [3]).minerData) :=
  (summaryProofsComplete_iff (by decide) (by decide +kernel)).mpr (by decide)

/-- Miner data that ends after its version byte passes the check without a single proof. -/
theorem unparseable_minerData_accepted : 2 ≤ sampleNode.params.tailstormK.toNat ∧
    getMinerDataVersion [2] = minerDataSummaryBlockVersion ∧
    checkTailstormSummaryBlockProofOfWork sampleNode.crypto sampleNode.params
      { nBits := 0x207fffff, size := 1, minerData := [2], nonce := [0] } = .ok () ∧
    ¬SummaryProofsComplete sampleNode.crypto sampleNode.params
      { nBits := 0x207fffff, size := 1, minerData := [2], nonce := [0] } (parseSummaryBlockMinerData [2]) := by
  refine ⟨by decide, rfl, by decide +kernel, fun complete => ?_⟩
  exact absurd complete.parses (by decide)

variable (ret : CSummaryBlockMinerData)

/-- The work of the bits against which the listed proofs were tested. -/
def CSummaryBlockMinerData.checkedWork : ℕ :=
  (ret.vSubblockProofs.zipIdx.map fun entry => (getWorkForDifficultyBits (ret.proofBits entry.2)).toNat).sum

/-- The credit of `GetBlockWork` before it is reduced modulo 2^256. -/
def CBlockHeader.creditedTotal (block : CBlockHeader) (ret : CSummaryBlockMinerData) : ℕ :=
  (getWorkForDifficultyBits block.nBits).toNat + ret.nUncles.toNat * (getWorkForDifficultyBits ret.nBitsUncle).toNat +
    ret.nSubblocks.toNat * (getWorkForDifficultyBits ret.nBitsSubblock).toNat

theorem toNat_getBlockWork (tailstorm : block.isTailstormSummaryBlock) :
    block.getBlockWork.toNat = block.creditedTotal (parseSummaryBlockMinerData block.minerData) % 2 ^ 256 := by
  simp only [getBlockWork, creditedTotal]
  generalize parseSummaryBlockMinerData block.minerData = ret
  split_ifs with present
  · simp [Nat.mul_comm]
  · have none : ret.nUncles.toNat = 0 := by simpa using UInt8.le_iff_toNat_le.mp (UInt8.not_lt.mp present)
    simp only [BitVec.toNat_add, none]
    simp [Nat.mul_comm]

theorem checkedWork_eq : ret.checkedWork =
      min ret.nUncles.toNat ret.vSubblockProofs.length * (getWorkForDifficultyBits ret.nBitsUncle).toNat +
        (ret.vSubblockProofs.length - ret.nUncles.toNat) * (getWorkForDifficultyBits ret.nBitsSubblock).toNat := by
  have positions : ret.checkedWork = ((range ret.vSubblockProofs.length).map fun position =>
      (getWorkForDifficultyBits (ret.proofBits position)).toNat).sum := by
    rw [range_eq_range', ← zipIdx_map_snd, map_map]
    rfl
  rw [positions]
  generalize ret.vSubblockProofs.length = length
  induction length with
  | zero => simp
  | succ length ih =>
    rw [range_succ, map_append, sum_append, ih, map_singleton, sum_singleton, CSummaryBlockMinerData.proofBits]
    split_ifs with subblock
    · rw [min_eq_left subblock, min_eq_left (by omega), Nat.succ_sub subblock, Nat.succ_mul, Nat.add_assoc]
    · rw [min_eq_right (by omega), min_eq_right (by omega), Nat.succ_mul, Nat.sub_eq_zero_of_le (by omega),
        Nat.sub_eq_zero_of_le (by omega)]
      omega

/-- The work that the counts claim for uncles and subblocks behind the end of the list. -/
def CSummaryBlockMinerData.missingWork : ℕ :=
  (ret.nUncles.toNat - ret.vSubblockProofs.length) * (getWorkForDifficultyBits ret.nBitsUncle).toNat +
    (ret.nSubblocks.toNat - (ret.vSubblockProofs.length - ret.nUncles.toNat)) *
      (getWorkForDifficultyBits ret.nBitsSubblock).toNat

theorem creditedTotal_le_checked_add_missing :
    block.creditedTotal ret ≤ (getWorkForDifficultyBits block.nBits).toNat + ret.checkedWork + ret.missingWork ∧
      (0 < ret.missingWork → block.creditedTotal ret =
        (getWorkForDifficultyBits block.nBits).toNat + ret.checkedWork + ret.missingWork) := by
  rw [checkedWork_eq, creditedTotal, CSummaryBlockMinerData.missingWork]
  generalize ret.nUncles.toNat = uncles, ret.nSubblocks.toNat = subblocks, ret.vSubblockProofs.length = length
  generalize (getWorkForDifficultyBits ret.nBitsUncle).toNat = uncleWork
  generalize (getWorkForDifficultyBits ret.nBitsSubblock).toNat = subblockWork
  rcases le_total uncles length with within | beyond
  · rw [min_eq_left within, Nat.sub_eq_zero_of_le within, Nat.zero_mul, Nat.zero_add]
    rcases le_total subblocks (length - uncles) with fewer | more
    · have := Nat.mul_le_mul_right subblockWork fewer
      rw [Nat.sub_eq_zero_of_le fewer, Nat.zero_mul]
      omega
    · have := Nat.sub_mul subblocks (length - uncles) subblockWork
      have := Nat.mul_le_mul_right subblockWork more
      omega
  · have := Nat.sub_mul uncles length uncleWork
    have := Nat.mul_le_mul_right uncleWork beyond
    rw [min_eq_right beyond, Nat.sub_eq_zero_of_le beyond, Nat.zero_mul, Nat.sub_zero]
    omega

/-- When the credit is covered by checked proofs: the counts stay within the list (or the subblock bits carry no
work), unless a multiple of 2^256 lies between the missing work and the credit. -/
def CBlockHeader.CreditCovered (block : CBlockHeader) (ret : CSummaryBlockMinerData) : Prop :=
  (ret.nUncles.toNat ≤ ret.vSubblockProofs.length ∧
    (ret.nUncles.toNat + ret.nSubblocks.toNat ≤ ret.vSubblockProofs.length ∨
      (getWorkForDifficultyBits ret.nBitsSubblock).toNat = 0)) ∨
  ∃ laps > 0, ret.missingWork ≤ 2 ^ 256 * laps ∧ 2 ^ 256 * laps ≤ block.creditedTotal ret

theorem counts_within_list {nUncles nSubblocks length uncleWork subblockWork : ℕ}
    (positive : 0 < nUncles → 0 < length → 0 < uncleWork) (empty : length = 0 → nUncles = 0)
    (covered : nUncles * uncleWork + nSubblocks * subblockWork ≤
      min nUncles length * uncleWork + (length - nUncles) * subblockWork) :
    nUncles ≤ length ∧ (nUncles + nSubblocks ≤ length ∨ subblockWork = 0) := by
  have within : nUncles ≤ length := by
    by_contra beyond
    have some : 0 < length := Nat.pos_of_ne_zero fun none => beyond (by rw [empty none]; exact Nat.zero_le _)
    rw [min_eq_right (by omega), Nat.sub_eq_zero_of_le (by omega)] at covered
    have more : length * uncleWork < nUncles * uncleWork :=
      Nat.mul_lt_mul_of_pos_right (by omega) (positive (by omega) some)
    omega
  refine ⟨within, ?_⟩
  rw [min_eq_left within] at covered
  by_cases nothing : subblockWork = 0
  · exact .inr nothing
  · have : nSubblocks ≤ length - nUncles := Nat.le_of_mul_le_mul_right (by omega) (Nat.pos_of_ne_zero nothing)
    exact .inl (by omega)

/-- For every accepted summary header, `GetBlockWork` credits at most the header's own work and the
work of the distinct proofs that were checked exactly when the credit is covered. -/
theorem creditedWork_le_checkedWork_iff (several : 2 ≤ node.params.tailstormK.toNat)
    (version : getMinerDataVersion block.minerData = minerDataSummaryBlockVersion)
    (accepted : AcceptedHeader node block pindexPrev) :
    let ret := parseSummaryBlockMinerData block.minerData
    (ret.vSubblockProofs.Nodup ∧
      block.getBlockWork.toNat ≤ (getWorkForDifficultyBits block.nBits).toNat + ret.checkedWork) ↔
    block.CreditCovered ret := by
  have tailstorm := decide_eq_true version
  have proofs := tailstormProofs_of_checkBlockHeader tailstorm accepted.header
  obtain ⟨counted, -, checked, distinct, -⟩ := checkTailstormSummaryBlockProofOfWork_eq_ok_iff.mp proofs
  rw [toNat_getBlockWork tailstorm]
  generalize parseSummaryBlockMinerData block.minerData = ret at counted checked distinct ⊢
  obtain ⟨atMost, exactly⟩ := @creditedTotal_le_checked_add_missing block ret
  constructor
  · rintro ⟨-, covered⟩
    by_cases wraps : 2 ^ 256 ≤ block.creditedTotal ret
    · have whole := Nat.div_add_mod (block.creditedTotal ret) (2 ^ 256)
      exact .inr ⟨_, Nat.div_pos wraps (by decide), by omega, by omega⟩
    · left
      rw [Nat.mod_eq_of_lt (by omega), checkedWork_eq, creditedTotal] at covered
      have claimed : ret.nUncles.toNat * (getWorkForDifficultyBits ret.nBitsUncle).toNat +
          ret.nSubblocks.toNat * (getWorkForDifficultyBits ret.nBitsSubblock).toNat ≤ _ :=
        Nat.le_of_add_le_add_left (Nat.add_assoc _ _ _ ▸ covered)
      refine counts_within_list ?_ ?_ claimed
      · intro uncles listed
        -- The first proof was tested as an uncle.
        have first := ProofsChecked.getElem checked listed
        have position : ¬ret.nUncles.toNat ≤ 0 := by omega
        simp only [CSummaryBlockMinerData.proofBits, position] at first
        exact work_pos_of_checkProofOfWork first
      · omega
  · intro covered
    refine ⟨distinct.of_map _, ?_⟩
    rcases covered with ⟨within, counts⟩ | ⟨laps, -, missing, passed⟩
    · rw [checkedWork_eq, creditedTotal, min_eq_left within]
      rcases counts with counts | nothing
      · have := Nat.mul_le_mul_right (getWorkForDifficultyBits ret.nBitsSubblock).toNat
          (by omega : ret.nSubblocks.toNat ≤ ret.vSubblockProofs.length - ret.nUncles.toNat)
        omega
      · rw [nothing]
        omega
    · rw [← Nat.sub_mul_mod passed]
      exact (Nat.mod_le _ _).trans (by omega)

theorem creditedWork_le_checkedWork_one_subblock :
    (sampleSummary 1 6 [3]).getBlockWork.toNat ≤ (getWorkForDifficultyBits (sampleSummary 1 6 [3]).nBits).toNat +
      (parseSummaryBlockMinerData (sampleSummary 1 6 [3]).minerData).checkedWork :=
  ((@creditedWork_le_checkedWork_iff sampleNode _ [sampleGenesis] (by decide) rfl
    (by decide +kernel)).mpr (.inl (by decide))).2

/-- One checked proof earns the credit of 255: the header is accepted with 512 units of work for 4. -/
theorem inflated_subblock_count_accepted : 2 ≤ sampleNode.params.tailstormK.toNat ∧
    getMinerDataVersion (sampleSummary 255 514 [1]).minerData = minerDataSummaryBlockVersion ∧
    AcceptedHeader sampleNode (sampleSummary 255 514 [1]) [sampleGenesis] ∧
    (getWorkForDifficultyBits (sampleSummary 255 514 [1]).nBits).toNat +
      (parseSummaryBlockMinerData (sampleSummary 255 514 [1]).minerData).checkedWork = 4 ∧
    (sampleSummary 255 514 [1]).getBlockWork.toNat = 512 := by
  refine ⟨by decide, rfl, by decide +kernel, by decide, by decide⟩

end Nexa
