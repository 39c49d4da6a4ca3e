import Nexa.Model.Tailstorm.MinerData
import Nexa.Proofs.Serialize

/-! # Miner data is read as it was generated

A summary block's miner data lists the proofs of the uncles before those of the subblocks, so that the
two counts tell a reader which proof is which.
-/

namespace Nexa

open List

theorem reads_subblockProof {proof : SubblockProof} (bound : proof.2.length ≤ maxSize) :
    Reads (do
      let miningHeaderCommitment ← readUint256
      let nonce ← readVector
      pure (miningHeaderCommitment, nonce)) proof.serialize proof :=
  (reads_readUint256 proof.1).bind ((reads_readVector bound).bind_pure rfl)

variable {minerData : CSummaryBlockMinerData} {fUncle : Bool} {nodes : List MinerDataNode}

theorem reads_summaryBlockMinerData (count : minerData.vSubblockProofs.length ≤ maxSize)
    (nonces : ∀ proof ∈ minerData.vSubblockProofs, proof.2.length ≤ maxSize) :
    Reads readSummaryBlockMinerData minerData.serialize (minerDataSummaryBlockVersion, minerData) := by
  have proofs := reads_readList count fun proof member => reads_subblockProof (nonces proof member)
  rw [map_id'] at proofs
  exact (reads_readUInt8 minerDataSummaryBlockVersion).bind <| (reads_readUint256 minerData.prevOfprevhash).bind <|
    (reads_readUInt8 minerData.nUncles).bind <| (reads_readUInt32 minerData.nBitsUncle).bind <|
    (reads_readUInt8 minerData.nSubblocks).bind <| (reads_readUInt32 minerData.nBitsSubblock).bind <|
    proofs.bind_pure rfl

/-- The uncles of a dag, or its other subblocks, in dag order. -/
def nodesOf (fUncle : Bool) (setBestDag : List MinerDataNode) : List MinerDataNode :=
  setBestDag.filter fun node => node.fUncle = fUncle

theorem exampleBits_eq {kept nBits : UInt32} (agree : kept = 0 ∨ kept = nBits) :
    exampleBits kept nBits = .ok nBits := by
  unfold exampleBits
  split_ifs with unset
  · rfl
  · have same : kept = nBits := agree.resolve_left unset
    rw [show assertThat (kept = nBits) = .ok () from assertThat_eq_ok_iff.mpr same, same]
    rfl

theorem packNodes_eq {packed : PackedNodes} {nBits : UInt32}
    (share : ∀ node ∈ nodesOf fUncle nodes, node.subblock.nBits = nBits)
    (start : packed.nBits = 0 ∨ packed.nBits = nBits) :
    packNodes fUncle nodes packed = .ok
      { count := packed.count + UInt8.ofNat (nodesOf fUncle nodes).length
        nBits := if nodesOf fUncle nodes = [] then packed.nBits else nBits
        vMinerData := packed.vMinerData ++ (nodesOf fUncle nodes).map MinerDataNode.proof } := by
  induction nodes generalizing packed with
  | nil => simp [packNodes, nodesOf, pure, Except.pure]
  | cons node rest ih =>
    by_cases kind : node.fUncle = fUncle
    · have split : nodesOf fUncle (node :: rest) = node :: nodesOf fUncle rest :=
        filter_cons_of_pos (by simpa using kind)
      rw [split] at share ⊢
      obtain ⟨rfl, share⟩ := forall_mem_cons.mp share
      rw [packNodes, if_pos kind, exampleBits_eq start]
      change packNodes fUncle rest _ = _
      rw [ih share (.inr rfl)]
      have count : packed.count + 1 + UInt8.ofNat (nodesOf fUncle rest).length =
          packed.count + UInt8.ofNat ((nodesOf fUncle rest).length + 1) := by
        rw [UInt8.ofNat_add, UInt8.add_assoc, UInt8.add_comm 1]
        rfl
      simp [count]
    · have split : nodesOf fUncle (node :: rest) = nodesOf fUncle rest :=
        filter_cons_of_neg (by simpa using kind)
      rw [split] at share ⊢
      rw [packNodes, if_neg kind, ih share start]

/-- The nodes of one kind agree on their bits. -/
def SharedBits (fUncle : Bool) (setBestDag : List MinerDataNode) : Prop :=
  ∀ node ∈ nodesOf fUncle setBestDag, ∀ other ∈ nodesOf fUncle setBestDag, node.subblock.nBits = other.subblock.nBits

theorem SharedBits.packNodes (share : SharedBits fUncle nodes) (vMinerData : List SubblockProof) :
    ∃ nBits, Nexa.packNodes fUncle nodes { vMinerData } = .ok
        { count := UInt8.ofNat (nodesOf fUncle nodes).length
          nBits
          vMinerData := vMinerData ++ (nodesOf fUncle nodes).map MinerDataNode.proof } ∧
      ∀ node ∈ nodesOf fUncle nodes, nBits = node.subblock.nBits := by
  cases members : nodesOf fUncle nodes with
  | nil =>
    have packed := @packNodes_eq fUncle nodes { vMinerData } 0 (by simp [members]) (.inl rfl)
    rw [members] at packed
    exact ⟨0, packed, nofun⟩
  | cons first rest =>
    have bits : ∀ node ∈ nodesOf fUncle nodes, node.subblock.nBits = first.subblock.nBits := fun node member =>
      share node member first (by simp [members])
    have packed := @packNodes_eq fUncle nodes { vMinerData } _ bits (.inl rfl)
    rw [members] at packed bits
    rw [UInt8.zero_add] at packed
    exact ⟨_, packed, fun node member => (bits node member).symm⟩

/-- What is generated from the dag that a summary block credits is read as the counts, the bits and the
proofs of its uncles and of its subblocks. -/
theorem parse_generateMinerData {tailstormK : UInt32} {setBestDag : List MinerDataNode}
    (limit : creditedNodes tailstormK ≤ 255) (size : setBestDag.length = creditedNodes tailstormK)
    (uncleBits : SharedBits true setBestDag) (subblockBits : SharedBits false setBestDag) (prevOfprevhash : Uint256) :
    ∃ data minerData, generateMinerData tailstormK setBestDag prevOfprevhash = .ok data ∧
      parseSummaryBlockMinerData data = minerData ∧
      minerData.prevOfprevhash = prevOfprevhash ∧
      minerData.nUncles.toNat = (nodesOf true setBestDag).length ∧
      minerData.nSubblocks.toNat = (nodesOf false setBestDag).length ∧
      (∀ node ∈ nodesOf true setBestDag, minerData.nBitsUncle = node.subblock.nBits) ∧
      (∀ node ∈ nodesOf false setBestDag, minerData.nBitsSubblock = node.subblock.nBits) ∧
      minerData.vSubblockProofs =
        (nodesOf true setBestDag).map MinerDataNode.proof ++ (nodesOf false setBestDag).map MinerDataNode.proof := by
  obtain ⟨nBitsUncle, uncles, uncleShared⟩ := uncleBits.packNodes []
  rw [nil_append] at uncles
  obtain ⟨nBitsSubblock, subblocks, subblockShared⟩ := subblockBits.packNodes
    ((nodesOf true setBestDag).map MinerDataNode.proof)
  let minerData : CSummaryBlockMinerData :=
    { prevOfprevhash, nUncles := UInt8.ofNat (nodesOf true setBestDag).length, nBitsUncle,
      nSubblocks := UInt8.ofNat (nodesOf false setBestDag).length, nBitsSubblock,
      vSubblockProofs :=
        (nodesOf true setBestDag).map MinerDataNode.proof ++ (nodesOf false setBestDag).map MinerDataNode.proof }
  have sized : assertThat (setBestDag.length = creditedNodes tailstormK) = .ok () := assertThat_eq_ok_iff.mpr size
  have generated : generateMinerData tailstormK setBestDag prevOfprevhash = .ok minerData.serialize := by
    rw [generateMinerData, if_neg size.not_lt, sized, uncles]
    change (packNodes false setBestDag _ >>= _) = _
    rw [subblocks]
    rfl
  have few (fUncle : Bool) : (nodesOf fUncle setBestDag).length ≤ 255 :=
    (length_filter_le _ _).trans (size.trans_le limit)
  have count : minerData.vSubblockProofs.length ≤ maxSize := by
    have uncleCount := few true
    have subblockCount := few false
    simp only [minerData, length_append, length_map, maxSize]
    omega
  have nonces : ∀ proof ∈ minerData.vSubblockProofs, proof.2.length ≤ maxSize := by
    intro proof member
    obtain ⟨node, -, rfl⟩ | ⟨node, -, rfl⟩ := (mem_append.mp member).imp mem_map.mp mem_map.mp
    all_goals exact node.nonce_le.trans (by decide)
  have read := reads_summaryBlockMinerData count nonces []
  rw [append_nil] at read
  refine ⟨_, minerData, generated, by simp [parseSummaryBlockMinerData, read], rfl, ?_, ?_, uncleShared,
    subblockShared, rfl⟩
  · exact UInt8.toNat_ofNat_of_lt' ((few true).trans_lt (by decide))
  · exact UInt8.toNat_ofNat_of_lt' ((few false).trans_lt (by decide))

def sampleMinerDag : List MinerDataNode :=
  [{ subblock := { nBits := 0x1f7fffff, nonce := [1] } },
    { fUncle := true, subblock := { nBits := 0x207fffff, nonce := [2] } },
    { subblock := { nBits := 0x1f7fffff, nonce := [3] } }]

theorem parse_generateMinerData_sample :
    ∃ data minerData, generateMinerData 4 sampleMinerDag 7 = .ok data ∧ parseSummaryBlockMinerData data = minerData ∧
      minerData.prevOfprevhash = 7 ∧ minerData.nUncles.toNat = 1 ∧ minerData.nSubblocks.toNat = 2 ∧
      minerData.vSubblockProofs.map Prod.snd = [[2], [1], [3]] := by
  have shared (fUncle : Bool) (nBits : UInt32)
      (all : (nodesOf fUncle sampleMinerDag).all (fun node => decide (node.subblock.nBits = nBits)) = true) :
      SharedBits fUncle sampleMinerDag := by
    intro node member other otherMember
    have bits := all_eq_true.mp all
    exact (of_decide_eq_true (bits node member)).trans (of_decide_eq_true (bits other otherMember)).symm
  obtain ⟨data, minerData, generated, parsed, previous, uncles, subblocks, -, -, proofs⟩ :=
    parse_generateMinerData (by decide : creditedNodes 4 ≤ 255) (by decide) (shared true 0x207fffff (by decide))
      (shared false 0x1f7fffff (by decide)) 7
  refine ⟨data, minerData, generated, parsed, previous, uncles, subblocks, ?_⟩
  rw [proofs]
  rfl

end Nexa
