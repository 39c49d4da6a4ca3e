import Mathlib.Data.List.Pairwise
import Nexa.Proofs.SummaryWork

/-! # Proofs of work along a chain of headers

Every proof that a summary header lists is listed for an epoch: its own for a subblock, the previous
one for an uncle. Along a chain of accepted headers the epochs of a block are the hashes of its parent
and grandparent, so only a block and its child can list proofs for the same epoch, and there the uncle
rule of `ContextualCheckBlockHeader` compares them.
-/

namespace Nexa

open CBlockHeader List

variable {node : NodeContext} {index prev genesis : CBlockIndex} {pprev accepted : BlockIndexRef} (block : CBlockHeader)

/-- The proofs a header lists, each with the epoch hash it is listed for. -/
def CBlockHeader.listedProofs : List (SubblockProof × Uint256) :=
  let ret := parseSummaryBlockMinerData block.minerData
  ret.vSubblockProofs.zipIdx.map fun entry => (entry.1, block.proofEpoch ret entry.2)

/-- All proofs of work of a header: the listed ones and its own, which is for the epoch of its parent. -/
def CBlockHeader.allProofs : List (SubblockProof × Uint256) :=
  block.listedProofs ++ [(block.ownProof, block.hashPrevBlock)]

/-- A summary header that was accepted as a child of `pindexPrev`. -/
structure ExtendsChain (node : NodeContext) (block : CBlockHeader) (pindexPrev : BlockIndexRef) : Prop where
  summary : block.isSummaryBlock
  linked : ∃ prev pprev, pindexPrev = prev :: pprev ∧ block.hashPrevBlock = prev.getHash
  accepted : AcceptedHeader node block pindexPrev

/-- The headers accepted one after the other on top of a genesis block, the latest first. The clock,
the checkpoints and the active chain of the node may be different for each of them. -/
inductive AcceptedChain (genesis : CBlockIndex) : BlockIndexRef → Prop
  | nil : AcceptedChain genesis []
  | cons {node : NodeContext} {index : CBlockIndex} {accepted : BlockIndexRef} :
      AcceptedChain genesis accepted → ExtendsChain node index.header (accepted ++ [genesis]) →
      AcceptedChain genesis (index :: accepted)

variable {block : CBlockHeader} {proof : SubblockProof}

theorem mem_listedProofs {epoch : Uint256} (listed : (proof, epoch) ∈ block.listedProofs) :
    let ret := parseSummaryBlockMinerData block.minerData
    proof ∈ ret.vSubblockProofs ∧ (epoch = block.hashPrevBlock ∨
        (proof ∈ ret.vSubblockProofs.take ret.nUncles.toNat ∧ epoch = ret.prevOfprevhash)) := by
  intro ret
  obtain ⟨⟨_, position⟩, member, same⟩ := mem_map.mp listed
  obtain ⟨rfl, rfl⟩ := Prod.mk.inj same
  have read := mk_mem_zipIdx_iff_getElem?.mp member
  refine ⟨mem_of_getElem? read, ?_⟩
  by_cases subblock : ret.nUncles.toNat ≤ position
  · left
    simp [proofEpoch, ret, subblock]
  · right
    refine ⟨mem_of_getElem? (i := position) ?_, ?_⟩
    · rw [getElem?_take_of_lt (by omega)]
      exact read
    · simp [proofEpoch, ret, subblock]

theorem powHash_mem_prevHashes {epoch : Uint256} (member : (proof, epoch) ∈ block.allProofs) :
    proof.powHash ∈ prevHashes block := by
  rcases mem_append.mp member with listed | own
  · exact mem_append_left _ (mem_map_of_mem (mem_listedProofs listed).1)
  · obtain ⟨rfl, -⟩ := Prod.mk.inj (mem_singleton.mp own)
    exact mem_append_right _ mem_cons_self

namespace ExtendsChain

theorem grandparent (step : ExtendsChain node block (prev :: pprev)) (tailstorm : block.isTailstormSummaryBlock)
    (uncles : (parseSummaryBlockMinerData block.minerData).nUncles ≠ 0) :
    ∃ grand rest, pprev = grand :: rest ∧
      (parseSummaryBlockMinerData block.minerData).prevOfprevhash = grand.getHash := by
  have proofs := tailstormProofs_of_checkBlockHeader tailstorm step.accepted.header
  have parent := (checkTailstormSummaryBlockProofOfWork_eq_ok_iff.mp proofs).2.2.2.2 uncles
  have minerData := (contextualCheckBlockHeader_summary step.summary step.accepted.contextual).2.2.2.1 tailstorm
  simp only [checkMinerData, Validation.seq_eq_ok_iff] at minerData
  have rule := minerData.2
  split_ifs at rule with low
  · exact (parent (by simpa using rule)).elim
  · cases pprev with
    | nil => simp at rule
    | cons grand rest =>
      simp only [rejectIf_eq_ok_iff, not_not] at rule
      exact ⟨grand, rest, rfl, rule⟩

theorem epoch (step : ExtendsChain node block (prev :: pprev)) {proof : SubblockProof} {epoch : Uint256}
    (member : (proof, epoch) ∈ block.allProofs) :
    epoch = prev.getHash ∨
      ∃ grand rest, pprev = grand :: rest ∧ epoch = grand.getHash ∧ proof.powHash ∉ prevHashes prev.header := by
  have linked : block.hashPrevBlock = prev.getHash := by
    obtain ⟨_, _, same, linked⟩ := step.linked
    cases same
    exact linked
  rcases mem_append.mp member with listed | own
  · obtain ⟨present, rfl | ⟨uncle, rfl⟩⟩ := mem_listedProofs listed
    · exact .inl linked
    · right
      have tailstorm := isTailstormSummaryBlock_of_proofs (ne_nil_of_mem present)
      have some : (parseSummaryBlockMinerData block.minerData).nUncles ≠ 0 := by
        intro none
        rw [none] at uncle
        simp at uncle
      obtain ⟨grand, rest, same, hash⟩ := step.grandparent tailstorm some
      have checked := (contextualCheckBlockHeader_summary step.summary step.accepted.contextual).2.2.1
      refine ⟨grand, rest, same, hash, ?_⟩
      -- a listed uncle was not among the proofs of the previous block, which is a Tailstorm block
      simp only [checkUncles] at checked
      split_ifs at checked with previous
      · rw [rejectIf_eq_ok_iff] at checked
        exact fun used => checked ⟨proof, uncle, used⟩
      · rw [rejectIf_eq_ok_iff] at checked
        exact absurd (UInt8.le_antisymm (UInt8.not_lt.mp checked) UInt8.zero_le) some
  · obtain ⟨-, rfl⟩ := Prod.mk.inj (mem_singleton.mp own)
    exact .inl linked

theorem listedProofs_nodup {pindexPrev : BlockIndexRef} (step : ExtendsChain node block pindexPrev) :
    block.listedProofs.Nodup := by
  by_cases nothing : (parseSummaryBlockMinerData block.minerData).vSubblockProofs = []
  · simp [listedProofs, nothing]
  · have tailstorm := isTailstormSummaryBlock_of_proofs nothing
    have proofs := tailstormProofs_of_checkBlockHeader tailstorm step.accepted.header
    have distinct := (checkTailstormSummaryBlockProofOfWork_eq_ok_iff.mp proofs).2.2.2.1
    refine Nodup.of_map Prod.fst ?_
    rw [listedProofs, map_map]
    have first : (Prod.fst ∘ fun entry : SubblockProof × ℕ => (entry.1, block.proofEpoch
        (parseSummaryBlockMinerData block.minerData) entry.2)) = Prod.fst := rfl
    rw [first, zipIdx_map_fst]
    exact distinct.of_map _

theorem height (step : ExtendsChain node block (prev :: pprev)) (bound : prev.height ≤ 2 ^ 31) :
    block.height.toNat = prev.height + 1 ∧ block.height.toNat ≤ 2 ^ 31 := by
  obtain ⟨height, ancestor, -⟩ := contextualCheckBlockHeader_summary step.summary step.accepted.contextual
  have exact : block.height.toNat = prev.height + 1 := by
    rw [height, childHeight, UInt32.toNat_ofNat_of_lt' (by
      have : UInt32.size = 2 ^ 32 := rfl
      omega)]
  refine ⟨exact, ?_⟩
  simp only [checkAncestorHash, Validation.bind_eq_ok_iff] at ancestor
  obtain ⟨found, read, checked⟩ := ancestor
  have some : found ≠ [] := by
    rintro rfl
    simp only [Validation.seq_eq_ok_iff, rejectIf_eq_ok_iff, not_not] at checked
    rw [checked.1] at exact
    simp at exact
  have := height_lt_of_getChildsConsensusAncestor read some
  omega

end ExtendsChain

namespace AcceptedChain

section

variable (chain : AcceptedChain genesis accepted)

include chain

theorem heights (start : genesis.height = 0) :
    (accepted ++ [genesis]).Pairwise (fun later earlier => earlier.height < later.height) ∧
      ∀ index ∈ accepted ++ [genesis], index.height ≤ 2 ^ 31 := by
  induction chain with
  | nil => simp [start]
  | @cons node index accepted chain step ih =>
    obtain ⟨decreasing, bounded⟩ := ih
    obtain ⟨prev, pprev, same, -⟩ := step.linked
    rw [same] at step decreasing bounded
    obtain ⟨next, bound⟩ := step.height (bounded prev mem_cons_self)
    rw [cons_append, same]
    refine ⟨pairwise_cons.mpr ⟨fun earlier member => ?_, decreasing⟩, ?_⟩
    · have below : earlier.height ≤ prev.height := by
        rcases mem_cons.mp member with rfl | member
        · exact le_rfl
        · exact ((pairwise_cons.mp decreasing).1 earlier member).le
      change earlier.height < index.header.height.toNat
      omega
    · exact forall_mem_cons.mpr ⟨bound, bounded⟩

theorem epoch_mem_tail (member : index ∈ accepted) {proof : SubblockProof} {epoch : Uint256}
    (used : (proof, epoch) ∈ index.header.allProofs) :
    epoch ∈ (accepted ++ [genesis]).tail.map CBlockIndex.getHash := by
  induction chain with
  | nil => cases member
  | @cons node latest accepted chain step ih =>
    rw [cons_append]
    rcases mem_cons.mp member with rfl | member
    · obtain ⟨prev, pprev, same, -⟩ := step.linked
      rw [same] at step ⊢
      rcases step.epoch used with rfl | ⟨grand, rest, rfl, rfl, -⟩
      · exact mem_map_of_mem mem_cons_self
      · exact mem_map_of_mem (mem_cons_of_mem _ mem_cons_self)
    · obtain ⟨block, present, rfl⟩ := mem_map.mp (ih member)
      exact mem_map_of_mem (mem_of_mem_tail present)

theorem allProofs_disjoint (hashes : ((accepted ++ [genesis]).map CBlockIndex.getHash).Nodup) :
    accepted.Pairwise fun later earlier => later.header.allProofs.Disjoint earlier.header.allProofs := by
  induction chain with
  | nil => exact .nil
  | @cons node index accepted chain step ih =>
    rw [cons_append, map_cons, nodup_cons] at hashes
    refine pairwise_cons.mpr ⟨?_, ih hashes.2⟩
    rintro earlier member ⟨proof, epoch⟩ used again
    -- The epochs of an earlier header lie below the parent, so only an uncle can have one of them.
    have below := chain.epoch_mem_tail member again
    cases chain with
    | nil => cases member
    | @cons _ prev older chain' step' =>
      rw [cons_append] at step below hashes
      obtain ⟨fresh, others⟩ := nodup_cons.mp hashes.2
      rcases step.epoch used with rfl | ⟨grand, rest, same, rfl, unused⟩
      · exact fresh below
      · rcases mem_cons.mp member with rfl | member
        · exact unused (powHash_mem_prevHashes again)
        · have deeper := chain'.epoch_mem_tail member again
          rw [same] at deeper others
          exact (nodup_cons.mp others).1 deeper

theorem listedProofs_nodup (member : index ∈ accepted) : index.header.listedProofs.Nodup := by
  induction chain with
  | nil => cases member
  | cons chain step ih =>
    rcases mem_cons.mp member with rfl | member
    · exact step.listedProofs_nodup
    · exact ih member

end

/-- No proof of work is credited twice along a chain of accepted headers: every proof is listed at
most once for its epoch, and is not the own proof of another header of that epoch. -/
theorem proof_credited_once (chain : AcceptedChain genesis accepted) (start : genesis.height = 0)
    (injective : Set.InjOn CBlockHeader.getHash {block | block ∈ (accepted ++ [genesis]).map CBlockIndex.header}) :
    (accepted.flatMap fun index => index.header.listedProofs).Nodup ∧
      ∀ first ∈ accepted, ∀ second ∈ accepted, first.header ≠ second.header →
        (second.header.ownProof, second.header.hashPrevBlock) ∉ first.header.listedProofs := by
  have distinct : ((accepted ++ [genesis]).map CBlockIndex.getHash).Nodup := by
    refine pairwise_map.mpr ((chain.heights start).1.imp_of_mem fun {later earlier} first second lower same => ?_)
    have block := injective (mem_map_of_mem first) (mem_map_of_mem second) same
    rw [CBlockIndex.height, CBlockIndex.height, block] at lower
    omega
  have disjoint := chain.allProofs_disjoint distinct
  constructor
  · refine nodup_flatMap.mpr ⟨fun index member => ?_, disjoint.imp fun separate => ?_⟩
    · exact chain.listedProofs_nodup member
    · exact disjoint_of_subset_left (subset_append_left _ _)
        (disjoint_of_subset_right (subset_append_left _ _) separate)
  · intro first firstMember second secondMember different listed
    have : Std.Symm fun later earlier : CBlockIndex =>
      later.header.allProofs.Disjoint earlier.header.allProofs := ⟨fun _ _ separate => separate.symm⟩
    have separate := disjoint.forall firstMember secondMember fun same =>
      different (congrArg CBlockIndex.header same)
    exact separate (mem_append_left _ listed) (mem_append_right _ mem_cons_self)

end AcceptedChain

def sampleUncleSummary : CBlockHeader where
  hashPrevBlock := 0x1ae3ad6bbc1e074604f1cbcc242c717293909afcdef98557cc92935488352f04
  nBits := 0x207fffff
  hashAncestor := sampleGenesisHash
  nTime := 1002
  height := 2
  chainWork := 10
  size := 300
  minerData :=
    2 :: sampleGenesisHash.toBytes ++ [1, 0xff, 0xff, 0x7f, 0x20, 0, 0, 0, 0, 0, 1, 8] ++ replicate 31 0 ++ [1, 1]
  nonce := [1]

def sampleChain : BlockIndexRef :=
  [{ header := sampleUncleSummary }, { header := sampleSummary 1 6 [3], nNextMaxBlockSize := 100000 }]

theorem proof_credited_once_with_uncle : (sampleChain.flatMap fun index => index.header.listedProofs).length = 2 ∧
      (sampleChain.flatMap fun index => index.header.listedProofs).Nodup := by
  have first : ExtendsChain sampleNode (sampleSummary 1 6 [3]) [sampleGenesis] :=
    ⟨by decide, ⟨_, _, rfl, by decide +kernel⟩, by decide +kernel⟩
  have second : ExtendsChain sampleNode sampleUncleSummary
      [{ header := sampleSummary 1 6 [3], nNextMaxBlockSize := 100000 }, sampleGenesis] :=
    ⟨by decide, ⟨_, _, rfl, by decide +kernel⟩, by decide +kernel⟩
  have distinct : (((sampleChain ++ [sampleGenesis]).map CBlockIndex.header).map getHash).Nodup := by
    decide +kernel
  refine ⟨by decide, ?_⟩
  exact (AcceptedChain.proof_credited_once (.cons (.cons .nil first) second) rfl
    fun _ first _ second => inj_on_of_nodup_map distinct first second).1

end Nexa
