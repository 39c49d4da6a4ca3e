import Nexa.Proofs.SummaryTarget

/-! # The work of a subblock whose summary block is missing

A node that does not know the parent of a subblock keeps the header if its work is at least what the
easiest summary block after the tip would ask for. The ASERT target falls with the height and grows
with the time, so no chain on the tip that stays within the latest time asks for less.
-/

namespace Nexa

open List

/-- Heights count the blocks. -/
def HeightsCount (chain : BlockIndexRef) : Prop := chain.IsChain fun child parent => child.height = parent.height + 1

instance (chain : BlockIndexRef) : Decidable (HeightsCount chain) := inferInstanceAs (Decidable (List.IsChain _ _))

theorem HeightsCount.pairwise {chain : BlockIndexRef} (heights : HeightsCount chain) :
    chain.Pairwise fun later earlier => earlier.height < later.height := by
  have decreasing : chain.IsChain fun later earlier => earlier.height < later.height :=
    heights.imp fun later earlier next => by omega
  exact isChain_iff_pairwise.mp decreasing

theorem walkToAnchor_suffix (params : Params) (pindex : BlockIndexRef) : walkToAnchor params pindex <:+ pindex := by
  induction pindex with
  | nil => exact suffix_refl _
  | cons anchor rest ih =>
    cases rest with
    | nil => exact suffix_refl _
    | cons pprev rest =>
      rw [walkToAnchor]
      split_ifs
      · exact suffix_refl _
      · exact ih.trans (suffix_cons _ _)

variable {params : Params} {maximumTarget : Uint256}

theorem walkToAnchor_append {chain pindex : BlockIndexRef} (some : pindex ≠ [])
    (above : ∀ index ∈ chain, params.nASERTAnchorAt < index.height) :
    walkToAnchor params (chain ++ pindex) = walkToAnchor params pindex := by
  induction chain with
  | nil => rfl
  | cons index chain ih =>
    obtain ⟨high, above⟩ := forall_mem_cons.mp above
    obtain ⟨next, rest, same⟩ := exists_cons_of_ne_nil (append_ne_nil_of_right_ne_nil chain some)
    rw [← ih above, cons_append, same, walkToAnchor, if_neg fun stop => high.ne' stop.2]

/-- What the difficulty parameters of a network with retargeting have in common. A spacing of up to four
hours and a half life of more than two spacings keep every header within the range of the calculation. -/
structure RetargetingNetwork (params : Params) : Prop where
  retargets : params.fPowNoRetargeting = false
  noMinimum : params.fPowAllowMinDifficultyBlocks = false
  powLimit_lt : params.powLimit.toNat + 1 < 2 ^ 256
  spacing_pos : 0 < params.nPowTargetSpacing
  spacing_le : params.nPowTargetSpacing ≤ 2 ^ 14
  halfLife_ge : 2 * (params.nPowTargetSpacing + 1) ≤ params.nASERTHalfLife

theorem RetargetingNetwork.asertInputs (network : RetargetingNetwork params) {refTarget : Uint256}
    (positive : 0 < refTarget) (limited : refTarget ≤ params.powLimit) {nTimeDiff nHeightDiff : ℤ}
    (time : nTimeDiff.natAbs < 2 ^ 32) (nonneg : 0 ≤ nHeightDiff) (height : nHeightDiff < 2 ^ 32) :
    AsertInputs refTarget params.nPowTargetSpacing nTimeDiff nHeightDiff params.powLimit params.nASERTHalfLife := by
  have spacing := network.spacing_pos
  have spacingLe := network.spacing_le
  have halfLife := network.halfLife_ge
  have scheduled (blocks : ℤ) (least : 0 ≤ blocks) (most : blocks ≤ 2 ^ 32) :
      0 ≤ params.nPowTargetSpacing * blocks ∧ params.nPowTargetSpacing * blocks ≤ params.nPowTargetSpacing * 2 ^ 32 :=
    ⟨Int.mul_nonneg spacing.le least, Int.mul_le_mul_of_nonneg_left most spacing.le⟩
  have now := scheduled nHeightDiff nonneg (by omega)
  have next := scheduled (nHeightDiff + 1) (by omega) (by omega)
  refine ⟨positive, limited, spacing, by omega, nonneg, by omega, by omega, by omega, ?_⟩
  have numerator : ((nTimeDiff - params.nPowTargetSpacing * (nHeightDiff + 1)) * 65536).natAbs <
      2 ^ 31 * 65536 * params.nASERTHalfLife.natAbs := by
    omega
  rw [asertExponent, Int.natAbs_tdiv]
  exact Nat.div_lt_of_lt_mul (by rw [Nat.mul_comm]; exact numerator)

/-- Blocks after a tip at or above the anchor height, none dated after `maximumSummaryTime`. -/
structure ExtendsTip (params : Params) (tip : CBlockIndex) (pprev chain : BlockIndexRef) (maximumSummaryTime : ℤ) :
    Prop where
  extended : chain ≠ []
  heights : HeightsCount (chain ++ tip :: pprev)
  anchored : params.nASERTAnchorAt ≤ tip.height
  times : ∀ index ∈ chain, index.getBlockTime ≤ maximumSummaryTime

namespace ExtendsTip

variable {tip : CBlockIndex} {pprev chain : BlockIndexRef} {maximumSummaryTime : ℤ}

section

variable (extension : ExtendsTip params tip pprev chain maximumSummaryTime)

include extension

theorem tip_lt {index : CBlockIndex} (member : index ∈ chain) : tip.height < index.height :=
  (pairwise_append.mp extension.heights.pairwise).2.2 index member tip mem_cons_self

theorem getASERTAnchorBlock :
    Nexa.getASERTAnchorBlock params (chain ++ tip :: pprev) = Nexa.getASERTAnchorBlock params (tip :: pprev) := by
  have above : ∀ index ∈ chain, params.nASERTAnchorAt < index.height := fun index member =>
    extension.anchored.trans_lt (extension.tip_lt member)
  obtain ⟨last, rest, rfl⟩ := exists_cons_of_ne_nil extension.extended
  have high := above last mem_cons_self
  have walked := walkToAnchor_append (cons_ne_nil tip pprev) above
  simp only [Nexa.getASERTAnchorBlock, cons_append, if_neg high.not_gt, if_neg extension.anchored.not_gt]
  exact walked

theorem anchor_le {anchor : CBlockIndex} {anchorPprev : BlockIndexRef}
    (found : Nexa.getASERTAnchorBlock params (tip :: pprev) = anchor :: anchorPprev) :
    anchor.height ≤ tip.height := by
  have decreasing := (pairwise_append.mp extension.heights.pairwise).2.1
  simp only [Nexa.getASERTAnchorBlock, if_neg extension.anchored.not_gt] at found
  have member : anchor ∈ tip :: pprev := by
    refine (walkToAnchor_suffix params _).subset ?_
    rw [found]
    exact mem_cons_self
  rcases mem_cons.mp member with rfl | earlier
  · exact le_rfl
  · exact ((pairwise_cons.mp decreasing).1 anchor earlier).le

end

end ExtendsTip

/-- The target of a subblock, which `tailstorm_k` makes easier if it is set. -/
def subblockTarget (params : Params) (asertTarget : Uint256) : Uint256 :=
  if params.tailstormK ≠ 0 then defaultTarget params asertTarget else asertTarget

theorem getNextASERTWorkRequired_subblock {last prev anchor : CBlockIndex} {pprev anchorPprev : BlockIndexRef}
    {pblock : CBlockHeader} {asertTarget : Uint256} (noMinimum : params.fPowAllowMinDifficultyBlocks = false)
    (subblock : pblock.isTailstormSummaryBlock = false) (heights : anchor.height ≤ last.height)
    (computed : calculateASERT (setCompact anchor.header.nBits).target params.nPowTargetSpacing
      (last.getBlockTime - (anchorPprev.headD anchor).getBlockTime)
        (last.height - anchor.height : ℤ) params.powLimit params.nASERTHalfLife = .ok asertTarget) :
    getNextASERTWorkRequired params (last :: prev :: pprev) pblock (anchor :: anchorPprev) true =
      .ok (getCompact (if params.powLimit < subblockTarget params asertTarget then params.powLimit
        else subblockTarget params asertTarget)) := by
  have heightsOk : assertThat (anchor.height ≤ last.height) = .ok () := assertThat_eq_ok_iff.mpr heights
  simp only [getNextASERTWorkRequired, noMinimum, true_and]
  rw [heightsOk]
  rw [computed]
  by_cases tailstorm : params.tailstormK ≠ 0
  · have target : tailstormTarget params pblock asertTarget = .ok (defaultTarget params asertTarget) := by
      simp only [tailstormTarget, subblock]
      rfl
    change (if _ then _ else _) = _
    rw [subblockTarget, if_pos tailstorm, if_pos tailstorm, target]
    rfl
  · change (if _ then _ else _) = _
    rw [subblockTarget, if_neg tailstorm, if_neg tailstorm]
    rfl

theorem RetargetingNetwork.work_le (network : RetargetingNetwork params) {lastTarget : Uint256}
    (positive : 1 ≤ lastTarget.toNat) (limited : lastTarget.toNat ≤ params.powLimit.toNat)
    (harder : lastTarget.toNat ≤ maximumTarget.toNat) :
    getWorkForTarget (if params.tailstormK ≠ 0 then defaultTarget params maximumTarget else params.powLimit) ≤
      getWorkForDifficultyBits (getCompact (if params.powLimit < subblockTarget params lastTarget then params.powLimit
        else subblockTarget params lastTarget)) := by
  have powLimitLt := network.powLimit_lt
  set easiest := if params.tailstormK ≠ 0 then defaultTarget params maximumTarget else params.powLimit with easiestDef
  set demanded := subblockTarget params lastTarget with demandedDef
  have range : 1 ≤ demanded.toNat ∧ demanded.toNat ≤ easiest.toNat ∧ easiest.toNat ≤ params.powLimit.toNat := by
    rw [easiestDef, demandedDef, subblockTarget]
    by_cases tailstorm : params.tailstormK ≠ 0
    · have k : 0 < params.tailstormK.toNat := Nat.pos_of_ne_zero fun none => tailstorm (UInt32.toNat_inj.mp none)
      have product := Nat.mul_pos positive k
      have products : lastTarget.toNat * params.tailstormK.toNat ≤ maximumTarget.toNat * params.tailstormK.toNat :=
        Nat.mul_le_mul_right _ harder
      rw [if_pos tailstorm, if_pos tailstorm, toNat_defaultTarget, toNat_defaultTarget]
      omega
    · rw [if_neg tailstorm, if_neg tailstorm]
      exact ⟨positive, limited, le_rfl⟩
  have nonzero : demanded ≠ 0 := by
    intro zero
    rw [zero] at range
    exact absurd range.1 (by decide)
  have least : (getWorkForTarget easiest).toNat ≤ (getWorkForTarget demanded).toNat :=
    getWorkForTarget_anti nonzero (by omega) range.2.1
  exact least.trans (work_getCompact_clamp (by omega) nonzero (by omega))

/-- No chain after the tip asks less of a subblock than the threshold says. -/
theorem deferredSubblockWorkThreshold_le {params : Params} {tip anchor : CBlockIndex}
    {pprev anchorPprev chain : BlockIndexRef} {maximumSummaryTime : ℤ} {pblock : CBlockHeader}
    (network : RetargetingNetwork params) (extension : ExtendsTip params tip pprev chain maximumSummaryTime)
    (found : getASERTAnchorBlock params (tip :: pprev) = anchor :: anchorPprev)
    (inputs : AsertInputs (setCompact anchor.header.nBits).target params.nPowTargetSpacing
      (maximumSummaryTime - (anchorPprev.headD anchor).getBlockTime) (tip.height + 1 - anchor.height : ℤ)
      params.powLimit params.nASERTHalfLife)
    (subblock : pblock.isSubblock = true) :
    ∃ threshold nBits, getDeferredSubblockWorkThreshold params (tip :: pprev) maximumSummaryTime = .ok threshold ∧
      getNextASERTWorkRequired params (chain ++ tip :: pprev) pblock
        (getASERTAnchorBlock params (chain ++ tip :: pprev)) true = .ok nBits ∧
      threshold ≤ getWorkForDifficultyBits nBits := by
  have anchorLe := extension.anchor_le found
  have sameAnchor := extension.getASERTAnchorBlock.trans found
  obtain ⟨last, rest, rfl⟩ := exists_cons_of_ne_nil extension.extended
  obtain ⟨prev, earlier, same⟩ := exists_cons_of_ne_nil (append_ne_nil_of_right_ne_nil rest (cons_ne_nil tip pprev))
  have higher := extension.tip_lt mem_cons_self
  have time := extension.times last mem_cons_self
  have notSummary : pblock.isTailstormSummaryBlock = false := by
    simp only [CBlockHeader.isSubblock, decide_eq_true_eq] at subblock
    simp only [CBlockHeader.isTailstormSummaryBlock, subblock]
    decide
  have lastTime := last.header.nTime.toNat_lt
  have anchorTime := (anchorPprev.headD anchor).header.nTime.toNat_lt
  have lastHeight := last.header.height.toNat_lt
  have lastInputs : AsertInputs (setCompact anchor.header.nBits).target params.nPowTargetSpacing
      (last.getBlockTime - (anchorPprev.headD anchor).getBlockTime) (last.height - anchor.height : ℤ)
      params.powLimit params.nASERTHalfLife :=
    network.asertInputs inputs.refTarget_pos inputs.refTarget_le (by simp only [CBlockIndex.getBlockTime]; omega)
      (by omega) (by simp only [CBlockIndex.height]; omega)
  obtain ⟨maximumTarget, maximumComputed, maximumValue⟩ := calculateASERT_eq inputs
  obtain ⟨lastTarget, lastComputed, lastValue⟩ := calculateASERT_eq lastInputs
  have harder : lastTarget.toNat ≤ maximumTarget.toNat := by
    rw [maximumValue, lastValue]
    exact asertTarget_mono _ le_rfl (asertExponent_mono inputs.spacing_pos inputs.halfLife_pos (by omega) (by omega))
  have demanded : getNextASERTWorkRequired params (last :: prev :: earlier) pblock (anchor :: anchorPprev) true = _ :=
    getNextASERTWorkRequired_subblock network.noMinimum notSummary (by omega) lastComputed
  rw [← same, ← sameAnchor] at demanded
  obtain ⟨positive, limited⟩ := calculateASERT_range lastComputed
  refine ⟨_, _, ?_, demanded, network.work_le positive limited harder⟩
  -- the threshold is the work of the subblock target, and of the easiest target without Tailstorm
  have proper : ¬(params.nPowTargetSpacing ≤ 0 ∨ params.nASERTHalfLife ≤ 0) := by
    have spacing := network.spacing_pos
    have halfLife := network.halfLife_ge
    omega
  simp only [getDeferredSubblockWorkThreshold, network.noMinimum, network.retargets, if_neg proper, found, ite_not]
  by_cases tailstorm : params.tailstormK = 0
  · rw [if_pos tailstorm, if_pos tailstorm]
    rfl
  · rw [if_neg tailstorm, if_neg tailstorm, maximumComputed]
    rfl

def sampleExtension (nTime : UInt32) : BlockIndexRef := [{ header := { nTime, height := 2 } }]

def sampleSubblock : CBlockHeader where
  height := 3
  minerData := [1]

theorem deferredSubblockWorkThreshold_le_sample : ∃ threshold nBits,
      getDeferredSubblockWorkThreshold (summaryParams 0x207fffff false) (summaryParent 0x1f7fffff) 10000 =
        .ok threshold ∧
      getNextASERTWorkRequired (summaryParams 0x207fffff false) (sampleExtension 400 ++ summaryParent 0x1f7fffff)
        sampleSubblock (getASERTAnchorBlock (summaryParams 0x207fffff false)
          (sampleExtension 400 ++ summaryParent 0x1f7fffff)) true = .ok nBits ∧
      threshold ≤ getWorkForDifficultyBits nBits := by
  have network : RetargetingNetwork (summaryParams 0x207fffff false) := by
    constructor <;> decide
  have times : (sampleExtension 400).all (fun index => decide (index.getBlockTime ≤ 10000)) = true := by decide
  have extension : ExtendsTip (summaryParams 0x207fffff false)
      { header := { nBits := 0x1f7fffff, nTime := 240, height := 1 } } (summaryAnchor 0x1f7fffff)
        (sampleExtension 400) 10000 :=
    { extended := by decide
      heights := by decide
      anchored := by decide
      times := fun index member => of_decide_eq_true (all_eq_true.mp times index member) }
  have found : getASERTAnchorBlock (summaryParams 0x207fffff false) (summaryParent 0x1f7fffff) =
      summaryAnchor 0x1f7fffff := by decide
  have inputs : AsertInputs (setCompact 0x1f7fffff).target 120 10000 2 (setCompact 0x207fffff).target 172800 := by
    constructor <;> decide
  exact deferredSubblockWorkThreshold_le network extension found inputs (by decide)

/-- A time too far from the schedule fails an assertion. With a half life of fifty minutes a time that
passes it asks for a shift of 2^32, which is cut to none, and the threshold is above the demand. -/
theorem deferredSubblockWorkThreshold_far :
    getDeferredSubblockWorkThreshold (summaryParams 0x207fffff false) (summaryParent 0x1f7fffff) (2 ^ 62) = crash ∧
    (let params := { summaryParams 0x207fffff false with nASERTHalfLife := 3000 }
     getDeferredSubblockWorkThreshold params (summaryParent 0x01010000) (360 + (2 ^ 32 + 16) * 3000) =
        .ok (getWorkForTarget (3 * 65536)) ∧
      getNextASERTWorkRequired params (sampleExtension 0xffffffff ++ summaryParent 0x01010000) sampleSubblock
        (getASERTAnchorBlock params (sampleExtension 0xffffffff ++ summaryParent 0x01010000)) true = .ok 0x207fffff ∧
      getWorkForDifficultyBits 0x207fffff < getWorkForTarget (3 * 65536)) := by
  decide

end Nexa
