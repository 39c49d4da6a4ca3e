import Nexa.Proofs.Asert
import Nexa.Proofs.RequiredWork

/-! # The work demanded of a summary block

A summary block has to bring the work of a subblock at least, and with the work of the subblocks and
uncles it credits that of `tailstorm_k` subblocks. No target takes more than 2^255 hashes, so bits for
a larger rest do not exist and the search for them fails an assertion.
-/

namespace Nexa

open BitVec

variable {target : Uint256} {params : Params} {asertTarget : Uint256} {pblock : CBlockHeader}

theorem calculateASERT_range {refTarget powLimit : Uint256} {nPowTargetSpacing nTimeDiff nHeightDiff nHalfLife : ℤ}
    (computed : calculateASERT refTarget nPowTargetSpacing nTimeDiff nHeightDiff powLimit nHalfLife = .ok target) :
    1 ≤ target.toNat ∧ target.toNat ≤ powLimit.toNat := by
  simp only [calculateASERT, Validation.seq_eq_ok_iff, assertThat_eq_ok_iff] at computed
  obtain ⟨positive, limited, -, -, -, -, -, computed⟩ := computed
  have limitPos : 0 < powLimit := Nat.lt_of_lt_of_le positive limited
  have limit : 1 ≤ powLimit.toNat := limitPos
  have clamped (nextTarget : BitVec 320) : 1 ≤ (clampTarget powLimit nextTarget).toNat ∧
      (clampTarget powLimit nextTarget).toNat ≤ powLimit.toNat := by
    rw [toNat_clampTarget limitPos]
    omega
  split_ifs at computed
  · cases computed
    exact clamped _
  · cases computed
    exact ⟨limit, le_rfl⟩
  · cases computed
    exact clamped _

/-- The target of a subblock: `tailstorm_k` times easier than the ASERT target, up to `powLimit`. -/
def defaultTarget (params : Params) (asertTarget : Uint256) : Uint256 :=
  if params.powLimit.toNat < asertTarget.toNat * params.tailstormK.toNat then params.powLimit
  else BitVec.ofNat 256 (asertTarget.toNat * params.tailstormK.toNat)

theorem toNat_defaultTarget :
    (defaultTarget params asertTarget).toNat =
      min params.powLimit.toNat (asertTarget.toNat * params.tailstormK.toNat) := by
  unfold defaultTarget
  split_ifs with above
  · rw [min_eq_left above.le]
  · have fits := (not_lt.mp above).trans_lt params.powLimit.isLt
    rw [min_eq_right (not_lt.mp above), toNat_ofNat, Nat.mod_eq_of_lt fits]

/-- The work that a summary block's miner data credits, as the counts say. -/
def creditedWork (minerData : CSummaryBlockMinerData) : ℕ :=
  minerData.nUncles.toNat * (getWorkForDifficultyBits minerData.nBitsUncle).toNat +
    minerData.nSubblocks.toNat * (getWorkForDifficultyBits minerData.nBitsSubblock).toNat

theorem getWorkForTarget_range (positive : 1 ≤ target.toNat) :
    1 ≤ (getWorkForTarget target).toNat ∧ (getWorkForTarget target).toNat ≤ 2 ^ 255 := by
  have nonzero : target ≠ 0 := by
    rintro rfl
    exact absurd positive (by decide)
  by_cases bound : target.toNat + 1 < 2 ^ 256
  · rw [toNat_getWorkForTarget_eq nonzero bound]
    constructor
    · rw [Nat.le_div_iff_mul_le (Nat.succ_pos _)]
      omega
    · calc 2 ^ 256 / (target.toNat + 1) ≤ 2 ^ 256 / 2 := Nat.div_le_div_left (by omega) (by norm_num)
        _ ≤ 2 ^ 255 := by decide
  · have largest : target = BitVec.ofNat 256 (2 ^ 256 - 1) := by
      apply eq_of_toNat_eq
      rw [toNat_ofNat]
      omega
    rw [largest]
    decide

theorem getCompactBitsForRequiredWork_crash {requiredWork : Uint256} (large : 2 ^ 255 < requiredWork.toNat) :
    getCompactBitsForRequiredWork requiredWork = crash := by
  have nonzero : requiredWork ≠ 0 := by
    rintro rfl
    exact absurd large (by decide)
  have quotient : ~~~requiredWork / requiredWork = 0 := by
    apply eq_of_toNat_eq
    rw [toNat_udiv, toNat_not]
    exact Nat.div_eq_of_lt (by omega)
  have target : getTargetForRequiredWork requiredWork = 1 := by
    rw [getTargetForRequiredWork, if_neg nonzero]
    rw [quotient, if_pos rfl]
  have short : getWorkForDifficultyBits 0x01010000 < requiredWork := by
    refine lt_of_eq_of_lt ?_ (show BitVec.ofNat 256 (2 ^ 255) < requiredWork from ?_)
    · decide
    · exact lt_def.mpr (by simpa using large)
  have bits : getCompact 1 = 0x01010000 := by decide
  obtain ⟨fuel, rounds⟩ : ∃ fuel, (0x01010000 : UInt32).toNat = fuel + 1 := ⟨0x0100ffff, by decide⟩
  unfold getCompactBitsForRequiredWork
  rw [target, bits]
  dsimp only
  rw [rounds, hardenCompactBits, if_pos short]
  rfl

theorem tailstormTarget_summary (summary : pblock.isTailstormSummaryBlock = true)
    (expectedFits : (getWorkForTarget (defaultTarget params asertTarget)).toNat * params.tailstormK.toNat < 2 ^ 256)
    (creditFits : creditedWork (parseSummaryBlockMinerData pblock.minerData) < 2 ^ 256) :
    ∃ requiredWork : Uint256, requiredWork.toNat = max (getWorkForTarget (defaultTarget params asertTarget)).toNat
        ((getWorkForTarget (defaultTarget params asertTarget)).toNat * params.tailstormK.toNat -
          creditedWork (parseSummaryBlockMinerData pblock.minerData)) ∧
      tailstormTarget params pblock asertTarget =
        getCompactBitsForRequiredWork requiredWork >>= fun nBits => pure (setCompact nBits).target := by
  set minerData := parseSummaryBlockMinerData pblock.minerData with minerDataDef
  set defaultWork := getWorkForTarget (defaultTarget params asertTarget) with defaultWorkDef
  set expected := defaultWork * BitVec.ofNat 256 params.tailstormK.toNat with expectedDef
  set current := BitVec.ofNat 256 minerData.nUncles.toNat * getWorkForDifficultyBits minerData.nBitsUncle +
    BitVec.ofNat 256 minerData.nSubblocks.toNat * getWorkForDifficultyBits minerData.nBitsSubblock with currentDef
  have expectedNat : expected.toNat = defaultWork.toNat * params.tailstormK.toNat := by
    have k := params.tailstormK.toNat_lt
    rw [toNat_mul, toNat_ofNat, Nat.mod_eq_of_lt (show params.tailstormK.toNat < 2 ^ 256 by omega)]
    exact Nat.mod_eq_of_lt expectedFits
  have currentNat : current.toNat = creditedWork minerData := by
    have uncles := minerData.nUncles.toNat_lt
    have subblocks := minerData.nSubblocks.toNat_lt
    rw [toNat_add, toNat_mul, toNat_mul, toNat_ofNat, toNat_ofNat,
      Nat.mod_eq_of_lt (show minerData.nUncles.toNat < 2 ^ 256 by omega),
      Nat.mod_eq_of_lt (show minerData.nSubblocks.toNat < 2 ^ 256 by omega), ← Nat.add_mod]
    exact Nat.mod_eq_of_lt creditFits
  refine ⟨if current < expected ∧ defaultWork < expected - current then expected - current else defaultWork, ?_, ?_⟩
  · split_ifs with short
    · have less : current.toNat < expected.toNat := short.1
      have rest := toNat_sub_of_le less.le
      have more : defaultWork.toNat < (expected - current).toNat := short.2
      omega
    · have enough : expected.toNat ≤ current.toNat ∨ expected.toNat - current.toNat ≤ defaultWork.toNat := by
        by_contra deficit
        obtain ⟨less, more⟩ := not_or.mp deficit
        have rest := toNat_sub_of_le (not_le.mp less).le
        exact short ⟨lt_def.mpr (by omega), lt_def.mpr (by omega)⟩
      omega
  · simp only [tailstormTarget, summary]
    rfl

/-- The state in which `GetNextASERTWorkRequired` sets the bits of a Tailstorm summary block from the work. -/
structure SummaryDemand (params : Params) (pindexPrev : BlockIndexRef) (pblock : CBlockHeader)
    (pindexAnchorBlock : BlockIndexRef) (asertTarget : Uint256) : Prop where
  tailstorm : params.tailstormK ≠ 0
  summary : pblock.isTailstormSummaryBlock = true
  reached : ∃ prev pprev anchor anchorPprev, pindexPrev = prev :: pprev ∧ pindexAnchorBlock = anchor :: anchorPprev ∧
    anchor.height ≤ prev.height ∧ pprev ≠ [] ∧
    ¬(params.fPowAllowMinDifficultyBlocks = true ∧
      prev.getBlockTime + 2 * params.nPowTargetSpacing < (pblock.nTime.toNat : ℤ)) ∧
    calculateASERT (setCompact anchor.header.nBits).target params.nPowTargetSpacing
      (prev.getBlockTime - (anchorPprev.headD anchor).getBlockTime) (prev.height - anchor.height : ℤ)
      params.powLimit params.nASERTHalfLife = .ok asertTarget

theorem SummaryDemand.getNextASERTWorkRequired {pindexPrev pindexAnchorBlock : BlockIndexRef}
    (demand : SummaryDemand params pindexPrev pblock pindexAnchorBlock asertTarget) :
    Nexa.getNextASERTWorkRequired params pindexPrev pblock pindexAnchorBlock true =
      tailstormTarget params pblock asertTarget >>= fun nextTarget =>
        pure (getCompact (if params.powLimit < nextTarget then params.powLimit else nextTarget)) := by
  obtain ⟨prev, pprev, anchor, anchorPprev, rfl, rfl, heights, parent, ordinary, computed⟩ := demand.reached
  have heightsOk : assertThat (anchor.height ≤ prev.height) = .ok () := assertThat_eq_ok_iff.mpr heights
  simp only [Nexa.getNextASERTWorkRequired]
  rw [heightsOk]
  rw [if_neg ordinary, if_neg parent]
  rw [computed]
  change (if _ then _ else _) = _
  rw [if_pos ⟨trivial, demand.tailstorm⟩]

theorem work_getCompact_clamp {powLimit nextTarget : Uint256} (limit : 1 ≤ powLimit.toNat) (positive : nextTarget ≠ 0)
    (bound : nextTarget.toNat + 1 < 2 ^ 256) :
    (getWorkForTarget nextTarget).toNat ≤
      (getWorkForDifficultyBits (getCompact (if powLimit < nextTarget then powLimit else nextTarget))).toNat := by
  split_ifs with easy
  · have less : powLimit.toNat < nextTarget.toNat := easy
    have nonzero : powLimit ≠ 0 := by
      rintro rfl
      exact absurd limit (by decide)
    exact (getWorkForTarget_anti nonzero bound less.le).trans (getWorkForTarget_le_getCompact nonzero (by omega))
  · exact getWorkForTarget_le_getCompact positive bound

/-- The bits of a summary block bring the work of a subblock, and the credited work up to that of
`tailstorm_k` subblocks, exactly if a target can take the work that is missing. -/
theorem summaryBits_work_iff {params : Params} {pindexPrev pindexAnchorBlock : BlockIndexRef}
    {pblock : CBlockHeader} {asertTarget : Uint256}
    (demand : SummaryDemand params pindexPrev pblock pindexAnchorBlock asertTarget)
    (expectedFits : (getWorkForTarget (defaultTarget params asertTarget)).toNat * params.tailstormK.toNat < 2 ^ 256)
    (creditFits : creditedWork (parseSummaryBlockMinerData pblock.minerData) < 2 ^ 256) :
    (∃ nBits, getNextASERTWorkRequired params pindexPrev pblock pindexAnchorBlock true = .ok nBits ∧
      (getWorkForTarget (defaultTarget params asertTarget)).toNat ≤ (getWorkForDifficultyBits nBits).toNat ∧
      (getWorkForTarget (defaultTarget params asertTarget)).toNat * params.tailstormK.toNat ≤
        (getWorkForDifficultyBits nBits).toNat + creditedWork (parseSummaryBlockMinerData pblock.minerData)) ↔
      (getWorkForTarget (defaultTarget params asertTarget)).toNat * params.tailstormK.toNat ≤
        2 ^ 255 + creditedWork (parseSummaryBlockMinerData pblock.minerData) := by
  obtain ⟨_, _, _, _, -, -, -, -, -, computed⟩ := demand.reached
  obtain ⟨asertPos, asertLimit⟩ := calculateASERT_range computed
  have k : 0 < params.tailstormK.toNat := Nat.pos_of_ne_zero fun none => demand.tailstorm (UInt32.toNat_inj.mp none)
  have targetPos : 1 ≤ (defaultTarget params asertTarget).toNat := by
    have product := Nat.mul_pos asertPos k
    rw [toNat_defaultTarget]
    omega
  obtain ⟨workPos, workLimit⟩ := getWorkForTarget_range targetPos
  obtain ⟨requiredWork, required, target_eq⟩ := tailstormTarget_summary demand.summary expectedFits creditFits
  rw [demand.getNextASERTWorkRequired, target_eq]
  by_cases exists_ : requiredWork.toNat ≤ 2 ^ 255
  · obtain ⟨nBits, found, canonical, work⟩ := getCompactBitsForRequiredWork_eq (by omega) exists_
    rw [canonical.work] at work
    have enough := work.trans (work_getCompact_clamp (asertPos.trans asertLimit) canonical.positive
      (setCompact_target_bound nBits))
    rw [found]
    exact iff_of_true ⟨_, rfl, by omega, by omega⟩ (by omega)
  · rw [getCompactBitsForRequiredWork_crash (not_le.mp exists_)]
    refine iff_of_false ?_ (by omega)
    rintro ⟨nBits, returned, -⟩
    exact crash_ne_ok returned

variable (nBits : UInt32)

/-- Three subblocks a summary block, and blocks of the test networks as asked. -/
def summaryParams (fPowAllowMinDifficultyBlocks : Bool) : Params where
  powLimit := (setCompact nBits).target
  fPowAllowMinDifficultyBlocks := fPowAllowMinDifficultyBlocks
  nPowTargetSpacing := 120
  nASERTHalfLife := 172800
  tailstormK := 3

/-- A genesis block that is the anchor. -/
def summaryAnchor : BlockIndexRef := [{ header := { nBits } }]

/-- A block on schedule on top of it. -/
def summaryParent : BlockIndexRef := { header := { nBits, nTime := 240, height := 1 } } :: summaryAnchor nBits

/-- A summary block that credits one subblock of the easiest target. -/
def summarySample (nTime : UInt32) : CBlockHeader where
  nTime := nTime
  height := 2
  minerData :=
    2 :: (0 : Uint256).toBytes ++ [0, 0, 0, 0, 0, 1, 0xff, 0xff, 0x7f, 0x20, 1] ++ (0 : Uint256).toBytes ++ [1, 0]

theorem summaryBits_work_sample :
    ∃ nBits, getNextASERTWorkRequired (summaryParams 0x207fffff false) (summaryParent 0x1f7fffff) (summarySample 360)
        (summaryAnchor 0x1f7fffff) true = .ok nBits ∧
      170 ≤ (getWorkForDifficultyBits nBits).toNat ∧ 170 * 3 ≤ (getWorkForDifficultyBits nBits).toNat + 2 := by
  have demand : SummaryDemand (summaryParams 0x207fffff false) (summaryParent 0x1f7fffff) (summarySample 360)
      (summaryAnchor 0x1f7fffff) (setCompact 0x1f7fffff).target :=
    { tailstorm := by decide
      summary := by decide
      reached := ⟨_, _, _, _, rfl, rfl, by decide, by decide, by decide, by decide⟩ }
  have defaultWork : (getWorkForTarget (defaultTarget (summaryParams 0x207fffff false)
      (setCompact 0x1f7fffff).target)).toNat = 170 := by decide
  have credited : creditedWork (parseSummaryBlockMinerData (summarySample 360).minerData) = 2 := by decide
  have covered := summaryBits_work_iff demand (by rw [defaultWork]; decide) (by rw [credited]; decide)
  exact covered.mpr (by decide)

/-- On the test networks a late block may have the easiest target, and where the targets are almost
used up the work that is missing has no bits. -/
theorem summaryBits_short :
    (getNextASERTWorkRequired (summaryParams 0x207fffff true) (summaryParent 0x1f7fffff) (summarySample 1000)
        (summaryAnchor 0x1f7fffff) true = .ok 0x207fffff ∧
      calculateASERT (setCompact 0x1f7fffff).target 120 240 1 (setCompact 0x207fffff).target 172800 =
        .ok (setCompact 0x1f7fffff).target ∧
      getWorkForDifficultyBits 0x207fffff <
        getWorkForTarget (defaultTarget (summaryParams 0x207fffff true) (setCompact 0x1f7fffff).target)) ∧
    (getNextASERTWorkRequired (summaryParams 0x01030000 false) (summaryParent 0x01010000) (summarySample 360)
        (summaryAnchor 0x01010000) true = crash ∧
      calculateASERT 1 120 240 1 3 172800 = .ok 1 ∧
      (getWorkForTarget (defaultTarget (summaryParams 0x01030000 false) 1)).toNat * 3 < 2 ^ 256 ∧
      creditedWork (parseSummaryBlockMinerData (summarySample 360).minerData) = 2) := by
  decide

end Nexa
