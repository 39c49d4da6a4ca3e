import Nexa.Model.Chain.BlockIndex
import Nexa.Model.Core.Amount

/-! # Difficulty adjustment

`daa.cpp`: the ASERT schedule sets the target from the time and the number of blocks since an anchor
block. Under Tailstorm the target is `tailstorm_k` times easier, and a summary block has to make up
for the work that the subblocks and uncles it credits do not bring.
-/

namespace Nexa

def getTargetForRequiredWork (requiredWork : Uint256) : Uint256 :=
  if requiredWork = 0 then 1
  else
    let target := ~~~requiredWork / requiredWork
    if target = 0 then 1 else target

/-- The loop of `GetNextHarderCompactBits` that folds exponent bytes into a short mantissa. -/
def foldExponent : ℕ → ℕ → ℕ × ℕ
  | 0, nWord => (0, nWord)
  | nSize + 1, nWord =>
    if nWord < 0x8000 ∧ 1 < nSize + 1 then foldExponent nSize (nWord * 2 ^ 8 + 0xff) else (nSize + 1, nWord)

/-- `GetNextHarderCompactBits`: the next smaller target that has a canonical encoding. -/
def getNextHarderCompactBits (nBits : UInt32) : Validation UInt32 := do
  let nWord := nBits.toNat % 2 ^ 23
  assertThat (nWord ≠ 0)
  let (nSize, nWord) := foldExponent (nBits.toNat / 2 ^ 24) (nWord - 1)
  let nWord := if nSize < 3 then nWord - nWord % 2 ^ (8 * (3 - nSize)) else nWord
  assertThat (1 < nWord)
  pure (UInt32.ofNat (nSize <<< 24 ||| nWord))

/-- The loop of `GetCompactBitsForRequiredWork`. Each step lowers the bits as a number, so their
initial value bounds the number of steps. -/
def hardenCompactBits (requiredWork : Uint256) : ℕ → UInt32 → Validation UInt32
  | 0, nBits => pure nBits
  | fuel + 1, nBits =>
    if getWorkForDifficultyBits nBits < requiredWork then do
      hardenCompactBits requiredWork fuel (← getNextHarderCompactBits nBits)
    else pure nBits

def getCompactBitsForRequiredWork (requiredWork : Uint256) : Validation UInt32 :=
  let nBits := getCompact (getTargetForRequiredWork requiredWork)
  hardenCompactBits requiredWork nBits.toNat nBits

/-- The fixed-point approximation of 65536 * 2^(frac / 65536) in `CalculateASERT`. -/
def asertFactor (frac : ℕ) : ℕ :=
  65536 + (195766423245049 * frac + 971821376 * frac ^ 2 + 5127 * frac ^ 3 + 2 ^ 47) % 2 ^ 64 / 2 ^ 48

/-- The last comparisons of `CalculateASERT`: a target of at least 1 and at most `powLimit`. -/
def clampTarget (powLimit : Uint256) (nextTarget : BitVec 320) : Uint256 :=
  if nextTarget = 0 then 1
  else if powLimit.toNat < nextTarget.toNat then powLimit
  else nextTarget.setWidth 256

/-- `CalculateASERT`; the intermediate target is an `arith_uint320`, whose shifts take an
`unsigned int`. An overflow of the `int64_t` schedule is a crash. -/
def calculateASERT (refTarget : Uint256) (nPowTargetSpacing nTimeDiff nHeightDiff : ℤ) (powLimit : Uint256)
    (nHalfLife : ℤ) : Validation Uint256 := do
  assertThat (0 < refTarget)
  assertThat (refTarget ≤ powLimit)
  assertThat (0 ≤ nHeightDiff)
  assertThat (fitsInt64 (nPowTargetSpacing * nHeightDiff))
  assertThat ((nTimeDiff - nPowTargetSpacing * nHeightDiff).natAbs < 2 ^ (63 - 16))
  let drift := nTimeDiff - nPowTargetSpacing * (nHeightDiff + 1)
  assertThat (fitsInt64 (nPowTargetSpacing * (nHeightDiff + 1)) ∧ fitsInt64 (drift * 65536))
  let exponent := (drift * 65536).tdiv nHalfLife
  -- The arithmetic shift rounds down, so the fraction is never negative.
  let frac := (exponent % 65536).toNat
  assertThat (exponent = exponent / 65536 * 65536 + frac)
  let shifts := exponent / 65536 - 16
  let nextTarget : BitVec 320 := BitVec.ofNat 320 (refTarget.toNat * asertFactor frac)
  if shifts ≤ 0 then pure (clampTarget powLimit (nextTarget >>> ((-shifts).toNat % 2 ^ 32)))
  else
    let shift := shifts.toNat % 2 ^ 32
    let nextTargetShifted := nextTarget <<< shift
    if nextTargetShifted >>> shift ≠ nextTarget then pure powLimit
    else pure (clampTarget powLimit nextTargetShifted)

/-- The slow path of `GetASERTAnchorBlock`: back to the anchor height, or to the genesis block. -/
def walkToAnchor (params : Params) : BlockIndexRef → BlockIndexRef
  | anchor :: pprev :: rest =>
    if params.nASERTAnchorAt ≠ 0 ∧ anchor.height = params.nASERTAnchorAt then anchor :: pprev :: rest
    else walkToAnchor params (pprev :: rest)
  | anchor => anchor

variable (params : Params)

/-- `GetASERTAnchorBlock`; the cached anchor of the source is the block this walk ends at. -/
def getASERTAnchorBlock (pindex : BlockIndexRef) : BlockIndexRef :=
  match pindex with
  | [] => []
  | index :: _ => if index.height < params.nASERTAnchorAt then pindex else walkToAnchor params pindex

/-- `GetDeferredSubblockWorkThreshold`: the work of the easiest subblock that a summary block after the
tip could have, dated at `maximumSummaryTime`. -/
def getDeferredSubblockWorkThreshold (pindexTip : BlockIndexRef) (maximumSummaryTime : ℤ) :
    Validation Uint256 :=
  let minimumWork := getWorkForTarget params.powLimit
  match pindexTip with
  | [] => pure minimumWork
  | tip :: _ =>
    if params.tailstormK = 0 then pure minimumWork
    else if params.fPowAllowMinDifficultyBlocks then pure minimumWork
    else if params.fPowNoRetargeting then
      let compact := setCompact tip.header.nBits
      if compact.fNegative ∨ compact.fOverflow ∨ compact.target = 0 ∨ params.powLimit < compact.target then
        pure minimumWork
      else pure (getWorkForTarget compact.target)
    else if params.nPowTargetSpacing ≤ 0 ∨ params.nASERTHalfLife ≤ 0 then pure minimumWork
    else
      match getASERTAnchorBlock params pindexTip with
      | [] => crash
      | anchor :: anchorPprev => do
        let anchorTime := (anchorPprev.headD anchor).getBlockTime
        let maximumTarget ← calculateASERT (setCompact anchor.header.nBits).target params.nPowTargetSpacing
          (maximumSummaryTime - anchorTime) (tip.height + 1 - anchor.height : ℤ) params.powLimit params.nASERTHalfLife
        let tailstormTarget := maximumTarget.toNat * params.tailstormK.toNat
        pure (getWorkForTarget
          (if params.powLimit.toNat < tailstormTarget then params.powLimit else BitVec.ofNat 256 tailstormTarget))

/-- The target a Tailstorm block must meet, from the ASERT target of a whole block. -/
def tailstormTarget (pblock : CBlockHeader) (asertTarget : Uint256) : Validation Uint256 := do
  let kTarget := asertTarget.toNat * params.tailstormK.toNat
  let defaultTarget := if params.powLimit.toNat < kTarget then params.powLimit else BitVec.ofNat 256 kTarget
  if pblock.isTailstormSummaryBlock then
    let ret := parseSummaryBlockMinerData pblock.minerData
    let defaultWork := getWorkForTarget defaultTarget
    let expectedBlockWork := defaultWork * BitVec.ofNat 256 params.tailstormK.toNat
    let nCurrentWorkInBlock :=
      BitVec.ofNat 256 ret.nUncles.toNat * getWorkForDifficultyBits ret.nBitsUncle +
        BitVec.ofNat 256 ret.nSubblocks.toNat * getWorkForDifficultyBits ret.nBitsSubblock
    let requiredSummaryWork :=
      if nCurrentWorkInBlock < expectedBlockWork ∧ defaultWork < expectedBlockWork - nCurrentWorkInBlock then
        expectedBlockWork - nCurrentWorkInBlock
      else defaultWork
    pure (setCompact (← getCompactBitsForRequiredWork requiredSummaryWork)).target
  else pure defaultTarget

variable (pindexPrev : BlockIndexRef) (pblock : CBlockHeader)

def getNextASERTWorkRequired
    (pindexAnchorBlock : BlockIndexRef) (tailstorm : Bool) : Validation UInt32 :=
  match pindexPrev, pindexAnchorBlock with
  | prev :: pprev, anchor :: anchorPprev => do
    assertThat (anchor.height ≤ prev.height)
    if params.fPowAllowMinDifficultyBlocks ∧
        prev.getBlockTime + 2 * params.nPowTargetSpacing < (pblock.nTime.toNat : ℤ) then
      pure (getCompact params.powLimit)
    else if pprev = [] then pure (getCompact params.powLimit)
    else
      let anchorTime := (anchorPprev.headD anchor).getBlockTime
      let asertTarget ← calculateASERT (setCompact anchor.header.nBits).target params.nPowTargetSpacing
        (prev.getBlockTime - anchorTime) (prev.height - anchor.height : ℤ) params.powLimit params.nASERTHalfLife
      let nextTarget ←
        if tailstorm ∧ params.tailstormK ≠ 0 then tailstormTarget params pblock asertTarget else pure asertTarget
      pure (getCompact (if params.powLimit < nextTarget then params.powLimit else nextTarget))
  | _, _ => crash

/-- `GetNextWorkRequired` with `tailstorm` set, `GetNextNonTailstormWorkRequired` without. -/
def getNextWorkRequired (tailstorm : Bool) :
    Validation UInt32 :=
  match pindexPrev with
  | [] => pure (getCompact params.powLimit)
  | prev :: _ =>
    if params.fPowNoRetargeting then pure prev.header.nBits
    else getNextASERTWorkRequired params pindexPrev pblock (getASERTAnchorBlock params pindexPrev) tailstorm

end Nexa
