import Nexa.Model.Consensus.Pow

/-! # The block index seen from one block

A pointer to a `CBlockIndex` gives access to the block and, through `pprev`, to all its ancestors.
The model represents it by the list of these entries, the block itself first; the empty list is the
null pointer. `pskip` only shortens walks along `pprev` and has no counterpart here.
-/

namespace Nexa

/-- The fields of `CBlockIndex` that header validation reads; the cached ones come from the header. -/
structure CBlockIndex where
  header : CBlockHeader
  nNextMaxBlockSize : UInt64 := 0
deriving DecidableEq, Repr

/-- A `CBlockIndex *`. -/
abbrev BlockIndexRef := List CBlockIndex

namespace CBlockIndex

variable (index : CBlockIndex)

def height : ℕ := index.header.height.toNat

def getHash : Uint256 := index.header.getHash

def getBlockTime : ℤ := index.header.nTime.toNat

end CBlockIndex

/-- Conversion of an integer to `int`. -/
def toInt32 (value : ℤ) : ℤ := value.bmod (2 ^ 32)

/-- Conversion of an integer to `int64_t`. -/
def toInt64 (value : ℤ) : ℤ := value.bmod (2 ^ 64)

variable (pindex : BlockIndexRef)

/-- `GetMedianTimePast`: the median of the last eleven block times, fewer near the genesis block. -/
def getMedianTimePast : ℤ :=
  let times := ((pindex.take 11).map CBlockIndex.getBlockTime).insertionSort (· ≤ ·)
  times.getD (times.length / 2) 0

/-- `GetAncestor`: heights are compared as `int`, and walking past the genesis block asserts. -/
def getAncestor (ansHeight : ℤ) : Validation BlockIndexRef :=
  match pindex with
  | [] => crash
  | index :: _ =>
    let heightWalk := toInt32 index.height
    if heightWalk < ansHeight ∨ ansHeight < 0 then pure []
    else match pindex.drop (heightWalk - ansHeight).toNat with
      | [] => crash
      | ancestor => pure ancestor

def ancestorHashIfOdd : ℤ := 5040

/-- `GetConsensusAncestorHeight`: clear the lowest bit of an even height, go back 5040 from an odd one. -/
def getConsensusAncestorHeight (height : ℤ) : ℤ :=
  if height < 2 then 0
  else if height % 2 = 1 then max 0 (height - ancestorHashIfOdd)
  else (height.toNat &&& (height.toNat - 1) : ℕ)

/-- `GetChildsConsensusAncestor`; the height of the child is an `int`. -/
def getChildsConsensusAncestor : Validation BlockIndexRef :=
  match pindex with
  | [] => crash
  | index :: _ => getAncestor pindex (getConsensusAncestorHeight (toInt32 (index.height + 1)))

def defaultNextMaxBlockSize : ℕ := 100000

/-- The state of the node, outside the block's own ancestors, that validation depends on. -/
structure NodeContext where
  crypto : Crypto
  params : Params
  adjustedTime : ℤ := 0
  /-- `Params().NetworkIDString() == STORMTEST`. -/
  stormtest : Bool := false
  miningForkTime : UInt64 := 0
  /-- The tweak that overrides the adaptive block size when it is not zero. -/
  nextMaxBlockSize : UInt64 := 0
  /-- The tweak that overrides the number of signature checks in a block when it is not zero. -/
  maxSigChecks : UInt64 := 0
  /-- The tweak `test.enforceMinTxSize`. -/
  enforceMinTxSize : Bool := true
  fCheckpointsEnabled : Bool := true
  /-- `mapCheckpoints` in increasing order of height. -/
  mapCheckpoints : List (ℕ × Uint256) := []
  chainActive : List CBlockHeader := []
  mapBlockIndex : List CBlockIndex := []

namespace NodeContext

variable (node : NodeContext)

def getNextMaxBlockSize (index : CBlockIndex) : UInt64 :=
  if node.nextMaxBlockSize ≠ 0 then node.nextMaxBlockSize else index.nNextMaxBlockSize

/-- `IsUpgrade2Activated`: the fork time passed before the parent of the tip. -/
def isUpgrade2Activated : BlockIndexRef → Bool
  | tip :: pprev :: rest =>
    (node.stormtest && decide (2 < tip.height)) ||
      decide (toInt64 node.miningForkTime.toNat ≤ getMedianTimePast (pprev :: rest))
  | _ => false

/-- `IsUpgrade2Pending`: the fork time passed at the tip but not yet at its parent. -/
def isUpgrade2Pending : BlockIndexRef → Bool
  | [] => false
  | tip :: rest =>
    (node.stormtest && decide (tip.height = 2)) ||
      (!node.isUpgrade2Activated (tip :: rest) &&
        decide (toInt64 node.miningForkTime.toNat ≤ getMedianTimePast (tip :: rest)))

def checkAgainstCheckpoint (height : ℕ) (hash : Uint256) : Bool :=
  match node.mapCheckpoints.lookup height with
  | some checkpoint => hash = checkpoint
  | none => true

/-- `Checkpoints::GetLastCheckpoint`: the highest checkpoint whose block is in the index. -/
def getLastCheckpoint : Option CBlockIndex :=
  node.mapCheckpoints.reverse.findSome? fun checkpoint =>
    node.mapBlockIndex.find? fun index => index.getHash = checkpoint.2

end NodeContext

theorem height_lt_of_getChildsConsensusAncestor {index : CBlockIndex} {pprev ancestor : BlockIndexRef}
    (found : getChildsConsensusAncestor (index :: pprev) = .ok ancestor) (some : ancestor ≠ []) :
    index.height < 2 ^ 31 := by
  by_contra large
  have range : index.height < 2 ^ 32 := index.header.height.toNat_lt
  have negative : toInt32 index.height < 0 := by
    rw [toInt32, Int.bmod_def]
    split_ifs <;> omega
  have target : 0 ≤ getConsensusAncestorHeight (toInt32 (index.height + 1)) := by
    unfold getConsensusAncestorHeight
    split_ifs <;> omega
  have below : toInt32 index.height < getConsensusAncestorHeight (toInt32 (index.height + 1)) := by omega
  simp only [getChildsConsensusAncestor, getAncestor, below, true_or, ↓reduceIte, pure, Except.pure,
    Except.ok.injEq] at found
  exact some found.symm

end Nexa
