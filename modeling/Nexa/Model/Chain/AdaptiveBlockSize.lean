import Nexa.Model.Chain.BlockIndex
import Nexa.ToMathlib.LowerBound

/-! # The adaptive block size

`adaptive_blocksize.cpp`: the next maximum block size is a multiple of the larger of two median block
sizes. The medians are taken from two global caches, which follow the calls: a block on top of the last
one is added to the cached sizes, any other block has them collected anew. Sizes are numbers here; a
product of two `uint64_t` is reduced.
-/

namespace Nexa

def defaultLargestBlockSizePossible : ℕ := 1000 * 1000000

/-- The consensus parameters of the adaptive block size. -/
structure BlockSizeParams where
  nShortBlockWindow : ℕ
  nLongBlockWindow : ℕ
  nBlockSizeMultiplier : ℕ := 10

/-- The static variables of one window. -/
structure MedianWindow where
  vSizes : List ℕ := []
  vSizesUnsorted : List ℕ := []
  pindexTip : BlockIndexRef := []
  fRunOnce : Bool := true
deriving DecidableEq, Repr

def CBlockIndex.getBlockSize (index : CBlockIndex) : ℕ := index.header.size.toNat

/-- `std::sort`. -/
def sortSizes (vSizes : List ℕ) : List ℕ := vSizes.insertionSort (· ≤ ·)

/-- `CalculateMedian`: the element in the middle of an odd number of them. It throws for an even number. -/
def calculateMedian (vData : List ℕ) : Option ℕ :=
  if vData.length % 2 = 0 then none else vData[(vData.length - 1) / 2]?

namespace MedianWindow

variable (nWindow : ℕ) (nBlockSize : ℕ)

/-- The sizes are collected from the block back, for as many ancestors as the window needs. -/
def rebuild (pprev : BlockIndexRef) (window : MedianWindow) : MedianWindow :=
  let sizes := nBlockSize :: (pprev.take nWindow).map CBlockIndex.getBlockSize
  { window with vSizes := sortSizes sizes, vSizesUnsorted := sizes.reverse }

/-- One more size. Only the first call that finds the window full sorts the sizes before it inserts. -/
def extend (window : MedianWindow) : Validation MedianWindow := do
  let vSizesUnsorted := window.vSizesUnsorted ++ [nBlockSize]
  if window.vSizes.length < nWindow then
    pure { window with vSizes := window.vSizes ++ [nBlockSize], vSizesUnsorted }
  else if window.fRunOnce then
    assertThat (window.vSizes.length = nWindow)
    pure { window with
      vSizes := (sortSizes window.vSizes).insertAtLowerBound nBlockSize, vSizesUnsorted, fRunOnce := false }
  else pure { window with vSizes := window.vSizes.insertAtLowerBound nBlockSize, vSizesUnsorted }

/-- The median of a full window, whose oldest size is then removed. A failed `CalculateMedian` leaves the
median at 0. -/
def takeMedian (window : MedianWindow) : Validation (Option ℕ × MedianWindow) := do
  assertThat (window.vSizesUnsorted.length = window.vSizes.length)
  assertThat (window.vSizes.length ≤ nWindow + 1)
  if window.vSizes.length = nWindow + 1 then
    match window.vSizesUnsorted with
    | [] => crash
    | nSizeToRemove :: rest =>
      assertThat (nSizeToRemove ∈ window.vSizes)
      let vSizes := window.vSizes.erase nSizeToRemove
      assertThat (vSizes.length = nWindow)
      assertThat (rest.length = nWindow)
      pure (some ((calculateMedian window.vSizes).getD 0), { window with vSizes, vSizesUnsorted := rest })
  else pure (none, window)

/-- `CalculateMedianSize` for a block with its ancestors; no median if the window is not complete. -/
def calculateMedianSize (index : CBlockIndex) (pprev : BlockIndexRef) (nBlockSize : ℕ)
    (window : MedianWindow) : Validation (Option ℕ × MedianWindow) := do
  let sized ←
    if pprev ≠ window.pindexTip then pure (window.rebuild nWindow nBlockSize pprev)
    else window.extend nWindow nBlockSize
  takeMedian nWindow { sized with pindexTip := index :: pprev }

end MedianWindow

/-- The static variables of both windows. -/
structure BlockSizeCache where
  shortWindow : MedianWindow := {}
  longWindow : MedianWindow := {}
deriving DecidableEq, Repr

variable (node : NodeContext) (sizeParams : BlockSizeParams) (pindexPrev : BlockIndexRef)

/-- The least that the next maximum can be. -/
def nextMaxBlockSizeFloor : ℕ :=
  if node.isUpgrade2Pending pindexPrev ∨ node.isUpgrade2Activated pindexPrev then
    node.params.tailstormK.toNat * defaultNextMaxBlockSize
  else node.params.nNextMaxBlockSize.toNat

def calculateNextMaxBlockSize (nBlockSize : ℕ) (cache : BlockSizeCache) :
    Validation (ℕ × BlockSizeCache) :=
  match pindexPrev with
  | [] => pure (node.params.nNextMaxBlockSize.toNat, cache)
  | index :: pprev => do
    let (short, shortWindow) ←
      cache.shortWindow.calculateMedianSize sizeParams.nShortBlockWindow index pprev nBlockSize
    let (long, longWindow) ←
      cache.longWindow.calculateMedianSize sizeParams.nLongBlockWindow index pprev nBlockSize
    let nNextMaxBlockSize :=
      match short, long with
      | some nMedianShortWindow, some nMedianLongWindow =>
        max nMedianShortWindow nMedianLongWindow * sizeParams.nBlockSizeMultiplier % 2 ^ 64
      | some nMedianShortWindow, none => nMedianShortWindow * sizeParams.nBlockSizeMultiplier % 2 ^ 64
      | none, _ => node.params.nNextMaxBlockSize.toNat
    let nNextMaxBlockSize := max nNextMaxBlockSize (nextMaxBlockSizeFloor node pindexPrev)
    pure (min nNextMaxBlockSize defaultLargestBlockSizePossible, { shortWindow, longWindow })

end Nexa
