import Mathlib.Data.Set.Basic

/-! # Skip pointers in the block index

A pointer to a block is the list of the block and its ancestors, null is the empty list. The field
`pskip` of all blocks is a table, and heights count the blocks below.
-/

namespace Nexa

def invertLowestOne (n : ℕ) : ℕ := n &&& (n - 1)

theorem invertLowestOne_le (n : ℕ) : invertLowestOne n ≤ n - 1 := Nat.and_le_right

def getSkipHeight (height : ℕ) : ℕ :=
  if height < 2 then 0
  else if height % 2 = 1 then invertLowestOne (invertLowestOne (height - 1)) + 1 else invertLowestOne height

theorem getSkipHeight_lt {height : ℕ} (pos : 0 < height) : getSkipHeight height < height := by
  have once := invertLowestOne_le (height - 1)
  have twice := invertLowestOne_le (invertLowestOne (height - 1))
  have even := invertLowestOne_le height
  rw [getSkipHeight]
  split_ifs <;> omega

namespace SkipTree

variable {ι : Type} (pskip : List ι → List ι)

def height (pindex : List ι) : ℕ := pindex.length - 1

/-- The loop of `GetAncestor`, which fails at a block without `pprev`. -/
def ancestorWalk (ansHeight heightWalk : ℕ) (pindexWalk : List ι) : Option (List ι) :=
  if ansHeight < heightWalk then
    let heightSkip := getSkipHeight heightWalk
    let heightSkipPrev := getSkipHeight (heightWalk - 1)
    if pskip pindexWalk ≠ [] ∧ (heightSkip = ansHeight ∨
        ansHeight < heightSkip ∧ ¬ (heightSkipPrev + 2 < heightSkip ∧ ansHeight ≤ heightSkipPrev)) then
      ancestorWalk ansHeight heightSkip (pskip pindexWalk)
    else if pindexWalk.tail = [] then none
    else ancestorWalk ansHeight (heightWalk - 1) pindexWalk.tail
  else some pindexWalk
termination_by heightWalk
decreasing_by
  · exact getSkipHeight_lt (by omega)
  · omega

def getAncestor (pindex : List ι) (ansHeight : ℤ) : Option (List ι) :=
  if height pindex < ansHeight ∨ ansHeight < 0 then some []
  else ancestorWalk pskip ansHeight.toNat (height pindex) pindex

/-- `BuildSkip`: what `pskip` becomes. -/
def buildSkip (pindex : List ι) : Option (List ι) :=
  if pindex.tail = [] then some [] else getAncestor pskip pindex.tail (getSkipHeight (height pindex))

variable [DecidableEq ι]

/-- `while (pa != pb && pa && pb)` and the assertion behind it. -/
def commonLoop : List ι → List ι → Option (List ι)
  | a :: pa, b :: pb => if a :: pa = b :: pb then some (a :: pa) else commonLoop pa pb
  | pa, pb => if pa = pb then some pa else none

def lastCommonAncestor (pa pb : List ι) : Option (List ι) :=
  if height pb < height pa then (getAncestor pskip pa (height pb)).bind (commonLoop · pb)
  else if height pa < height pb then (getAncestor pskip pb (height pa)).bind (commonLoop pa)
  else commonLoop pa pb

variable (nASERTAnchorAt : ℕ)

/-- The slow path of `GetASERTAnchorBlock`. -/
def anchorWalk : ℕ → List ι → Option (List ι)
  | 0, _ => none
  | rounds + 1, anchor =>
    if anchor.tail = [] then some anchor
    else if pskip anchor ≠ [] ∧ nASERTAnchorAt ≤ height (pskip anchor) then anchorWalk rounds (pskip anchor)
    else if nASERTAnchorAt ≠ 0 ∧ height anchor = nASERTAnchorAt then some anchor
    else anchorWalk rounds anchor.tail

/-- `GetASERTAnchorBlock`: the anchor and the new `cachedAnchor`. Every round goes down the branch. -/
def getASERTAnchorBlock (cachedAnchor pindex : List ι) : Option (List ι × List ι) :=
  let slow := (anchorWalk pskip nASERTAnchorAt pindex.length pindex).map fun anchor => (anchor, anchor)
  if height pindex < nASERTAnchorAt then some (pindex, cachedAnchor)
  else if cachedAnchor = [] then slow
  else do
    if (← getAncestor pskip pindex (height cachedAnchor)) = cachedAnchor then some (cachedAnchor, cachedAnchor)
    else slow

end SkipTree

/-- A tree of blocks, each with the `pskip` that `BuildSkip` has given it. -/
structure SkipTree (ι : Type) where
  blocks : Set (List ι)
  genesis : ι
  pskip : List ι → List ι
  rooted : ∀ pindex ∈ blocks, [genesis] <:+ pindex
  closed : ∀ pindex ∈ blocks, pindex.tail ≠ [] → pindex.tail ∈ blocks
  built : ∀ pindex ∈ blocks, SkipTree.buildSkip pskip pindex = some (pskip pindex)

end Nexa
