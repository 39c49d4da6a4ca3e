import Mathlib

/-! # Candidates for the best chain

A `CBlockIndex *` is represented by the way from the block down to the genesis block: `pprev` is the
tail, the height is the length of the tail, and the null pointer is the empty list.
-/

namespace Nexa

/-- The bits of `nStatus`. -/
structure BlockStatus where
  validity : ℕ := 0
  haveData : Bool := false
  failedValid : Bool := false
  failedChild : Bool := false
  processed : Bool := false
  linked : Bool := false

namespace BlockStatus

def VALID_TREE : ℕ := 2
def VALID_TRANSACTIONS : ℕ := 3

variable (status : BlockStatus)

/-- `nStatus & BLOCK_FAILED_MASK`. -/
def failed : Bool := status.failedValid || status.failedChild

def isValid (nUpTo : ℕ) : Bool := !status.failed && decide (nUpTo ≤ status.validity)

def raiseValidity (nUpTo : ℕ) : BlockStatus :=
  if status.failed then status else { status with validity := max status.validity nUpTo }

/-- What `FindMostWorkChain` makes of a block above one that failed, or else above one without data. -/
def abandon (fFailedChain fMissingData : Bool) : BlockStatus :=
  if fFailedChain then { status with failedChild := true }
  else if fMissingData then
    { status with
      processed := false
      validity := if status.isValid VALID_TRANSACTIONS then VALID_TREE else status.validity }
  else status

end BlockStatus

structure CandidateState (ι : Type) where
  chainWork : List ι → ℕ
  nSequenceId : List ι → ℕ
  address : List ι → ℕ
  txCount : List ι → ℕ
  nStatus : List ι → BlockStatus
  nBlockSequenceId : ℕ := 0
  chainActive : List ι
  setBlockIndexCandidates : List (List ι)
  mapBlocksUnlinked : List (List ι × List ι) := []

namespace CandidateState

variable {ι : Type} [DecidableEq ι] (state : CandidateState ι) (pindex : List ι)

abbrev isLinked : Bool := (state.nStatus pindex).linked

/-- `BLOCK_HAVE_DATA`. -/
abbrev received : Bool := (state.nStatus pindex).haveData

/-- The order of `CBlockIndexWorkComparator`: of equal work, what arrived first or has the lower address comes last. -/
def workOrder : ℕ ×ₗ ℕᵒᵈ ×ₗ ℕᵒᵈ :=
  toLex (state.chainWork pindex, toLex (.toDual (state.nSequenceId pindex), .toDual (state.address pindex)))

/-- The walk down from a candidate ends at the active chain or at height zero. -/
def Joins (pindexTest : List ι) : Prop := pindexTest <:+ state.chainActive ∨ pindexTest.length ≤ 1

instance (pindexTest : List ι) : Decidable (state.Joins pindexTest) := inferInstanceAs (Decidable (_ ∨ _))

/-- Where the walk ends, with `fFailedChain` and `fMissingData`. -/
def walk : List ι → List ι × Bool × Bool
  | [] => ([], false, false)
  | index :: pprev =>
    let status := state.nStatus (index :: pprev)
    if state.Joins (index :: pprev) then (index :: pprev, false, false)
    else if !status.linked then (index :: pprev, true, false)
    else if status.failed || !status.haveData then (index :: pprev, status.failed, !status.haveData)
    else walk pprev

/-- `IsReorgInRange`; the difference of the heights is converted to a `uint64_t`. -/
def isReorgInRange (maxReorg : ℤ) (fork : List ι) : Bool :=
  state.chainActive = [] ∨ fork = [] ∨ maxReorg ≤ 0 ∨ ((state.chainActive.length : ℤ) - fork.length) % 2 ^ 64 ≤ maxReorg

/-- The loop that removes the chain from the tip to the problem block from the set: it visits the blocks in between. -/
def rejectChain (pindexNew pindexTest : List ι) (fFailedChain fMissingData : Bool) : CandidateState ι :=
  { state with
    nStatus := fun block =>
      if block <:+ pindexNew ∧ pindexTest <:+ block ∧ block ≠ pindexTest then
        (state.nStatus block).abandon fFailedChain fMissingData
      else state.nStatus block
    setBlockIndexCandidates :=
      state.setBlockIndexCandidates.filter fun block => ¬(block <:+ pindexNew ∧ pindexTest <:+ block) }

/-- `FindMostWorkChain`; no result means that there were not enough rounds. -/
def findMostWorkChain (maxReorg : ℤ) : ℕ → CandidateState ι → Option (Option (List ι) × CandidateState ι)
  | 0, _ => none
  | rounds + 1, state =>
    match state.setBlockIndexCandidates.argmax state.workOrder with
    | none => some (none, state)
    | some pindexNew =>
      let (pindexTest, fFailedChain, fMissingData) := state.walk pindexNew
      if fFailedChain || fMissingData || !state.isReorgInRange maxReorg pindexTest then
        findMostWorkChain maxReorg rounds (state.rejectChain pindexNew pindexTest fFailedChain fMissingData)
      else some (some pindexNew, state)

/-! ## Received blocks -/

/-- A block without a sequence id gets the next one. -/
def sequenced : CandidateState ι :=
  if state.nSequenceId pindex ≠ 0 then state else
    { state with
      nSequenceId := Function.update state.nSequenceId pindex (state.nBlockSequenceId + 1)
      nBlockSequenceId := state.nBlockSequenceId + 1 }

/-- There is no tip that is better in the order of the candidates. -/
def AsGood : Prop := state.chainActive = [] ∨ ¬state.workOrder pindex < state.workOrder state.chainActive

instance (pindex : List ι) : Decidable (state.AsGood pindex) := inferInstanceAs (Decidable (_ ∨ _))

/-- The block is linked, and those that wait for it are no longer in the map. -/
def link : CandidateState ι :=
  { state with
    setBlockIndexCandidates :=
      if state.AsGood pindex then state.setBlockIndexCandidates.insert pindex else state.setBlockIndexCandidates
    mapBlocksUnlinked := state.mapBlocksUnlinked.filter (·.1 ≠ pindex)
    nStatus := Function.update state.nStatus pindex { state.nStatus pindex with linked := true } }

/-- The loop over the queue of `ReceivedBlockTransactions`, which takes each block of the map at most once. -/
def linkQueue : ℕ → List (List ι) → CandidateState ι → CandidateState ι
  | rounds + 1, pindex :: queue, state =>
    let state := state.sequenced pindex
    linkQueue rounds (queue ++ (state.mapBlocksUnlinked.filter (·.1 = pindex)).map Prod.snd) (state.link pindex)
  | _, _, state => state

def withData (vtxSize : ℕ) (pindexNew : List ι) : CandidateState ι :=
  let status := { state.nStatus pindexNew with processed := true, haveData := true }
  { state with
    nSequenceId := Function.update state.nSequenceId pindexNew (state.nBlockSequenceId + 1)
    nBlockSequenceId := state.nBlockSequenceId + 1
    nStatus := Function.update state.nStatus pindexNew
      (if state.txCount pindexNew ≠ vtxSize then { status with failedValid := true }
      else status.raiseValidity BlockStatus.VALID_TRANSACTIONS) }

def receivedBlockTransactions (vtxSize : ℕ) (pindexNew : List ι) : CandidateState ι :=
  let state := state.withData vtxSize pindexNew
  if pindexNew.tail = [] ∨ state.isLinked pindexNew.tail then
    linkQueue (state.mapBlocksUnlinked.length + 1) [pindexNew] state
  else if (state.nStatus pindexNew.tail).isValid BlockStatus.VALID_TREE then
    { state with
      mapBlocksUnlinked := (pindexNew.tail, pindexNew) :: state.mapBlocksUnlinked
      nStatus := Function.update state.nStatus pindexNew { state.nStatus pindexNew with linked := false } }
  else state

end CandidateState

end Nexa
