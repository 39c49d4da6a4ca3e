import Nexa.Model.Consensus.TxVerify

/-! # Admission to the mempool

`CheckSequenceLocks` of `txadmission.cpp` without cached lock points. A view is the function that
looks a coin up; the coins of unconfirmed transactions have the height `MEMPOOL_HEIGHT`.
-/

namespace Nexa

def MEMPOOL_HEIGHT : BitVec 31 := 0x7FFFFFFF

section

variable (viewMemPool roCoinsTip : COutPoint → Option Coin)

/-- The heights of the coins of the inputs; `none` for a missing coin. -/
def lockHeights (tipHeight : ℕ) : List CTxIn → Option (List ℤ)
  | [] => some []
  | txin :: rest => do
    let coin ← if txin.isReadOnly then roCoinsTip txin.prevout else viewMemPool txin.prevout
    let prevheights ← lockHeights tipHeight rest
    pure ((if coin.nHeight = MEMPOOL_HEIGHT then tipHeight + 1 else coin.nHeight.toNat) :: prevheights)

/-- The index entry of the block that would extend the tip; only its height is filled in. -/
def nextIndex (chainTip : CBlockIndex) : CBlockIndex :=
  { header := { height := .ofNat (chainTip.height + 1) } }

def checkSequenceLocks (tx : CTransaction) : BlockIndexRef → Validation Bool
  | [] => crash
  | chainTip :: pprev =>
    match lockHeights viewMemPool roCoinsTip chainTip.height tx.vin with
    | none => pure false
    | some prevheights => sequenceLocks tx prevheights (nextIndex chainTip :: chainTip :: pprev)

end

end Nexa
