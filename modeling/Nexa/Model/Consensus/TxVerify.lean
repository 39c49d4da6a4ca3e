import Nexa.Model.Chain.BlockIndex
import Nexa.Model.Consensus.GroupTokens

/-! # Checks of one transaction

`CheckTransaction`, the relative lock times and `CheckTxInputs` of `consensus/tx_verify.cpp`. The
checks that read coins take a view as the function that looks a coin up, empty where there is none;
reading does not change what a view shows.
-/

namespace Nexa

/-! ## Checks without context -/

/-- `DEFAULT_LARGEST_TRANSACTION`, `MIN_TX_SIZE`, `MAX_TX_NUM_VOUT` and `MAX_TX_NUM_VIN`. -/
def defaultLargestTransaction : ℕ := 1000000
def minTxSize : ℕ := 65
def maxTxNumVout : ℕ := 256
def maxTxNumVin : ℕ := 256

/-- The loop over the outputs; the running total stays within the money range. -/
def checkOutputValues : ℤ → List CTxOut → Validation Unit
  | _, [] => pure ()
  | nValueOut, txout :: rest => do
    rejectIf (txout.type ≠ CTxOut.SATOSCRIPT ∧ txout.type ≠ CTxOut.TEMPLATE) 100 .invalid "bad-txns-invalid-txout-type"
    rejectIf (txout.nValue.toInt < 0) 100 .invalid "bad-txns-vout-negative"
    rejectIf (maxMoney < txout.nValue.toInt) 100 .invalid "bad-txns-vout-toolarge"
    rejectIf (¬moneyRange (nValueOut + txout.nValue.toInt)) 100 .invalid "bad-txns-txouttotal-toolarge"
    checkOutputValues (nValueOut + txout.nValue.toInt) rest

variable (tx : CTransaction)

def isAnyTxOutputGrouped : Bool :=
  tx.vout.any fun txout =>
    let grp := CGroupTokenInfo.ofTxOut txout
    grp.invalid || decide (grp.associatedGroup ≠ CGroupTokenID.NoGroup)

/-- The rules of a coinbase; reading the first byte of an empty script is undefined. -/
def checkCoinbase : Validation Unit := do
  rejectIf (isAnyTxOutputGrouped tx) 100 .invalid "coinbase-has-group-outputs"
  match tx.vout.getLast? with
  | none => dos 100 .invalid "coinbase-last-vout-op-return"
  | some out =>
    match out.scriptPubKey with
    | [] => crash
    | byte :: _ => rejectIf (byte.toNat ≠ OP_RETURN) 100 .invalid "coinbase-last-vout-op-return"

/-- `CTxIn::INVALID`, the first type that does not exist. -/
def CTxIn.INVALID : UInt8 := 2

/-- The loop over the types of the inputs; returns `nConsumed`. -/
def checkInputTypes : ℕ → List CTxIn → Validation ℕ
  | nConsumed, [] => pure nConsumed
  | nConsumed, txin :: rest => do
    rejectIf (CTxIn.INVALID ≤ txin.type) 100 .invalid "bad-txns-invalid-txin-type"
    if txin.isReadOnly then
      rejectIf (txin.nSequence ≠ 0) 100 .invalid "bad-txns-invalid-readonly-sequence"
      rejectIf (txin.amount ≠ 0) 100 .invalid "bad-txns-nonzero-readonly-amount"
      checkInputTypes nConsumed rest
    else checkInputTypes (nConsumed + 1) rest

def checkDuplicatePairs : List COutPoint → Validation Unit
  | [] => pure ()
  | prevout :: rest => do
    rejectIf (prevout.hash = 0) 10 .invalid "bad-txns-prevout-null"
    rejectIf (prevout ∈ rest) 100 .invalid "bad-txns-inputs-duplicate"
    checkDuplicatePairs rest

/-- From 120 inputs on, equal prevouts are found as neighbours after sorting. -/
def checkDuplicateInputs (prevouts : List COutPoint) : Validation Unit :=
  if prevouts.length < 120 then checkDuplicatePairs prevouts
  else do
    rejectIf (∃ prevout ∈ prevouts, prevout.hash = 0) 10 .invalid "bad-txns-prevout-null"
    rejectIf (¬prevouts.Nodup) 100 .invalid "bad-txns-inputs-duplicate"

/-- The rules for the inputs of a transaction that is not a coinbase. -/
def checkInputShape : Validation Unit := do
  rejectIf (tx.vin = []) 10 .invalid "bad-txns-vin-empty"
  let nConsumed ← checkInputTypes 0 tx.vin
  rejectIf (nConsumed = 0) 100 .invalid "bad-txns-vin-entirely-readonly"
  checkDuplicateInputs (tx.vin.map CTxIn.prevout)

def checkTransaction (enforceMinTxSize : Bool) (tx : CTransaction) : Validation Unit := do
  rejectIf (0 < tx.nVersion) 100 .invalid "bad-txns-version"
  rejectIf (tx.vout = []) 10 .invalid "bad-txns-vout-empty"
  rejectIf (defaultLargestTransaction < tx.getTxSize) 100 .invalid "bad-txns-oversize"
  rejectIf (tx.getTxSize < minTxSize ∧ enforceMinTxSize) 10 .invalid "txn-undersize"
  rejectIf (maxTxNumVout < tx.vout.length) 100 .invalid "bad-txns-too-many-vout"
  rejectIf (maxTxNumVin < tx.vin.length) 100 .invalid "bad-txns-too-many-vin"
  checkOutputValues 0 tx.vout
  if tx.isCoinBase then checkCoinbase tx else checkInputShape tx

/-! ## Relative lock times -/

def CTxIn.SEQUENCE_LOCKTIME_DISABLE_FLAG : UInt32 := 0x80000000
def CTxIn.SEQUENCE_LOCKTIME_TYPE_FLAG : UInt32 := 0x00400000
def CTxIn.SEQUENCE_LOCKTIME_MASK : UInt32 := 0x0000ffff
def CTxIn.SEQUENCE_LOCKTIME_GRANULARITY : ℕ := 9

/-- The lock value of an input: sixteen bits of its sequence number. -/
def CTxIn.lockValue (txin : CTxIn) : ℕ := (txin.nSequence &&& CTxIn.SEQUENCE_LOCKTIME_MASK).toNat

/-- `CalculateSequenceLocks`; every input comes with the height of its coin. -/
def calculateSequenceLocks (block : BlockIndexRef) : List (CTxIn × ℤ) → ℤ × ℤ → Validation (ℤ × ℤ)
  | [], locks => pure locks
  | (txin, nCoinHeight) :: rest, (nMinHeight, nMinTime) =>
    if txin.nSequence &&& CTxIn.SEQUENCE_LOCKTIME_DISABLE_FLAG ≠ 0 then
      calculateSequenceLocks block rest (nMinHeight, nMinTime)
    else if txin.nSequence &&& CTxIn.SEQUENCE_LOCKTIME_TYPE_FLAG ≠ 0 then do
      match ← getAncestor block (max (nCoinHeight - 1) 0) with
      | [] => crash
      | pindex =>
        let lockTime := getMedianTimePast pindex + txin.lockValue * 2 ^ CTxIn.SEQUENCE_LOCKTIME_GRANULARITY - 1
        calculateSequenceLocks block rest (nMinHeight, max nMinTime lockTime)
    else do
      assertThat (nCoinHeight + txin.lockValue < 2 ^ 31)
      calculateSequenceLocks block rest (max nMinHeight (nCoinHeight + txin.lockValue - 1), nMinTime)

def evaluateSequenceLocks : BlockIndexRef → ℤ × ℤ → Validation Bool
  | index :: pprev :: rest, (nMinHeight, nMinTime) =>
    pure (decide (nMinHeight < index.height ∧ nMinTime < getMedianTimePast (pprev :: rest)))
  | _, _ => crash

def sequenceLocks (prevHeights : List ℤ) (block : BlockIndexRef) : Validation Bool := do
  let lockPair ← calculateSequenceLocks block (tx.vin.zip prevHeights) (-1, -1)
  evaluateSequenceLocks block lockPair

/-! ## Inputs against the coins -/

/-- `GetSpendHeight`: one above the best block of the view, which must be in the block index. -/
def NodeContext.getSpendHeight (node : NodeContext) (bestBlock : Uint256) : Validation ℤ :=
  match node.mapBlockIndex.find? fun index => index.getHash = bestBlock with
  | some pindexPrev => pure (toInt32 (pindexPrev.height + 1))
  | none => crash

section

variable (node : NodeContext) (bestBlock : Uint256) (inputs readonlyCoins : COutPoint → Coin)

/-- Every input refers to an unspent coin of its view. -/
def checkInputsAvailable : List CTxIn → Validation Unit
  | [] => pure ()
  | input :: rest => do
    invalidIf (inputCoin inputs readonlyCoins input).isSpent .none "" "Inputs unavailable"
    checkInputsAvailable rest

def checkMaturity (coin : Coin) : Validation Unit :=
  if coin.fCoinBase then do
    let nSpendHeight ← node.getSpendHeight bestBlock
    let depth := nSpendHeight - coin.nHeight.toNat
    invalidIf (depth < node.params.coinbaseMaturity) .invalid "bad-txns-premature-spend-of-coinbase"
      s!"tried to spend coinbase at depth {depth}"
  else pure ()

/-- The loop that adds up the amounts of the consumed inputs. -/
def sumInputs : CAmount → List CTxIn → Validation CAmount
  | nValueIn, [] => pure nValueIn
  | nValueIn, input :: rest => do
    let coin := inputCoin inputs readonlyCoins input
    assertThat (coin.isSpent = false)
    checkMaturity node bestBlock coin
    if input.isReadOnly then sumInputs nValueIn rest
    else do
      let nValueIn ← nValueIn.add input.amount
      rejectIf (¬moneyRange input.amount.toInt ∨ ¬moneyRange nValueIn.toInt) 100 .invalid
        "bad-txns-inputvalues-outofrange"
      sumInputs nValueIn rest

def checkTxInputs (tx : CTransaction) : Validation Unit := do
  checkInputsAvailable inputs readonlyCoins tx.vin
  let nValueIn ← sumInputs node bestBlock inputs readonlyCoins 0 tx.vin
  let outAmount ← tx.getValueOut
  rejectIf (nValueIn.toInt < outAmount.toInt) 100 .invalid "bad-txns-in-belowout"
  let nTxFee ← CAmount.ofResult (nValueIn.toInt - outAmount.toInt)
  rejectIf (nTxFee.toInt < 0) 100 .invalid "bad-txns-fee-negative"
  rejectIf (¬moneyRange nTxFee.toInt) 100 .invalid "bad-txns-fee-outofrange"

end

end Nexa
