import Nexa.Model.Core.Amount
import Nexa.Model.Primitives.Script

/-! # Transactions

An outpoint is a hash of the idem of the transaction that created the output and of the output's
index. The idem leaves out the satisfier scripts, so that malleated copies of a transaction create
the same outpoints; the id commits to them.
-/

namespace Nexa

structure COutPoint where
  hash : Uint256 := 0
deriving DecidableEq, Repr

/-- The outpoint of output `outIdx` of the transaction with the given idem. -/
def COutPoint.ofIdem (txIdemIn : Uint256) (outIdx : ℕ) : COutPoint := ⟨sha256 (txIdemIn.toBytes ++ bytesLE 4 outIdx)⟩

structure CTxIn where
  type : UInt8 := 0
  prevout : COutPoint := {}
  scriptSig : CScript := []
  nSequence : UInt32 := 0xffffffff
  amount : CAmount := -1
deriving DecidableEq, Repr

/-- The input type `READONLY`. -/
def CTxIn.READONLY : UInt8 := 1

def CTxIn.isReadOnly (txin : CTxIn) : Bool := txin.type = CTxIn.READONLY

/-- The prevouts of the inputs that are not read-only. -/
def consumedBy (vin : List CTxIn) : List COutPoint := (vin.filter fun txin => !txin.isReadOnly).map CTxIn.prevout

theorem consumedBy_cons (txin : CTxIn) (rest : List CTxIn) :
    consumedBy (txin :: rest) = if txin.isReadOnly then consumedBy rest else txin.prevout :: consumedBy rest := by
  cases kind : txin.isReadOnly <;> simp [consumedBy, kind]

structure CTxOut where
  type : UInt8 := 0
  nValue : CAmount := -1
  scriptPubKey : CScript := []
deriving DecidableEq, Repr

def CTxOut.SATOSCRIPT : UInt8 := 0
def CTxOut.TEMPLATE : UInt8 := 1

/-- `ScriptTypeOf`, the type the script gets when its output is read. -/
def CTxOut.scriptType (out : CTxOut) : ScriptType :=
  if out.type &&& 1 = CTxOut.TEMPLATE then .template else .satoscript

def CTxOut.isNull (out : CTxOut) : Bool := out.nValue = -1

structure CTransaction where
  nVersion : UInt8 := 0
  vin : List CTxIn
  vout : List CTxOut
  nLockTime : UInt32 := 0
deriving DecidableEq, Repr

namespace CTransaction

def amountBytes (amount : CAmount) : Bytes := bytesLE 8 amount.toUInt64.toNat

/-- Serialization of an input; `SER_GETIDEM` leaves out the satisfier. -/
def serializeTxIn (getIdem : Bool) (txin : CTxIn) : Bytes :=
  txin.type :: txin.prevout.hash.toBytes ++ (if getIdem then [] else writeVector txin.scriptSig)
    ++ bytesLE 4 txin.nSequence.toNat ++ amountBytes txin.amount

def serializeTxOut (txout : CTxOut) : Bytes := txout.type :: amountBytes txout.nValue ++ writeVector txout.scriptPubKey

def serialize (getIdem : Bool) (tx : CTransaction) : Bytes :=
  tx.nVersion :: writeCompactSize tx.vin.length ++ tx.vin.flatMap (serializeTxIn getIdem)
    ++ writeCompactSize tx.vout.length ++ tx.vout.flatMap serializeTxOut ++ bytesLE 4 tx.nLockTime.toNat

def readAmount : Reader CAmount := (fun word => (UInt64.ofNat word).toInt64) <$> readLE 8

/-- The satisfier of an input; an idem stream has none and the script stays empty. -/
def readSatisfier (getIdem : Bool) : Reader CScript := if getIdem then pure [] else readVector

def readTxIn (getIdem : Bool) : Reader CTxIn := do
  let type ← readUInt8
  let hash ← readUint256
  let scriptSig ← readSatisfier getIdem
  let nSequence ← readUInt32
  let amount ← readAmount
  pure { type, prevout := ⟨hash⟩, scriptSig, nSequence, amount }

def readTxOut : Reader CTxOut := do
  let type ← readUInt8
  let nValue ← readAmount
  let scriptPubKey ← readVector
  pure { type, nValue, scriptPubKey }

def read (getIdem : Bool) : Reader CTransaction := do
  let nVersion ← readUInt8
  let vin ← readList (readTxIn getIdem)
  let vout ← readList readTxOut
  let nLockTime ← readUInt32
  pure { nVersion, vin, vout, nLockTime }

variable (tx : CTransaction)

def getTxSize : ℕ := (tx.serialize false).length

def getIdem : Uint256 := hash256 (tx.serialize true)

/-- The hash of the satisfier scripts, each closed with an invalid opcode. -/
def satisfierScriptHash : Uint256 :=
  hash256 (bytesLE 4 tx.vin.length ++ tx.vin.flatMap fun txin => txin.scriptSig ++ [UInt8.ofNat OP_INVALIDOPCODE])

def getId : Uint256 := hash256 (tx.getIdem.toBytes ++ tx.satisfierScriptHash.toBytes)

def isCoinBase : Bool := tx.vin.isEmpty

def outpointAt (idx : ℕ) : COutPoint := COutPoint.ofIdem tx.getIdem idx

/-- The loop of `GetValueOut` and `GetValueIn`: the sum so far, an exception once it leaves the money range. -/
def sumInRange : CAmount → List CAmount → Validation CAmount
  | nValue, [] => pure nValue
  | nValue, amount :: rest => do
    let sum ← nValue.add amount
    assertThat (moneyRange amount.toInt ∧ moneyRange sum.toInt)
    sumInRange sum rest

def getValueOut : Validation CAmount := sumInRange 0 (tx.vout.map CTxOut.nValue)

theorem sumInRange_eq_ok {start sum : CAmount} {amounts : List CAmount}
    (summed : sumInRange start amounts = .ok sum) :
    sum.toInt = start.toInt + (amounts.map Int64.toInt).sum ∧ ∀ amount ∈ amounts, moneyRange amount.toInt := by
  induction amounts generalizing start with
  | nil =>
    cases summed
    simp
  | cons amount rest ih =>
    obtain ⟨next, added, summed⟩ := Validation.bind_eq_ok_iff.mp summed
    obtain ⟨inRange, summed⟩ := Validation.seq_eq_ok_iff.mp summed
    rw [assertThat_eq_ok_iff] at inRange
    obtain ⟨total, restInRange⟩ := ih summed
    have step := CAmount.add_eq_ok_iff.mp added
    refine ⟨?_, List.forall_mem_cons.mpr ⟨inRange.1, restInRange⟩⟩
    rw [total, step, List.map_cons, List.sum_cons, Int.add_assoc]

end CTransaction

end Nexa
