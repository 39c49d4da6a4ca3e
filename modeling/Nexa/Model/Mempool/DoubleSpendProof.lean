import Nexa.Model.Coins.CoinsView
import Nexa.Model.Script.SigHash

/-! # Double spend proofs

`DoubleSpendProof::create` searches the inputs of two transactions for a common outpoint and records what
the first such pair of inputs signs.
-/

namespace Nexa

/-- The `std::runtime_error`s of `create`. -/
inductive DspError where
  /-- "Can not create dsproof from identical transactions" -/
  | identical
  /-- "Coin was not found for double spend" -/
  | coinNotFound (hash : Uint256)
  /-- "Can not create dsproof: Transaction was not a valid type" -/
  | invalidType
  /-- "scriptSig has no signature" -/
  | noSignature
  /-- "Transactions do not double spend each other" -/
  | noDoubleSpend
deriving DecidableEq, Repr

/-- `DoubleSpendProof::Spender`, with the one entry of its `pushData`. -/
structure Spender where
  txVersion : UInt32
  outSequence : UInt32
  lockTime : UInt32
  hashPrevOutputs : Uint256 := 0
  hashSequence : Uint256 := 0
  hashOutputs : Uint256 := 0
  hashInAmounts : Uint256 := 0
  pushData : Bytes
deriving DecidableEq, Repr

structure DoubleSpendProof where
  prevOutpoint : COutPoint
  spender1 : Spender
  spender2 : Spender
deriving DecidableEq, Repr

/-- What `create` asks the chain and the pool: `CCoinsViewMemPool::GetCoin`, and `IsValidType`, which is true of
outputs to public key hashes and to the well-known template `P2PKT_ID`. -/
structure DspContext where
  getCoin : COutPoint → Option Coin
  isValidType : CScript → Bool

/-- The data of the first push; empty if nothing is read. -/
def getSignature (script : CScript) : Bytes := ((getOp script).map fun read => read.1.2).getD []

def SigHashType.fromSig (sig : Bytes) : Option SigHashType := if sig.length < 64 then none else fromBytes (sig.drop 64)

/-- `hashTx`: what `SignatureHashNexaComponents` leaves in the spender, its result is not looked at. -/
def hashTx (spender : Spender) (tx : CTransaction) (inputIndex : ℕ) : Spender :=
  match SigHashType.fromSig spender.pushData with
  | none => spender
  | some sigHashType =>
    match sigHashInputs tx inputIndex sigHashType.inp with
    | none => spender
    | some inputs =>
      { spender with
        hashPrevOutputs := inputs.hashPrevouts
        hashSequence := inputs.hashSequence
        hashInAmounts := inputs.hashInputAmounts
        hashOutputs := (sigHashOutputs tx sigHashType.out).getD spender.hashOutputs }

def spenderOf (tx : CTransaction) (input : CTxIn × ℕ) : Spender :=
  hashTx { txVersion := tx.nVersion.toUInt32, outSequence := input.1.nSequence, lockTime := tx.nLockTime
           pushData := getSignature input.1.scriptSig } tx input.2

/-- Both loops: the first pair of inputs with a common prevout. -/
def findConflict (t1 t2 : CTransaction) : Option ((CTxIn × ℕ) × (CTxIn × ℕ)) :=
  (t1.vin.zipIdx ×ˢ t2.vin.zipIdx).find? fun inputs => inputs.1.1.prevout = inputs.2.1.prevout

namespace DoubleSpendProof

variable (ctx : DspContext) (t1 t2 : CTransaction)

/-- The answer before its spenders are sorted. -/
def unsorted : Except DspError DoubleSpendProof :=
  if t1.getId = t2.getId then .error .identical
  else
    match findConflict t1 t2 with
    | none => .error .noDoubleSpend
    | some (in1, in2) =>
      match ctx.getCoin in1.1.prevout with
      | none => .error (.coinNotFound in1.1.prevout.hash)
      | some coin =>
        if ctx.isValidType coin.out.scriptPubKey = false then .error .invalidType
        else if getSignature in1.1.scriptSig = [] ∨ getSignature in2.1.scriptSig = [] then .error .noSignature
        -- the outpoint of the answer is null as before the search
        else if in1.1.prevout.hash = 0 then .error .noDoubleSpend
        else .ok ⟨in1.1.prevout, spenderOf t1 in1, spenderOf t2 in2⟩

/-- The spenders change places where the hashes of the outputs, or then those of the prevouts, are in descending
order. -/
def sortSpenders (answer : DoubleSpendProof) : DoubleSpendProof :=
  if answer.spender2.hashOutputs < answer.spender1.hashOutputs ∨
      answer.spender1.hashOutputs = answer.spender2.hashOutputs ∧
        answer.spender2.hashPrevOutputs < answer.spender1.hashPrevOutputs then
    { answer with spender1 := answer.spender2, spender2 := answer.spender1 }
  else answer

def create : Except DspError DoubleSpendProof := (unsorted ctx t1 t2).map sortSpenders

end DoubleSpendProof

end Nexa
