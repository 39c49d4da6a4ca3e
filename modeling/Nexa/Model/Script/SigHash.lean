import Nexa.Model.Primitives.Transaction

/-! # Signature hashes

`sighashtype.h` and `SignatureHashNexa`: the type of a signature says which inputs and outputs it
covers. The covered parts are hashed one by one, and the signature hash is taken over these hashes,
the version, the lock time, the script and the type. With a retargetable range of outputs the script
and the type are left out, so that the range can be moved.
-/

namespace Nexa

/-- `SigHashType::Input` with the byte of `inpData` that it needs. -/
inductive SigHashInput where
  | all
  | firstN (n : UInt8)
  | thisIn
deriving DecidableEq, Repr

/-- `SigHashType::Output` with the bytes of `outData` that it needs. -/
inductive SigHashOutput where
  | all
  | firstN (n : UInt8)
  | two (a b : UInt8)
  | retargetableRange (start count : UInt8)
deriving DecidableEq, Repr

/-- A `SigHashType` that is valid. -/
structure SigHashType where
  inp : SigHashInput := .all
  out : SigHashOutput := .all
deriving DecidableEq, Repr

namespace SigHashType

def inpCode : SigHashInput → UInt8
  | .all => 0
  | .firstN _ => 1
  | .thisIn => 2

def inpData : SigHashInput → Bytes
  | .firstN n => [n]
  | _ => []

def outCode : SigHashOutput → UInt8
  | .all => 0
  | .firstN _ => 1
  | .two _ _ => 2
  | .retargetableRange _ _ => 3

def outData : SigHashOutput → Bytes
  | .all => []
  | .firstN n => [n]
  | .two a b => [a, b]
  | .retargetableRange start count => [start, count]

variable (type : SigHashType)

def hasAll : Bool := type.inp = .all ∧ type.out = .all

def hasRangedOutputs : Bool :=
  match type.out with
  | .retargetableRange _ _ => true
  | _ => false

/-- The bytes `appendToSig` puts behind a signature; the type that covers everything has none. -/
def appendToSig : Bytes :=
  if type.hasAll then []
  else (inpCode type.inp <<< 4 ||| outCode type.out) :: (inpData type.inp ++ outData type.out)

def readInput (code : UInt8) : Reader SigHashInput :=
  if code = 0 then pure .all
  else if code = 1 then .firstN <$> readUInt8
  else if code = 2 then pure .thisIn
  else failure

def readOutput (code : UInt8) : Reader SigHashOutput :=
  if code = 0 then pure .all
  else if code = 1 then .firstN <$> readUInt8
  else if code = 2 then do
    let a ← readUInt8
    let b ← readUInt8
    pure (.two a b)
  else if code = 3 then do
    let start ← readUInt8
    let count ← readUInt8
    pure (.retargetableRange start count)
  else failure

/-- `SigHashType::fromBytes` from its start position on; `none` stands for an invalid type. -/
def fromBytes : Bytes → Option SigHashType
  | [] => some {}
  | io :: rest => do
    let (inp, rest) ← readInput (io >>> 4) rest
    let (out, rest) ← readOutput (io &&& 0xf) rest
    if rest.isEmpty then some { inp, out } else none

end SigHashType

/-- One hash over a part of some inputs, written one after the other. -/
def hashInputs (part : CTxIn → Bytes) (inputs : List CTxIn) : Uint256 := hash256 (inputs.flatMap part)

variable (txin : CTxIn)

def prevoutPart : Bytes := txin.type :: txin.prevout.hash.toBytes
def amountPart : Bytes := CTransaction.amountBytes txin.amount
def sequencePart : Bytes := bytesLE 4 txin.nSequence.toNat

variable (txTo : CTransaction) (firstN : ℕ) (n : ℕ)

def getPrevoutHash : Uint256 := hashInputs prevoutPart (txTo.vin.take firstN)
def getPrevoutHashOf : Uint256 := hashInputs prevoutPart txTo.vin[n]?.toList
def getInputAmountHash : Uint256 := hashInputs amountPart (txTo.vin.take firstN)
def getInputAmountHashOf : Uint256 := hashInputs amountPart txTo.vin[n]?.toList
def getSequenceHash : Uint256 := hashInputs sequencePart (txTo.vin.take firstN)
def getSequenceHashOf : Uint256 := hashInputs sequencePart txTo.vin[n]?.toList

/-- One hash over some outputs, written one after the other. -/
def hashOutputs (outputs : List CTxOut) : Uint256 := hash256 (outputs.flatMap CTransaction.serializeTxOut)

def getOutputsHash : Uint256 := hashOutputs (txTo.vout.take firstN)

/-- `GetOutputsHashOf`, the outputs `a` and `b` in this order. -/
def getOutputsHashOf (a b : ℕ) : Uint256 := hashOutputs (txTo.vout[a]?.toList ++ txTo.vout[b]?.toList)

/-- `GetOutputsHash` of the outputs from `start` to `last`, both included. -/
def getOutputsHashRange (start last : ℕ) : Uint256 := hashOutputs ((txTo.vout.drop start).take (last + 1 - start))

/-- The hashes of the inputs that `SignatureHashNexaComponents` fills in. -/
structure SigHashInputs where
  hashPrevouts : Uint256
  hashSequence : Uint256
  hashInputAmounts : Uint256
deriving DecidableEq, Repr

/-- The switch over the input part; `none` stands for a return of false. -/
def sigHashInputs (nIn : ℕ) : SigHashInput → Option SigHashInputs
  | .firstN n =>
    if txTo.vin.length < n.toNat then none
    else some ⟨getPrevoutHash txTo n.toNat, getSequenceHash txTo n.toNat, getInputAmountHash txTo n.toNat⟩
  | .thisIn => some ⟨getPrevoutHashOf txTo nIn, getSequenceHashOf txTo nIn, getInputAmountHashOf txTo nIn⟩
  | .all =>
    let vinSize := txTo.vin.length
    some ⟨getPrevoutHash txTo vinSize, getSequenceHash txTo vinSize, getInputAmountHash txTo vinSize⟩

/-- The switch over the output part. -/
def sigHashOutputs : SigHashOutput → Option Uint256
  | .two a b =>
    if txTo.vout.length ≤ a.toNat then none
    else if txTo.vout.length ≤ b.toNat then none
    else some (getOutputsHashOf txTo a.toNat b.toNat)
  | .firstN n => if txTo.vout.length < n.toNat then none else some (getOutputsHash txTo n.toNat)
  | .retargetableRange start count =>
    if txTo.vout.length ≤ start.toNat then none
    else
      let last := start.toNat + count.toNat
      if txTo.vout.length ≤ last then none else some (getOutputsHashRange txTo start.toNat last)
  | .all => some (getOutputsHash txTo txTo.vout.length)

/-- What the second overload of `SignatureHashNexa` writes to its hash. -/
def sigHashMessage (scriptCode : CScript) (txVersion : UInt8) (txLockTime : UInt32) (sigHashType : SigHashType)
    (inputs : SigHashInputs) (outputs : Uint256) : Bytes :=
  let hasRanged := sigHashType.hasRangedOutputs
  txVersion :: inputs.hashPrevouts.toBytes ++ inputs.hashInputAmounts.toBytes ++ inputs.hashSequence.toBytes
    ++ (if hasRanged then [] else writeVector scriptCode)
    ++ outputs.toBytes ++ bytesLE 4 txLockTime.toNat
    ++ (if hasRanged then [] else writeVector sigHashType.appendToSig)

/-- `SignatureHashNexa` with `SignatureHashNexaComponents`; `none` stands for a return of false. -/
def signatureHashNexa (scriptCode : CScript) (txTo : CTransaction) (nIn : ℕ) (sigHashType : SigHashType) :
    Option Uint256 := do
  if txTo.vin.length ≤ nIn then none
  else
    let inputs ← sigHashInputs txTo nIn sigHashType.inp
    let outputs ← sigHashOutputs txTo sigHashType.out
    pure (hash256 (sigHashMessage scriptCode txTo.nVersion txTo.nLockTime sigHashType inputs outputs))

end Nexa
