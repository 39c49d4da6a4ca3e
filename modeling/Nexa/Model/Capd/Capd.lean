import Nexa.Model.Chain.BlockIndex

/-! # Counterparty and protocol discovery

Messages (`capdmsg.cpp`) and the part of the messages found that is sent to a peer (`capd.cpp`).
-/

namespace Nexa

structure CapdMsg where
  createTime : UInt64 := 0
  expiration : UInt16 := 0xffff
  rescindHash : BitVec 160 := 0
  data : Bytes := []
  difficultyBits : UInt32 := 0
  nonce : Bytes := []
  cachedHash : Uint256 := 0
deriving DecidableEq

namespace CapdMsg

variable (msg : CapdMsg)

/-- The serialization with `SER_GETHASH`. -/
def serialize : Bytes :=
  writeVector msg.data ++ bytesLE 8 msg.createTime.toNat ++ bytesLE 20 msg.rescindHash.toNat ++
    bytesLE 2 msg.expiration.toNat ++ bytesLE 4 msg.difficultyBits.toNat

def calcHash : Uint256 := hash256 (Sha256.hash msg.serialize ++ msg.nonce)

def getHash : Uint256 := if msg.cachedHash ≠ 0 then msg.cachedHash else msg.calcHash

end CapdMsg

/-! ## The answer to a query -/

def CAPD_QUERY_MAX_MSGS : ℤ := 200

def CAPD_QUERY_MAX_INVS : UInt32 := 2000

/-- What `PtrVectorSpan` writes. -/
def ptrVectorSpan {α : Type} (v : List α) (start count : ℕ) : List α :=
  let sz := if v.length ≤ start then 0 else v.length - start
  (v.drop start).take (if count < sz then count else sz)

/-- The answer to `CAPD_QUERY_TYPE_MSG`. The minimum is one of `int`s and is read as unsigned again. -/
def queryMsgs (msgs : List CapdMsg) (start quantity : UInt32) : List CapdMsg :=
  let quantity := min CAPD_QUERY_MAX_MSGS (toInt32 quantity.toNat)
  ptrVectorSpan msgs start.toNat (quantity % 2 ^ 32).toNat

/-- `qty`: the sums and the difference are unsigned. -/
def hashQty (start quantity : UInt32) (size : ℕ) : ℤ :=
  toInt32 (min (min (CAPD_QUERY_MAX_INVS + start) (start + quantity)) (UInt32.ofNat size - start)).toNat

/-- The loop over `i`, nothing if a position outside the list is read. -/
def pushHashes (msgs : List CapdMsg) : ℤ → ℕ → Option (List Uint256)
  | _, 0 => some []
  | i, rounds + 1 => do
    let msg ← if 0 ≤ i then msgs[i.toNat]? else none
    return msg.getHash :: (← pushHashes msgs (i + 1) rounds)

/-- The answer to `CAPD_QUERY_TYPE_MSG_HASH`. -/
def queryHashes (msgs : List CapdMsg) (start quantity : UInt32) : Option (List Uint256) :=
  let i := toInt32 start.toNat
  pushHashes msgs i (hashQty start quantity msgs.length - i).toNat

end Nexa
