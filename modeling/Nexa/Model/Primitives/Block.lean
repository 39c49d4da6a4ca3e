import Nexa.Model.Primitives.BlockHeader
import Nexa.Model.Primitives.Transaction

/-! # Blocks

A block is a header with its transactions. The header commits to the list of transaction ids by a
Merkle root, to its length and to the serialized size of the block without the nonce.
-/

namespace Nexa

/-- `CBlock`; `fXVal` and `setUnVerifiedTxns` are memory only and belong to Xpress validation. -/
structure CBlock extends CBlockHeader where
  vtx : List CTransaction := []
  fXVal : Bool := false
  setUnVerifiedTxns : List Uint256 := []
deriving DecidableEq, Repr

/-- The loop of `GetSizeOfVarInt`, a group of seven bits in each round. -/
def sizeOfVarInt : ℕ → ℕ → ℕ
  | 0, _ => 0
  | rounds + 1, n => if n ≤ 0x7f then 1 else 1 + sizeOfVarInt rounds (n / 2 ^ 7 - 1)

/-- `GetSizeOfVarInt`; ten groups hold every 64-bit value. -/
def getSizeOfVarInt (n : UInt64) : ℕ := sizeOfVarInt 10 n.toNat

/-- `GetSerializeSize` of a header on the network: five blobs, two 32-bit fields, the size and the rest. -/
def CBlockHeader.getSerializeSize (block : CBlockHeader) : ℕ :=
  5 * 32 + 2 * 4 + 8 + getSizeOfVarInt (UInt64.ofNat block.height.toNat) + getSizeOfVarInt block.txCount +
    getSizeOfVarInt block.feePoolAmt + (writeVector block.utxoCommitment).length +
    (writeVector block.minerData).length + (writeVector block.nonce).length

namespace CBlock

def getSerializeSize (block : CBlock) : ℕ :=
  block.toCBlockHeader.getSerializeSize + (writeCompactSize block.vtx.length).length +
    (block.vtx.map CTransaction.getTxSize).sum

/-- `CalculateBlockSize`: the nonce is taken to have a length of one byte. -/
def calculateBlockSize (block : CBlock) : UInt64 :=
  UInt64.ofNat block.getSerializeSize - UInt64.ofNat (block.nonce.length + 1)

end CBlock

/-- One level of the Merkle tree: pairs are hashed together, an odd last hash with itself. -/
def merkleLevel : List Uint256 → List Uint256
  | [] => []
  | [last] => [hash256 (last.toBytes ++ last.toBytes)]
  | left :: right :: rest => hash256 (left.toBytes ++ right.toBytes) :: merkleLevel rest

/-- A pair of the level holds the same hash twice. -/
def repeatsInPair : List Uint256 → Bool
  | left :: right :: rest => decide (left = right) || repeatsInPair rest
  | _ => false

/-- The loop of `ComputeMerkleRoot`; every round halves the number of hashes. -/
def merkleLoop : ℕ → List Uint256 → Bool → Uint256 × Bool
  | 0, hashes, mutation => (hashes.headD 0, mutation)
  | rounds + 1, hashes, mutation =>
    if 1 < hashes.length then merkleLoop rounds (merkleLevel hashes) (mutation || repeatsInPair hashes)
    else (hashes.headD 0, mutation)

/-- `ComputeMerkleRoot` with its flag `mutated`. -/
def computeMerkleRoot (hashes : List Uint256) : Uint256 × Bool := merkleLoop hashes.length hashes false

def blockMerkleRoot (block : CBlock) : Uint256 × Bool := computeMerkleRoot (block.vtx.map CTransaction.getId)

theorem length_merkleLevel (hashes : List Uint256) : (merkleLevel hashes).length = (hashes.length + 1) / 2 := by
  fun_induction merkleLevel hashes with
  | case1 => rfl
  | case2 last => simp
  | case3 left right rest ih =>
    simp only [List.length_cons]
    omega

end Nexa
