import Nexa.Model.Coins.CoinsView

/-! # The batches of a flush

`CCoinsViewDB::BatchWrite` collects the changes of coins in a batch, which it commits each time it has grown
too large. The best block is written by `_WriteBestBlock`, in a batch of its own. Everything in a batch is
committed at once. The serialized size of a coin is a parameter.
-/

namespace Nexa

/-- An operation of a batch of the coin database. -/
inductive DBWrite where
  | write (outpoint : COutPoint) (coin : Coin)
  | erase (outpoint : COutPoint)
  | bestBlock (hashBlock : Uint256)
deriving DecidableEq

abbrev CDBBatch := List DBWrite

namespace DBWrite

def isCoinChange : DBWrite → Bool
  | write _ _ | erase _ => true
  | bestBlock _ => false

/-- The size of the serialized `CoinEntry`: the byte `DB_COIN` and the hash of the outpoint. -/
def coinKeySize : ℕ := 33

/-- What an operation adds to `size_estimate`. -/
def sizeEstimate (coinSize : Coin → ℕ) : DBWrite → ℕ
  | write _ coin =>
    3 + (decide (127 < coinKeySize)).toNat + coinKeySize + (decide (127 < coinSize coin)).toNat + coinSize coin
  | erase _ => 2 + (decide (127 < coinKeySize)).toNat + coinKeySize
  | bestBlock _ => 3 + 1 + 32

end DBWrite

variable (coinSize : Coin → ℕ)

def CDBBatch.sizeEstimate (batch : CDBBatch) : ℕ :=
  (batch.map (DBWrite.sizeEstimate coinSize)).sum

namespace CCoinsViewDB

def nMaxDBBatchSize : ℕ := 16 <<< 20

def coinChange (outpoint : COutPoint) (entry : CCoinsCacheEntry) : DBWrite :=
  if entry.coin.isSpent then .erase outpoint else .write outpoint entry.coin

/-- The loop of `BatchWrite`: the batches it commits, and the one that is left. -/
def fillBatches (coinSize : Coin → ℕ) (batch_size : ℕ) :
    List (Σ _ : COutPoint, CCoinsCacheEntry) → CDBBatch → List CDBBatch × CDBBatch
  | [], batch => ([], batch)
  | ⟨outpoint, entry⟩ :: rest, batch =>
    if !entry.dirty then fillBatches coinSize batch_size rest batch
    else
      let batch := batch ++ [coinChange outpoint entry]
      if batch_size < CDBBatch.sizeEstimate coinSize batch then
        let (committed, left) := fillBatches coinSize batch_size rest []
        (batch :: committed, left)
      else fillBatches coinSize batch_size rest batch

def batches (batch_size : ℕ) (mapCoins : CCoinsMap) (hashBlock : Uint256) : List CDBBatch :=
  let (committed, batch) := fillBatches coinSize batch_size mapCoins.entries []
  committed ++ (if hashBlock = 0 then [] else [[.bestBlock hashBlock]]) ++ [batch]

variable (db : CCoinsViewDB)

def commit : DBWrite → CCoinsViewDB
  | .write outpoint coin => { db with coins := db.coins.insert outpoint coin }
  | .erase outpoint => { db with coins := db.coins.erase outpoint }
  | .bestBlock hashBlock => { db with bestBlock := hashBlock }

def writeBatch (batch : CDBBatch) : CCoinsViewDB := batch.foldl commit db

def writeBatches (batches : List CDBBatch) : CCoinsViewDB := batches.foldl writeBatch db

end CCoinsViewDB

end Nexa
