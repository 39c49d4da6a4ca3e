import Nexa.Model.Wallet.TokenData

/-! # The mintage index

`CTokenMintCache` of `grouptokencache.cpp`: the supply of every group is kept in a database, with a bounded
cache in front of it that evicts entries at random. The database stores an entry under the hash of the group,
which is identified with the group here.
-/

namespace Nexa

/-- `mint_entry`: the supply of a group and the address of its genesis. -/
abbrev MintEntry := UInt64 × String

abbrev MintMap := AList fun _ : CGroupTokenID => MintEntry

/-- The cache, the database behind it, and the random numbers that are to come. -/
structure CTokenMintCache where
  cache : MintMap := ∅
  tokenMint : MintMap := ∅
  nMaxCacheSize : ℕ := 10000
  random : ℕ → ℕ := fun _ => 0

namespace CTokenMintCache

def getRand (random nMax : ℕ) : ℕ := if nMax = 0 then 0 else random % nMax

variable (index : CTokenMintCache)

/-- A random element of the cache, counted in the order of the map. -/
def randomElement : Option CGroupTokenID :=
  let keys := index.cache.keys.mergeSort fun first second => decide (first ≤ second)
  keys[getRand (index.random 0) (keys.length - 1)]?

def eraseRandom : CTokenMintCache :=
  { index with
    cache := index.randomElement.elim index.cache index.cache.erase
    random := fun n => index.random (n + 1) }

/-- The loop of `AddToCache`, which runs once for each entry that is too many. -/
def makeRoom : CTokenMintCache := eraseRandom^[index.cache.keys.length + 1 - index.nMaxCacheSize] index

variable (grpID : CGroupTokenID) (entry : MintEntry)

def addToCache : CTokenMintCache :=
  { index.makeRoom with cache := index.makeRoom.cache.insert grpID entry }

/-- `AddToCache` and `WriteMint`, which follow each other. -/
def store : CTokenMintCache :=
  let index := index.addToCache grpID entry
  { index with tokenMint := index.tokenMint.insert grpID entry }

/-- The entry of a group, which is brought into the cache if only the database has it. -/
def fetch : Option MintEntry × CTokenMintCache :=
  match index.cache.lookup grpID with
  | some entry => (some entry, index)
  | none =>
    match index.tokenMint.lookup grpID with
    | some entry => (some entry, index.addToCache grpID entry)
    | none => (none, index)

def getTokenMint : MintEntry × CTokenMintCache := ((index.fetch grpID).1.getD (0, ""), (index.fetch grpID).2)

def getTokenGenesis : String × CTokenMintCache := ((index.fetch grpID).1.elim "" Prod.snd, (index.fetch grpID).2)

/-- `AddTokenMint`. An empty supply is not written. -/
def addTokenMint (mint : CAmount) : CTokenMintCache :=
  let (entry, index) := index.getTokenMint grpID
  let supply := entry.1 + mint.toUInt64
  if 0 < supply then index.store grpID (supply, entry.2) else index

/-- `RemoveTokenMint`. More than there is cannot be removed. -/
def removeTokenMint (melt : CAmount) : CTokenMintCache :=
  let (entry, index) := index.getTokenMint grpID
  if melt.toUInt64 ≤ entry.1 then index.store grpID (entry.1 - melt.toUInt64, entry.2) else index

/-- `AddTokenGenesis`. A subgroup keeps its first genesis. -/
def addTokenGenesis : CTokenMintCache :=
  if grpID.isSubgroup then
    let (genesis, index) := index.getTokenGenesis grpID
    if genesis ≠ "" then index else index.store grpID entry
  else index.store grpID entry

variable (it : Σ _ : CGroupTokenID, CAmount)

/-- The body of the loop of `ApplyTokenMintages`. -/
def applyTokenMintage : CTokenMintCache :=
  if 0 < it.2.toInt then index.addTokenMint it.1 it.2 else index.removeTokenMint it.1 it.2.abs

/-- The body of the loop of `RemoveTokenMintages`. -/
def removeTokenMintage : CTokenMintCache :=
  if 0 < it.2.toInt then index.removeTokenMint it.1 it.2 else index.addTokenMint it.1 it.2.abs

variable (accumulatedMintages : CMintageMap)

def applyTokenMintages : CTokenMintCache :=
  accumulatedMintages.entries.foldl applyTokenMintage index

def removeTokenMintages : CTokenMintCache :=
  accumulatedMintages.entries.foldl removeTokenMintage index

end CTokenMintCache

end Nexa
