import Mathlib.Data.List.AList
import Nexa.Model.Primitives.Transaction

/-! # Views of the set of coins

A cache keeps coins in front of the view it is backed by, which is another cache or, at the bottom,
the database. Reading through a cache fills it, so that the queries return the changed view as well.
Methods that belong to one cache only work on its own state.
-/

namespace Nexa

/-- A coin, spent when its output is null. The height has 31 bits. -/
structure Coin where
  out : CTxOut := {}
  fCoinBase : Bool := false
  nHeight : BitVec 31 := 0
deriving DecidableEq, Repr

namespace Coin

def ofTxOut (outIn : CTxOut) (nHeightIn : ℤ) (fCoinBaseIn : Bool) : Coin :=
  ⟨outIn, fCoinBaseIn, BitVec.ofInt 31 nHeightIn⟩

def isSpent (coin : Coin) : Bool := coin.out.isNull

/-- The heap memory of the script: none up to 28 bytes, otherwise what `malloc` takes for it. -/
def dynamicMemoryUsage (coin : Coin) : UInt64 :=
  if coin.out.scriptPubKey.length ≤ 28 then 0
  else UInt64.ofNat ((coin.out.scriptPubKey.length + 31) / 16 * 16)

end Coin

/-- An entry with its flags `DIRTY` and `FRESH`. -/
structure CCoinsCacheEntry where
  coin : Coin := {}
  dirty : Bool := false
  fresh : Bool := false
deriving DecidableEq, Repr

abbrev CCoinsMap := AList fun _ : COutPoint => CCoinsCacheEntry

/-- The fields of a `CCoinsViewCache` apart from the view that backs it. -/
structure CoinsCache where
  cacheCoins : CCoinsMap := ∅
  hashBlock : Uint256 := 0
  nBestCoinHeight : UInt64 := 0
  cachedCoinsUsage : UInt64 := 0

/-- A view that is not a cache: the methods that a cache calls on the view that backs it. -/
class BackingView (σ : Type) where
  getCoin : σ → COutPoint → Option Coin
  getBestBlock : σ → Uint256
  batchWrite : σ → CCoinsMap → Uint256 → UInt64 → UInt64 → σ × CCoinsMap × UInt64

/-- A stack of caches over a backing view. -/
inductive CCoinsView (σ : Type) where
  | backing (view : σ)
  | cache (own : CoinsCache) (base : CCoinsView σ)

/-- A `CCoinsViewCache` with the view it is backed by. -/
structure CCoinsViewCache (σ : Type) where
  own : CoinsCache
  base : CCoinsView σ

namespace CoinsCache

variable (own : CoinsCache)

/-- `nBestCoinHeight` after a coin has come in. -/
def raiseHeight (coin : Coin) : UInt64 := max own.nBestCoinHeight (UInt64.ofNat coin.nHeight.toNat)

/-- Puts an entry into the cache; `replaced` is the memory that the coin it replaces gives back. -/
def store (outpoint : COutPoint) (entry : CCoinsCacheEntry) (replaced : UInt64) : CoinsCache :=
  { own with
    cacheCoins := own.cacheCoins.insert outpoint entry
    cachedCoinsUsage := own.cachedCoinsUsage - replaced + entry.coin.dynamicMemoryUsage }

/-- Removes the entry of an outpoint together with the memory of its coin. -/
def drop (outpoint : COutPoint) (entry : CCoinsCacheEntry) : CoinsCache :=
  { own with
    cacheCoins := own.cacheCoins.erase outpoint
    cachedCoinsUsage := own.cachedCoinsUsage - entry.coin.dynamicMemoryUsage }

/-- `CCoinsViewCache::FetchCoin`; `getCoin` is the method of the backing view `base`. -/
def fetchCoin {ν : Type} (own : CoinsCache) (base : ν) (getCoin : COutPoint → Option Coin × ν)
    (outpoint : COutPoint) : Option CCoinsCacheEntry × CoinsCache × ν :=
  match own.cacheCoins.lookup outpoint with
  | some entry => (some entry, own, base)
  | none =>
    match getCoin outpoint with
    | (none, base) => (none, own, base)
    | (some tmp, base) =>
      -- a spent coin of the backing view counts as absent there, hence fresh here
      let entry : CCoinsCacheEntry := ⟨tmp, false, tmp.isSpent⟩
      (some entry, { own.store outpoint entry 0 with nBestCoinHeight := own.raiseHeight tmp }, base)

/-- `CCoinsViewCache::AddCoin`. The exception leaves the usage of the replaced coin subtracted. -/
def addCoin (outpoint : COutPoint) (coin : Coin) (possible_overwrite : Bool) :
    Validation Unit × CoinsCache :=
  if coin.isSpent then (crash, own)
  else if coin.out.scriptPubKey.isUnspendable then (pure (), own)
  else
    let existing := own.cacheCoins.lookup outpoint
    let entry := existing.getD {}
    let replaced := existing.elim 0 fun entry => entry.coin.dynamicMemoryUsage
    if !possible_overwrite && !entry.coin.isSpent then
      (crash, { own with cachedCoinsUsage := own.cachedCoinsUsage - replaced })
    else
      let fresh := !possible_overwrite && !entry.dirty
      (pure (), { own.store outpoint ⟨coin, true, entry.fresh || fresh⟩ replaced with
                  nBestCoinHeight := own.raiseHeight coin })

/-- What `SpendCoin` does to the entry it has found: a fresh one is erased, others stay as spent. -/
def clearEntry (outpoint : COutPoint) (entry : CCoinsCacheEntry) : CoinsCache :=
  if entry.fresh then own.drop outpoint entry
  else own.store outpoint ⟨{}, true, false⟩ entry.coin.dynamicMemoryUsage

def uncache (outpoint : COutPoint) : CoinsCache :=
  match own.cacheCoins.lookup outpoint with
  | none => own
  | some entry => if entry.dirty || entry.fresh then own else own.drop outpoint entry

/-- The loop of `CCoinsViewCache::Trim` over the outpoints from the iterator on. -/
def trimLoop (tableUsage : CCoinsMap → ℕ) (nTrimSize : ℕ) : List COutPoint → CoinsCache → CoinsCache
  | [], own => own
  | outpoint :: rest, own =>
    if nTrimSize < tableUsage own.cacheCoins + own.cachedCoinsUsage.toNat then
      trimLoop tableUsage nTrimSize rest (own.uncache outpoint)
    else own

/-- `CCoinsViewCache::Trim`; `tableUsage` is the memory of the hash table itself. -/
def trim (tableUsage : CCoinsMap → ℕ) (nTrimSize : ℕ) (own : CoinsCache) : CoinsCache :=
  trimLoop tableUsage nTrimSize own.cacheCoins.keys own

/-- The body of the loop of `CCoinsViewCache::BatchWrite` for a dirty entry of the child. -/
def writeEntry (outpoint : COutPoint) (entry : CCoinsCacheEntry) : Validation CoinsCache :=
  match own.cacheCoins.lookup outpoint with
  | none =>
    if entry.fresh && entry.coin.isSpent then pure own
    else pure (own.store outpoint ⟨entry.coin, true, entry.fresh⟩ 0)
  | some us =>
    if entry.fresh && !us.coin.isSpent then crash
    else if us.fresh && entry.coin.isSpent then pure (own.drop outpoint us)
    else pure (own.store outpoint ⟨entry.coin, true, us.fresh⟩ us.coin.dynamicMemoryUsage)

/-- The loop of `CCoinsViewCache::BatchWrite` over the entries of the child; with the child's entries
and memory usage as the loop leaves them. -/
def writeEntries : List (Σ _ : COutPoint, CCoinsCacheEntry) → CoinsCache → CCoinsMap → UInt64 →
    Validation (CoinsCache × CCoinsMap × UInt64)
  | [], own, mapCoins, nChildCachedCoinsUsage => pure (own, mapCoins, nChildCachedCoinsUsage)
  | ⟨outpoint, entry⟩ :: rest, own, mapCoins, nChildCachedCoinsUsage =>
    if entry.dirty then do
      let own ← own.writeEntry outpoint entry
      writeEntries rest own (mapCoins.erase outpoint) (nChildCachedCoinsUsage - entry.coin.dynamicMemoryUsage)
    else writeEntries rest own mapCoins nChildCachedCoinsUsage

def batchWrite (mapCoins : CCoinsMap) (hashBlockIn : Uint256) (nBestCoinHeightIn : UInt64)
    (nChildCachedCoinsUsage : UInt64) : Validation (CoinsCache × CCoinsMap × UInt64) := do
  let (own, mapCoins, usage) ← writeEntries mapCoins.entries own mapCoins nChildCachedCoinsUsage
  pure ({ own with hashBlock := hashBlockIn, nBestCoinHeight := max own.nBestCoinHeight nBestCoinHeightIn },
    mapCoins, usage)

end CoinsCache

section

variable {σ : Type} [BackingView σ]

/-- `GetCoin` of a view. For a cache it may return a coin that has been spent. -/
def CCoinsView.getCoin : CCoinsView σ → COutPoint → Option Coin × CCoinsView σ
  | .backing view, outpoint => (BackingView.getCoin view outpoint, .backing view)
  | .cache own base, outpoint =>
    match own.fetchCoin base (getCoin base) outpoint with
    | (entry, own, base) => (entry.map CCoinsCacheEntry.coin, .cache own base)

/-- `GetBestBlock`: a cache whose own hash is null asks the view below. -/
def CCoinsView.getBestBlock : CCoinsView σ → Uint256
  | .backing view => BackingView.getBestBlock view
  | .cache own base => if own.hashBlock = 0 then getBestBlock base else own.hashBlock

/-- `BatchWrite` of a view: the view, and what is left of the child's entries and memory usage. -/
def CCoinsView.batchWrite (mapCoins : CCoinsMap) (hashBlockIn : Uint256) (nBestCoinHeightIn : UInt64)
    (nChildCachedCoinsUsage : UInt64) : CCoinsView σ → Validation (CCoinsView σ × CCoinsMap × UInt64)
  | .backing view =>
    match BackingView.batchWrite view mapCoins hashBlockIn nBestCoinHeightIn nChildCachedCoinsUsage with
    | (view, mapCoins, usage) => pure (.backing view, mapCoins, usage)
  | .cache own base => do
    let (own, mapCoins, usage) ← own.batchWrite mapCoins hashBlockIn nBestCoinHeightIn nChildCachedCoinsUsage
    pure (.cache own base, mapCoins, usage)

namespace CCoinsViewCache

variable (view : CCoinsViewCache σ) (outpoint : COutPoint)

def fetchCoin : Option CCoinsCacheEntry × CCoinsViewCache σ :=
  match view.own.fetchCoin view.base view.base.getCoin outpoint with
  | (entry, own, base) => (entry, ⟨own, base⟩)

def getCoin : Option Coin × CCoinsViewCache σ :=
  match view.fetchCoin outpoint with
  | (entry, view) => (entry.map CCoinsCacheEntry.coin, view)

def haveCoin : Bool × CCoinsViewCache σ :=
  match view.fetchCoin outpoint with
  | (entry, view) => (entry.any fun entry => !entry.coin.isSpent, view)

/-- `AccessCoin`: the coin, empty where there is none. -/
def accessCoin : Coin × CCoinsViewCache σ :=
  match view.fetchCoin outpoint with
  | (entry, view) => (entry.elim {} CCoinsCacheEntry.coin, view)

/-- `AddCoin` where the exception ends the caller. -/
def addCoin (coin : Coin) (possible_overwrite : Bool) :
    Validation (CCoinsViewCache σ) :=
  match view.own.addCoin outpoint coin possible_overwrite with
  | (outcome, own) => outcome.map fun _ => { view with own }

/-- `SpendCoin`: whether there was an unspent coin, and `moveout`, which starts out empty. -/
def spendCoin : Bool × Coin × CCoinsViewCache σ :=
  match view.fetchCoin outpoint with
  | (none, view) => (false, {}, view)
  | (some entry, view) =>
    (!entry.coin.isSpent, entry.coin, { view with own := view.own.clearEntry outpoint entry })

def uncache : CCoinsViewCache σ :=
  { view with own := view.own.uncache outpoint }

def trim (tableUsage : CCoinsMap → ℕ) (nTrimSize : ℕ) (view : CCoinsViewCache σ) : CCoinsViewCache σ :=
  { view with own := view.own.trim tableUsage nTrimSize }

def getBestBlock : Uint256 :=
  if view.own.hashBlock = 0 then view.base.getBestBlock else view.own.hashBlock

def setBestBlock (hashBlockIn : Uint256) : CCoinsViewCache σ :=
  { view with own := { view.own with hashBlock := hashBlockIn } }

def flush : Validation (CCoinsViewCache σ) := do
  let (base, mapCoins, usage) ←
    view.base.batchWrite view.own.cacheCoins view.own.hashBlock view.own.nBestCoinHeight view.own.cachedCoinsUsage
  pure { own := { view.own with cacheCoins := mapCoins, cachedCoinsUsage := usage }, base }

end CCoinsViewCache

end

/-! ## The database -/

/-- The coin database. `evicts` is the condition under which written coins leave the cache: the chain
is nearly synced and the cache is not meant to keep its coins. -/
structure CCoinsViewDB where
  coins : AList fun _ : COutPoint => Coin := ∅
  bestBlock : Uint256 := 0
  evicts : Bool := true

namespace CCoinsViewDB

/-- The loop of `CCoinsViewDB::BatchWrite`. -/
def writeEntries (evicts : Bool) : List (Σ _ : COutPoint, CCoinsCacheEntry) → (AList fun _ : COutPoint => Coin) →
    CCoinsMap → UInt64 → (AList fun _ : COutPoint => Coin) × CCoinsMap × UInt64
  | [], coins, mapCoins, usage => (coins, mapCoins, usage)
  | ⟨outpoint, entry⟩ :: rest, coins, mapCoins, usage =>
    if !entry.dirty then writeEntries evicts rest coins mapCoins usage
    else if entry.coin.isSpent then
      writeEntries evicts rest (coins.erase outpoint) (mapCoins.erase outpoint)
        (usage - entry.coin.dynamicMemoryUsage)
    else if evicts then
      writeEntries evicts rest (coins.insert outpoint entry.coin) (mapCoins.erase outpoint)
        (usage - entry.coin.dynamicMemoryUsage)
    else
      writeEntries evicts rest (coins.insert outpoint entry.coin) (mapCoins.insert outpoint ⟨entry.coin, false, false⟩)
        usage

instance : BackingView CCoinsViewDB where
  getCoin db outpoint := db.coins.lookup outpoint
  getBestBlock db := db.bestBlock
  batchWrite db mapCoins hashBlock _ nChildCachedCoinsUsage :=
    match writeEntries db.evicts mapCoins.entries db.coins mapCoins nChildCachedCoinsUsage with
    | (coins, mapCoins, usage) =>
      ({ db with coins, bestBlock := if hashBlock = 0 then db.bestBlock else hashBlock }, mapCoins, usage)

end CCoinsViewDB

end Nexa
