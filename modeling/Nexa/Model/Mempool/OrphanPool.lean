import Nexa.Model.Primitives.Transaction
import Nexa.ToMathlib.MultiMap

/-! # The orphan pool

`txorphanpool.cpp`: transactions that spend what is not known yet, and transactions that are not final
yet, wait in two maps that share a counter of bytes. `LimitPoolSize` evicts entries at random; its loops
need not end, so they take a number of rounds and return `none` when these do not suffice.
-/

namespace Nexa

def maxStandardTxSize : ℕ := 100000

structure COrphanTx where
  ptx : CTransaction
  nEntryTime : ℤ
  nOrphanTxSize : ℕ

abbrev OrphanMap := AList fun _ : Uint256 => COrphanTx

namespace OrphanMap

/-- The keys as a `std::map` orders them. -/
def inOrder (orphans : OrphanMap) : List Uint256 := orphans.keys.insertionSort fun x y => x.toNat ≤ y.toNat

/-- `lower_bound`, or the first entry if there is none behind it; no entry only in an empty map. -/
def evictable (orphans : OrphanMap) (randomhash : Uint256) : Option Uint256 :=
  (orphans.inOrder.find? fun hash => randomhash.toNat ≤ hash.toNat).or orphans.inOrder.head?

end OrphanMap

structure CTxOrphanPool where
  mapOrphans : OrphanMap := ∅
  mapOrphansByPrev : MultiMap Uint256 Uint256 := ∅
  mapNonFinals : OrphanMap := ∅
  nPoolBytes : ℕ := 0
  nLastOrphanCheck : ℤ := 0

/-- `mapOrphansByPrev[prev].insert(hash)`. -/
def listUnder (hash : Uint256) (byPrev : MultiMap Uint256 Uint256) (txin : CTxIn) : MultiMap Uint256 Uint256 :=
  if hash ∈ byPrev.values txin.prevout.hash then byPrev else byPrev.append txin.prevout.hash [hash]

namespace CTxOrphanPool

variable (pool : CTxOrphanPool)

/-- Without entries no bytes are counted. -/
def checkEmpty : CTxOrphanPool :=
  if pool.mapOrphans.entries = [] ∧ pool.mapNonFinals.entries = [] then { pool with nPoolBytes := 0 } else pool

variable (memoryUsed : CTransaction → ℕ)

/-- `AddOrphanTx` at the time `now`; `memoryUsed` is `RecursiveDynamicUsage(*ptx) + sizeof(ptx)`. -/
def addOrphanTx (now : ℤ) (ptx : CTransaction) (pool : CTxOrphanPool) :
    CTxOrphanPool × Bool :=
  let pool := pool.checkEmpty
  let hash := ptx.getId
  if hash ∈ pool.mapOrphans then (pool, false)
  else if maxStandardTxSize < ptx.getTxSize then (pool, false)
  else ({ pool with
    mapOrphans := pool.mapOrphans.insert hash ⟨ptx, now, memoryUsed ptx⟩
    mapOrphansByPrev := ptx.vin.foldl (listUnder hash) pool.mapOrphansByPrev
    nPoolBytes := pool.nPoolBytes + memoryUsed ptx }, true)

def addNonFinalTx (now : ℤ) (ptx : CTransaction) (pool : CTxOrphanPool) :
    CTxOrphanPool × Bool :=
  let pool := pool.checkEmpty
  let hash := ptx.getId
  if hash ∈ pool.mapNonFinals then (pool, false)
  else if maxStandardTxSize < ptx.getTxSize then (pool, false)
  else ({ pool with
    mapNonFinals := pool.mapNonFinals.insert hash ⟨ptx, now, memoryUsed ptx⟩
    nPoolBytes := pool.nPoolBytes + memoryUsed ptx }, true)

/-- `EraseOrphanTx`; a list that becomes empty is removed with its hash. -/
def eraseOrphanTx (hash : Uint256) : CTxOrphanPool × Bool :=
  match pool.mapOrphans.lookup hash with
  | none => (pool, false)
  | some orphan =>
    ({ pool with
      mapOrphans := pool.mapOrphans.erase hash
      mapOrphansByPrev := (orphan.ptx.vin.map fun txin => txin.prevout.hash).foldl (MultiMap.prune (· ≠ hash))
        pool.mapOrphansByPrev
      nPoolBytes := pool.nPoolBytes - orphan.nOrphanTxSize }, true)

def eraseNonFinalTx (hash : Uint256) : CTxOrphanPool × Bool :=
  match pool.mapNonFinals.lookup hash with
  | none => (pool, false)
  | some nonFinal =>
    ({ pool with
      mapNonFinals := pool.mapNonFinals.erase hash
      nPoolBytes := pool.nPoolBytes - nonFinal.nOrphanTxSize }, true)

/-- `EraseByTime`, at most every five minutes; `orphanPoolExpiry` is in hours. -/
def eraseByTime (now orphanPoolExpiry : ℤ) (pool : CTxOrphanPool) : CTxOrphanPool :=
  if now < pool.nLastOrphanCheck + 5 * 60 then pool
  else
    let pool := { pool with nLastOrphanCheck := now }
    let nOrphanTxCutoffTime := now - orphanPoolExpiry * 60 * 60
    let old (orphans : OrphanMap) : List Uint256 :=
      (orphans.entries.filter fun entry => entry.2.nEntryTime < nOrphanTxCutoffTime).map fun entry => entry.2.ptx.getId
    let pool := (old pool.mapOrphans).foldl (fun pool hash => (pool.eraseOrphanTx hash).1) pool
    (old pool.mapNonFinals).foldl (fun pool hash => (pool.eraseNonFinalTx hash).1) pool

def removeForBlock (vtx : List CTransaction) (pool : CTxOrphanPool) : CTxOrphanPool :=
  if pool.mapOrphans.entries = [] ∧ pool.mapNonFinals.entries = [] then pool
  else vtx.foldl (fun pool tx => ((pool.eraseOrphanTx tx.getId).1.eraseNonFinalTx tx.getId).1) pool

def clear : CTxOrphanPool := { nLastOrphanCheck := pool.nLastOrphanCheck }

section

variable (random : ℕ → Uint256) (nMaxItems nMaxBytes : ℕ)

/-- A loop of `LimitPoolSize` that chooses from one of the maps. `random` are the results of `GetRandHash`, and
`nEvicted` counts the rounds. -/
def limitLoop (map : CTxOrphanPool → OrphanMap) : ℕ → CTxOrphanPool → ℕ → Option (CTxOrphanPool × ℕ)
  | 0, _, _ => none
  | rounds + 1, pool, nEvicted =>
    if nMaxItems < (map pool).entries.length ∨ nMaxBytes < pool.nPoolBytes then
      match (map pool).evictable (random nEvicted) with
      | none => some (pool, nEvicted)
      | some hash => limitLoop map rounds (pool.eraseOrphanTx hash).1 (nEvicted + 1)
    else some (pool, nEvicted)

/-- `LimitPoolSize`. Both loops evict with `EraseOrphanTx`. -/
def limitPoolSize (rounds : ℕ) (pool : CTxOrphanPool) : Option (CTxOrphanPool × UInt32) := do
  let (pool, nEvicted) ← limitLoop random nMaxItems nMaxBytes mapOrphans rounds pool 0
  let (pool, nEvicted) ← limitLoop random nMaxItems nMaxBytes mapNonFinals rounds pool nEvicted
  pure (pool, UInt32.ofNat nEvicted)

end

end CTxOrphanPool

end Nexa
