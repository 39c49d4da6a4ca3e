import Nexa.Model.Mempool.OrphanPool
import Nexa.ToMathlib.GroupedSum

/-! # Limiting the orphan pool

The counter of bytes and the index by spent hash follow the two maps through every operation. The first loop
of `LimitPoolSize` removes orphans until the limits hold or none is left. The second loop removes orphans as
well, so it ends only if the transactions that are not final meet the limits already.
-/

namespace Nexa

open AList

namespace OrphanMap

/-- The bytes counted for the entries. -/
def bytes (orphans : OrphanMap) : ℕ := orphans.sumBy fun entry => entry.2.nOrphanTxSize

variable {orphans : OrphanMap} {hash randomhash : Uint256}

theorem bytes_insert (ptx : CTransaction) (nEntryTime : ℤ) (nOrphanTxSize : ℕ) (absent : orphans.lookup hash = none) :
    bytes (orphans.insert hash ⟨ptx, nEntryTime, nOrphanTxSize⟩) = nOrphanTxSize + orphans.bytes := by
  rw [bytes, sumBy_insert, sumBy_erase_of_lookup_eq_none _ absent, bytes]

theorem bytes_erase {orphan : COrphanTx} (found : orphans.lookup hash = some orphan) :
    orphan.nOrphanTxSize + bytes (orphans.erase hash) = orphans.bytes :=
  sumBy_erase_of_lookup_eq_some (fun entry => entry.2.nOrphanTxSize) found

theorem bytes_of_entries_eq_nil (none_left : orphans.entries = []) : orphans.bytes = 0 := by
  rw [bytes, sumBy, none_left, List.map_nil, List.sum_nil]

theorem mem_inOrder : hash ∈ orphans.inOrder ↔ hash ∈ orphans := by
  rw [inOrder, List.mem_insertionSort, mem_keys]

theorem mem_of_evictable (chosen : orphans.evictable randomhash = some hash) : hash ∈ orphans := by
  rw [← mem_inOrder]
  rcases Option.or_eq_some_iff.mp chosen with found | ⟨-, first⟩
  · exact List.mem_of_find?_eq_some found
  · exact List.mem_of_mem_head? first

theorem entries_eq_nil_of_evictable (nothing : orphans.evictable randomhash = none) : orphans.entries = [] := by
  have noFirst := (Option.or_eq_none_iff.mp nothing).2
  rw [List.head?_eq_none_iff, inOrder, ← List.length_eq_zero_iff, List.length_insertionSort] at noFirst
  rw [← List.length_eq_zero_iff, ← noFirst, keys, List.keys, List.length_map]

theorem length_erase_lt (member : hash ∈ orphans) : (orphans.erase hash).entries.length < orphans.entries.length := by
  have count (map : OrphanMap) : map.entries.length = map.keys.length := by
    rw [keys, List.keys, List.length_map]
  have listed := mem_keys.mpr member
  rw [count, count, keys_erase, List.length_erase_of_mem listed]
  have := List.length_pos_of_mem listed
  omega

end OrphanMap

variable {byPrev : MultiMap Uint256 Uint256} {hash other prev : Uint256}

theorem mem_values_listUnder {txin : CTxIn} : other ∈ (listUnder hash byPrev txin).values prev ↔
      other ∈ byPrev.values prev ∨ other = hash ∧ txin.prevout.hash = prev := by
  rw [listUnder]
  split_ifs with listed
  · constructor
    · exact Or.inl
    · rintro (before | ⟨rfl, rfl⟩)
      · exact before
      · exact listed
  · rw [MultiMap.values_append]
    by_cases same : prev = txin.prevout.hash
    · simp [same]
    · simp [same, Ne.symm]

theorem mem_values_foldl_listUnder (vin : List CTxIn) (byPrev : MultiMap Uint256 Uint256) :
    other ∈ (vin.foldl (listUnder hash) byPrev).values prev ↔
      other ∈ byPrev.values prev ∨ other = hash ∧ ∃ txin ∈ vin, txin.prevout.hash = prev := by
  induction vin generalizing byPrev with
  | nil => simp
  | cons txin vin ih =>
    rw [List.foldl_cons, ih, mem_values_listUnder, or_assoc, ← and_or_left, List.exists_mem_cons_iff]

theorem full_foldl_listUnder (hash : Uint256) (vin : List CTxIn) (full : byPrev.Full) :
    (vin.foldl (listUnder hash) byPrev).Full := by
  induction vin generalizing byPrev with
  | nil => exact full
  | cons txin vin ih =>
    apply ih
    rw [listUnder]
    split_ifs
    · exact full
    · exact full.append _ (List.cons_ne_nil _ _)

namespace CTxOrphanPool

/-- The orphan `hash` is in the pool and spends from `prev`. -/
def Spends (pool : CTxOrphanPool) (hash prev : Uint256) : Prop :=
  ∃ orphan, pool.mapOrphans.lookup hash = some orphan ∧ ∃ txin ∈ orphan.ptx.vin, txin.prevout.hash = prev

/-- The counter is the sum of the sizes in both maps, and `mapOrphansByPrev` lists exactly the orphans. -/
structure Accounted (pool : CTxOrphanPool) : Prop where
  bytes : pool.nPoolBytes = pool.mapOrphans.bytes + pool.mapNonFinals.bytes
  listed : ∀ prev hash, hash ∈ pool.mapOrphansByPrev.values prev ↔ pool.Spends hash prev
  full : pool.mapOrphansByPrev.Full

variable {pool : CTxOrphanPool}

theorem accounted_initial (time : ℤ) : Accounted { nLastOrphanCheck := time } where
  bytes := rfl
  listed prev hash := by simp [Spends]
  full := MultiMap.full_empty

theorem Accounted.clear (pool : CTxOrphanPool) : pool.clear.Accounted := accounted_initial _

section

variable (accounted : pool.Accounted)

include accounted

theorem Accounted.checkEmpty_eq : pool.checkEmpty = pool := by
  rw [checkEmpty]
  split_ifs with empty
  · have zero : pool.nPoolBytes = 0 := by
      rw [accounted.bytes, OrphanMap.bytes_of_entries_eq_nil empty.1, OrphanMap.bytes_of_entries_eq_nil empty.2]
    rw [← zero]
  · rfl

variable (memoryUsed : CTransaction → ℕ)

theorem Accounted.addOrphanTx (now : ℤ) (ptx : CTransaction) : (pool.addOrphanTx memoryUsed now ptx).1.Accounted := by
  simp only [CTxOrphanPool.addOrphanTx, accounted.checkEmpty_eq]
  split_ifs with known large
  · exact accounted
  · exact accounted
  · have absent := lookup_eq_none.mpr known
    refine ⟨?_, fun prev hash => ?_, full_foldl_listUnder _ _ accounted.full⟩
    · have inserted := OrphanMap.bytes_insert ptx now (memoryUsed ptx) absent
      change pool.nPoolBytes + memoryUsed ptx = OrphanMap.bytes (AList.insert _ _ _) + pool.mapNonFinals.bytes
      rw [accounted.bytes]
      omega
    · simp only [mem_values_foldl_listUnder, accounted.listed, Spends]
      by_cases same : hash = ptx.getId
      · subst same
        simp [absent]
      · simp [same]

theorem Accounted.addNonFinalTx (now : ℤ) (ptx : CTransaction) :
    (pool.addNonFinalTx memoryUsed now ptx).1.Accounted := by
  simp only [CTxOrphanPool.addNonFinalTx, accounted.checkEmpty_eq]
  split_ifs with known large
  · exact accounted
  · exact accounted
  · refine ⟨?_, accounted.listed, accounted.full⟩
    have inserted := OrphanMap.bytes_insert ptx now (memoryUsed ptx) (lookup_eq_none.mpr known)
    change pool.nPoolBytes + memoryUsed ptx = pool.mapOrphans.bytes + OrphanMap.bytes (AList.insert _ _ _)
    rw [accounted.bytes]
    omega

theorem Accounted.eraseOrphanTx (hash : Uint256) : (pool.eraseOrphanTx hash).1.Accounted := by
  rw [CTxOrphanPool.eraseOrphanTx]
  cases found : pool.mapOrphans.lookup hash with
  | none => exact accounted
  | some orphan =>
    refine ⟨?_, fun prev other => ?_, accounted.full.foldl_prune _ _⟩
    · change pool.nPoolBytes - orphan.nOrphanTxSize =
        OrphanMap.bytes (pool.mapOrphans.erase hash) + pool.mapNonFinals.bytes
      have := OrphanMap.bytes_erase found
      have := accounted.bytes
      omega
    · simp only [MultiMap.values_foldl_prune, Spends, lookup_erase_eq_ite]
      by_cases same : other = hash
      · -- the hash stood only under the hashes its inputs spend, and there it is removed
        subst same
        simp only [↓reduceIte, reduceCtorEq, false_and, exists_false, iff_false]
        split_ifs with pruned
        · simp
        · rw [accounted.listed]
          rintro ⟨_, found', txin, member, spent⟩
          obtain rfl := Option.some.inj (found.symm.trans found')
          exact pruned (List.mem_map.mpr ⟨txin, member, spent⟩)
      · rw [if_neg same, ← Spends, ← accounted.listed]
        split_ifs
        · simp [same]
        · rfl

theorem Accounted.eraseNonFinalTx (hash : Uint256) : (pool.eraseNonFinalTx hash).1.Accounted := by
  rw [CTxOrphanPool.eraseNonFinalTx]
  cases found : pool.mapNonFinals.lookup hash with
  | none => exact accounted
  | some nonFinal =>
    refine ⟨?_, accounted.listed, accounted.full⟩
    change pool.nPoolBytes - nonFinal.nOrphanTxSize =
      pool.mapOrphans.bytes + OrphanMap.bytes (pool.mapNonFinals.erase hash)
    have := OrphanMap.bytes_erase found
    have := accounted.bytes
    omega

end

theorem Accounted.foldl {α : Type*} {step : CTxOrphanPool → α → CTxOrphanPool}
    (keeps : ∀ {pool : CTxOrphanPool}, pool.Accounted → ∀ item, (step pool item).Accounted) (accounted : pool.Accounted)
    (items : List α) : (items.foldl step pool).Accounted := by
  induction items generalizing pool with
  | nil => exact accounted
  | cons item items ih => exact ih (keeps accounted item)

theorem Accounted.eraseByTime (accounted : pool.Accounted) (now orphanPoolExpiry : ℤ) :
    (pool.eraseByTime now orphanPoolExpiry).Accounted := by
  rw [CTxOrphanPool.eraseByTime]
  split_ifs
  · exact accounted
  · apply Accounted.foldl fun kept => kept.eraseNonFinalTx
    apply Accounted.foldl fun kept => kept.eraseOrphanTx
    exact ⟨accounted.bytes, accounted.listed, accounted.full⟩

theorem Accounted.removeForBlock (accounted : pool.Accounted) (vtx : List CTransaction) :
    (pool.removeForBlock vtx).Accounted := by
  rw [CTxOrphanPool.removeForBlock]
  split_ifs
  · exact accounted
  · exact accounted.foldl (fun kept tx => (kept.eraseOrphanTx tx.getId).eraseNonFinalTx tx.getId) vtx

/-- The pools that additions and erasures lead to. -/
inductive Reachable (memoryUsed : CTransaction → ℕ) : CTxOrphanPool → Prop
  | initial (time : ℤ) : Reachable memoryUsed { nLastOrphanCheck := time }
  | addOrphanTx {pool : CTxOrphanPool} (now : ℤ) (ptx : CTransaction) (before : Reachable memoryUsed pool) :
      Reachable memoryUsed (pool.addOrphanTx memoryUsed now ptx).1
  | addNonFinalTx {pool : CTxOrphanPool} (now : ℤ) (ptx : CTransaction) (before : Reachable memoryUsed pool) :
      Reachable memoryUsed (pool.addNonFinalTx memoryUsed now ptx).1
  | eraseOrphanTx {pool : CTxOrphanPool} (hash : Uint256) (before : Reachable memoryUsed pool) :
      Reachable memoryUsed (pool.eraseOrphanTx hash).1
  | eraseNonFinalTx {pool : CTxOrphanPool} (hash : Uint256) (before : Reachable memoryUsed pool) :
      Reachable memoryUsed (pool.eraseNonFinalTx hash).1
  | eraseByTime {pool : CTxOrphanPool} (now orphanPoolExpiry : ℤ) (before : Reachable memoryUsed pool) :
      Reachable memoryUsed (pool.eraseByTime now orphanPoolExpiry)
  | removeForBlock {pool : CTxOrphanPool} (vtx : List CTransaction) (before : Reachable memoryUsed pool) :
      Reachable memoryUsed (pool.removeForBlock vtx)
  | clear {pool : CTxOrphanPool} (before : Reachable memoryUsed pool) : Reachable memoryUsed pool.clear

theorem Reachable.accounted {memoryUsed : CTransaction → ℕ} (reachable : Reachable memoryUsed pool) :
    pool.Accounted := by
  induction reachable with
  | initial time => exact accounted_initial time
  | addOrphanTx now ptx _ ih => exact ih.addOrphanTx memoryUsed now ptx
  | addNonFinalTx now ptx _ ih => exact ih.addNonFinalTx memoryUsed now ptx
  | eraseOrphanTx hash _ ih => exact ih.eraseOrphanTx hash
  | eraseNonFinalTx hash _ ih => exact ih.eraseNonFinalTx hash
  | eraseByTime now orphanPoolExpiry _ ih => exact ih.eraseByTime now orphanPoolExpiry
  | removeForBlock vtx _ ih => exact ih.removeForBlock vtx
  | clear _ _ => exact Accounted.clear _

/-! ## The two loops -/

@[simp] theorem mapNonFinals_eraseOrphanTx (pool : CTxOrphanPool) (hash : Uint256) :
    (pool.eraseOrphanTx hash).1.mapNonFinals = pool.mapNonFinals := by
  rw [CTxOrphanPool.eraseOrphanTx]
  cases pool.mapOrphans.lookup hash <;> rfl

variable {random : ℕ → Uint256} {nMaxItems nMaxBytes : ℕ}

theorem limitLoop_eq_some {map : CTxOrphanPool → OrphanMap} {rounds nEvicted count : ℕ}
    {result : CTxOrphanPool} (accounted : pool.Accounted)
    (returned : limitLoop random nMaxItems nMaxBytes map rounds pool nEvicted = some (result, count)) :
    result.Accounted ∧ result.mapNonFinals = pool.mapNonFinals ∧
      ((map result).entries.length ≤ nMaxItems ∧ result.nPoolBytes ≤ nMaxBytes ∨ (map result).entries = []) := by
  induction rounds generalizing pool nEvicted with
  | zero => cases returned
  | succ rounds ih =>
    rw [limitLoop] at returned
    split_ifs at returned with exceeds
    · cases chosen : (map pool).evictable (random nEvicted) with
      | none =>
        rw [chosen] at returned
        cases returned
        exact ⟨accounted, rfl, Or.inr (OrphanMap.entries_eq_nil_of_evictable chosen)⟩
      | some hash =>
        rw [chosen] at returned
        simpa using ih (accounted.eraseOrphanTx hash) returned
    · cases returned
      rw [not_or, not_lt, not_lt] at exceeds
      exact ⟨accounted, rfl, Or.inl exceeds⟩

theorem limitLoop_mapOrphans_returns {rounds : ℕ} (nEvicted : ℕ) (enough : pool.mapOrphans.entries.length < rounds) :
    ∃ result, limitLoop random nMaxItems nMaxBytes mapOrphans rounds pool nEvicted = some result := by
  induction rounds generalizing pool nEvicted with
  | zero => omega
  | succ rounds ih =>
    rw [limitLoop]
    split_ifs
    · cases chosen : pool.mapOrphans.evictable (random nEvicted) with
      | none => exact ⟨_, rfl⟩
      | some hash =>
        have member := OrphanMap.mem_of_evictable chosen
        obtain ⟨orphan, found⟩ := Option.isSome_iff_exists.mp (lookup_isSome.mpr member)
        have fewer := OrphanMap.length_erase_lt member
        exact ih _ (by simp only [CTxOrphanPool.eraseOrphanTx, found]; omega)
    · exact ⟨_, rfl⟩

theorem limitLoop_mapNonFinals_eq_none (accounted : pool.Accounted) (rounds nEvicted : ℕ)
    (exceeds : ¬(pool.mapNonFinals.entries.length ≤ nMaxItems ∧ pool.mapNonFinals.bytes ≤ nMaxBytes)) :
    limitLoop random nMaxItems nMaxBytes mapNonFinals rounds pool nEvicted = none := by
  induction rounds generalizing pool nEvicted with
  | zero => rfl
  | succ rounds ih =>
    have counted := accounted.bytes
    rw [limitLoop, if_pos (by omega)]
    cases chosen : pool.mapNonFinals.evictable (random nEvicted) with
    | none =>
      have nothing := OrphanMap.entries_eq_nil_of_evictable chosen
      rw [OrphanMap.bytes_of_entries_eq_nil nothing, nothing] at exceeds
      exact absurd ⟨Nat.zero_le _, Nat.zero_le _⟩ exceeds
    | some hash => exact ih (accounted.eraseOrphanTx hash) _ (by simpa using exceeds)

theorem limitPoolSize_eq_none (accounted : pool.Accounted) (rounds : ℕ)
    (exceeds : ¬(pool.mapNonFinals.entries.length ≤ nMaxItems ∧ pool.mapNonFinals.bytes ≤ nMaxBytes)) :
    limitPoolSize random nMaxItems nMaxBytes rounds pool = none := by
  rw [limitPoolSize]
  cases first : limitLoop random nMaxItems nMaxBytes mapOrphans rounds pool 0 with
  | none => rfl
  | some result =>
    obtain ⟨kept, same, -⟩ := limitLoop_eq_some accounted first
    rw [← same] at exceeds
    simp [limitLoop_mapNonFinals_eq_none kept rounds _ exceeds]

/-- What `LimitPoolSize` is to establish. -/
structure Limited (nMaxItems nMaxBytes : ℕ) (pool : CTxOrphanPool) : Prop extends Accounted pool where
  orphans : pool.mapOrphans.entries.length ≤ nMaxItems
  nonFinals : pool.mapNonFinals.entries.length ≤ nMaxItems
  poolBytes : pool.nPoolBytes ≤ nMaxBytes

/-- `LimitPoolSize` does what it is for exactly if the transactions that are not final are few and small
enough before the call. -/
theorem limitPoolSize_limited_iff {memoryUsed : CTransaction → ℕ} (random : ℕ → Uint256) (nMaxItems nMaxBytes : ℕ)
    (reachable : Reachable memoryUsed pool) :
    (∃ rounds result, limitPoolSize random nMaxItems nMaxBytes rounds pool = some result ∧
      Limited nMaxItems nMaxBytes result.1) ↔
      pool.mapNonFinals.entries.length ≤ nMaxItems ∧ pool.mapNonFinals.bytes ≤ nMaxBytes := by
  constructor
  · rintro ⟨rounds, result, returned, -⟩
    by_contra exceeds
    rw [limitPoolSize_eq_none reachable.accounted rounds exceeds] at returned
    cases returned
  · rintro ⟨items, bytes⟩
    obtain ⟨⟨limited, nEvicted⟩, first⟩ : ∃ result, limitLoop random nMaxItems nMaxBytes mapOrphans
        (pool.mapOrphans.entries.length + 1) pool 0 = some result :=
      limitLoop_mapOrphans_returns 0 (Nat.lt_succ_self _)
    obtain ⟨kept, same, stop⟩ := limitLoop_eq_some reachable.accounted first
    rw [← same] at items bytes
    have within : limited.mapOrphans.entries.length ≤ nMaxItems ∧ limited.nPoolBytes ≤ nMaxBytes := by
      rcases stop with within | nothing
      · exact within
      · have counted : limited.nPoolBytes = limited.mapOrphans.bytes + limited.mapNonFinals.bytes := kept.bytes
        rw [OrphanMap.bytes_of_entries_eq_nil nothing, zero_add] at counted
        rw [nothing, counted]
        exact ⟨Nat.zero_le _, bytes⟩
    have second : limitLoop random nMaxItems nMaxBytes mapNonFinals (pool.mapOrphans.entries.length + 1) limited
        nEvicted = some (limited, nEvicted) := by
      rw [limitLoop, if_neg (by omega)]
    refine ⟨pool.mapOrphans.entries.length + 1, (limited, UInt32.ofNat nEvicted), ?_, kept, within.1, items, within.2⟩
    simp [limitPoolSize, first, second]

def waitingTx : CTransaction := { vin := [{ prevout := ⟨7⟩ }], vout := [], nLockTime := 100 }

/-- A pool that holds one orphan. -/
def orphanSample : CTxOrphanPool := (({} : CTxOrphanPool).addOrphanTx (fun _ => 300) 0 waitingTx).1

/-- A pool that holds one transaction that is not final. -/
def nonFinalSample : CTxOrphanPool := (({} : CTxOrphanPool).addNonFinalTx (fun _ => 300) 0 waitingTx).1

theorem waitingTx_getTxSize : ¬maxStandardTxSize < waitingTx.getTxSize := by decide

theorem limitPoolSize_limited_sample : orphanSample.mapOrphans.entries.length = 1 ∧ ∃ rounds result,
      limitPoolSize (fun _ => 0) 0 100 rounds orphanSample = some result ∧ Limited 0 100 result.1 := by
  have reachable : Reachable (fun _ => 300) orphanSample := .addOrphanTx 0 waitingTx (.initial 0)
  have added : orphanSample.mapOrphans.entries.length = 1 ∧ orphanSample.mapNonFinals = ∅ := by
    simp [orphanSample, addOrphanTx, checkEmpty, waitingTx_getTxSize]
  refine ⟨added.1, (limitPoolSize_limited_iff (fun _ => 0) 0 100 reachable).mpr ?_⟩
  exact ⟨Nat.le_refl _, Nat.zero_le _⟩

theorem limitPoolSize_spins : Reachable (fun _ => 300) nonFinalSample ∧
      ∀ (random : ℕ → Uint256) (rounds : ℕ), limitPoolSize random 0 1000000 rounds nonFinalSample = none := by
  have reachable : Reachable (fun _ => 300) nonFinalSample := .addNonFinalTx 0 waitingTx (.initial 0)
  have added : nonFinalSample.mapNonFinals.entries.length = 1 := by
    simp [nonFinalSample, addNonFinalTx, checkEmpty, waitingTx_getTxSize]
  refine ⟨reachable, fun random rounds => limitPoolSize_eq_none reachable.accounted rounds ?_⟩
  omega

end CTxOrphanPool

end Nexa
