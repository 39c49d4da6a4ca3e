import Nexa.Model.Coins.BatchWrite
import Nexa.ToMathlib.FullChunks

/-! # Crashes during a flush

The best block is written after the loop but before the batch that the loop leaves. So a crash between the two
leaves a database that names the new best block without the last changes, unless the changes fill their
batches exactly or no block is named.
-/

namespace Nexa.CCoinsViewDB

open DBWrite List

variable {coinSize : Coin → ℕ} {batch_size : ℕ} {db : CCoinsViewDB}

/-! ## The batches and the database -/

variable (entries : List (Σ _ : COutPoint, CCoinsCacheEntry))

/-- The operations for the dirty entries. -/
def coinChanges : List DBWrite := entries.filterMap fun it => if it.2.dirty then some (coinChange it.1 it.2) else none

theorem coinChanges_cons (it : Σ _ : COutPoint, CCoinsCacheEntry) (rest : List (Σ _ : COutPoint, CCoinsCacheEntry)) :
    coinChanges (it :: rest) = if it.2.dirty then coinChange it.1 it.2 :: coinChanges rest else coinChanges rest := by
  rw [coinChanges, filterMap_cons]
  split_ifs <;> rfl

theorem isCoinChange_coinChange (outpoint : COutPoint) (entry : CCoinsCacheEntry) :
    (coinChange outpoint entry).isCoinChange = true := by
  rw [coinChange]
  split_ifs <;> rfl

theorem flatten_fillBatches (batch : CDBBatch) :
    (fillBatches coinSize batch_size entries batch).1.flatten ++ (fillBatches coinSize batch_size entries batch).2 =
      batch ++ coinChanges entries := by
  fun_induction fillBatches coinSize batch_size entries batch with
  | case1 batch => simp [coinChanges]
  | case2 batch outpoint entry rest clean ih =>
    rw [ih, coinChanges_cons, if_neg (by simpa using clean)]
  | case3 batch outpoint entry rest dirty batch' full committed left more ih =>
    rw [more] at ih
    rw [flatten_cons, append_assoc, ih, coinChanges_cons, if_pos (by simpa using dirty)]
    simp [batch']
  | case4 batch outpoint entry rest dirty batch' light ih =>
    rw [ih, coinChanges_cons, if_pos (by simpa using dirty)]
    simp [batch']

theorem fillBatches_left_eq_nil_iff (batch : CDBBatch) (light : CDBBatch.sizeEstimate coinSize batch ≤ batch_size) :
    (fillBatches coinSize batch_size entries batch).2 = [] ↔
      FullChunks (DBWrite.sizeEstimate coinSize) batch_size (batch ++ coinChanges entries) := by
  fun_induction fillBatches coinSize batch_size entries batch with
  | case1 batch =>
    rw [coinChanges, filterMap_nil, append_nil]
    exact (fullChunks_iff_eq_nil light).symm
  | case2 batch outpoint entry rest clean ih =>
    rw [ih light, coinChanges_cons, if_neg (by simpa using clean)]
  | case3 batch outpoint entry rest dirty batch' full committed left more ih =>
    rw [more] at ih
    rw [ih (Nat.zero_le _), coinChanges_cons, if_pos (by simpa using dirty)]
    exact (PassesWith.fullChunks_iff ⟨light, full⟩).symm
  | case4 batch outpoint entry rest dirty batch' within ih =>
    rw [ih (not_lt.mp within), coinChanges_cons, if_pos (by simpa using dirty)]
    simp [batch']

theorem writeBatches_eq_foldl (batches : List CDBBatch) :
    db.writeBatches batches = batches.flatten.foldl commit db := by
  rw [foldl_flatten]
  rfl

theorem foldl_commit_coinChanges (evicts : Bool) (entries : List (Σ _ : COutPoint, CCoinsCacheEntry))
    (db : CCoinsViewDB) (mapCoins : CCoinsMap) (usage : UInt64) :
    (coinChanges entries).foldl commit db =
      { db with coins := (writeEntries evicts entries db.coins mapCoins usage).1 } := by
  induction entries generalizing db mapCoins usage with
  | nil => rfl
  | cons it rest ih =>
    obtain ⟨outpoint, entry⟩ := it
    rw [coinChanges_cons, writeEntries]
    cases dirty : entry.dirty with
    | false => exact ih db mapCoins usage
    | true =>
      rw [if_pos rfl, if_neg (by simp), coinChange]
      split_ifs with spent evicted
      · exact ih _ _ _
      · exact ih _ _ _
      · exact ih _ _ _

variable {ops : List DBWrite}

theorem foldl_commit_bestBlock (changes : ∀ op ∈ ops, op.isCoinChange = true)
    (hashBlock : Uint256) (db : CCoinsViewDB) :
    ops.foldl commit (db.commit (.bestBlock hashBlock)) = (ops.foldl commit db).commit (.bestBlock hashBlock) := by
  induction ops generalizing db with
  | nil => rfl
  | cons op rest ih =>
    rw [forall_mem_cons] at changes
    rw [foldl_cons, foldl_cons, ← ih changes.2]
    cases op with
    | write outpoint coin => rfl
    | erase outpoint => rfl
    | bestBlock hash => exact absurd changes.1 (by simp [isCoinChange])

section

variable (coinSize : Coin → ℕ) (batch_size : ℕ) (mapCoins : CCoinsMap) (hashBlock : Uint256)

theorem isCoinChange_of_mem_fillBatches {op : DBWrite}
    (member : op ∈ (fillBatches coinSize batch_size mapCoins.entries []).1.flatten ∨
      op ∈ (fillBatches coinSize batch_size mapCoins.entries []).2) : op.isCoinChange = true := by
  rw [← mem_append, flatten_fillBatches] at member
  obtain ⟨it, -, found⟩ := mem_filterMap.mp member
  split_ifs at found
  cases found
  exact isCoinChange_coinChange _ _

/-- All batches together make the database that the model of `BatchWrite` returns. -/
theorem writeBatches_batches (nBestCoinHeight usage : UInt64) :
    db.writeBatches (batches coinSize batch_size mapCoins hashBlock) =
      (BackingView.batchWrite db mapCoins hashBlock nBestCoinHeight usage).1 := by
  have committed := @foldl_commit_coinChanges db.evicts mapCoins.entries db mapCoins usage
  have whole := @flatten_fillBatches coinSize batch_size mapCoins.entries []
  rw [nil_append] at whole
  rw [writeBatches_eq_foldl, batches]
  rw [flatten_append, flatten_append, foldl_append, foldl_append]
  change _ = { db with
    coins := (writeEntries db.evicts mapCoins.entries db.coins mapCoins usage).1
    bestBlock := if hashBlock = 0 then db.bestBlock else hashBlock }
  split_ifs with unnamed
  · rw [← committed, ← whole]
    simp
  · have changes (op : DBWrite) (member : op ∈ (fillBatches coinSize batch_size mapCoins.entries []).2) :=
      isCoinChange_of_mem_fillBatches coinSize batch_size mapCoins (Or.inr member)
    simp only [flatten_cons, flatten_nil, append_nil, foldl_cons, foldl_nil]
    rw [foldl_commit_bestBlock changes, ← foldl_append, whole, committed]
    rfl

end

/-! ## Crashes -/

/-- A batch that names the best block is followed by no change of a coin. -/
def NamedLast (batches : List CDBBatch) : Prop := batches.Pairwise fun earlier later =>
    (∃ hashBlock, DBWrite.bestBlock hashBlock ∈ earlier) → ∀ op ∈ later, op.isCoinChange = false

/-- A database that names a new best block after a crash has all its coins. -/
def CrashSafe (batches : List CDBBatch) (hashBlock : Uint256) : Prop :=
  ∀ db : CCoinsViewDB, db.bestBlock ≠ hashBlock → ∀ done, (db.writeBatches (batches.take done)).bestBlock = hashBlock →
      (db.writeBatches (batches.take done)).coins = (db.writeBatches batches).coins

theorem bestBlock_foldl_commit (changes : ∀ hashBlock, DBWrite.bestBlock hashBlock ∉ ops)
    (db : CCoinsViewDB) : (ops.foldl commit db).bestBlock = db.bestBlock := by
  induction ops generalizing db with
  | nil => rfl
  | cons op rest ih =>
    rw [foldl_cons, ih fun hashBlock later => changes hashBlock (mem_cons_of_mem _ later)]
    cases op with
    | write outpoint coin => rfl
    | erase outpoint => rfl
    | bestBlock hash => exact absurd mem_cons_self (changes hash)

theorem coins_foldl_commit (names : ∀ op ∈ ops, op.isCoinChange = false) (db : CCoinsViewDB) :
    (ops.foldl commit db).coins = db.coins := by
  induction ops generalizing db with
  | nil => rfl
  | cons op rest ih =>
    rw [forall_mem_cons] at names
    rw [foldl_cons, ih names.2]
    cases op with
    | write outpoint coin | erase outpoint => exact absurd names.1 (by simp [isCoinChange])
    | bestBlock hash => rfl

theorem NamedLast.crashSafe {batches : List CDBBatch} (last : NamedLast batches) (hashBlock : Uint256) :
    CrashSafe batches hashBlock := by
  intro db old done named
  have split := take_append_drop done batches
  rw [NamedLast, ← split, pairwise_append] at last
  have rest : db.writeBatches batches =
      (batches.drop done).flatten.foldl commit (db.writeBatches (batches.take done)) := by
    rw [writeBatches_eq_foldl, writeBatches_eq_foldl, ← foldl_append, ← flatten_append, split]
  rw [rest]
  symm
  apply coins_foldl_commit
  -- the best block can only have become the new one through a batch before the crash
  have names : ∃ hash, DBWrite.bestBlock hash ∈ (batches.take done).flatten := by
    by_contra! none
    rw [writeBatches_eq_foldl, bestBlock_foldl_commit none] at named
    exact old named
  obtain ⟨hash, member⟩ := names
  obtain ⟨earlier, before, naming⟩ := mem_flatten.mp member
  intro op later
  obtain ⟨batch, after, listed⟩ := mem_flatten.mp later
  exact last.2.2 earlier before batch after ⟨hash, naming⟩ op listed

/-- The best block is named last, and a crash never leaves it named without its coins, exactly if no block is
named or the changes of coins are cut into full batches. -/
theorem batches_namedLast_iff (coinSize : Coin → ℕ) (batch_size : ℕ) (mapCoins : CCoinsMap) (hashBlock : Uint256) :
    NamedLast (batches coinSize batch_size mapCoins hashBlock) ∧
      CrashSafe (batches coinSize batch_size mapCoins hashBlock) hashBlock ↔
    hashBlock = 0 ∨ List.FullChunks (DBWrite.sizeEstimate coinSize) batch_size (coinChanges mapCoins.entries) := by
  have full := @fillBatches_left_eq_nil_iff coinSize batch_size mapCoins.entries [] (Nat.zero_le _)
  rw [nil_append] at full
  rw [← full]
  refine Iff.trans ⟨And.left, fun last => ⟨last, last.crashSafe hashBlock⟩⟩ ?_
  have changes (op : DBWrite) := @isCoinChange_of_mem_fillBatches coinSize batch_size mapCoins op
  rw [batches]
  set committed := (fillBatches coinSize batch_size mapCoins.entries []).1
  set left := (fillBatches coinSize batch_size mapCoins.entries []).2
  have unnamed (batch : CDBBatch) (member : batch ∈ committed) (hash : Uint256) : DBWrite.bestBlock hash ∉ batch := by
    intro listed
    have change := changes _ (Or.inl (mem_flatten_of_mem member listed))
    simp [isCoinChange] at change
  -- only the batch with the best block and the one that is left can be in the wrong order
  have onlyLast (naming : List CDBBatch) :
      NamedLast (committed ++ naming ++ [left]) ↔ NamedLast (naming ++ [left]) := by
    rw [NamedLast, append_assoc, pairwise_append]
    constructor
    · exact fun ordered => ordered.2.1
    · intro ordered
      refine ⟨?_, ordered, ?_⟩
      · apply pairwise_of_forall_mem_list
        rintro earlier before later - ⟨hash, named⟩
        exact absurd named (unnamed earlier before hash)
      · rintro earlier before later - ⟨hash, named⟩
        exact absurd named (unnamed earlier before hash)
  rw [onlyLast]
  split_ifs with none
  · simp [none, NamedLast]
  · constructor
    · intro ordered
      right
      apply eq_nil_iff_forall_not_mem.mpr
      intro op member
      have unchanged := rel_of_pairwise_cons ordered (mem_singleton_self left)
        ⟨hashBlock, mem_singleton_self _⟩ op member
      rw [changes op (Or.inr member)] at unchanged
      cases unchanged
    · rintro (zero | empty)
      · exact absurd zero none
      · rw [empty]
        simp [NamedLast]

def sampleCoin : Coin := ⟨⟨0, 1000, [0x51]⟩, false, 1⟩

def sampleCoins : CCoinsMap := AList.insert ⟨7⟩ ⟨sampleCoin, true, true⟩ ∅

/-- A crash after the first of two batches leaves the new best block without its coin. -/
theorem crash_leaves_coin_missing :
    batches (fun _ => 40) nMaxDBBatchSize sampleCoins 1 = [[.bestBlock 1], [.write ⟨7⟩ sampleCoin]] ∧
    (({} : CCoinsViewDB).writeBatches ((batches (fun _ => 40) nMaxDBBatchSize sampleCoins 1).take 1)).bestBlock = 1 ∧
    (({} : CCoinsViewDB).writeBatches
      ((batches (fun _ => 40) nMaxDBBatchSize sampleCoins 1).take 1)).coins.lookup ⟨7⟩ = none := by
  decide

end Nexa.CCoinsViewDB
