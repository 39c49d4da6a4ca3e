import Nexa.Model.Tailstorm.SummaryDag
import Nexa.ToMathlib.InTurn

/-! # The excluded transactions of a dag

The transactions that `GetTxnExclusionSet` lets pass are the largest set that can be put in turn under
its own rule: an input that is created in the dag needs the first transaction that creates it, even if
the coins at the root of the dag have it. The set that only asks for coins or for any earlier output
is larger in general.
-/

namespace Nexa

open CTransaction List AList

/-- The outpoints of the outputs. -/
def CTransaction.outpoints (tx : CTransaction) : List COutPoint := (range tx.vout.length).map tx.outpointAt

/-! ## The walk over the dag -/

/-- One more transaction in dag order. Coinbases and transactions that are listed already are left out. -/
def appendTxn (txs : List CTransaction) (tx : CTransaction) : List CTransaction :=
  if tx.isCoinBase ∨ tx.getId ∈ txs.map getId then txs else txs ++ [tx]

variable (nodes : List (Option DagNode))

/-- The transactions of the dag, in dag order and each at its first place. -/
def dagTransactions : List CTransaction := (nodes.flatMap dagTxns).foldl appendTxn []

/-- The transaction consumes no outpoint twice and none that those before it consume. -/
def SpendsFirst (before : List CTransaction) (tx : CTransaction) : Prop :=
  (consumedBy tx.vin).Nodup ∧ ∀ outpoint ∈ consumedBy tx.vin, ∀ earlier ∈ before, outpoint ∉ consumedBy earlier.vin

/-- `TxnScan` after the transactions `txs`. -/
structure Scanned (scan : TxnScan) (txs : List CTransaction) : Prop where
  nodup : (txs.map getId).Nodup
  order : scan.order = txs.map getId
  mem_mapTx : ∀ txid, txid ∈ scan.mapTx ↔ txid ∈ txs.map getId
  lookup_mapTx : ∀ tx ∈ txs, scan.mapTx.lookup tx.getId = some tx
  createdBy : ∀ outpoint, scan.createdBy.lookup outpoint = (txs.find? fun tx => outpoint ∈ tx.outpoints).map getId
  spentBy : ∀ outpoint, outpoint ∈ scan.spentBy ↔ ∃ tx ∈ txs, outpoint ∈ consumedBy tx.vin
  losers : ∀ txid, txid ∈ scan.losers ↔
    ∃ before tx after, txs = before ++ tx :: after ∧ tx.getId = txid ∧ ¬ SpendsFirst before tx

theorem TxnScan.foldl_create (txid : Uint256) (outpoints : List COutPoint) (scan : TxnScan) :
    ∃ createdBy : AList fun _ : COutPoint => Uint256, (∀ outpoint, createdBy.lookup outpoint =
        (scan.createdBy.lookup outpoint).or (if outpoint ∈ outpoints then some txid else none)) ∧
      outpoints.foldl (create txid) scan = { scan with createdBy } := by
  induction outpoints generalizing scan with
  | nil => exact ⟨scan.createdBy, by simp, rfl⟩
  | cons first rest ih =>
    rw [foldl_cons, create]
    split_ifs with known
    · obtain ⟨createdBy, lookup, result⟩ := ih scan
      refine ⟨createdBy, fun outpoint => ?_, result⟩
      rw [lookup]
      by_cases same : outpoint = first
      · obtain ⟨creator, found⟩ := Option.isSome_iff_exists.mp (lookup_isSome.mpr (same ▸ known))
        rw [found, Option.some_or, Option.some_or]
      · simp [same]
    · obtain ⟨createdBy, lookup, result⟩ := ih { scan with createdBy := scan.createdBy.insert first txid }
      refine ⟨createdBy, fun outpoint => ?_, result⟩
      rw [lookup]
      by_cases same : outpoint = first
      · subst same
        simp [lookup_eq_none.mpr known]
      · simp [same]

theorem TxnScan.foldl_spend (txid : Uint256) (vin : List CTxIn) (scan : TxnScan) :
    ∃ (spentBy : AList fun _ : COutPoint => Uint256) (losers : Finset Uint256),
      (∀ outpoint, outpoint ∈ spentBy ↔ outpoint ∈ scan.spentBy ∨ outpoint ∈ consumedBy vin) ∧
      (∀ other, other ∈ losers ↔ other ∈ scan.losers ∨ txid = other ∧
        ¬ ((consumedBy vin).Nodup ∧ ∀ outpoint ∈ consumedBy vin, outpoint ∉ scan.spentBy)) ∧
      vin.foldl (spend txid) scan = { scan with spentBy, losers } := by
  induction vin generalizing scan with
  | nil => exact ⟨scan.spentBy, scan.losers, by simp [consumedBy], by simp [consumedBy], rfl⟩
  | cons input rest ih =>
    rw [foldl_cons, consumedBy_cons, spend]
    by_cases readOnly : input.isReadOnly
    · simp only [if_pos readOnly]
      exact ih scan
    · simp only [if_neg readOnly, mem_cons]
      by_cases spent : input.prevout ∈ scan.spentBy
      · rw [if_pos spent]
        obtain ⟨spentBy, losers, mem_spentBy, mem_losers, result⟩ := ih { scan with losers := insert txid scan.losers }
        refine ⟨spentBy, losers, fun outpoint => ?_, fun other => ?_, result⟩
        · grind
        · rw [mem_losers, Finset.mem_insert]
          tauto
      · rw [if_neg spent]
        obtain ⟨spentBy, losers, mem_spentBy, mem_losers, result⟩ :=
          ih { scan with spentBy := scan.spentBy.insert input.prevout txid }
        refine ⟨spentBy, losers, fun outpoint => ?_, fun other => ?_, result⟩
        · rw [mem_spentBy, mem_insert]
          tauto
        · rw [mem_losers]
          simp only [mem_insert]
          grind

theorem exists_place_concat {α : Type*} {p : List α → α → Prop} (list : List α) (last : α) :
    (∃ before a after, list ++ [last] = before ++ a :: after ∧ p before a) ↔
      (∃ before a after, list = before ++ a :: after ∧ p before a) ∨ p list last := by
  constructor
  · rintro ⟨before, a, after, same, holds⟩
    rcases after.eq_nil_or_concat with rfl | ⟨after, b, rfl⟩
    · obtain ⟨rfl, ⟨⟩⟩ := append_inj' same rfl
      exact .inr holds
    · rw [concat_eq_append, ← cons_append, ← append_assoc] at same
      exact .inl ⟨before, a, after, (append_inj' same rfl).1, holds⟩
  · rintro (⟨before, a, after, rfl, holds⟩ | holds)
    · exact ⟨before, a, after ++ [last], by simp, holds⟩
    · exact ⟨list, last, [], rfl, holds⟩

variable {scan : TxnScan} {txs : List CTransaction}

theorem Scanned.concat (scanned : Scanned scan txs) {tx : CTransaction} (fresh : tx.getId ∉ txs.map getId) :
    Scanned (tx.vin.foldl (TxnScan.spend tx.getId) (tx.outpoints.foldl (TxnScan.create tx.getId)
      { scan with mapTx := scan.mapTx.insert tx.getId tx, order := scan.order ++ [tx.getId] })) (txs ++ [tx]) := by
  obtain ⟨createdBy, lookup_createdBy, created⟩ := TxnScan.foldl_create tx.getId tx.outpoints
    { scan with mapTx := scan.mapTx.insert tx.getId tx, order := scan.order ++ [tx.getId] }
  rw [created]
  obtain ⟨spentBy, losers, mem_spentBy, mem_losers, spent⟩ := TxnScan.foldl_spend tx.getId tx.vin
    { scan with mapTx := scan.mapTx.insert tx.getId tx, order := scan.order ++ [tx.getId], createdBy }
  rw [spent]
  constructor
  · rw [map_append]
    exact nodup_append.mpr ⟨scanned.nodup, nodup_singleton _, fun a listed b last same =>
      fresh (mem_singleton.mp last ▸ same ▸ listed)⟩
  · rw [map_append, map_singleton, ← scanned.order]
  · intro txid
    rw [mem_insert, scanned.mem_mapTx, map_append, map_singleton, mem_append, mem_singleton, or_comm]
  · rw [forall_mem_append, forall_mem_singleton]
    refine ⟨fun other listed => ?_, lookup_insert _⟩
    have different : other.getId ≠ tx.getId := fun same => fresh (same ▸ mem_map_of_mem listed)
    rw [lookup_insert_ne different, scanned.lookup_mapTx other listed]
  · intro outpoint
    rw [lookup_createdBy, scanned.createdBy]
    by_cases creates : outpoint ∈ tx.outpoints
    · simp [creates]
    · simp [creates]
  · intro outpoint
    rw [mem_spentBy, scanned.spentBy]
    simp
  · intro txid
    have unspent : SpendsFirst txs tx ↔
        (consumedBy tx.vin).Nodup ∧ ∀ outpoint ∈ consumedBy tx.vin, outpoint ∉ scan.spentBy := by
      simp [SpendsFirst, scanned.spentBy]
    rw [mem_losers, scanned.losers, exists_place_concat, unspent]

theorem Scanned.add (scanned : Scanned scan txs) (tx : CTransaction) : Scanned (scan.add tx) (appendTxn txs tx) := by
  by_cases skipped : tx.isCoinBase ∨ tx.getId ∈ txs.map getId
  · rw [TxnScan.add, appendTxn, if_pos skipped, if_pos (skipped.imp_right (scanned.mem_mapTx _).mpr)]
    exact scanned
  · rw [TxnScan.add, appendTxn, if_neg skipped, if_neg (mt (Or.imp_right (scanned.mem_mapTx _).mp) skipped)]
    exact scanned.concat fun listed => skipped (.inr listed)

theorem Scanned.foldl (scanned : Scanned scan txs) (more : List CTransaction) :
    Scanned (more.foldl TxnScan.add scan) (more.foldl appendTxn txs) := by
  induction more generalizing scan txs with
  | nil => exact scanned
  | cons tx more ih => exact ih (scanned.add tx)

theorem scanned_dagTransactions : Scanned (TxnScan.ofNodes nodes) (dagTransactions nodes) := by
  have nothing : Scanned {} [] := ⟨by simp, rfl, by simp, by simp, by simp, by simp, by simp⟩
  exact nothing.foldl _

/-! ## The rule of the code -/

section

variable (coins : COutPoint → Option Coin) (txs : List CTransaction)

/-- The transaction is the first to spend what it consumes, and each of its inputs comes from the first
transaction of the dag that creates it or, if there is none, from the coins. -/
structure Passes (earlier : Set CTransaction) (tx : CTransaction) : Prop where
  spendsFirst : ∃ before after, txs = before ++ tx :: after ∧ SpendsFirst before tx
  created : ∀ input ∈ tx.vin, ∀ creator, (txs.find? fun tx => input.prevout ∈ tx.outpoints) = some creator →
    creator ∈ earlier
  unspent : ∀ input ∈ tx.vin, (txs.find? fun tx => input.prevout ∈ tx.outpoints) = none → isUnspent coins input.prevout

/-- The transactions whose ids are included. -/
def passing (included : Finset Uint256) : Set CTransaction := {tx | tx ∈ txs ∧ tx.getId ∈ included}

/-- The included transactions came in one after the other. -/
structure Passing (included : Finset Uint256) : Prop where
  subset : ∀ txid ∈ included, txid ∈ txs.map getId
  turn : (passing txs included).InTurn (Passes coins txs)

variable {coins txs} {included : Finset Uint256}

variable {earlier : Set CTransaction} {tx : CTransaction} {rounds : ℕ} {result : Finset Uint256}

theorem Passes.mono {later : Set CTransaction} (grown : earlier ⊆ later) (passes : Passes coins txs earlier tx) :
    Passes coins txs later tx :=
  ⟨passes.spendsFirst, fun input listed creator found => grown (passes.created input listed creator found),
    passes.unspent⟩

theorem Passes.mem (passes : Passes coins txs earlier tx) : tx ∈ txs := by
  obtain ⟨before, after, rfl, -⟩ := passes.spendsFirst
  exact mem_append_right _ mem_cons_self

theorem Passing.insert (nodup : (txs.map getId).Nodup) (all : Passing coins txs included)
    (passes : Passes coins txs (passing txs included) tx) : Passing coins txs (insert tx.getId included) := by
  refine ⟨Finset.forall_mem_insert _ _ _ |>.mpr ⟨mem_map_of_mem passes.mem, all.subset⟩, ?_⟩
  obtain ⟨order, turn, same⟩ := all.turn
  refine ⟨order ++ [tx], .concat turn (same ▸ passes), ?_⟩
  ext other
  have known : other ∈ passing txs included ↔ other ∈ order := by
    rw [same]
    rfl
  rw [passing, Set.mem_ofPred_eq, Finset.mem_insert, and_or_left, Set.mem_ofPred_eq, mem_append,
    mem_singleton, ← known, or_comm]
  refine or_congr Iff.rfl ⟨fun both => inj_on_of_nodup_map nodup both.1 passes.mem both.2, ?_⟩
  rintro rfl
  exact ⟨passes.mem, rfl⟩

theorem Passing.eq_of_passing_eq {other : Finset Uint256} (all : Passing coins txs included)
    (allOther : Passing coins txs other) (same : passing txs included = passing txs other) : included = other := by
  have transfer : ∀ {some more : Finset Uint256}, Passing coins txs some → passing txs some = passing txs more →
      some ⊆ more := by
    intro some more all same txid member
    obtain ⟨tx, listed, rfl⟩ := mem_map.mp (all.subset txid member)
    have passes : tx ∈ passing txs more := same ▸ ⟨listed, member⟩
    exact passes.2
  exact (transfer all same).antisymm (transfer allOther same.symm)

theorem place_unique (nodup : (txs.map getId).Nodup) {before before' after after' : List CTransaction}
    {tx' : CTransaction} (place : txs = before ++ tx :: after) (place' : txs = before' ++ tx' :: after')
    (same : tx.getId = tx'.getId) : before = before' ∧ tx = tx' := by
  have listed : tx ∈ txs := place ▸ mem_append_right _ mem_cons_self
  have listed' : tx' ∈ txs := place' ▸ mem_append_right _ mem_cons_self
  obtain rfl := inj_on_of_nodup_map nodup listed listed' same
  have distinct := nodup.of_map
  rw [place, nodup_append, nodup_cons] at distinct
  have absent : tx ∉ before := fun again => distinct.2.2 tx again tx mem_cons_self rfl
  exact ⟨((append_cons_inj_of_notMem absent distinct.2.1.1).mp (place ▸ place')).1, rfl⟩

section

variable (scanned : Scanned scan txs)

include scanned

theorem Scanned.notMem_losers_iff (listed : tx ∈ txs) :
    tx.getId ∉ scan.losers ↔ ∃ before after, txs = before ++ tx :: after ∧ SpendsFirst before tx := by
  rw [scanned.losers]
  constructor
  · intro notLoser
    obtain ⟨before, after, place⟩ := append_of_mem listed
    refine ⟨before, after, place, ?_⟩
    by_contra late
    exact notLoser ⟨before, tx, after, place, rfl, late⟩
  · rintro ⟨before, after, place, first⟩ ⟨before', tx', after', place', same, late⟩
    obtain ⟨rfl, rfl⟩ := place_unique scanned.nodup place' place same
    exact late first

theorem Scanned.passes_iff (listed : tx ∈ txs) :
    Passes coins txs (passing txs included) tx ↔ tx.getId ∉ scan.losers ∧ sourced scan (some coins) included tx := by
  rw [scanned.notMem_losers_iff listed, sourced, all_eq_true]
  constructor
  · rintro ⟨first, created, unspent⟩
    refine ⟨first, fun input used => ?_⟩
    rw [scanned.createdBy]
    cases found : txs.find? fun tx => input.prevout ∈ tx.outpoints with
    | none => simpa using unspent input used found
    | some creator => simpa using (created input used creator found).2
  · rintro ⟨first, inputs⟩
    simp only [scanned.createdBy] at inputs
    refine ⟨first, fun input used creator found => ?_, fun input used found => ?_⟩
    · exact ⟨mem_of_find?_eq_some found, by simpa [found] using inputs input used⟩
    · simpa [found] using inputs input used

theorem Scanned.sourceStep_eq (listed : tx ∈ txs) (changed : Bool) :
    sourceStep scan (some coins) (included, changed) tx.getId = (included, changed) ∧
        (Passes coins txs (passing txs included) tx → tx.getId ∈ included) ∨
      sourceStep scan (some coins) (included, changed) tx.getId = (insert tx.getId included, true) ∧
        tx.getId ∉ included ∧ Passes coins txs (passing txs included) tx := by
  rw [scanned.passes_iff listed, sourceStep, scanned.lookup_mapTx tx listed]
  by_cases skipped : tx.getId ∈ scan.losers ∨ tx.getId ∈ included
  · rw [if_pos skipped]
    exact .inl ⟨rfl, fun passes => skipped.resolve_left passes.1⟩
  · rw [if_neg skipped]
    rw [not_or] at skipped
    by_cases ready : sourced scan (some coins) included tx
    · exact .inr ⟨if_pos ready, skipped.2, skipped.1, ready⟩
    · exact .inl ⟨if_neg ready, fun passes => absurd passes.2 ready⟩

section

variable (all : Passing coins txs included)

include all

theorem Scanned.foldl_sourceStep {rest : List CTransaction} (listed : ∀ tx ∈ rest, tx ∈ txs) (changed : Bool) :
    ∃ next, Passing coins txs next ∧
      ((rest.map getId).foldl (sourceStep scan (some coins)) (included, changed) = (next, changed) ∧
          next = included ∧ (∀ tx ∈ rest, Passes coins txs (passing txs included) tx → tx.getId ∈ included) ∨
        (rest.map getId).foldl (sourceStep scan (some coins)) (included, changed) = (next, true) ∧
          included.card < next.card) := by
  induction rest generalizing included changed with
  | nil => exact ⟨included, all, .inl ⟨rfl, rfl, by simp⟩⟩
  | cons tx rest ih =>
    rw [forall_mem_cons] at listed
    rw [map_cons, foldl_cons]
    rcases scanned.sourceStep_eq listed.1 changed with ⟨step, idle⟩ | ⟨step, new, passes⟩
    · obtain ⟨next, allNext, result⟩ := ih all listed.2 changed
      rw [step]
      refine ⟨next, allNext, result.imp_left fun ⟨result, same, idleRest⟩ => ⟨result, same, ?_⟩⟩
      exact forall_mem_cons.mpr ⟨idle, idleRest⟩
    · obtain ⟨next, allNext, result⟩ := ih (all.insert scanned.nodup passes) listed.2 true
      have grown := Finset.card_insert_of_notMem new
      rw [step]
      refine ⟨next, allNext, .inr ?_⟩
      rcases result with ⟨result, rfl, -⟩ | ⟨result, more⟩
      · exact ⟨result, by omega⟩
      · exact ⟨result, by omega⟩

theorem Scanned.sourceLoop_eq_some (ended : sourceLoop scan (some coins) rounds included = some result) :
    Passing coins txs result ∧ ∀ tx, Passes coins txs (passing txs result) tx → tx ∈ passing txs result := by
  induction rounds generalizing included with
  | zero => cases ended
  | succ rounds ih =>
    rw [sourceLoop, scanned.order] at ended
    obtain ⟨next, allNext, ⟨pass, rfl, idle⟩ | ⟨pass, -⟩⟩ := scanned.foldl_sourceStep all (fun _ => id) false
    · rw [pass] at ended
      cases ended
      exact ⟨all, fun tx passes => ⟨passes.mem, idle tx passes.mem passes⟩⟩
    · rw [pass] at ended
      exact ih allNext ended

theorem Scanned.sourceLoop_isSome (enough : txs.length < rounds + included.card) :
    (sourceLoop scan (some coins) rounds included).isSome := by
  induction rounds generalizing included with
  | zero =>
    have fits : included.card ≤ txs.length := by
      rw [← length_map, ← toFinset_card_of_nodup scanned.nodup]
      exact Finset.card_le_card fun txid member => mem_toFinset.mpr (all.subset txid member)
    omega
  | succ rounds ih =>
    rw [sourceLoop, scanned.order]
    obtain ⟨next, allNext, ⟨pass, -, -⟩ | ⟨pass, more⟩⟩ := scanned.foldl_sourceStep all (fun _ => id) false
    · rw [pass]
      rfl
    · rw [pass]
      exact ih allNext (by omega)

end

theorem Scanned.isGreatest_of_sourceLoop (ended : sourceLoop scan (some coins) rounds ∅ = some result) :
    Passing coins txs result ∧ IsGreatest {s : Set CTransaction | s.InTurn (Passes coins txs)}
      (passing txs result) := by
  have nothing : Passing coins txs ∅ := ⟨by simp, [], .nil, by simp [passing]⟩
  obtain ⟨all, closed⟩ := scanned.sourceLoop_eq_some nothing ended
  exact ⟨all, all.turn.isGreatest Passes.mono closed⟩

end

end

/-- The transactions of the dag that are not excluded. -/
def notExcluded (excluded : Finset Uint256) : Set CTransaction :=
  {tx | tx ∈ dagTransactions nodes ∧ tx.getId ∉ excluded}

variable (coins : COutPoint → Option Coin)

theorem getTxnExclusionSet_isGreatest : ∃ excluded losers, (∀ rounds > (dagTransactions nodes).length,
        getTxnExclusionSet rounds nodes (some coins) = some (excluded, losers)) ∧
      IsGreatest {s : Set CTransaction | s.InTurn (Passes coins (dagTransactions nodes))}
        (notExcluded nodes excluded) := by
  have scanned := scanned_dagTransactions nodes
  have nothing : Passing coins (dagTransactions nodes) ∅ := ⟨by simp, [], .nil, by simp [passing]⟩
  have ends : ∀ rounds > (dagTransactions nodes).length, ∃ result,
      sourceLoop (TxnScan.ofNodes nodes) (some coins) rounds ∅ = some result :=
    fun rounds enough => Option.isSome_iff_exists.mp (scanned.sourceLoop_isSome nothing (by simpa using enough))
  obtain ⟨included, ended⟩ := ends _ (Nat.lt_succ_self _)
  obtain ⟨all, greatest⟩ := scanned.isGreatest_of_sourceLoop ended
  refine ⟨(TxnScan.ofNodes nodes).order.toFinset \ included, (TxnScan.ofNodes nodes).losers,
    fun rounds enough => ?_, ?_⟩
  · obtain ⟨again, endedAgain⟩ := ends rounds enough
    obtain ⟨allAgain, greatestAgain⟩ := scanned.isGreatest_of_sourceLoop endedAgain
    rw [getTxnExclusionSet, endedAgain, allAgain.eq_of_passing_eq all (greatestAgain.unique greatest)]
    rfl
  · have same : notExcluded nodes ((TxnScan.ofNodes nodes).order.toFinset \ included) =
        passing (dagTransactions nodes) included := by
      ext tx
      refine and_congr_right fun listed => ?_
      rw [scanned.order, Finset.mem_sdiff, not_and, not_not, mem_toFinset]
      exact ⟨fun passes => passes (mem_map_of_mem listed), fun member _ => member⟩
    rw [same]
    exact greatest

/-! ## The rule of the dag -/

section

variable (coins : COutPoint → Option Coin) (txs : List CTransaction)

/-- The transaction consumes an outpoint that a transaction before it consumes. -/
def IsLoser (tx : CTransaction) : Prop := ∃ before after, txs = before ++ tx :: after ∧
    ∃ earlier ∈ before, ∃ outpoint ∈ consumedBy tx.vin, outpoint ∈ consumedBy earlier.vin

/-- The transaction is no loser, and each of its inputs is unspent in the coins or created by an earlier transaction. -/
structure Sourced (earlier : Set CTransaction) (tx : CTransaction) : Prop where
  mem : tx ∈ txs
  notLoser : ¬ IsLoser txs tx
  inputs : ∀ input ∈ tx.vin, isUnspent coins input.prevout ∨ ∃ creator ∈ earlier, input.prevout ∈ creator.outpoints

/-- The transaction consumes no outpoint twice, and each of its inputs that is created in the dag comes from the
first transaction that creates it. -/
structure CreatedFirst (earlier : Set CTransaction) (tx : CTransaction) : Prop where
  nodup : (consumedBy tx.vin).Nodup
  created : ∀ input ∈ tx.vin, ∀ creator, (txs.find? fun tx => input.prevout ∈ tx.outpoints) = some creator →
    creator ∈ earlier

variable {coins txs} {earlier later : Set CTransaction} {tx : CTransaction}

theorem Sourced.mono (grown : earlier ⊆ later) (sourced : Sourced coins txs earlier tx) : Sourced coins txs later tx :=
  ⟨sourced.mem, sourced.notLoser, fun input used => (sourced.inputs input used).imp_right
    fun ⟨creator, member, creates⟩ => ⟨creator, grown member, creates⟩⟩

theorem Passes.createdFirst (passes : Passes coins txs earlier tx) : CreatedFirst txs earlier tx := by
  obtain ⟨_, _, -, first⟩ := passes.spendsFirst
  exact ⟨first.1, passes.created⟩

theorem Passes.sourced (nodup : (txs.map getId).Nodup) (passes : Passes coins txs earlier tx) :
    Sourced coins txs earlier tx := by
  refine ⟨passes.mem, ?_, fun input used => ?_⟩
  · rintro ⟨before, after, place, other, inFront, outpoint, consumed, taken⟩
    obtain ⟨before', after', place', first⟩ := passes.spendsFirst
    obtain ⟨rfl, -⟩ := place_unique nodup place place' rfl
    exact first.2 outpoint consumed other inFront taken
  · cases found : txs.find? fun tx => input.prevout ∈ tx.outpoints with
    | none => exact .inl (passes.unspent input used found)
    | some creator =>
      have creates := find?_some found
      exact .inr ⟨creator, passes.created input used creator found, of_decide_eq_true creates⟩

theorem Sourced.passes {s : Set CTransaction} (inside : ∀ tx ∈ s, tx ∈ txs) (sourced : Sourced coins txs s tx)
    (createdFirst : CreatedFirst txs earlier tx) : Passes coins txs earlier tx := by
  refine ⟨?_, createdFirst.created, fun input used unknown => ?_⟩
  · obtain ⟨before, after, place⟩ := append_of_mem sourced.mem
    refine ⟨before, after, place, createdFirst.nodup, fun outpoint consumed other inFront taken => ?_⟩
    exact sourced.notLoser ⟨before, after, place, other, inFront, outpoint, consumed, taken⟩
  · refine (sourced.inputs input used).resolve_right ?_
    rintro ⟨creator, member, creates⟩
    have absent := find?_eq_none.mp unknown creator (inside creator member)
    exact absent (decide_eq_true creates)

end

/-- The walk leaves the largest set of transactions that can be put in turn, no two of them consume the same outpoint,
and no transaction that is no loser is excluded if the coins have all its inputs. -/
structure LeavesLargest (coins : COutPoint → Option Coin) (txs : List CTransaction) (left : Set CTransaction) :
    Prop where
  isGreatest : IsGreatest {s : Set CTransaction | s.InTurn (Sourced coins txs)} left
  disjoint : ∀ tx ∈ left, ∀ other ∈ left, tx ≠ other → ∀ outpoint ∈ consumedBy tx.vin, outpoint ∉ consumedBy other.vin
  complete : ∀ tx ∈ txs, ¬ IsLoser txs tx → (∀ input ∈ tx.vin, isUnspent coins input.prevout) → tx ∈ left

variable {coins : COutPoint → Option Coin} {s : Set CTransaction}

theorem mem_of_inTurn (turn : s.InTurn (Sourced coins txs)) : ∀ tx ∈ s, Sourced coins txs s tx :=
  turn.enabled_of_mem Sourced.mono

theorem disjoint_of_notLoser {tx other : CTransaction} (listed : tx ∈ txs) (otherListed : other ∈ txs)
    (different : tx ≠ other) (notLoser : ¬ IsLoser txs tx) (otherNotLoser : ¬ IsLoser txs other)
    {outpoint : COutPoint} (consumed : outpoint ∈ consumedBy tx.vin) : outpoint ∉ consumedBy other.vin := by
  intro taken
  obtain ⟨before, after, place⟩ := append_of_mem listed
  have split := place ▸ otherListed
  rw [mem_append, mem_cons] at split
  rcases split with inFront | same | behind
  · exact notLoser ⟨before, after, place, other, inFront, outpoint, consumed, taken⟩
  · exact different same.symm
  · obtain ⟨middle, last, rfl⟩ := append_of_mem behind
    refine otherNotLoser ⟨before ++ tx :: middle, last, by simp [place], tx, ?_, outpoint, taken, consumed⟩
    exact mem_append_right _ mem_cons_self

theorem leavesLargest_of_isGreatest (greatest : IsGreatest {s : Set CTransaction | s.InTurn (Sourced coins txs)} s) :
    LeavesLargest coins txs s := by
  refine ⟨greatest, fun tx member other otherMember different outpoint consumed => ?_,
    fun tx listed notLoser unspent => ?_⟩
  · have sourced := mem_of_inTurn greatest.1 tx member
    have otherSourced := mem_of_inTurn greatest.1 other otherMember
    exact disjoint_of_notLoser sourced.mem otherSourced.mem different sourced.notLoser otherSourced.notLoser consumed
  · have alone : ({tx} : Set CTransaction).InTurn (Sourced coins txs) := by
      refine ⟨[tx], .concat .nil ⟨listed, notLoser, fun input used => .inl (unspent input used)⟩, ?_⟩
      simp
    exact greatest.2 alone rfl

/-- `GetTxnExclusionSet` ends. What it leaves is the largest set of transactions that can be put in turn exactly if
this set can be put in turn so that no transaction consumes an outpoint twice and every input that a transaction of
the dag creates comes after the first that creates it. -/
theorem getTxnExclusionSet_leavesLargest_iff : ∃ excluded losers, (∀ rounds > (dagTransactions nodes).length,
        getTxnExclusionSet rounds nodes (some coins) = some (excluded, losers)) ∧
      (LeavesLargest coins (dagTransactions nodes) (notExcluded nodes excluded) ↔
        ∃ s, IsGreatest {s : Set CTransaction | s.InTurn (Sourced coins (dagTransactions nodes))} s ∧
          s.InTurn (CreatedFirst (dagTransactions nodes))) := by
  obtain ⟨excluded, losers, ended, greatest⟩ := getTxnExclusionSet_isGreatest nodes coins
  have nodup := (scanned_dagTransactions nodes).nodup
  refine ⟨excluded, losers, ended, fun leaves => ⟨_, leaves.isGreatest, ?_⟩, ?_⟩
  · obtain ⟨order, turn, same⟩ := greatest.1
    exact ⟨order, turn.imp fun _ _ _ => Passes.createdFirst, same⟩
  · rintro ⟨s, largest, order, turn, same⟩
    have inside : ∀ tx ∈ s, tx ∈ dagTransactions nodes := fun tx member => (mem_of_inTurn largest.1 tx member).mem
    have passes : s.InTurn (Passes coins (dagTransactions nodes)) :=
      ⟨order, turn.imp fun tx listed _ => (mem_of_inTurn largest.1 tx (same ▸ listed)).passes inside, same⟩
    obtain ⟨order, turn, sameLeft⟩ := greatest.1
    have sourced : (notExcluded nodes excluded).InTurn (Sourced coins (dagTransactions nodes)) :=
      ⟨order, turn.imp fun _ _ _ => Passes.sourced nodup, sameLeft⟩
    rw [(largest.2 sourced).antisymm (greatest.2 passes)]
    exact leavesLargest_of_isGreatest largest

def sampleConfirmed : CTransaction where
  vin := [{ prevout := ⟨1⟩, amount := 5 }]
  vout := [{ nValue := 5 }]

def sampleSpender : CTransaction where
  vin := [{ prevout := sampleConfirmed.outpointAt 0, amount := 5 }]
  vout := []

def sampleRootCoins (outpoint : COutPoint) : Option Coin :=
  if outpoint = sampleConfirmed.outpointAt 0 then some { out := { nValue := 5 }, nHeight := 1 } else none

def sampleRepeating : DagNode where
  subblock := some { hash := 2, prevHashes := {1}, vtx := [sampleConfirmed, sampleSpender] }

/-- The spender is excluded with the transaction that cannot be repeated, although the coins have its input. -/
theorem getTxnExclusionSet_excludes_sourced : getTxnExclusionSet 3 [some sampleRepeating] (some sampleRootCoins) =
        some ({sampleConfirmed.getId, sampleSpender.getId}, ∅) ∧
      sampleSpender ∈ dagTransactions [some sampleRepeating] ∧
      ¬ IsLoser (dagTransactions [some sampleRepeating]) sampleSpender ∧
      ∀ input ∈ sampleSpender.vin, isUnspent sampleRootCoins input.prevout := by
  have listed : dagTransactions [some sampleRepeating] = [sampleConfirmed, sampleSpender] := by decide +kernel
  have different : sampleConfirmed.outpointAt 0 ≠ ⟨1⟩ := by decide +kernel
  refine ⟨by decide +kernel, listed ▸ by simp, ?_, by decide +kernel⟩
  rw [listed]
  rintro ⟨before, after, place, earlier, inFront, outpoint, consumed, taken⟩
  have nodup : ([sampleConfirmed, sampleSpender].map getId).Nodup := by decide +kernel
  have second : [sampleConfirmed, sampleSpender] = [sampleConfirmed] ++ sampleSpender :: [] := rfl
  obtain ⟨rfl, -⟩ := place_unique nodup place second rfl
  rw [mem_singleton.mp inFront] at taken
  rw [mem_singleton.mp consumed] at taken
  exact different (mem_singleton.mp taken)

end Nexa
