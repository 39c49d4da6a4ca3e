import Nexa.Proofs.ConnectBlock

/-! # Double spends and the money supply

An accepted block consumes every coin at most once, each of them a coin of the view or one that the
block creates itself, before or after the transaction that spends it. The value of all unspent coins
grows by the subsidy at most.
-/

namespace Nexa

open Validation List

theorem COutPoint.hash_injective : Function.Injective COutPoint.hash := by
  rintro ⟨x⟩ ⟨y⟩ same
  exact congrArg COutPoint.mk same

instance : Finite COutPoint :=
  Finite.of_injective (fun outpoint : COutPoint => outpoint.hash.toFin) fun _ _ same =>
    COutPoint.hash_injective (BitVec.toFin_inj.mp same)

noncomputable instance : Fintype COutPoint := Fintype.ofFinite COutPoint

/-- The value of all unspent coins. -/
noncomputable def totalValue (coins : Utxo) : ℤ := Ledger.total Coin.value coins

/-! ## The value of what a block creates -/

theorem createdFrom_value_le {tx : CTransaction} {height : ℤ} {i : ℕ} {vout : List CTxOut}
    (nonneg : ∀ out ∈ vout, 0 ≤ out.nValue.toInt) :
    ((createdFrom tx height i vout).map fun entry => entry.2.value).sum ≤
      (vout.map fun out => out.nValue.toInt).sum := by
  induction vout generalizing i with
  | nil => exact Int.le_refl _
  | cons out rest ih =>
    rw [forall_mem_cons] at nonneg
    have later := @ih (i + 1) nonneg.2
    rw [createdFrom_cons, map_cons, sum_cons]
    split_ifs with unspendable
    · omega
    · rw [map_cons, sum_cons]
      change out.nValue.toInt + _ ≤ _
      omega

theorem createdCoins_value_le {height : ℤ} {txs : List CTransaction}
    (nonneg : ∀ tx ∈ txs, ∀ out ∈ tx.vout, 0 ≤ out.nValue.toInt) :
    ((txs.flatMap (CTransaction.createdCoins height)).map fun entry => entry.2.value).sum ≤
      (txs.map CTransaction.valueOut).sum := by
  induction txs with
  | nil => exact Int.le_refl _
  | cons tx rest ih =>
    rw [forall_mem_cons] at nonneg
    have first : ((tx.createdCoins height).map fun entry => entry.2.value).sum ≤ tx.valueOut :=
      createdFrom_value_le nonneg.1
    have later := ih nonneg.2
    rw [flatMap_cons, map_append, sum_append, map_cons, sum_cons]
    omega

variable {σ : Type} [BackingView σ] {ctx : ConnectContext} {block : CBlock} {index : CBlockIndex}
  {pprev : BlockIndexRef} {view tip added spent : CCoinsViewCache σ} {nFees : CAmount} {blockundo : CBlockUndo}

theorem Connects.totalValue_le
    (connects : Connects ctx block (index :: pprev) view tip added spent nFees blockundo)
    (coherent : view.Coherent) (fresh : FreshOutputs view.coins block) :
    ∃ subsidy, getBlockSubsidy ctx.params (toInt32 index.height) = .ok subsidy ∧
      totalValue spent.coins ≤ totalValue view.coins + subsidy.toInt := by
  obtain ⟨adds, spends, -⟩ := connects.refines coherent fresh
  obtain ⟨coinbase, rest, txs, first, regular⟩ := connects.coinbaseFirst
  obtain ⟨vChecks, inputs⟩ := connects.inputs
  obtain ⟨setDag, reward⟩ := connects.reward
  simp only [checkCoinbaseReward, txs, bind_eq_ok_iff, rejectIf_eq_ok_iff, CAmount.add_eq_ok_iff] at reward
  obtain ⟨subsidy, computed, _, total, paid, valued, _, covered, -⟩ := reward
  obtain ⟨value, coinbaseNonneg⟩ := getValueOut_eq_ok valued
  refine ⟨subsidy, computed, ?_⟩
  -- the coinbase is passed over when the fees are collected
  rw [txs, checkConsumedInputs, if_pos first] at inputs
  obtain ⟨⟨fees, restChecks⟩, walked, ⟨⟩⟩ := bind_eq_ok_iff.mp inputs
  obtain ⟨collected, nonneg⟩ := checkConsumedInputs_fees adds.coherent regular walked
  have created : (block.createdCoins.map fun entry => entry.2.value).sum ≤
      coinbase.valueOut + (rest.map CTransaction.valueOut).sum := by
    rw [CBlock.createdCoins, txs]
    exact createdCoins_value_le (forall_mem_cons.mpr ⟨coinbaseNonneg, nonneg⟩)
  have outputs : totalValue added.coins =
      totalValue view.coins + (block.createdCoins.map fun entry => entry.2.value).sum := by
    rw [adds.coins]
    exact Ledger.total_addAll Coin.value fresh
  have remaining : totalValue spent.coins =
      totalValue added.coins - (block.consumed.map (Ledger.weightAt Coin.value added.coins)).sum := by
    rw [spends.coins]
    exact Ledger.total_removeAll Coin.value spends.distinct
  rw [← CBlock.consumed_eq_of_coinbase txs first] at collected
  have zero : (0 : CAmount).toInt = 0 := rfl
  omega

/-- Every consumed coin is one of the view or of the block, and is consumed once; the value of all coins
grows by the subsidy of the height at most. -/
theorem connectBlock_conserves_value {pblock : CBlockRef} {after : CCoinsViewCache σ} {fJustCheck : Bool}
    (coherent : view.Coherent) (notGenesis : pblock.block.getHash ≠ ctx.params.hashGenesisBlock)
    (fresh : FreshOutputs view.coins pblock.block)
    (accepted : connectBlock ctx pblock (index :: pprev) view tip fJustCheck = .ok (after, blockundo)) :
    pblock.block.consumed.Nodup ∧
      (∀ outpoint ∈ pblock.block.consumed, (view.coins outpoint).isSome ∨ outpoint ∈ pblock.block.createdOutpoints) ∧
      ∃ subsidy, getBlockSubsidy ctx.params (toInt32 index.height) = .ok subsidy ∧
        totalValue after.coins ≤ totalValue view.coins + subsidy.toInt := by
  obtain ⟨last, earlier, added, spent, nFees, chain, connects, same⟩ := connectBlock_eq_ok notGenesis accepted
  obtain ⟨adds, spends, -⟩ := connects.refines coherent fresh
  have coins : after.coins = spent.coins := by
    rw [same, apply_ite CCoinsViewCache.coins, CCoinsViewCache.coins_setBestBlock, ite_self]
  refine ⟨spends.distinct, ?_, ?_⟩
  · intro outpoint listed
    have present := spends.present outpoint listed
    rw [adds.coins] at present
    exact Ledger.mem_of_addAll_isSome present
  · rw [coins]
    exact connects.totalValue_le coherent fresh

/-! ## A chain of spends against the order of the block -/

def sampleGenesisIndex : CBlockIndex := { header := { size := 1 } }

def sampleConnectContext : ConnectContext where
  crypto := ⟨fun _ _ => none⟩
  params :=
    { powAlgorithm := 0, powLimit := -1, initialSubsidy := 1000, nSubsidyHalvingInterval := 100,
      hashGenesisBlock := sampleGenesisIndex.getHash }
  mapBlockIndex := [sampleGenesisIndex]
  maxSigChecks := 100
  verifyScript _ _ := some 1
  tree := ⟨fun _ => {}, fun _ _ listed => (Finset.notMem_empty _ listed).elim⟩
  dagForBlock _ := crash

def sampleBlockOf (prev : CBlockIndex) (vtx : List CTransaction) (hashMerkleRoot : Uint256) (nonce : Bytes) : CBlock :=
  let block : CBlock :=
    { hashPrevBlock := prev.getHash, nBits := 0x207fffff, hashMerkleRoot, height := prev.header.height + 1,
      txCount := UInt64.ofNat vtx.length, nonce, vtx }
  { block with size := block.calculateBlockSize }

def sampleEmptyView : CCoinsViewCache CCoinsViewDB := ⟨{}, .backing { bestBlock := sampleGenesisIndex.getHash }⟩

theorem sampleEmptyView_coherent : sampleEmptyView.Coherent := ⟨WriteBack.Coherent.empty _, trivial⟩

theorem sampleEmptyView_coins (outpoint : COutPoint) : sampleEmptyView.coins outpoint = none := rfl

def sampleReward : CTransaction where
  vin := []
  vout := [{ nValue := 1000, scriptPubKey := [0x51] }, { nValue := 0, scriptPubKey := 0x6a :: replicate 40 0 }]

def sampleSpend (tx : CTransaction) (data : UInt8) : CTransaction where
  vin := [{ prevout := tx.outpointAt 0, amount := 1000 }]
  vout := [{ nValue := 1000, scriptPubKey := [0x51, data] }]

def sampleMiddle : CTransaction := sampleSpend sampleReward 0

def sampleChained : CBlockRef where
  block := sampleBlockOf sampleGenesisIndex [sampleReward, sampleSpend sampleMiddle 2, sampleMiddle]
    0xe022d46e9bdc9e0dbfb386955e2d19e6414078373cd5295cd1e00c06494c1cfd [0]
  checked marked := (Bool.false_ne_true marked).elim

def sampleChainedIndex : CBlockIndex := { header := sampleChained.block.toCBlockHeader }

theorem sampleChained_notGenesis : sampleChained.block.getHash ≠ sampleConnectContext.params.hashGenesisBlock := by
  decide +kernel

theorem sampleChained_accepted : ∃ after, connectBlock sampleConnectContext sampleChained
    [sampleChainedIndex, sampleGenesisIndex] sampleEmptyView sampleEmptyView false = .ok after :=
  exists_ok_of_toBool (by decide +kernel)

theorem sampleChained_fresh : FreshOutputs sampleEmptyView.coins sampleChained.block where
  distinct := by decide +kernel
  free outpoint _ := sampleEmptyView_coins outpoint

theorem connectBlock_conserves_value_sample : ∃ after blockundo, connectBlock sampleConnectContext sampleChained
      [sampleChainedIndex, sampleGenesisIndex] sampleEmptyView sampleEmptyView false = .ok (after, blockundo) ∧
    totalValue after.coins ≤ totalValue sampleEmptyView.coins + 1000 := by
  obtain ⟨⟨after, blockundo⟩, accepted⟩ := sampleChained_accepted
  obtain ⟨-, -, subsidy, computed, bound⟩ := connectBlock_conserves_value sampleEmptyView_coherent
    sampleChained_notGenesis sampleChained_fresh accepted
  have halved : getBlockSubsidy sampleConnectContext.params (toInt32 sampleChainedIndex.height) = .ok 1000 := by
    decide +kernel
  rw [halved] at computed
  cases computed
  exact ⟨after, blockundo, accepted, bound⟩

/-- The second transaction spends a coin that neither the view nor an earlier transaction holds. -/
theorem connectBlock_spends_later_output :
    (∃ after, connectBlock sampleConnectContext sampleChained [sampleChainedIndex, sampleGenesisIndex]
      sampleEmptyView sampleEmptyView false = .ok after) ∧
    ∃ tx outpoint, sampleChained.block.vtx[1]? = some tx ∧ outpoint ∈ consumedBy tx.vin ∧
      sampleEmptyView.coins outpoint = none ∧
      outpoint ∉ ((sampleChained.block.vtx.take 1).flatMap (CTransaction.createdCoins 1)).map Prod.fst :=
  ⟨sampleChained_accepted, sampleSpend sampleMiddle 2, sampleMiddle.outpointAt 0, rfl, mem_singleton_self _,
    sampleEmptyView_coins _, by decide +kernel⟩

end Nexa
