import Nexa.Model.Chain.DisconnectBlock
import Nexa.Proofs.BlockValue

/-! # Disconnecting undoes connecting

`DisconnectBlock` first adds back the coins that the block consumed, whichever transaction of the block
they come from, and then removes the coins that the block created. Both are list operations on the map of
unspent coins, and take back the two passes of `ConnectBlock` over it.
-/

namespace Nexa

open CCoinsViewCache Ledger List Prod

/-- What a coin needs to come back from the undo information: `ApplyTxInUndo` takes the height 0 as
missing metadata, and `AddCoin` ignores coins that cannot be spent. -/
structure Coin.Restorable (coin : Coin) : Prop where
  height : coin.nHeight ≠ 0
  spendable : ¬coin.out.scriptPubKey.isUnspendable

/-- The coins that come back from a list of inputs with their undo coins. -/
def restoredFrom (entries : List (CTxIn × Coin)) : List (COutPoint × Coin) :=
  (entries.filter fun entry => !entry.1.isReadOnly).map fun entry => (entry.1.prevout, entry.2)

variable {σ : Type} [BackingView σ]

/-! ## Restoring the inputs -/

variable {view : CCoinsViewCache σ} {coins : Utxo} {entry : COutPoint × Coin} {txs : List CTransaction}
  {tx : CTransaction} {height : ℤ} {i : ℕ} {vout : List CTxOut} {block : CBlock}

theorem applyTxInUndo_spec (coherent : view.Coherent) {out : COutPoint} {undo : Coin} (absent : view.coins out = none)
    (unspent : undo.isSpent = false) (restorable : undo.Restorable) :
    ∃ after, applyTxInUndo undo view out = .ok (.ok, after) ∧ after.Coherent ∧
      after.coins = Function.update view.coins out (some undo) := by
  obtain ⟨read, asked, readCoherent, sameLevels⟩ := haveCoin_spec coherent out
  have sameCoins : read.coins = view.coins := CCoinsView.coins_eq_of_levels_eq sameLevels
  obtain ⟨after, stored, afterCoherent, -, coins⟩ :=
    @addCoin_spec _ _ _ readCoherent out undo false unspent fun _ => by rw [sameCoins, absent]
  rw [if_neg restorable.spendable, sameCoins] at coins
  refine ⟨after, ?_, afterCoherent, coins⟩
  rw [absent, Option.isSome_none] at asked
  simp only [applyTxInUndo, asked, undoMetadata, if_neg restorable.height, stored]
  rfl

theorem restoreInputs_adds {entries : List (CTxIn × Coin)} (coherent : view.Coherent)
    (fresh : Fresh view.coins (restoredFrom entries))
    (restorable : ∀ entry ∈ restoredFrom entries, entry.2.isSpent = false ∧ entry.2.Restorable) :
    ∃ after, restoreInputs entries true view = .ok (.ok, after) ∧ Adds view after (restoredFrom entries) := by
  induction entries generalizing view with
  | nil => exact ⟨view, rfl, .nil coherent⟩
  | cons entry rest ih =>
    obtain ⟨txin, undo⟩ := entry
    cases kind : txin.isReadOnly with
    | true =>
      have skipped : restoredFrom ((txin, undo) :: rest) = restoredFrom rest := by simp [restoredFrom, kind]
      rw [skipped] at fresh restorable ⊢
      rw [restoreInputs, if_pos kind]
      exact ih coherent fresh restorable
    | false =>
      have split : restoredFrom ((txin, undo) :: rest) = (txin.prevout, undo) :: restoredFrom rest := by
        simp [restoredFrom, kind]
      rw [split] at fresh restorable ⊢
      rw [forall_mem_cons] at restorable
      obtain ⟨absent, fresh⟩ := fresh.cons
      obtain ⟨next, applied, nextCoherent, nextCoins⟩ :=
        applyTxInUndo_spec coherent absent restorable.1.1 restorable.1.2
      obtain ⟨after, restored, later⟩ := ih nextCoherent (nextCoins ▸ fresh) restorable.2
      refine ⟨after, ?_, .cons nextCoins later⟩
      rw [restoreInputs, if_neg (by simp [kind]), applied]
      exact restored

/-- What the inputs of a transaction bring back, the last input first. -/
def restoredBy (coins : Utxo) (vin : List CTxIn) : List (COutPoint × Coin) :=
  restoredFrom (vin.zip (vin.map (undoCoin coins))).reverse

theorem restoredBy_keys (coins : Utxo) (vin : List CTxIn) :
    (restoredBy coins vin).map fst = (consumedBy vin).reverse := by
  induction vin with
  | nil => rfl
  | cons txin rest ih =>
    rw [restoredBy, restoredFrom] at ih ⊢
    rw [consumedBy_cons, map_cons, zip_cons_cons, reverse_cons, filter_append, map_append, map_append, ih]
    cases kind : txin.isReadOnly <;> simp [kind]

theorem coins_of_mem_restoredBy {vin : List CTxIn} (listed : entry ∈ restoredBy coins vin)
    (present : (coins entry.1).isSome) : coins entry.1 = some entry.2 := by
  rw [restoredBy, restoredFrom, mem_map] at listed
  obtain ⟨⟨txin, undo⟩, member, rfl⟩ := listed
  rw [mem_filter, mem_reverse, ← map_prod_left_eq_zip, mem_map] at member
  obtain ⟨⟨_, -, same⟩, consumed⟩ := member
  cases same
  obtain ⟨coin, found⟩ := Option.isSome_iff_exists.mp present
  rw [undoCoin, if_neg (by simpa using consumed), found, Option.getD_some]

theorem restoreTransactions_adds (coherent : view.Coherent)
    (fresh : Fresh view.coins (txs.flatMap fun tx => restoredBy coins tx.vin))
    (restorable : ∀ entry ∈ txs.flatMap fun tx => restoredBy coins tx.vin, entry.2.isSpent = false ∧
      entry.2.Restorable) :
    ∃ after, restoreTransactions (txs.zip (txs.map fun tx => tx.vin.map (undoCoin coins))) true view =
        .ok (.ok, after) ∧ Adds view after (txs.flatMap fun tx => restoredBy coins tx.vin) := by
  induction txs generalizing view with
  | nil => exact ⟨view, rfl, .nil coherent⟩
  | cons tx rest ih =>
    rw [flatMap_cons] at fresh
    rw [flatMap_cons, forall_mem_append] at restorable
    obtain ⟨freshTx, freshRest⟩ := fresh.append
    obtain ⟨next, restoredTx, first⟩ := restoreInputs_adds coherent freshTx restorable.1
    obtain ⟨after, restored, later⟩ := ih first.coherent (first.coins ▸ freshRest) restorable.2
    refine ⟨after, ?_, first.append later⟩
    rw [map_cons, zip_cons_cons, restoreTransactions, if_neg (by simp), restoredTx]
    exact restored

/-! ## Removing the outputs -/

theorem removeOutputs_spends (coherent : view.Coherent)
    (outstanding : Outstanding view.coins (createdFrom tx height i vout)) :
    ∃ after, removeOutputs tx i vout true view = (true, after) ∧
      Spends view after ((createdFrom tx height i vout).map fst) := by
  induction vout generalizing i view with
  | nil => exact ⟨view, rfl, .nil coherent⟩
  | cons out rest ih =>
    rw [createdFrom_cons] at outstanding ⊢
    rw [removeOutputs]
    split_ifs at outstanding ⊢ with unspendable
    · exact ih coherent outstanding
    · obtain ⟨present, outstanding⟩ := outstanding.cons
      obtain ⟨moveout, next, removed, same, nextCoherent, -, nextCoins⟩ := spendCoin_spec coherent (tx.outpointAt i)
      have first : Spends view next [tx.outpointAt i] := by
        refine ⟨nextCoherent, nextCoins, nodup_singleton _, ?_⟩
        simp [present]
      obtain ⟨after, removedRest, later⟩ := ih nextCoherent (nextCoins ▸ outstanding)
      refine ⟨after, ?_, first.append later⟩
      have unchanged : out.sameAs moveout.out = true := by
        rw [same _ present]
        simp [CTxOut.sameAs, Coin.ofTxOut]
      rw [removed]
      simpa only [unchanged, Bool.and_self] using removedRest

theorem removeTransactions_spends (coherent : view.Coherent)
    (outstanding : Outstanding view.coins (txs.flatMap (CTransaction.createdCoins height))) :
    ∃ after, removeTransactions txs true view = (true, after) ∧
      Spends view after ((txs.flatMap (CTransaction.createdCoins height)).map fst) := by
  induction txs generalizing view with
  | nil => exact ⟨view, rfl, .nil coherent⟩
  | cons tx rest ih =>
    rw [flatMap_cons] at outstanding
    obtain ⟨outstandingTx, outstandingRest⟩ := outstanding.append
    obtain ⟨next, removedTx, first⟩ := removeOutputs_spends coherent outstandingTx
    obtain ⟨after, removed, later⟩ := ih first.coherent (first.coins ▸ outstandingRest)
    refine ⟨after, ?_, ?_⟩
    · rw [removeTransactions, removedTx]
      exact removed
    · rw [flatMap_cons, map_append]
      exact first.append later

/-! ## The two passes of a block -/

theorem createdFrom_restorable (positive : BitVec.ofInt 31 height ≠ 0) (listed : entry ∈ createdFrom tx height i vout) :
    entry.2.Restorable := by
  rw [createdFrom, mem_filterMap] at listed
  obtain ⟨⟨out, position⟩, -, same⟩ := listed
  split_ifs at same with unspendable
  cases same
  exact ⟨positive, unspendable⟩

theorem restoreTransactions_of_spends {added spent : CCoinsViewCache σ} (coherent : added.Coherent)
    (spends : Spends added spent (txs.flatMap fun tx => consumedBy tx.vin))
    (restorable : ∀ outpoint coin, added.coins outpoint = some coin → coin.Restorable) :
    ∃ after, restoreTransactions (txs.zip (txs.map fun tx => tx.vin.map (undoCoin added.coins))) true spent =
      .ok (.ok, after) ∧ after.Coherent ∧ after.coins = added.coins := by
  have keys : ((txs.flatMap fun tx => restoredBy added.coins tx.vin).map fst).Perm
      (txs.flatMap fun tx => consumedBy tx.vin) := by
    rw [map_flatMap]
    refine Perm.flatMap_left _ fun tx _ => ?_
    rw [restoredBy_keys]
    exact reverse_perm _
  have outstanding : Outstanding added.coins (txs.flatMap fun tx => restoredBy added.coins tx.vin) := by
    refine ⟨keys.nodup_iff.mpr spends.distinct, fun entry listed => ?_⟩
    have consumed := spends.present entry.1 (keys.subset (mem_map_of_mem listed))
    obtain ⟨tx, -, member⟩ := mem_flatMap.mp listed
    exact coins_of_mem_restoredBy member consumed
  have fresh : Fresh spent.coins (txs.flatMap fun tx => restoredBy added.coins tx.vin) := by
    refine ⟨outstanding.distinct, fun outpoint listed => ?_⟩
    rw [spends.coins, removeAll_apply, if_pos (keys.subset listed)]
  obtain ⟨after, restored, adds⟩ := restoreTransactions_adds spends.coherent fresh fun entry listed =>
    ⟨isSpent_of_coins coherent (outstanding.found entry listed), restorable _ _ (outstanding.found entry listed)⟩
  refine ⟨after, restored, adds.coherent, ?_⟩
  rw [adds.coins, spends.coins]
  exact outstanding.addAll_removeAll fun key listed => keys.symm.subset listed

/-- `DisconnectBlock` with the undo information of `ConnectBlock` is clean and restores the coins. -/
theorem disconnectBlock_undoes_connectBlock {ctx : ConnectContext} {pblock : CBlockRef} {index prev : CBlockIndex}
    {pprev : BlockIndexRef} {view tip after : CCoinsViewCache σ} {blockundo : CBlockUndo}
    (coherent : view.Coherent) (notGenesis : pblock.block.getHash ≠ ctx.params.hashGenesisBlock)
    (fresh : FreshOutputs view.coins pblock.block)
    (restorable : ∀ outpoint coin, view.coins outpoint = some coin → coin.Restorable)
    (positive : BitVec.ofInt 31 (toInt32 pblock.block.height.toNat) ≠ 0) (notNull : index.getHash ≠ 0)
    (accepted : connectBlock ctx pblock (index :: prev :: pprev) view tip false = .ok (after, blockundo)) :
    ∃ restored, disconnectBlock pblock.block (index :: prev :: pprev) (some blockundo) after = .ok (.ok, restored) ∧
      restored.Coherent ∧ restored.coins = view.coins := by
  obtain ⟨last, earlier, added, spent, nFees, chain, connects, same⟩ := connectBlock_eq_ok notGenesis accepted
  cases chain
  rw [if_neg Bool.false_ne_true] at same
  obtain ⟨coinbase, rest, txs, first, -⟩ := connects.coinbaseFirst
  obtain ⟨adds, spends, undo⟩ := connects.refines coherent fresh
  rw [CBlock.consumed_eq_of_coinbase txs first] at spends
  have spends : Spends added after (rest.flatMap fun tx => consumedBy tx.vin) := same ▸ spends.setBestBlock _
  -- every coin that is there once the outputs have been added can come back
  have addedRestorable : ∀ outpoint coin, added.coins outpoint = some coin → coin.Restorable := by
    intro outpoint coin found
    rw [adds.coins] at found
    rcases mem_or_eq_of_addAll found with before | created
    · exact restorable outpoint coin before
    · obtain ⟨tx, -, created⟩ := mem_flatMap.mp created
      exact createdFrom_restorable positive created
  obtain ⟨back, restoredInputs, backCoherent, backCoins⟩ :=
    restoreTransactions_of_spends adds.coherent spends addedRestorable
  -- the last loop brings back the view before the outputs were added
  obtain ⟨final, removed, finalSpends⟩ := removeTransactions_spends backCoherent (by
    rw [backCoins, adds.coins]
    exact fresh.outstanding)
  refine ⟨final.setBestBlock prev.getHash, ?_, finalSpends.coherent.setBestBlock _, ?_⟩
  · have best : index.getHash = after.getBestBlock := by
      rw [same, getBestBlock_setBestBlock _ notNull]
    refine Validation.seq_eq_ok_iff.mpr ⟨assertThat_eq_ok_iff.mpr best, ?_⟩
    dsimp only
    rw [if_neg (by simp [undo, txs]), undo, txs]
    rw [txs] at removed
    refine Validation.bind_eq_ok_iff.mpr ⟨(.ok, back), restoredInputs, ?_⟩
    simp only [decide_true, removed]
    rfl
  · rw [coins_setBestBlock, finalSpends.coins, backCoins, adds.coins]
    exact fresh.removeAll_addAll

theorem disconnectBlock_undoes_connectBlock_sample : ∃ after blockundo restored,
    connectBlock sampleConnectContext sampleChained [sampleChainedIndex, sampleGenesisIndex] sampleEmptyView
      sampleEmptyView false = .ok (after, blockundo) ∧
    disconnectBlock sampleChained.block [sampleChainedIndex, sampleGenesisIndex] (some blockundo) after =
      .ok (.ok, restored) ∧ restored.coins = sampleEmptyView.coins := by
  obtain ⟨⟨after, blockundo⟩, accepted⟩ := sampleChained_accepted
  have empty : ∀ outpoint coin, sampleEmptyView.coins outpoint = some coin → coin.Restorable := by
    intro outpoint coin found
    cases found
  obtain ⟨restored, disconnected, -, same⟩ := disconnectBlock_undoes_connectBlock sampleEmptyView_coherent
    sampleChained_notGenesis sampleChained_fresh empty (by decide +kernel) (by decide +kernel) accepted
  exact ⟨after, blockundo, restored, accepted, disconnected, same⟩

def sampleRewardOnly : CBlockRef where
  block := sampleBlockOf sampleGenesisIndex [sampleReward]
    0xe5f0e26dc12a7aefcecd86cd6185c3a4376188488e50abef50e8a226aeaec683 [8]
  checked marked := (Bool.false_ne_true marked).elim

def sampleRewardIndex : CBlockIndex := { header := sampleRewardOnly.block.toCBlockHeader }

def sampleOldReward : Coin := Coin.ofTxOut { nValue := 1000, scriptPubKey := [0x51] } 7 true

def sampleRepeatedView : CCoinsViewCache CCoinsViewDB :=
  ⟨{}, .backing { coins := AList.singleton (sampleReward.outpointAt 0) sampleOldReward,
                  bestBlock := sampleGenesisIndex.getHash }⟩

/-- A coinbase may overwrite a coin; the coin does not come back. -/
theorem disconnectBlock_loses_overwritten_coin : (do
      let (after, blockundo) ← connectBlock sampleConnectContext sampleRewardOnly
        [sampleRewardIndex, sampleGenesisIndex] sampleRepeatedView sampleRepeatedView false
      let (result, restored) ← disconnectBlock sampleRewardOnly.block [sampleRewardIndex, sampleGenesisIndex]
        (some blockundo) after
      pure (result, restored.coins (sampleReward.outpointAt 0))) = (.ok (.ok, none) : Validation _) ∧
    sampleRepeatedView.coins (sampleReward.outpointAt 0) = some sampleOldReward := by
  decide +kernel

end Nexa
