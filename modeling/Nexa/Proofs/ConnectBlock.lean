import Nexa.Model.Chain.ConnectBlock
import Nexa.Proofs.CoinsStack
import Nexa.ToMathlib.Ledger

/-! # Connecting a block as two steps of a ledger

On the map of unspent coins an accepted block adds the coins of its spendable outputs and then removes
the outpoints its inputs consume. The passes of `ConnectBlockCanonicalOrdering` are described one by
one; the fees they collect bound what the block can add to the value of all coins.
-/

namespace Nexa

open Validation Ledger List

/-! ## What a block creates and consumes -/

/-- The coins that outputs from position `i` on create: those that can be spent. -/
def createdFrom (tx : CTransaction) (height : ℤ) (i : ℕ) (vout : List CTxOut) : List (COutPoint × Coin) :=
  (vout.zipIdx i).filterMap fun entry =>
    if entry.1.scriptPubKey.isUnspendable then none
    else some (tx.outpointAt entry.2, Coin.ofTxOut entry.1 height tx.isCoinBase)

def CTransaction.createdCoins (height : ℤ) (tx : CTransaction) : List (COutPoint × Coin) :=
  createdFrom tx height 0 tx.vout

variable (block : CBlock)

/-- The coins of all transactions, at the height that the header states. -/
def CBlock.createdCoins : List (COutPoint × Coin) :=
  block.vtx.flatMap (CTransaction.createdCoins (toInt32 block.height.toNat))

def CBlock.createdOutpoints : List COutPoint := block.createdCoins.map Prod.fst

def CBlock.consumed : List COutPoint := block.vtx.flatMap fun tx => consumedBy tx.vin

/-- The outpoints of the outputs of a block are new. -/
abbrev FreshOutputs (coins : Utxo) (block : CBlock) : Prop := Fresh coins block.createdCoins

theorem createdFrom_cons (tx : CTransaction) (height : ℤ) (i : ℕ) (out : CTxOut) (rest : List CTxOut) :
    createdFrom tx height i (out :: rest) = if out.scriptPubKey.isUnspendable then createdFrom tx height (i + 1) rest
      else (tx.outpointAt i, Coin.ofTxOut out height tx.isCoinBase) :: createdFrom tx height (i + 1) rest := by
  rw [createdFrom, zipIdx_cons, filterMap_cons]
  split_ifs <;> rfl

theorem CCoinsViewCache.addCoin_of_unspendable {σ : Type} {view : CCoinsViewCache σ} {outpoint : COutPoint}
    {coin : Coin}
    {possible_overwrite : Bool} (unspent : coin.isSpent = false) (unspendable : coin.out.scriptPubKey.isUnspendable) :
    view.addCoin outpoint coin possible_overwrite = .ok view := by
  simp [CCoinsViewCache.addCoin, CoinsCache.addCoin, unspent, unspendable, Except.map, pure, Except.pure]

variable {σ : Type} [BackingView σ]

/-! ## Reading -/

namespace CCoinsViewCache

@[simp] theorem coins_setBestBlock (view : CCoinsViewCache σ) (hashBlock : Uint256) :
    (view.setBestBlock hashBlock).coins = view.coins := rfl

variable {view : CCoinsViewCache σ} {outpoint : COutPoint} {coin : Coin}

theorem Coherent.setBestBlock (coherent : view.Coherent) (hashBlock : Uint256) :
    (view.setBestBlock hashBlock).Coherent := coherent

theorem getBestBlock_setBestBlock (view : CCoinsViewCache σ) {hashBlock : Uint256} (notNull : hashBlock ≠ 0) :
    (view.setBestBlock hashBlock).getBestBlock = hashBlock := if_neg notNull

theorem unspent_lookup (coherent : view.Coherent) (outpoint : COutPoint) :
    (view.lookup outpoint).unspent = view.coins outpoint := by
  obtain ⟨entry, read, fetched, -, value, -⟩ := fetchCoin_spec coherent outpoint
  rw [lookup, accessCoin, fetched, ← value]
  cases entry with
  | none => rfl
  | some entry => rfl

theorem lookup_eq_of_coins (coherent : view.Coherent) (found : view.coins outpoint = some coin) :
    view.lookup outpoint = coin := by
  rw [← unspent_lookup coherent] at found
  exact (Coin.unspent_eq_some_iff.mp found).2

theorem isSpent_of_coins (coherent : view.Coherent) (found : view.coins outpoint = some coin) :
    coin.isSpent = false := by
  have same := lookup_eq_of_coins coherent found
  rw [← unspent_lookup coherent, same] at found
  exact (Coin.unspent_eq_some_iff.mp found).1

end CCoinsViewCache

/-! ## Adding the outputs -/

/-- A part of the second pass: the view has got the coins of a list. -/
structure Adds (view after : CCoinsViewCache σ) (entries : List (COutPoint × Coin)) : Prop where
  coherent : after.Coherent
  coins : after.coins = addAll view.coins entries

namespace Adds

variable {view next after : CCoinsViewCache σ} {entries later : List (COutPoint × Coin)}

theorem nil (coherent : view.Coherent) : Adds view view [] := ⟨coherent, rfl⟩

theorem append (first : Adds view next entries) (second : Adds next after later) :
    Adds view after (entries ++ later) where
  coherent := second.coherent
  coins := by rw [second.coins, first.coins, addAll_append]

theorem cons {outpoint : COutPoint} {coin : Coin}
    (stored : next.coins = Function.update view.coins outpoint (some coin)) (second : Adds next after later) :
    Adds view after ((outpoint, coin) :: later) where
  coherent := second.coherent
  coins := by rw [second.coins, stored, addAll_cons]

end Adds

variable {tx : CTransaction} {height : ℤ} {i : ℕ} {view after : CCoinsViewCache σ} {txs : List CTransaction}
  {vin : List CTxIn} {txundo : CTxUndo} {ctx : ConnectContext} {bestBlock : Uint256} {pindex : BlockIndexRef}
  {block : CBlock} {node : NodeContext} {fCheckMerkleRoot : Bool}

theorem addCoins_adds {vout : List CTxOut} (coherent : view.Coherent)
    (fresh : Fresh view.coins (createdFrom tx height i vout)) (added : addCoins tx height i vout view = .ok after) :
    Adds view after (createdFrom tx height i vout) := by
  induction vout generalizing i view with
  | nil =>
    cases added
    exact .nil coherent
  | cons out rest ih =>
    obtain ⟨unspent, added⟩ := seq_eq_ok_iff.mp added
    rw [assertThat_eq_ok_iff] at unspent
    rw [createdFrom_cons] at fresh ⊢
    split_ifs at fresh ⊢ with unspendable
    · rw [CCoinsViewCache.addCoin_of_unspendable unspent unspendable] at added
      exact ih coherent fresh added
    · obtain ⟨free, fresh⟩ := fresh.cons
      obtain ⟨next, stored, nextCoherent, -, nextCoins⟩ :=
        @CCoinsViewCache.addCoin_spec _ _ _ coherent _ _ tx.isCoinBase unspent fun _ => free
      have nextCoins := nextCoins.trans (if_neg unspendable)
      rw [stored] at added
      exact .cons nextCoins (ih nextCoherent (nextCoins ▸ fresh) added)

theorem addOutputs_adds {prevTxHash : Uint256} (coherent : view.Coherent)
    (fresh : Fresh view.coins (txs.flatMap (CTransaction.createdCoins height)))
    (added : addOutputs height i prevTxHash txs view = .ok after) :
    Adds view after (txs.flatMap (CTransaction.createdCoins height)) := by
  induction txs generalizing i prevTxHash view with
  | nil =>
    cases added
    exact .nil coherent
  | cons tx rest ih =>
    obtain ⟨next, stored, added⟩ := bind_eq_ok_iff.mp added
    rw [flatMap_cons] at fresh
    obtain ⟨freshTx, freshRest⟩ := fresh.append
    have first : Adds view next (tx.createdCoins height) := addCoins_adds coherent freshTx stored
    rw [← first.coins] at freshRest
    have later : Adds next after (rest.flatMap (CTransaction.createdCoins height)) := by
      split_ifs at added with position
      · exact ih first.coherent freshRest added
      · obtain ⟨-, added⟩ := seq_eq_ok_iff.mp added
        exact ih first.coherent freshRest added
    exact first.append later

/-! ## Spending the inputs -/

/-- A part of the last pass: the keys were there, one after the other, and are gone. -/
structure Spends (view after : CCoinsViewCache σ) (keys : List COutPoint) : Prop where
  coherent : after.Coherent
  coins : after.coins = removeAll view.coins keys
  distinct : keys.Nodup
  present : ∀ outpoint ∈ keys, (view.coins outpoint).isSome

namespace Spends

theorem nil {view : CCoinsViewCache σ} (coherent : view.Coherent) : Spends view view [] :=
  ⟨coherent, rfl, nodup_nil, by simp⟩

variable {next : CCoinsViewCache σ} {keys later : List COutPoint}

theorem coins_of_isSome (first : Spends view next keys) {outpoint : COutPoint}
    (left : (next.coins outpoint).isSome) : outpoint ∉ keys ∧ next.coins outpoint = view.coins outpoint := by
  rw [first.coins, removeAll_apply] at left ⊢
  split_ifs at left ⊢ with spent
  · cases left
  · exact ⟨spent, rfl⟩

theorem setBestBlock (spends : Spends view after keys) (hashBlock : Uint256) :
    Spends view (after.setBestBlock hashBlock) keys :=
  ⟨spends.coherent, spends.coins, spends.distinct, spends.present⟩

theorem append (first : Spends view next keys) (second : Spends next after later) :
    Spends view after (keys ++ later) where
  coherent := second.coherent
  coins := by rw [second.coins, first.coins, removeAll_append]
  distinct := by
    rw [nodup_append']
    exact ⟨first.distinct, second.distinct, fun o spent listed =>
      (first.coins_of_isSome (second.present o listed)).1 spent⟩
  present := by
    intro o listed
    rcases mem_append.mp listed with listed | listed
    · exact first.present o listed
    · have left := second.present o listed
      rwa [(first.coins_of_isSome left).2] at left

end Spends

/-- The coin an input leaves in the undo information. -/
def undoCoin (coins : Utxo) (txin : CTxIn) : Coin := if txin.isReadOnly then {} else (coins txin.prevout).getD {}

theorem undoCoin_eq_of_spends {next : CCoinsViewCache σ} {keys later : List COutPoint} (first : Spends view next keys)
    (second : Spends next after later) (included : ∀ outpoint ∈ consumedBy vin, outpoint ∈ later) :
    vin.map (undoCoin next.coins) = vin.map (undoCoin view.coins) := by
  apply map_congr_left
  intro txin listed
  rw [undoCoin, undoCoin]
  split_ifs with readOnly
  · rfl
  · have consumed : txin.prevout ∈ consumedBy vin := by
      rw [consumedBy, mem_map]
      exact ⟨txin, by simp [listed, readOnly], rfl⟩
    rw [(first.coins_of_isSome (second.present _ (included _ consumed))).2]

theorem spendInputs_spends (coherent : view.Coherent) (spent : spendInputs vin view = some (txundo, after)) :
    Spends view after (consumedBy vin) ∧ txundo = vin.map (undoCoin view.coins) := by
  induction vin generalizing view txundo with
  | nil =>
    cases spent
    exact ⟨.nil coherent, rfl⟩
  | cons txin rest ih =>
    rw [spendInputs] at spent
    rw [consumedBy_cons, map_cons]
    split_ifs at spent ⊢ with readOnly
    · obtain ⟨⟨others, final⟩, spentRest, ⟨⟩⟩ := Option.map_eq_some_iff.mp spent
      obtain ⟨spends, undo⟩ := ih coherent spentRest
      exact ⟨spends, by rw [undo, undoCoin, if_pos readOnly]⟩
    · obtain ⟨moveout, next, found, same, nextCoherent, -, nextCoins⟩ :=
        CCoinsViewCache.spendCoin_spec coherent txin.prevout
      cases coin : view.coins txin.prevout with
      | none => simp [found, coin] at spent
      | some coin' =>
        simp only [found, coin] at spent
        obtain ⟨⟨others, final⟩, spentRest, same'⟩ := Option.map_eq_some_iff.mp spent
        cases same'
        have first : Spends view next [txin.prevout] := by
          refine ⟨nextCoherent, nextCoins, nodup_singleton _, ?_⟩
          simp [coin]
        obtain ⟨later, undo⟩ := ih nextCoherent spentRest
        refine ⟨first.append later, ?_⟩
        have head : moveout = undoCoin view.coins txin := by
          rw [undoCoin, if_neg readOnly, coin, same coin' coin, Option.getD_some]
        rw [head, undo, undoCoin_eq_of_spends first later fun _ listed => listed]

theorem spendCoins_spends (coherent : view.Coherent) (spent : spendCoins tx view = some (txundo, after)) :
    Spends view after (consumedBy tx.vin) ∧ txundo = tx.vin.map (undoCoin view.coins) := by
  rw [spendCoins] at spent
  split_ifs at spent with coinbase
  · cases spent
    rw [CTransaction.isCoinBase, List.isEmpty_iff] at coinbase
    rw [coinbase]
    exact ⟨.nil coherent, rfl⟩
  · exact spendInputs_spends coherent spent

theorem spendTransactions_spends {vtxundo : CBlockUndo} (coherent : view.Coherent)
    (spent : spendTransactions i txs view = .ok (vtxundo, after)) :
    Spends view after (txs.flatMap fun tx => consumedBy tx.vin) ∧
      vtxundo = (if i = 0 then txs.tail else txs).map fun tx => tx.vin.map (undoCoin view.coins) := by
  induction txs generalizing i view vtxundo with
  | nil =>
    cases spent
    exact ⟨.nil coherent, by simp⟩
  | cons tx rest ih =>
    rw [spendTransactions] at spent
    cases first : spendCoins tx view with
    | none => simp [first] at spent
    | some result =>
      simp only [first] at spent
      obtain ⟨⟨others, final⟩, spentRest, ⟨⟩⟩ := bind_eq_ok_iff.mp spent
      obtain ⟨spends, undo⟩ := spendCoins_spends coherent first
      obtain ⟨spendsRest, undoRest⟩ := ih spends.coherent spentRest
      have undoRest : others = rest.map fun tx => tx.vin.map (undoCoin view.coins) := by
        rw [undoRest]
        apply map_congr_left
        intro later listed
        exact undoCoin_eq_of_spends spends spendsRest fun o consumed => mem_flatMap.mpr ⟨later, listed, consumed⟩
      refine ⟨spends.append spendsRest, ?_⟩
      split_ifs with position
      · exact undoRest
      · rw [undo, undoRest, map_cons]

/-! ## The fees -/

/-- The value of a coin. -/
def Coin.value (coin : Coin) : ℤ := coin.out.nValue.toInt

/-- What the outputs of a transaction are worth. -/
def CTransaction.valueOut (tx : CTransaction) : ℤ := (tx.vout.map fun out => out.nValue.toInt).sum

theorem getValueOut_eq_ok {nValueOut : CAmount} (computed : tx.getValueOut = .ok nValueOut) :
    nValueOut.toInt = tx.valueOut ∧ ∀ out ∈ tx.vout, 0 ≤ out.nValue.toInt := by
  obtain ⟨sum, inRange⟩ := CTransaction.sumInRange_eq_ok computed
  rw [map_map] at sum
  refine ⟨by rw [sum]; exact Int.zero_add _, fun out listed => ?_⟩
  exact (inRange out.nValue (mem_map_of_mem listed)).1

theorem walkInputs_fees (coherent : view.Coherent) {nFees total : CAmount} {prevheights : List ℤ}
    (walked : walkInputs view.lookup vin nFees = .ok (prevheights, total)) :
    total.toInt = nFees.toInt + ((consumedBy vin).map (weightAt Coin.value view.coins)).sum := by
  induction vin generalizing nFees prevheights with
  | nil =>
    cases walked
    simp [consumedBy]
  | cons txin rest ih =>
    rw [walkInputs] at walked
    rw [consumedBy_cons]
    split_ifs at walked ⊢ with readOnly
    · obtain ⟨_, walkedRest, ⟨⟩⟩ := bind_eq_ok_iff.mp walked
      exact ih walkedRest
    · simp only [bind_eq_ok_iff, rejectIf_eq_ok_iff, Bool.not_eq_true] at walked
      obtain ⟨_, unspent, _, -, next, added, _, walkedRest, ⟨⟩⟩ := walked
      have found : view.coins txin.prevout = some (view.lookup txin.prevout) := by
        rw [← CCoinsViewCache.unspent_lookup coherent, Coin.unspent_of_not_spent unspent]
      rw [ih walkedRest, CAmount.add_eq_ok_iff.mp added, map_cons, sum_cons, weightAt, found,
        Option.elim_some, Coin.value]
      omega

theorem checkConsumedInputs_fees (coherent : view.Coherent) {readonlyinputs : COutPoint → Coin}
    {pindexEpoch : BlockIndexRef} (regular : ∀ tx ∈ txs, tx.isCoinBase = false) {nFees total : CAmount}
    {vChecks : List (List CScriptCheck)}
    (checked : checkConsumedInputs ctx block bestBlock view.lookup readonlyinputs pindexEpoch txs nFees = .ok (total,
      vChecks)) :
    total.toInt = nFees.toInt + ((txs.flatMap fun tx => consumedBy tx.vin).map
        (weightAt Coin.value view.coins)).sum - (txs.map CTransaction.valueOut).sum ∧
      ∀ tx ∈ txs, ∀ out ∈ tx.vout, 0 ≤ out.nValue.toInt := by
  induction txs generalizing nFees vChecks with
  | nil =>
    cases checked
    simp
  | cons tx rest ih =>
    rw [forall_mem_cons] at regular
    rw [checkConsumedInputs, if_neg (by simp [regular.1])] at checked
    simp only [bind_eq_ok_iff] at checked
    obtain ⟨total, walked, valueOut, paid, next, subtracted, _, checkedRest, ⟨⟩⟩ := checked
    have inputs : total.1.toInt = nFees.toInt + ((consumedBy tx.vin).map (weightAt Coin.value view.coins)).sum := by
      simp only [checkTxFinalAndInputs, bind_eq_ok_iff] at walked
      obtain ⟨_, -, _, walked, _, -, _, -, checked⟩ := walked
      split at checked
      · obtain ⟨scripts, -, ⟨⟩⟩ := bind_eq_ok_iff.mp checked
        exact walkInputs_fees coherent walked
      · cases checked
        exact walkInputs_fees coherent walked
    obtain ⟨outputs, nonneg⟩ := getValueOut_eq_ok paid
    obtain ⟨later, laterNonneg⟩ := ih regular.2 checkedRest
    refine ⟨?_, forall_mem_cons.mpr ⟨nonneg, laterNonneg⟩⟩
    rw [later, CAmount.ofResult_eq_ok_iff.mp subtracted, flatMap_cons, map_append, sum_append, map_cons, sum_cons]
    omega

/-! ## What ConnectBlock has gone through -/

/-- The first transaction is a coinbase and no other is. -/
def CBlock.CoinbaseFirst : Prop :=
  ∃ coinbase rest, block.vtx = coinbase :: rest ∧ coinbase.isCoinBase = true ∧ ∀ tx ∈ rest, tx.isCoinBase = false

theorem CBlock.consumed_eq_of_coinbase {coinbase : CTransaction} {rest : List CTransaction}
    (txs : block.vtx = coinbase :: rest) (first : coinbase.isCoinBase = true) :
    block.consumed = rest.flatMap fun tx => consumedBy tx.vin := by
  rw [CTransaction.isCoinBase, List.isEmpty_iff] at first
  rw [CBlock.consumed, txs, flatMap_cons, first]
  rfl

theorem checkTransactions_regular {enforceMinTxSize : Bool}
    (checked : checkTransactions enforceMinTxSize false txs = .ok ()) : ∀ tx ∈ txs, tx.isCoinBase = false := by
  induction txs with
  | nil => simp
  | cons tx rest ih =>
    simp only [checkTransactions, seq_eq_ok_iff] at checked
    obtain ⟨-, regular, -, checkedRest⟩ := checked
    refine forall_mem_cons.mpr ⟨?_, ih checkedRest⟩
    simpa using regular

theorem coinbaseFirst_of_checkBlock {fCheckPOW : Bool}
    (checked : checkBlock node block fCheckPOW fCheckMerkleRoot = .ok ()) : block.CoinbaseFirst := by
  simp only [checkBlock, seq_eq_ok_iff, rejectIf_eq_ok_iff] at checked
  obtain ⟨-, -, nonempty, -, -, checked⟩ := checked
  obtain ⟨coinbase, rest, txs⟩ := exists_cons_of_ne_nil nonempty
  simp only [txs, checkTransactions, seq_eq_ok_iff] at checked
  obtain ⟨first, -, -, checkedRest⟩ := checked
  exact ⟨coinbase, rest, txs, by simpa using first, checkTransactions_regular checkedRest⟩

/-- The passes of an accepted block: the view with all outputs, the view with the inputs spent, the fees. -/
structure Connects (ctx : ConnectContext) (block : CBlock) (pindex : BlockIndexRef)
    (view tip added spent : CCoinsViewCache σ) (nFees : CAmount) (blockundo : CBlockUndo) : Prop where
  coinbaseFirst : block.CoinbaseFirst
  outputs : addOutputs (toInt32 block.height.toNat) 0 0 block.vtx view = .ok added
  inputs : ∃ vChecks, checkConsumedInputs ctx block added.getBestBlock added.lookup tip.lookup
    (epochIndex block pindex) block.vtx 0 = .ok (nFees, vChecks)
  spends : spendTransactions 0 block.vtx added = .ok (blockundo, spent)
  reward : ∃ setDag, checkCoinbaseReward ctx block pindex nFees setDag = .ok ()

theorem connectBlock_eq_ok {pblock : CBlockRef} {tip : CCoinsViewCache σ} {fJustCheck : Bool} {blockundo : CBlockUndo}
    (notGenesis : pblock.block.getHash ≠ ctx.params.hashGenesisBlock)
    (accepted : connectBlock ctx pblock pindex view tip fJustCheck = .ok (after, blockundo)) :
    ∃ index pprev added spent nFees, pindex = index :: pprev ∧
      Connects ctx pblock.block pindex view tip added spent nFees blockundo ∧
      after = if fJustCheck then spent else spent.setBestBlock index.getHash := by
  cases pindex with
  | nil => simp [connectBlock] at accepted
  | cons index pprev =>
    simp only [connectBlock, connectBlockCanonicalOrdering, if_neg notGenesis, bind_eq_ok_iff] at accepted
    obtain ⟨_, -, setDag, prevalidated, _, ⟨_, -, added, outputs, ⟨nFees, vChecks⟩, inputs, ⟨_, spent⟩, spends, _, -,
      ⟨⟩⟩, _, reward, ⟨⟩⟩ := accepted
    refine ⟨index, pprev, added, spent, nFees, rfl, ⟨?_, outputs, ⟨vChecks, inputs⟩, spends, ⟨setDag, reward⟩⟩, rfl⟩
    -- the block was checked now or when it got its mark
    have checked := (seq_eq_ok_iff.mp prevalidated).1
    rw [CBlockRef.checkBlock] at checked
    split_ifs at checked with mark
    · obtain ⟨earlier, checked⟩ := pblock.checked mark
      exact coinbaseFirst_of_checkBlock checked
    · exact coinbaseFirst_of_checkBlock checked

variable {tip added spent : CCoinsViewCache σ}
  {nFees : CAmount} {blockundo : CBlockUndo}

theorem Connects.refines (connects : Connects ctx block pindex view tip added spent nFees blockundo)
    (coherent : view.Coherent) (fresh : FreshOutputs view.coins block) :
    Adds view added block.createdCoins ∧ Spends added spent block.consumed ∧
      blockundo = block.vtx.tail.map fun tx => tx.vin.map (undoCoin added.coins) := by
  have adds := addOutputs_adds coherent fresh connects.outputs
  exact ⟨adds, spendTransactions_spends adds.coherent connects.spends⟩

end Nexa
