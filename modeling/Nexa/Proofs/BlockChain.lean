import Nexa.Proofs.BlockValue

/-! # Chains of connected blocks

Blocks that `ConnectBlock` accepts one after the other, each on the coins that the one before it left.
Provided that no outpoint is created a second time, the coins follow a run of a ledger: no coin is
consumed twice on the chain, and the value of all coins stays below the sum of the subsidies.
-/

namespace Nexa

open List

/-- An accepted block with the views it was connected to. The coins of the tip, which read-only inputs
refer to, are the coins before the block. -/
structure BlockConnection (σ : Type) [BackingView σ] where
  ctx : ConnectContext
  pblock : CBlockRef
  pindex : BlockIndexRef
  view : CCoinsViewCache σ
  beginningTipView : CCoinsViewCache σ
  after : CCoinsViewCache σ
  blockundo : CBlockUndo
  coherent : view.Coherent
  tipCoherent : beginningTipView.Coherent
  tipCoins : beginningTipView.coins = view.coins
  accepted : connectBlock ctx pblock pindex view beginningTipView false = .ok (after, blockundo)

section

variable {σ : Type} [BackingView σ]

namespace BlockConnection

/-- The connection of a block that `ConnectBlock` accepts on the view of the tip. -/
def ofAccepted (ctx : ConnectContext) (pblock : CBlockRef) (pindex : BlockIndexRef) (view : CCoinsViewCache σ)
    (coherent : view.Coherent) (accepted : (connectBlock ctx pblock pindex view view false).toBool = true) :
    BlockConnection σ where
  ctx
  pblock
  pindex
  view
  beginningTipView := view
  after := ((connectBlock ctx pblock pindex view view false).toOption.getD (view, [])).1
  blockundo := ((connectBlock ctx pblock pindex view view false).toOption.getD (view, [])).2
  coherent
  tipCoherent := coherent
  tipCoins := rfl
  accepted := by
    obtain ⟨result, connected⟩ := Validation.exists_ok_of_toBool accepted
    rw [connected]
    rfl

variable (step : BlockConnection σ)

def IsGenesisBlock : Prop := step.pblock.block.getHash = step.ctx.params.hashGenesisBlock

instance : Decidable step.IsGenesisBlock := inferInstanceAs (Decidable (_ = _))

/-- What the block does to the coins. The genesis block creates and consumes nothing. -/
def update : Ledger.Update COutPoint Coin :=
  if step.IsGenesisBlock then ⟨[], []⟩ else ⟨step.pblock.block.createdCoins, step.pblock.block.consumed⟩

/-- The view that the transactions are checked against, with the outputs of the whole block. -/
def added : CCoinsViewCache σ :=
  (addOutputs (toInt32 step.pblock.block.height.toNat) 0 0 step.pblock.block.vtx step.view).toOption.getD step.view

/-- The subsidy at the height of the block; the genesis block mints nothing that could be spent. -/
def subsidy : ℤ := match step.pindex with
  | index :: _ =>
    if step.IsGenesisBlock then 0
    else ((getBlockSubsidy step.ctx.params (toInt32 index.height)).toOption.getD 0).toInt
  | [] => 0

variable {step}

theorem coins_of_genesis (genesis : step.IsGenesisBlock) :
    step.after.Coherent ∧ step.after.coins = step.view.coins := by
  have accepted := step.accepted
  cases pindex : step.pindex with
  | nil => simp [pindex, connectBlock] at accepted
  | cons index pprev =>
    rw [pindex] at accepted
    obtain ⟨-, accepted⟩ := Validation.seq_eq_ok_iff.mp accepted
    rw [IsGenesisBlock] at genesis
    rw [if_pos genesis] at accepted
    have same : step.view.setBestBlock index.getHash = step.after := congrArg Prod.fst (Except.ok.inj accepted)
    rw [← same]
    exact ⟨step.coherent.setBestBlock _, CCoinsViewCache.coins_setBestBlock _ _⟩

section

variable (fresh : Ledger.Fresh step.view.coins step.update.entries)

include fresh

theorem refines_update :
    step.update.Valid step.view.coins ∧ step.after.Coherent ∧ step.after.coins = step.update.apply step.view.coins := by
  by_cases genesis : step.IsGenesisBlock
  · have noUpdate : step.update = ⟨[], []⟩ := if_pos genesis
    obtain ⟨coherent, coins⟩ := coins_of_genesis genesis
    rw [coins, noUpdate]
    exact ⟨⟨⟨nodup_nil, nofun⟩, nodup_nil, nofun⟩, coherent, rfl⟩
  · rw [update, if_neg genesis] at fresh
    obtain ⟨index, pprev, added, spent, nFees, -, connects, same⟩ := connectBlock_eq_ok genesis step.accepted
    obtain ⟨adds, spends, -⟩ := connects.refines step.coherent fresh
    rw [update, if_neg genesis]
    rw [if_neg Bool.false_ne_true] at same
    refine ⟨⟨fresh, spends.distinct, ?_⟩, ?_, ?_⟩
    · rw [← adds.coins]
      exact spends.present
    · rw [same]
      exact spends.coherent.setBestBlock _
    · rw [same, CCoinsViewCache.coins_setBestBlock, spends.coins, adds.coins]
      rfl

theorem totalValue_le : totalValue step.after.coins ≤ totalValue step.view.coins + step.subsidy := by
  have accepted := step.accepted
  cases pindex : step.pindex with
  | nil => simp [pindex, connectBlock] at accepted
  | cons index pprev =>
    rw [subsidy, pindex]
    by_cases genesis : step.IsGenesisBlock
    · simp [(coins_of_genesis genesis).2, genesis]
    · rw [pindex] at accepted
      rw [update, if_neg genesis] at fresh
      obtain ⟨last, earlier, added, spent, nFees, chain, connects, same⟩ := connectBlock_eq_ok genesis accepted
      obtain ⟨subsidy, computed, bound⟩ := connects.totalValue_le step.coherent fresh
      rw [same, if_neg Bool.false_ne_true, CCoinsViewCache.coins_setBestBlock]
      simpa only [if_neg genesis, computed, Except.toOption, Option.getD_some] using bound

end

end BlockConnection

/-- A chain of blocks from one map of coins to another. -/
inductive ConnectedChain : Utxo → List (BlockConnection σ) → Utxo → Prop where
  | nil (coins : Utxo) : ConnectedChain coins [] coins
  | cons {step : BlockConnection σ} {rest : List (BlockConnection σ)} {last : Utxo}
      (later : ConnectedChain step.after.coins rest last) : ConnectedChain step.view.coins (step :: rest) last

namespace ConnectedChain

variable {coins last : Utxo} {steps : List (BlockConnection σ)} {earlier : List COutPoint}

/-- The outpoints that the blocks of a chain create. -/
def createdOutpoints (steps : List (BlockConnection σ)) : List COutPoint :=
  (steps.map BlockConnection.update).flatMap Ledger.Update.keys

theorem createdOutpoints_cons (step : BlockConnection σ) (rest : List (BlockConnection σ)) :
    createdOutpoints (step :: rest) = step.update.keys ++ createdOutpoints rest := rfl

theorem fresh_of_createdOnce {update : Ledger.Update COutPoint Coin}
    (known : ∀ outpoint, (coins outpoint).isSome → outpoint ∈ earlier)
    (createdOnce : (earlier ++ update.keys).Nodup) : Ledger.Fresh coins update.entries := by
  obtain ⟨-, distinct, disjoint⟩ := nodup_append'.mp createdOnce
  refine ⟨distinct, fun outpoint listed => ?_⟩
  rw [← Option.not_isSome_iff_eq_none]
  intro present
  exact disjoint (known outpoint present) listed

theorem known_after {step : BlockConnection σ}
    (known : ∀ outpoint, (step.view.coins outpoint).isSome → outpoint ∈ earlier)
    (fresh : Ledger.Fresh step.view.coins step.update.entries) (outpoint : COutPoint)
    (left : (step.after.coins outpoint).isSome) : outpoint ∈ earlier ++ step.update.keys := by
  rw [(BlockConnection.refines_update fresh).2.2] at left
  rcases (Ledger.Update.mem_of_apply_isSome left).1 with before | created
  · exact mem_append_left _ (known outpoint before)
  · exact mem_append_right _ created

section

variable (chain : ConnectedChain coins steps last) (known : ∀ outpoint, (coins outpoint).isSome → outpoint ∈ earlier)
  (createdOnce : (earlier ++ createdOutpoints steps).Nodup)

include chain known createdOnce

theorem run : Ledger.Run coins (steps.map BlockConnection.update) last := by
  induction chain generalizing earlier with
  | nil coins => exact .nil coins
  | @cons step rest last later ih =>
    rw [createdOutpoints_cons, ← append_assoc] at createdOnce
    have fresh := fresh_of_createdOnce known (nodup_append'.mp createdOnce).1
    obtain ⟨valid, -, coins⟩ := BlockConnection.refines_update fresh
    refine .cons valid ?_
    rw [← coins]
    exact ih (known_after known fresh) createdOnce

theorem totalValue_le_subsidies : totalValue last ≤ totalValue coins + (steps.map BlockConnection.subsidy).sum := by
  induction chain generalizing earlier with
  | nil coins => simp
  | @cons step rest last later ih =>
    rw [createdOutpoints_cons, ← append_assoc] at createdOnce
    have fresh := fresh_of_createdOnce known (nodup_append'.mp createdOnce).1
    have first := BlockConnection.totalValue_le fresh
    have others := ih (known_after known fresh) createdOnce
    rw [map_cons, sum_cons]
    omega

end

theorem consumed_nodup (chain : ConnectedChain (fun _ => none) steps last)
    (createdOnce : (createdOutpoints steps).Nodup) :
    ((steps.map BlockConnection.update).flatMap Ledger.Update.removed).Nodup := by
  have known : ∀ outpoint : COutPoint, ((none : Option Coin)).isSome → outpoint ∈ ([] : List COutPoint) := nofun
  exact (chain.run known createdOnce).removed_nodup known createdOnce

end ConnectedChain

end

end Nexa
