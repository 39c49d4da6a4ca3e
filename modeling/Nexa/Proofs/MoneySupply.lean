import Nexa.Proofs.CoinsMinted
import Nexa.Proofs.TokenGenesis

/-! # The money supply

The coins of a chain are worth what its blocks mint at most, and no chain mints more than twice the
subsidies of the first era.
-/

namespace Nexa

variable {initial interval : ℕ}

theorem mintedBelow_le (positive : 0 < interval) (height : ℕ) :
    mintedBelow initial interval height ≤ 2 * (initial * interval) := by
  have eras := @mintedBelow_add_le initial interval (height / interval + 1) positive
  have below : height ≤ (height / interval + 1) * interval := by
    rw [mul_comm]
    exact (Nat.lt_mul_div_succ height positive).le
  have more : mintedBelow initial interval height ≤ _ := Finset.sum_le_sum_of_subset (Finset.range_mono below)
  exact more.trans (Nat.le_of_add_right_le eras)

theorem sum_subsidyAt_le (positive : 0 < interval) {heights : List ℕ} (distinct : heights.Nodup) :
    (heights.map (subsidyAt initial interval)).sum ≤ 2 * (initial * interval) := by
  obtain ⟨height, bound⟩ := Finset.exists_nat_subset_range heights.toFinset
  rw [← List.sum_toFinset _ distinct]
  exact (Finset.sum_le_sum_of_subset bound).trans (mintedBelow_le positive height)

variable {σ : Type} [BackingView σ] {params : Params}

/-- The height at which the block is connected. -/
def BlockConnection.height (step : BlockConnection σ) : ℕ := step.pindex.head?.elim 0 CBlockIndex.height

theorem BlockConnection.subsidy_le {step : BlockConnection σ} (mint : MintParams step.ctx.params initial interval)
    (low : step.height < 2 ^ 31) : step.subsidy ≤ subsidyAt initial interval step.height := by
  rw [height] at *
  rw [subsidy]
  cases pindex : step.pindex with
  | nil => exact Int.natCast_nonneg _
  | cons index pprev =>
    rw [pindex] at low
    have same : toInt32 index.height = index.height := by
      rw [toInt32, Int.bmod_def]
      change index.height < _ at low
      split_ifs <;> omega
    obtain ⟨subsidy, computed, value⟩ := mint.getBlockSubsidy index.height
    dsimp only
    split_ifs
    · exact Int.natCast_nonneg _
    · rw [same, computed]
      exact value.le

/-- On a chain that starts without coins, all coins are worth at most twice the subsidies of the first era. -/
theorem ConnectedChain.totalValue_le_supply {steps : List (BlockConnection σ)} {last : Utxo}
    (chain : ConnectedChain (fun _ => none) steps last) (createdOnce : (createdOutpoints steps).Nodup)
    (mint : MintParams params initial interval) (network : ∀ step ∈ steps, step.ctx.params = params)
    (distinct : (steps.map BlockConnection.height).Nodup) (low : ∀ step ∈ steps, step.height < 2 ^ 31) :
    totalValue last ≤ 2 * (initial * interval : ℕ) := by
  have minted := chain.totalValue_le_subsidies nofun (show ([] ++ createdOutpoints steps).Nodup from createdOnce)
  have subsidies : (steps.map BlockConnection.subsidy).sum ≤
      ((steps.map BlockConnection.height).map (subsidyAt initial interval)).sum := by
    rw [Nat.cast_list_sum, List.map_map, List.map_map]
    exact List.sum_le_sum fun step member => BlockConnection.subsidy_le (network step member ▸ mint) (low step member)
  have bound := @sum_subsidyAt_le initial interval mint.positive _ distinct
  have none : totalValue (fun _ => none) = 0 := Finset.sum_const_zero
  omega

theorem ConnectedChain.totalValue_le_supply_sample : totalValue sampleOwnStep.after.coins ≤ 200000 :=
  sampleOwnStep_chain.totalValue_le_supply (by decide +kernel)
    (show MintParams sampleConnectContext.params 1000 100 from ⟨rfl, rfl, by decide, by decide⟩)
    (List.forall_mem_singleton.mpr rfl) (List.nodup_singleton _) (List.forall_mem_singleton.mpr (by decide +kernel))

end Nexa
