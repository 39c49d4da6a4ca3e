import Nexa.Model.Chain.ConnectBlock

/-! # The coins minted up to a height

`GetCoinsMinted` adds up the subsidies era by era: the blocks between two halvings all have the same.
An `int` that leaves its range is a crash, the total is a `uint64_t`.
-/

namespace Nexa

/-- The variables of the loop of `GetCoinsMinted`. -/
structure MintState where
  totalMinted : UInt64 := 0
  nSubsidy : CAmount
  trackedHeight : ℤ

/-- The loop body of `GetCoinsMinted`. -/
def mintRound (params : Params) (state : MintState) : Validation MintState :=
  if (params.nSubsidyHalvingInterval : ℤ) ≤ state.trackedHeight then do
    let minted ← CAmount.ofResult (state.nSubsidy.toInt * params.nSubsidyHalvingInterval)
    pure
      { totalMinted := state.totalMinted + minted.toUInt64
        nSubsidy := state.nSubsidy >>> 1
        trackedHeight := state.trackedHeight - params.nSubsidyHalvingInterval }
  else do
    let minted ← CAmount.ofResult (state.nSubsidy.toInt * state.trackedHeight)
    pure { state with totalMinted := state.totalMinted + minted.toUInt64, nSubsidy := state.nSubsidy >>> 1 }

/-- The loop of `GetCoinsMinted` from the round `i` on; its counter is an `int`. -/
def mintLoop (params : Params) (halvings : ℤ) : ℕ → ℤ → MintState → Validation MintState
  | 0, _, state => pure state
  | fuel + 1, i, state =>
    if i ≤ halvings then do
      let state ← mintRound params state
      assertThat (i + 1 < 2 ^ 31)
      mintLoop params halvings fuel (i + 1) state
    else pure state

def getCoinsMinted (params : Params) (nHeight : ℤ) : Validation UInt64 := do
  assertThat (params.nSubsidyHalvingInterval ≠ 0)
  let halvings := nHeight.tdiv params.nSubsidyHalvingInterval
  let subsidy ← CAmount.ofResult params.initialSubsidy
  -- the condition of the loop is tested once more than its body runs
  let state ← mintLoop params halvings (halvings + 2).toNat 0 { nSubsidy := subsidy, trackedHeight := nHeight }
  pure state.totalMinted

end Nexa
