import Nexa.Model.Script.ScriptTemplate
import Nexa.Model.Tailstorm.SummaryCoinbase

/-! # The coinbase that a miner builds

`BlockAssembler::coinbaseTx`: the shares of the reward, grouped by script, and behind them an output with
the height and the message of the miner.
-/

namespace Nexa

/-- What the settings of a node put into its coinbases: the message that `FormatCoinbaseMessage` makes and
`relay.dataCarrierSize`. -/
structure CoinbaseSettings where
  cbMsg : Bytes := []
  dataCarrierSize : ℕ := 223
  /-- What a script of 4 GiB shows of its memory once its size has wrapped around, if so much can be allocated. -/
  stray : Option Bytes := none

/-- The start of the data output, which makes the coinbase unique. -/
def heightScript (nHeight : ℤ) : CScript := UInt8.ofNat OP_RETURN :: pushInt64 nHeight

/-- The script of the data output; the message is cut off where the output would get too long. The space left
for it is an unsigned number. If it wraps around, so does the size of the script, to 29 less what is missing. -/
def coinbaseData (settings : CoinbaseSettings) (nHeight : ℤ) : Validation CScript :=
  let flags := pushVector settings.cbMsg
  let used := (heightScript nHeight).length
  if settings.dataCarrierSize < used + flags.length then
    if used ≤ settings.dataCarrierSize then pure (heightScript nHeight ++ flags.take (settings.dataCarrierSize - used))
    else
      match settings.stray with
      | none => crash
      | some stray => pure (heightScript nHeight ++ stray.take (29 - (used - settings.dataCarrierSize)))
  else pure (heightScript nHeight ++ flags)

variable (tree : CTailstormTree) (params : Params)

variable (scriptType : ScriptType)

def payTo (scriptPubKey : CScript) (nValue : CAmount) : CTxOut where
  type := if scriptType = .template then CTxOut.TEMPLATE else CTxOut.SATOSCRIPT
  nValue := nValue
  scriptPubKey := scriptPubKey

/-- The outputs in front of the data output. -/
def coinbasePayouts (scriptPubKeyIn : CScript) (nValue : CAmount) :
    Option BestDag → Validation (List CTxOut)
  | none => pure [payTo scriptType scriptPubKeyIn nValue]
  | some setBestDag =>
    if setBestDag.nodes = [] then pure [payTo scriptType scriptPubKeyIn nValue]
    else do
      let vout ← rewardOutputs tree params nValue setBestDag (payTo scriptType scriptPubKeyIn)
      let mapGroupedDagOutputs ← groupOutputs vout ∅
      pure (mapGroupedDagOutputs.inOrder.map fun entry => entry.2)

def coinbaseWith (payouts : List CTxOut) (data : CScript) : CTransaction where
  vin := []
  vout := payouts ++ [{ nValue := 0, scriptPubKey := data }]

/-- `BlockAssembler::coinbaseTx`; a coinbase that is too small is filled up. -/
def coinbaseTx (settings : CoinbaseSettings) (scriptType : ScriptType) (scriptPubKeyIn : CScript)
    (nHeight : ℤ) (nValue : CAmount) (setBestDag : Option BestDag) : Validation CTransaction := do
  let payouts ← coinbasePayouts tree params scriptType scriptPubKeyIn nValue setBestDag
  let data ← coinbaseData settings nHeight
  let nCoinbaseSize := (coinbaseWith payouts data).getTxSize
  if nCoinbaseSize < minTxSize then
    pure (coinbaseWith payouts (data ++ pushVector (List.replicate (minTxSize - nCoinbaseSize - 1) 0)))
  else pure (coinbaseWith payouts data)

end Nexa
