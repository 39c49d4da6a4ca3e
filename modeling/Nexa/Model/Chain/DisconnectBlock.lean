import Nexa.Model.Chain.ConnectBlock

/-! # Disconnecting a block from the coins

`DisconnectBlock` reverses the order of `ConnectBlock`: it restores the inputs of all transactions from
the undo information and then removes the outputs, which it expects to find as the block has them.
-/

namespace Nexa

inductive DisconnectResult where
  | ok
  | unclean
  | failed
deriving DecidableEq, Repr

/-- The result of a run that did not fail. -/
def DisconnectResult.ofClean (fClean : Bool) : DisconnectResult := if fClean then .ok else .unclean

variable {σ : Type} [BackingView σ]

/-- The metadata of a coin that was stored without it come from the coin that is there, if any. -/
def undoMetadata (undo : Coin) (out : COutPoint) (view : CCoinsViewCache σ) : Option Coin × CCoinsViewCache σ :=
  if undo.nHeight = 0 then
    match view.accessCoin out with
    | (alternate, view) =>
      if alternate.isSpent then (none, view)
      else (some { undo with nHeight := alternate.nHeight, fCoinBase := alternate.fCoinBase }, view)
  else (some undo, view)

def applyTxInUndo (undo : Coin) (view : CCoinsViewCache σ) (out : COutPoint) :
    Validation (DisconnectResult × CCoinsViewCache σ) :=
  match view.haveCoin out with
  | (overwrites, view) =>
    match undoMetadata undo out view with
    | (none, view) => pure (.failed, view)
    | (some undo, view) => do
      let view ← view.addCoin out undo overwrites
      pure (.ofClean !overwrites, view)

/-- The inputs of one transaction, given in the order in which they are restored. -/
def restoreInputs : List (CTxIn × Coin) → Bool → CCoinsViewCache σ → Validation (DisconnectResult × CCoinsViewCache σ)
  | [], fClean, view => pure (.ofClean fClean, view)
  | (txin, undo) :: rest, fClean, view =>
    if txin.isReadOnly then restoreInputs rest fClean view
    else do
      match ← applyTxInUndo undo view txin.prevout with
      | (.failed, view) => pure (.failed, view)
      | (res, view) => restoreInputs rest (fClean && decide (res ≠ .unclean)) view

/-- The first loop of `DisconnectBlock`, over the transactions behind the coinbase; the inputs of each are
restored from the last one on. -/
def restoreTransactions : List (CTransaction × CTxUndo) → Bool → CCoinsViewCache σ →
    Validation (DisconnectResult × CCoinsViewCache σ)
  | [], fClean, view => pure (.ofClean fClean, view)
  | (tx, txundo) :: rest, fClean, view =>
    if txundo.length ≠ tx.vin.length then pure (.failed, view)
    else do
      match ← restoreInputs (tx.vin.zip txundo).reverse fClean view with
      | (.failed, view) => pure (.failed, view)
      | (res, view) => restoreTransactions rest (decide (res = .ok)) view

/-- `operator==` of outputs, which does not look at the type. -/
def CTxOut.sameAs (a b : CTxOut) : Bool := decide (a.nValue = b.nValue ∧ a.scriptPubKey = b.scriptPubKey)

/-- Removes the outputs of a transaction from output `o` on. -/
def removeOutputs (tx : CTransaction) : ℕ → List CTxOut → Bool → CCoinsViewCache σ → Bool × CCoinsViewCache σ
  | _, [], fClean, view => (fClean, view)
  | o, out :: rest, fClean, view =>
    if out.scriptPubKey.isUnspendable then removeOutputs tx (o + 1) rest fClean view
    else
      match view.spendCoin (tx.outpointAt o) with
      | (_, coin, view) => removeOutputs tx (o + 1) rest (fClean && out.sameAs coin.out) view

/-- The last loop of `DisconnectBlock`. -/
def removeTransactions : List CTransaction → Bool → CCoinsViewCache σ → Bool × CCoinsViewCache σ
  | [], fClean, view => (fClean, view)
  | tx :: rest, fClean, view =>
    match removeOutputs tx 0 tx.vout fClean view with
    | (fClean, view) => removeTransactions rest fClean view

/-- `DisconnectBlock`; `blockUndo` is what could be read from disk. -/
def disconnectBlock (block : CBlock) (pindex : BlockIndexRef) (blockUndo : Option CBlockUndo)
    (view : CCoinsViewCache σ) : Validation (DisconnectResult × CCoinsViewCache σ) :=
  match pindex with
  | [] => crash
  | index :: pprev => do
    assertThat (index.getHash = view.getBestBlock)
    match blockUndo with
    | none => pure (.failed, view)
    | some vtxundo =>
      if vtxundo.length + 1 ≠ block.vtx.length then pure (.failed, view)
      else do
        match ← restoreTransactions (block.vtx.tail.zip vtxundo) true view with
        | (.failed, view) => pure (.failed, view)
        | (res, view) =>
          match removeTransactions block.vtx (decide (res = .ok)) view, pprev with
          | _, [] => crash
          | (fClean, view), prev :: _ => pure (.ofClean fClean, view.setBestBlock prev.getHash)

end Nexa
