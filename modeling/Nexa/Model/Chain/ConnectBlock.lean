import Nexa.Model.Consensus.HeaderValidation
import Nexa.Model.Consensus.TxVerify
import Nexa.Model.Tailstorm.SummaryCoinbase

/-! # Connecting a block to the coins

`CheckBlock`, `ConnectBlock` and the functions between them. The transactions of a block are in the
order of their ids, whichever spends the other, so that all outputs are added to the view before any
input is spent: `ConnectBlockCanonicalOrdering` goes over the block in four passes. The script machine
and the comparison of a summary block with the forest of subblocks are parameters.
-/

namespace Nexa

/-- A script check that waits in the queue: input `nIn` against the outputs the inputs refer to. -/
structure CScriptCheck where
  tx : CTransaction
  inputCoins : List CTxOut
  nIn : ℕ

/-- The state of the node that connecting a block depends on. -/
structure ConnectContext extends NodeContext where
  /-- The script machine under the flags before or after upgrade 2: the number of signature checks it
  counted, `none` when the script fails. -/
  verifyScript : Bool → CScriptCheck → Option ℕ
  fScriptChecks : Bool := true
  fInitialSyncComplete : Bool := true
  tree : CTailstormTree
  /-- The checks of the subblocks of a Tailstorm summary block against the forest, and its dag. -/
  dagForBlock : CBlock → Validation BestDag

/-! ## Checks without the coins -/

/-- The loop of `CheckBlock` over the transactions; `first` is the position 0. -/
def checkTransactions (enforceMinTxSize : Bool) : Bool → List CTransaction → Validation Unit
  | _, [] => pure ()
  | first, tx :: rest => do
    rejectIf (first ∧ !tx.isCoinBase) 100 .invalid "bad-cb-missing"
    rejectIf (!first ∧ tx.isCoinBase) 100 .invalid "bad-cb-multiple"
    checkTransaction enforceMinTxSize tx
    checkTransactions enforceMinTxSize false rest

/-- The Merkle root of a block; a mismatch is no fault of the header, so that no reason is recorded. -/
def checkMerkleRoot (block : CBlock) (fCheckMerkleRoot : Bool) : Validation Unit :=
  if fCheckMerkleRoot then do
    let (hashMerkleRoot2, mutated) := blockMerkleRoot block
    invalidIf (block.hashMerkleRoot ≠ hashMerkleRoot2) .none "" "CheckBlock(): bad merkleroot"
    invalidIf mutated .none "" "CheckBlock(): bad merkleroot - mutated"
  else pure ()

variable (node : NodeContext)

/-- `CheckBlock` for a block that is not yet marked as checked. -/
def checkBlock (block : CBlock) (fCheckPOW fCheckMerkleRoot : Bool) : Validation Unit := do
  checkBlockHeader node.crypto node.params node.adjustedTime block.toCBlockHeader fCheckPOW
  checkMerkleRoot block fCheckMerkleRoot
  rejectIf (block.vtx = []) 100 .invalid "bad-blk-length"
  rejectIf (block.txCount.toNat ≠ block.vtx.length) 100 .invalid "bad-tx-count"
  rejectIf (block.size ≠ block.calculateBlockSize) 100 .invalid "bad-size-commitment"
  checkTransactions node.enforceMinTxSize true block.vtx

/-- A block with its mark of an earlier check: `fChecked`, or an entry of `setBlocksAlreadyChecked`. The
mark is set by a successful `CheckBlock` only. -/
structure CBlockRef where
  block : CBlock
  fChecked : Bool := false
  checked : fChecked = true → ∃ earlier : NodeContext, checkBlock earlier block true true = .ok ()

/-- `CheckBlock` where a mark makes it return at once. -/
def CBlockRef.checkBlock (pblock : CBlockRef) (fCheckPOW fCheckMerkleRoot : Bool) :
    Validation Unit :=
  if pblock.fChecked then pure () else Nexa.checkBlock node pblock.block fCheckPOW fCheckMerkleRoot

def parentHash : BlockIndexRef → Uint256
  | _ :: pprev :: _ => pprev.getHash
  | _ => 0

/-- `GetBlockSubsidy`; a shift by a negative number is undefined. -/
def getBlockSubsidy (params : Params) (nHeight : ℤ) : Validation CAmount := do
  assertThat (params.nSubsidyHalvingInterval ≠ 0)
  let halvings := nHeight.tdiv params.nSubsidyHalvingInterval
  if 64 ≤ halvings then pure 0
  else do
    assertThat (0 ≤ halvings)
    CAmount.ofResult (params.initialSubsidy / 2 ^ halvings.toNat)

/-! ## Checks of a transaction against the coins -/

section

variable (ctx : ConnectContext)

/-- The loop of `CheckInputs` that collects the scripts to be checked; a read-only input needs none. -/
def queueScriptChecks (tx : CTransaction) (inputCoins : List CTxOut) :
    ℕ → List (CTxIn × Coin) → Validation (List CScriptCheck)
  | _, [] => pure []
  | i, (txin, coin) :: rest => do
    let hex := txin.prevout.hash.toHex
    invalidIf coin.isSpent .conflict "bad-txns-inputs-missingorspent" s!"COutPoint {i}:{hex} is spent"
    invalidIf (txin.isReadOnly ∧ txin.amount ≠ 0) .invalid "bad-txns-nonzero-readonly-amount" ""
    invalidIf (!txin.isReadOnly ∧ coin.out.nValue ≠ txin.amount) .invalid "input-amount-mismatch" ""
    let vChecks ← queueScriptChecks tx inputCoins (i + 1) rest
    pure (if txin.isReadOnly && txin.scriptSig.isEmpty then vChecks else ⟨tx, inputCoins, i⟩ :: vChecks)

/-- A failure of `CheckGroupTokens` gets a reason of its own. -/
def checkGroupBalance (inputs readonlyinputs : COutPoint → Coin) (tx : CTransaction) : Validation Unit :=
  match checkGroupTokens tx inputs readonlyinputs with
  | .ok _ => pure ()
  | .error (.rejected _) =>
    dos 0 .malformed "group-token-imbalance" "Group token inputs and outputs do not balance"
  | .error .crash => crash

/-- `CheckInputs` of a transaction that is not a coinbase. -/
def checkInputs (bestBlock : Uint256) (inputs readonlyinputs : COutPoint → Coin) (tx : CTransaction) :
    Validation (List CScriptCheck) := do
  checkTxInputs ctx.toNodeContext bestBlock inputs readonlyinputs tx
  checkGroupBalance inputs readonlyinputs tx
  let coins := tx.vin.map (inputCoin inputs readonlyinputs)
  if ctx.fScriptChecks then queueScriptChecks tx (coins.map Coin.out) 0 (tx.vin.zip coins) else pure []

/-- The walk over the inputs: their presence, their amounts, the heights of their coins and the fees. -/
def walkInputs (view : COutPoint → Coin) : List CTxIn → CAmount → Validation (List ℤ × CAmount)
  | [], nFees => pure ([], nFees)
  | txin :: rest, nFees =>
    if txin.isReadOnly then do
      let (prevheights, nFees) ← walkInputs view rest nFees
      pure (0 :: prevheights, nFees)
    else do
      let coin := view txin.prevout
      rejectIf coin.isSpent 100 .conflict "bad-txns-inputs-missingorspent"
      rejectIf (coin.out.nValue ≠ txin.amount) 100 .invalid "bad-txns-input-amount-mismatch"
      let nFees ← nFees.add coin.out.nValue
      let (prevheights, nFees) ← walkInputs view rest nFees
      pure (↑coin.nHeight.toNat :: prevheights, nFees)

/-- `CheckTxFinalAndInputs` of a transaction that is not a coinbase; `fCheckInputs` gates `CheckInputs`. -/
def checkTxFinalAndInputs (bestBlock : Uint256) (view readonlyCoins : COutPoint → Coin) (pindex : BlockIndexRef)
    (fCheckInputs : Bool) (tx : CTransaction) (nFees : CAmount) : Validation (CAmount × List CScriptCheck) := do
  rejectIf (pindex.length ≤ 1) 100 .nonfinal "bad-txns-nonfinal"
  let (prevheights, nFees) ← walkInputs view tx.vin nFees
  let final ← sequenceLocks tx prevheights pindex
  rejectIf (final = false) 100 .nonfinal "bad-txns-nonfinal"
  if fCheckInputs then do
    let vChecks ← checkInputs ctx bestBlock view readonlyCoins tx
    pure (nFees, vChecks)
  else pure (nFees, [])

end

/-! ## The passes over the block -/

/-- Undo information of a transaction, one coin for each input, and of a block without its coinbase. -/
abbrev CTxUndo := List Coin
abbrev CBlockUndo := List CTxUndo

section

variable {σ : Type} [BackingView σ]

/-- The coins of a view as functions that only read it take them. -/
def CCoinsViewCache.lookup (view : CCoinsViewCache σ) (outpoint : COutPoint) : Coin := (view.accessCoin outpoint).1

/-- A read-only input must be unspent in the view of the tip. -/
def checkReadOnlyInput (view readonlyinputs : COutPoint → Coin) (txin : CTxIn) : Validation Unit :=
  if txin.isReadOnly && (readonlyinputs txin.prevout).isSpent then
    if (view txin.prevout).isSpent then dos 100 .conflict "bad-txns-read-only-inputs-missing-or-spent"
    else dos 100 .invalid "bad-txns-read-only-input-created-in-epoch"
  else pure ()

/-- The first pass, over the inputs of all transactions. -/
def checkReadOnlyInputs (view readonlyinputs : COutPoint → Coin) : List CTxIn → Validation Unit
  | [] => pure ()
  | txin :: rest => do
    checkReadOnlyInput view readonlyinputs txin
    checkReadOnlyInputs view readonlyinputs rest

/-- `AddCoins` from output `i` on. The exception of `AddCoin` is caught by the caller, its assertion not. -/
def addCoins (tx : CTransaction) (nHeight : ℤ) : ℕ → List CTxOut → CCoinsViewCache σ → Validation (CCoinsViewCache σ)
  | _, [], cache => pure cache
  | i, out :: rest, cache => do
    let coin := Coin.ofTxOut out nHeight tx.isCoinBase
    assertThat (coin.isSpent = false)
    match cache.addCoin (tx.outpointAt i) coin tx.isCoinBase with
    | .error _ => dos 100 .invalid "repeated-txn"
    | .ok cache => addCoins tx nHeight (i + 1) rest cache

/-- The second pass adds the outputs and checks the order of the ids behind the coinbase. -/
def addOutputs (height : ℤ) : ℕ → Uint256 → List CTransaction → CCoinsViewCache σ → Validation (CCoinsViewCache σ)
  | _, _, [], view => pure view
  | i, prevTxHash, tx :: rest, view => do
    let view ← addCoins tx height 0 tx.vout view
    if i = 0 then addOutputs height 1 prevTxHash rest view
    else do
      rejectIf (i ≠ 1 ∧ tx.getId < prevTxHash) 100 .invalid "bad-txn-order"
      addOutputs height (i + 1) tx.getId rest view

/-- The third pass checks the consumed inputs, while all outputs are there and nothing is spent. -/
def checkConsumedInputs (ctx : ConnectContext) (block : CBlock) (bestBlock : Uint256)
    (view readonlyinputs : COutPoint → Coin) (pindexEpoch : BlockIndexRef) :
    List CTransaction → CAmount → Validation (CAmount × List (List CScriptCheck))
  | [], nFees => pure (nFees, [])
  | tx :: rest, nFees =>
    if tx.isCoinBase then do
      let (nFees, vChecks) ← checkConsumedInputs ctx block bestBlock view readonlyinputs pindexEpoch rest nFees
      pure (nFees, [] :: vChecks)
    else do
      let fCheckInputs := decide (tx.getId ∈ block.setUnVerifiedTxns) || !block.fXVal
      let (nFees, txChecks) ←
        checkTxFinalAndInputs ctx bestBlock view readonlyinputs pindexEpoch fCheckInputs tx nFees
      let valueOut ← tx.getValueOut
      let nFees ← CAmount.ofResult (nFees.toInt - valueOut.toInt)
      let (nFees, vChecks) ← checkConsumedInputs ctx block bestBlock view readonlyinputs pindexEpoch rest nFees
      pure (nFees, txChecks :: vChecks)

/-- The loop of `SpendCoins`; read-only inputs leave a placeholder. -/
def spendInputs : List CTxIn → CCoinsViewCache σ → Option (CTxUndo × CCoinsViewCache σ)
  | [], inputs => some ([], inputs)
  | txin :: rest, inputs =>
    if txin.isReadOnly then (spendInputs rest inputs).map fun (vprevout, inputs) => ({} :: vprevout, inputs)
    else
      match inputs.spendCoin txin.prevout with
      | (false, _, _) => none
      | (true, moveout, inputs) => (spendInputs rest inputs).map fun (vprevout, inputs) => (moveout :: vprevout, inputs)

def spendCoins (tx : CTransaction) (inputs : CCoinsViewCache σ) : Option (CTxUndo × CCoinsViewCache σ) :=
  if tx.isCoinBase then some ([], inputs) else spendInputs tx.vin inputs

/-- The last pass; the undo information of the first transaction is a dummy. -/
def spendTransactions : ℕ → List CTransaction → CCoinsViewCache σ → Validation (CBlockUndo × CCoinsViewCache σ)
  | _, [], view => pure ([], view)
  | i, tx :: rest, view =>
    match spendCoins tx view with
    | none => dos 100 .conflict "bad-txns-inputs-missingorspent"
    | some (txundo, view) => do
      let (vtxundo, view) ← spendTransactions (i + 1) rest view
      pure (if i = 0 then vtxundo else txundo :: vtxundo, view)

/-- The signature checks of one transaction, `none` when a script fails. -/
def countSigChecks (verify : CScriptCheck → Option ℕ) : List CScriptCheck → Option ℕ
  | [] => some 0
  | check :: rest => do
    let sigChecks ← verify check
    let others ← countSigChecks verify rest
    pure (sigChecks + others)

/-- `MAX_TX_SIGCHECK_COUNT` and `BLOCK_SIGCHECKS_RATIO`. -/
def maxTxSigcheckCount : ℕ := 3000
def blockSigchecksRatio : ℕ := 141

def getMaxBlockSigChecks (nBlockSize : UInt64) : Validation ℕ :=
  if 0 < node.maxSigChecks then pure node.maxSigChecks.toNat
  else do
    assertThat (node.nextMaxBlockSize = 0 → defaultNextMaxBlockSize ≤ nBlockSize.toNat)
    pure (nBlockSize.toNat / blockSigchecksRatio)

variable (ctx : ConnectContext)

/-- Waits for the script checks and, before upgrade 2, compares their signature checks with the limits. -/
def checkScripts (pindexEpoch : BlockIndexRef) (vChecks : List (List CScriptCheck)) :
    Validation Unit :=
  let upgrade2 := ctx.isUpgrade2Activated pindexEpoch
  match vChecks.mapM (countSigChecks (ctx.verifyScript upgrade2)) with
  | none => dos 100 .invalid "bad-blk-signatures" "parallel script check failed"
  | some sigChecks =>
    if upgrade2 then pure ()
    else do
      rejectIf (∃ txSigChecks ∈ sigChecks, maxTxSigcheckCount < txSigChecks) 100 .invalid "bad-tx-sigchecks"
        "per transaction sigcheck limit exceeded"
      let maxSigChecksAllowed ← getMaxBlockSigChecks ctx.toNodeContext
        (match pindexEpoch with
          | _ :: pprev :: _ => ctx.getNextMaxBlockSize pprev
          | _ => ctx.params.nNextMaxBlockSize)
      rejectIf (maxSigChecksAllowed < sigChecks.sum) 100 .invalid "bad-blk-sigchecks" "block sigcheck limit exceeded"

variable (block : CBlock) (pindex : BlockIndexRef)

/-- The index entry under which the transactions count: that of the block, or for a subblock a stand-in
for the summary block to come. -/
def epochIndex : BlockIndexRef :=
  if block.isSummaryBlock then pindex else { header := block.toCBlockHeader } :: pindex

/-- `ConnectBlockCanonicalOrdering` as `ConnectBlock` calls it, without transactions to skip: the view, the
fees and the undo information. -/
def connectBlockCanonicalOrdering
    (view readonlyinputs : CCoinsViewCache σ) : Validation (CCoinsViewCache σ × CAmount × CBlockUndo) := do
  let height := toInt32 block.height.toNat
  let pindexEpoch := epochIndex block pindex
  checkReadOnlyInputs view.lookup readonlyinputs.lookup (block.vtx.flatMap CTransaction.vin)
  let view ← addOutputs height 0 0 block.vtx view
  let (nFees, vChecks) ← checkConsumedInputs ctx block view.getBestBlock view.lookup readonlyinputs.lookup
    pindexEpoch block.vtx 0
  let (blockundo, view) ← spendTransactions 0 block.vtx view
  checkScripts ctx pindexEpoch vChecks
  pure (view, nFees, blockundo)

/-! ## ConnectBlock -/

/-- `ConnectBlockPrevalidations`; the dag of a block that is no Tailstorm summary block is empty. -/
def connectBlockPrevalidations (pblock : CBlockRef) (pindex : BlockIndexRef)
    (view : CCoinsViewCache σ) (fJustCheck : Bool) : Validation BestDag := do
  pblock.checkBlock ctx.toNodeContext (!fJustCheck) (!fJustCheck)
  assertThat (parentHash pindex = view.getBestBlock)
  if ctx.fInitialSyncComplete && pblock.block.isTailstormSummaryBlock then ctx.dagForBlock pblock.block
  else pure ⟨[], List.nodup_nil⟩

/-- The coinbase against the reward, and that of a Tailstorm summary block against its dag. -/
def checkCoinbaseReward (nFees : CAmount)
    (setDag : BestDag) : Validation Unit :=
  match block.vtx, pindex with
  | coinbase :: _, index :: _ => do
    let subsidy ← getBlockSubsidy ctx.params (toInt32 index.height)
    let blockReward ← nFees.add subsidy
    let paid ← coinbase.getValueOut
    rejectIf (blockReward.toInt < paid.toInt) 100 .invalid "bad-cb-amount"
    if block.isTailstormSummaryBlock then do
      let matchesDag ← validateSummaryBlockCoinbase ctx.tree ctx.params blockReward block setDag
      rejectIf (matchesDag = false) 100 .invalid "bad-cb-no-dag-match"
    else pure ()
  | _, _ => crash

/-- `ConnectBlock`: the view and the undo information, which a mere check does not write. -/
def connectBlock (pblock : CBlockRef) (pindex : BlockIndexRef)
    (view beginningTipView : CCoinsViewCache σ) (fJustCheck : Bool) :
    Validation (CCoinsViewCache σ × CBlockUndo) :=
  match pindex with
  | [] => crash
  | index :: _ => do
    let block := pblock.block
    assertThat (index.header.size = block.size ∧ index.header.height = block.height)
    if block.getHash = ctx.params.hashGenesisBlock then
      pure (if fJustCheck then view else view.setBestBlock index.getHash, [])
    else do
      let setDag ← connectBlockPrevalidations ctx pblock pindex view fJustCheck
      let (view, nFees, blockundo) ← connectBlockCanonicalOrdering ctx block pindex view beginningTipView
      checkCoinbaseReward ctx block pindex nFees setDag
      pure (if fJustCheck then view else view.setBestBlock index.getHash, blockundo)

end

end Nexa
