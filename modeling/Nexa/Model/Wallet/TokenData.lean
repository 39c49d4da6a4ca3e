import Nexa.Model.Consensus.GroupTokens

/-! # The token index

`grouptokencache.cpp`: while a block is connected, `AccumulateTokenData` gathers from every transaction the
amounts that are minted and melted and the authorities that are created and used up. The sums wrap around
like the machine's. Addresses are represented by the scripts they are made from, and the group that a
token description is stored for is a parameter.
-/

namespace Nexa

/-- `CAuth`: the number of authorities that allow something. -/
structure CAuth where
  nMint : ℤ := 0
  nMelt : ℤ := 0
  nRenew : ℤ := 0
  nRescript : ℤ := 0
  nSubgroup : ℤ := 0
deriving DecidableEq, Repr

/-- Adds `sign` to the number of each thing that an authority allows. -/
def CAuth.count (authority : CAuth) (sign : ℤ) (tg : CGroupTokenInfo) : CAuth where
  nMint := authority.nMint + sign * tg.allowsMint.toNat
  nMelt := authority.nMelt + sign * tg.allowsMelt.toNat
  nRenew := authority.nRenew + sign * tg.allowsRenew.toNat
  nRescript := authority.nRescript + sign * tg.allowsRescript.toNat
  nSubgroup := authority.nSubgroup + sign * tg.allowsSubgroup.toNat

structure Amounts where
  nTokenInputs : CAmount := 0
  nTokenOutputs : CAmount := 0
deriving DecidableEq, Repr

abbrev CAuthMap := AList fun _ : CGroupTokenID => CAuth
abbrev CMintageMap := AList fun _ : CGroupTokenID => CAmount

/-- The local variables of `AccumulateTokenData`, and the map of authorities. -/
structure TokenScan where
  accumulatedAuthorities : CAuthMap
  mintages : AList fun _ : CGroupTokenID => Amounts := ∅
  mintageGenesis : AList fun _ : CGroupTokenID => CScript := ∅
  authority : CAuth := {}
  fHaveInputAuthority : Bool := false
  fHaveOutputAuthority : Bool := false
  fHaveOpReturn : Bool := false
  genesisScript : CScript := []

namespace TokenScan

variable (scan : TokenScan)

/-- The amounts of a group, created by `operator[]` if need be. -/
def amounts (group : CGroupTokenID) : Amounts := (scan.mintages.lookup group).getD {}

/-- `authority` is swapped with the entry of the group if there is one, counted up or down, and stored. A group
without an entry finds in `authority` what was stored last. -/
def recordAuthority (sign : ℤ) (tg : CGroupTokenInfo) : TokenScan :=
  let authority := ((scan.accumulatedAuthorities.lookup tg.associatedGroup).getD scan.authority).count sign tg
  { scan with
    authority
    accumulatedAuthorities := scan.accumulatedAuthorities.insert tg.associatedGroup authority }

def addInput (tg : CGroupTokenInfo) : TokenScan :=
  let amounts := scan.amounts tg.associatedGroup
  { scan with
    mintages := scan.mintages.insert tg.associatedGroup
      { amounts with nTokenInputs := amounts.nTokenInputs + tg.quantity } }

def addOutput (tg : CGroupTokenInfo) (scriptPubKey : CScript) : TokenScan :=
  let amounts := scan.amounts tg.associatedGroup
  { scan with
    mintages := scan.mintages.insert tg.associatedGroup
      { amounts with nTokenOutputs := amounts.nTokenOutputs + tg.quantity }
    mintageGenesis :=
      if tg.associatedGroup ∉ scan.mintageGenesis ∧ tg.associatedGroup.isSubgroup then
        scan.mintageGenesis.insert tg.associatedGroup scriptPubKey
      else scan.mintageGenesis }

/-- Whether an input authority counts: it is consumed, or may renew itself and is signed. -/
def countsAuthority (txin : CTxIn) (tg : CGroupTokenInfo) : Bool :=
  tg.associatedGroup ≠ CGroupTokenID.NoGroup && tg.isAuthority &&
    (!txin.isReadOnly || (txin.isReadOnly && tg.allowsRenew && txin.scriptSig.length ≠ 0))

/-- The body of the loop over the inputs, for a coin that is there. -/
def scanInput (txin : CTxIn) (txout : CTxOut) : TokenScan :=
  let tg := CGroupTokenInfo.ofTxOut txout
  let scan := if !txin.isReadOnly ∧ tg.associatedGroup ≠ CGroupTokenID.NoGroup ∧ !tg.isAuthority then scan.addInput tg
    else scan
  if countsAuthority txin tg then { scan with fHaveInputAuthority := true }.recordAuthority (-1) tg else scan

/-- The loop over the inputs, which ends early when a coin is missing. -/
def scanInputs (view : COutPoint → Coin) : List CTxIn → TokenScan → Bool × TokenScan
  | [], scan => (true, scan)
  | txin :: rest, scan =>
    if (view txin.prevout).isSpent then (false, scan)
    else scanInputs view rest (scan.scanInput txin (view txin.prevout).out)

/-- The body of the loop over the outputs. -/
def scanOutput (out : CTxOut) : TokenScan :=
  let tg := CGroupTokenInfo.ofTxOut out
  let scan := if tg.associatedGroup ≠ CGroupTokenID.NoGroup ∧ !tg.isAuthority then scan.addOutput tg out.scriptPubKey
    else scan
  if out.scriptPubKey.head?.map UInt8.toNat = some OP_RETURN then { scan with fHaveOpReturn := true }
  else if tg.associatedGroup ≠ CGroupTokenID.NoGroup ∧ tg.isAuthority then
    { scan with
      fHaveOutputAuthority := true
      genesisScript := if scan.fHaveOutputAuthority then scan.genesisScript else out.scriptPubKey }.recordAuthority 1 tg
  else scan

end TokenScan

/-- What `AccumulateTokenData` adds to: the two maps, and the calls of `AddTokenGenesis`. -/
structure TokenRecords where
  accumulatedAuthorities : CAuthMap := ∅
  accumulatedMintages : CMintageMap := ∅
  tokenGenesis : List (CGroupTokenID × CScript) := []

namespace TokenRecords

/-- The mintage recorded for a group. -/
def mintage (records : TokenRecords) (group : CGroupTokenID) : CAmount :=
  (records.accumulatedMintages.lookup group).getD 0

variable (mintageGenesis : AList fun _ : CGroupTokenID => CScript) (grpID : CGroupTokenID) (amounts : Amounts)

/-- Mint: tokens come out of a group that no tokens went into. -/
def recordMint
    (records : TokenRecords) : TokenRecords :=
  if amounts.nTokenInputs = 0 ∧ 0 < amounts.nTokenOutputs.toInt then
    { records with
      accumulatedMintages := records.accumulatedMintages.insert grpID (records.mintage grpID + amounts.nTokenOutputs)
      tokenGenesis :=
        if grpID.isSubgroup then records.tokenGenesis ++ [(grpID, (mintageGenesis.lookup grpID).getD [])]
        else records.tokenGenesis }
  else records

/-- Melt: fewer tokens come out of a group than went into it. -/
def recordMelt (records : TokenRecords) : TokenRecords :=
  if amounts.nTokenOutputs.toInt < amounts.nTokenInputs.toInt then
    let nMeltAmount := amounts.nTokenInputs - amounts.nTokenOutputs
    { records with
      accumulatedMintages := records.accumulatedMintages.insert grpID (records.mintage grpID - nMeltAmount) }
  else records

/-- The body of the loop over `mintages`. -/
def recordMintage (records : TokenRecords)
    (entry : Σ _ : CGroupTokenID, Amounts) : TokenRecords :=
  recordMelt entry.1 entry.2 (recordMint mintageGenesis entry.1 entry.2 records)

/-- The loop over `mintages`, a `std::map`, which is in the order of the groups. -/
def recordMintages (mintages : AList fun _ : CGroupTokenID => Amounts) (records : TokenRecords) : TokenRecords :=
  (mintages.entries.insertionSort fun x y => x.1 ≤ y.1).foldl (recordMintage mintageGenesis) records

end TokenRecords

/-- `AccumulateTokenData`. `describedGroup` is the group that `ProcessTokenDescriptions` finds. -/
def accumulateTokenData (describedGroup : CTransaction → CGroupTokenID) (view : COutPoint → Coin) (ptx : CTransaction)
    (records : TokenRecords) : Bool × TokenRecords :=
  if ptx.isCoinBase then (true, records)
  else
    match TokenScan.scanInputs view ptx.vin { accumulatedAuthorities := records.accumulatedAuthorities } with
    | (false, scan) => (false, { records with accumulatedAuthorities := scan.accumulatedAuthorities })
    | (true, scan) =>
      let scan := ptx.vout.foldl TokenScan.scanOutput scan
      let records := { records with accumulatedAuthorities := scan.accumulatedAuthorities }
      let records := records.recordMintages scan.mintageGenesis scan.mintages
      let describes := !scan.fHaveInputAuthority && scan.fHaveOutputAuthority && scan.fHaveOpReturn
      if describes && describedGroup ptx ≠ CGroupTokenID.NoGroup then
        (true, { records with tokenGenesis := records.tokenGenesis ++ [(describedGroup ptx, scan.genesisScript)] })
      else (true, records)

end Nexa
