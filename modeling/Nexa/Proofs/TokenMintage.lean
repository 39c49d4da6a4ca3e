import Nexa.Model.Wallet.TokenData
import Nexa.Proofs.TokenAuthority
import Nexa.ToMathlib.MultiMap

/-! # What is recorded as minted

`AccumulateTokenData` adds up the tokens that go into a group and that come out of it. It records the
difference when nothing went in, or when less came out than went in. When tokens of a group are moved and
minted in one transaction, the increase is not recorded.
-/

namespace Nexa

open GroupAuthorityFlags CGroupTokenID CGroupTokenInfo List Int64

/-! ## Totals of a transaction -/

/-- A coin or output of the group that is not an authority. -/
def IsToken (group : CGroupTokenID) (out : CTxOut) : Prop :=
  (ofTxOut out).associatedGroup = group ∧ (ofTxOut out).isAuthority = false

instance (group : CGroupTokenID) (out : CTxOut) : Decidable (IsToken group out) := inferInstanceAs (Decidable (_ ∧ _))

variable (view : COutPoint → Coin)

/-- The quantity in the consumed inputs of the group that are not authorities. -/
def tokenInputs (vin : List CTxIn) (group : CGroupTokenID) : ℤ :=
  ((vin.filter fun txin => txin.isReadOnly = false ∧ IsToken group (view txin.prevout).out).map fun txin =>
    (ofTxOut (view txin.prevout).out).quantity.toInt).sum

/-- The quantity in the outputs of the group that are not authorities. -/
def tokenOutputs (vout : List CTxOut) (group : CGroupTokenID) : ℤ :=
  ((vout.filter fun out => IsToken group out).map fun out => (ofTxOut out).quantity.toInt).sum

theorem tokenInputs_cons (txin : CTxIn) (rest : List CTxIn) (group : CGroupTokenID) :
    tokenInputs view (txin :: rest) group = (if txin.isReadOnly = false ∧ IsToken group (view txin.prevout).out then
        (ofTxOut (view txin.prevout).out).quantity.toInt else 0) + tokenInputs view rest group := by
  split_ifs <;> simp_all [tokenInputs]

theorem tokenOutputs_cons (out : CTxOut) (rest : List CTxOut) (group : CGroupTokenID) :
    tokenOutputs (out :: rest) group =
      (if IsToken group out then (ofTxOut out).quantity.toInt else 0) + tokenOutputs rest group := by
  split_ifs <;> simp_all [tokenOutputs]

theorem IsToken.quantity_nonneg {group : CGroupTokenID} {out : CTxOut} (token : IsToken group out) :
    0 ≤ (ofTxOut out).quantity.toInt := by
  by_contra negative
  have authority := (isAuthority_iff out).2.mpr (not_le.mp negative)
  rw [token.2] at authority
  cases authority

theorem IsToken.quantity_eq_zero {out : CTxOut} (token : IsToken NoGroup out) : (ofTxOut out).quantity = 0 := by
  obtain ⟨-, zero, -⟩ | ⟨long, -, -⟩ := ofTxOut_wellFormed out
  · exact zero
  · rw [token.1] at long
    cases long

theorem tokenInputs_nonneg (vin : List CTxIn) (group : CGroupTokenID) : 0 ≤ tokenInputs view vin group := by
  apply sum_nonneg
  simp only [forall_mem_map, mem_filter, decide_eq_true_eq]
  exact fun txin kept => kept.2.2.quantity_nonneg

theorem tokenOutputs_nonneg (vout : List CTxOut) (group : CGroupTokenID) : 0 ≤ tokenOutputs vout group := by
  apply sum_nonneg
  simp only [forall_mem_map, mem_filter, decide_eq_true_eq]
  exact fun out kept => kept.2.quantity_nonneg

/-! ## The two loops -/

namespace Amounts

variable (amounts : Amounts) (first second : CAmount) (quantity : CAmount)

/-- Amounts with more tokens in. -/
def plusInputs : Amounts := { amounts with nTokenInputs := amounts.nTokenInputs + quantity }

/-- Amounts with more tokens out. -/
def plusOutputs : Amounts := { amounts with nTokenOutputs := amounts.nTokenOutputs + quantity }

@[simp] theorem plusInputs_zero : amounts.plusInputs 0 = amounts := by simp [plusInputs]

@[simp] theorem plusOutputs_zero : amounts.plusOutputs 0 = amounts := by simp [plusOutputs]

theorem plusInputs_plusInputs : (amounts.plusInputs first).plusInputs second = amounts.plusInputs (first + second) := by
  simp [plusInputs, Int64.add_assoc]

theorem plusOutputs_plusOutputs :
    (amounts.plusOutputs first).plusOutputs second = amounts.plusOutputs (first + second) := by
  simp [plusOutputs, Int64.add_assoc]

end Amounts

theorem ofInt_ite_toInt (condition : Prop) [Decidable condition] (amount : CAmount) :
    ofInt (if condition then amount.toInt else 0) = if condition then amount else 0 := by
  split_ifs
  · exact ofInt_toInt amount
  · rfl

namespace TokenScan

variable {scan : TokenScan} {group : CGroupTokenID} (tg : CGroupTokenInfo)

theorem amounts_addInput : (scan.addInput tg).amounts group =
      (scan.amounts group).plusInputs (if tg.associatedGroup = group then tg.quantity else 0) := by
  rw [amounts, addInput]
  rw [AList.lookup_insert_eq_ite]
  by_cases same : group = tg.associatedGroup
  · simp [same, Amounts.plusInputs]
  · simp [same, Ne.symm, amounts]

theorem amounts_addOutput (scriptPubKey : CScript) : (scan.addOutput tg scriptPubKey).amounts group =
      (scan.amounts group).plusOutputs (if tg.associatedGroup = group then tg.quantity else 0) := by
  rw [amounts, addOutput]
  rw [AList.lookup_insert_eq_ite]
  by_cases same : group = tg.associatedGroup
  · simp [same, Amounts.plusOutputs]
  · simp [same, Ne.symm, amounts]

theorem counted_quantity (out : CTxOut) (consumed : Prop) [Decidable consumed] :
    (if consumed ∧ (ofTxOut out).associatedGroup ≠ NoGroup ∧ (!(ofTxOut out).isAuthority) = true then
      if (ofTxOut out).associatedGroup = group then (ofTxOut out).quantity else 0
    else 0) = if consumed ∧ IsToken group out then (ofTxOut out).quantity else 0 := by
  by_cases token : consumed ∧ IsToken group out
  · obtain ⟨isConsumed, grouped, plain⟩ := token
    rw [if_pos grouped]
    by_cases native : group = NoGroup
    · subst native
      rw [IsToken.quantity_eq_zero ⟨grouped, plain⟩, ite_self, ite_self]
    · have isGroup : (ofTxOut out).associatedGroup ≠ NoGroup := grouped ▸ native
      rw [if_pos ⟨isConsumed, isGroup, by rw [plain]; rfl⟩]
      exact (if_pos ⟨isConsumed, grouped, plain⟩).symm
  · split_ifs with counted grouped
    · exact absurd ⟨counted.1, grouped, by simpa using counted.2.2⟩ token
    · rfl
    · rfl

theorem amounts_scanInput (txin : CTxIn) (out : CTxOut) :
    (scan.scanInput txin out).amounts group = (scan.amounts group).plusInputs
      (if (!txin.isReadOnly) = true ∧ IsToken group out then (ofTxOut out).quantity else 0) := by
  have added : (if (!txin.isReadOnly) = true ∧ (ofTxOut out).associatedGroup ≠ NoGroup ∧
      (!(ofTxOut out).isAuthority) = true then scan.addInput (ofTxOut out)
      else scan).amounts group = (scan.amounts group).plusInputs
        (if (!txin.isReadOnly) = true ∧ IsToken group out then (ofTxOut out).quantity else 0) := by
    rw [← counted_quantity]
    split_ifs with counted grouped
    · rw [amounts_addInput, if_pos grouped]
    · rw [amounts_addInput, if_neg grouped]
    · rw [Amounts.plusInputs_zero]
  rw [scanInput, ← added]
  split_ifs <;> rfl

theorem amounts_scanOutput (out : CTxOut) : (scan.scanOutput out).amounts group = (scan.amounts group).plusOutputs
      (if IsToken group out then (ofTxOut out).quantity else 0) := by
  have added : (if (ofTxOut out).associatedGroup ≠ NoGroup ∧ (!(ofTxOut out).isAuthority) = true then
      scan.addOutput (ofTxOut out) out.scriptPubKey else scan).amounts group =
      (scan.amounts group).plusOutputs (if IsToken group out then (ofTxOut out).quantity else 0) := by
    have counts := @counted_quantity group out True _
    simp only [true_and] at counts
    rw [← counts]
    split_ifs with counted grouped
    · rw [amounts_addOutput, if_pos grouped]
    · rw [amounts_addOutput, if_neg grouped]
    · rw [Amounts.plusOutputs_zero]
  rw [scanOutput, ← added]
  split_ifs <;> rfl

variable {view : COutPoint → Coin} {vin : List CTxIn}

theorem scanInputs_of_unspent (unspent : ∀ txin ∈ vin, (view txin.prevout).isSpent = false) : scanInputs view vin scan =
      (true, vin.foldl (fun scan txin => scan.scanInput txin (view txin.prevout).out) scan) := by
  induction vin generalizing scan with
  | nil => rfl
  | cons txin rest ih =>
    rw [forall_mem_cons] at unspent
    rw [scanInputs, unspent.1, if_neg Bool.false_ne_true, ih unspent.2, foldl_cons]

theorem scanInputs_of_spent {txin : CTxIn} (listed : txin ∈ vin)
    (spent : (view txin.prevout).isSpent = true) : (scanInputs view vin scan).1 = false := by
  induction vin generalizing scan with
  | nil => cases listed
  | cons first rest ih =>
    rw [scanInputs]
    split_ifs with missing
    · rfl
    · cases mem_cons.mp listed with
      | inl same => exact absurd (same ▸ spent) missing
      | inr later => exact ih later

theorem amounts_foldl_scanInput (vin : List CTxIn) :
    (vin.foldl (fun scan txin => scan.scanInput txin (view txin.prevout).out) scan).amounts group =
      (scan.amounts group).plusInputs (ofInt (tokenInputs view vin group)) := by
  induction vin generalizing scan with
  | nil => exact (Amounts.plusInputs_zero _).symm
  | cons txin rest ih =>
    rw [foldl_cons, ih, amounts_scanInput, Amounts.plusInputs_plusInputs, tokenInputs_cons, ofInt_add, ofInt_ite_toInt]
    simp

theorem amounts_foldl_scanOutput (vout : List CTxOut) : (vout.foldl scanOutput scan).amounts group =
      (scan.amounts group).plusOutputs (ofInt (tokenOutputs vout group)) := by
  induction vout generalizing scan with
  | nil => exact (Amounts.plusOutputs_zero _).symm
  | cons out rest ih =>
    rw [foldl_cons, ih, amounts_scanOutput, Amounts.plusOutputs_plusOutputs, tokenOutputs_cons, ofInt_add,
      ofInt_ite_toInt]

end TokenScan

/-! ## The recorded difference -/

/-- What the amounts of a group make of its mintage. -/
def Amounts.applyTo (amounts : Amounts) (mintage : CAmount) : CAmount :=
  if amounts.nTokenOutputs.toInt < amounts.nTokenInputs.toInt then
    mintage - (amounts.nTokenInputs - amounts.nTokenOutputs)
  else if amounts.nTokenInputs = 0 ∧ 0 < amounts.nTokenOutputs.toInt then mintage + amounts.nTokenOutputs
  else mintage

namespace TokenRecords

theorem mintage_insert (records : TokenRecords) (grpID group : CGroupTokenID) (amount : CAmount)
    (tokenGenesis : List (CGroupTokenID × CScript)) :
    TokenRecords.mintage { records with
      accumulatedMintages := records.accumulatedMintages.insert grpID amount, tokenGenesis } group =
      if group = grpID then amount else records.mintage group := by
  rw [mintage, AList.lookup_insert_eq_ite]
  split_ifs <;> rfl

variable {mintageGenesis : AList fun _ : CGroupTokenID => CScript} (grpID group : CGroupTokenID) (amounts : Amounts)
  (records : TokenRecords)

theorem mintage_recordMint : (recordMint mintageGenesis grpID amounts records).mintage group =
      if group = grpID ∧ amounts.nTokenInputs = 0 ∧ 0 < amounts.nTokenOutputs.toInt then
        records.mintage grpID + amounts.nTokenOutputs
      else records.mintage group := by
  rw [recordMint]
  split_ifs <;> simp_all [mintage_insert]

theorem mintage_recordMelt : (recordMelt grpID amounts records).mintage group =
      if group = grpID ∧ amounts.nTokenOutputs.toInt < amounts.nTokenInputs.toInt then
        records.mintage grpID - (amounts.nTokenInputs - amounts.nTokenOutputs)
      else records.mintage group := by
  rw [recordMelt]
  split_ifs <;> simp_all [mintage_insert]

theorem mintage_recordMintage_self : (recordMintage mintageGenesis records ⟨group, amounts⟩).mintage group =
      amounts.applyTo (records.mintage group) := by
  rw [recordMintage, mintage_recordMelt, mintage_recordMint, Amounts.applyTo]
  by_cases mints : amounts.nTokenInputs = 0 ∧ 0 < amounts.nTokenOutputs.toInt
  · -- with no tokens in, nothing is melted
    have notMelt : ¬amounts.nTokenOutputs.toInt < amounts.nTokenInputs.toInt := by
      rw [mints.1]
      exact not_lt.mpr mints.2.le
    rw [if_neg fun melts => notMelt melts.2, if_pos ⟨rfl, mints⟩, if_neg notMelt, if_pos mints]
  · simp [mints]

theorem mintage_recordMintages (mintageGenesis : AList fun _ : CGroupTokenID => CScript)
    (mintages : AList fun _ : CGroupTokenID => Amounts) (records : TokenRecords) (group : CGroupTokenID) :
    (records.recordMintages mintageGenesis mintages).mintage group =
      ((mintages.lookup group).getD {}).applyTo (records.mintage group) := by
  have order := perm_insertionSort (fun x y : Σ _ : CGroupTokenID, Amounts => x.1 ≤ y.1) mintages.entries
  let inOrder : AList fun _ : CGroupTokenID => Amounts := ⟨_, (perm_nodupKeys order).mpr mintages.nodupKeys⟩
  have same : inOrder.lookup group = mintages.lookup group := AList.perm_lookup order
  refine (AList.read_foldl_entries (fun records : TokenRecords => records.mintage group) (fun records entry other => by
      rw [recordMintage, mintage_recordMelt, if_neg fun melts => other melts.1.symm, mintage_recordMint,
        if_neg fun mints => other mints.1.symm])
    (fun records amounts => mintage_recordMintage_self group amounts records) inOrder records).trans ?_
  rw [same]
  cases mintages.lookup group with
  | none => simp [Amounts.applyTo]
  | some amounts => rfl

end TokenRecords

theorem applyTo_toInt_eq_iff {inputs outputs : ℤ} {mintage : CAmount} (inputsNonneg : 0 ≤ inputs)
    (outputsNonneg : 0 ≤ outputs) (outputsFit : outputs < 2 ^ 63) (bounded : inputs < 2 ^ 63 ∨ outputs = 0) :
    (Amounts.applyTo ⟨ofInt inputs, ofInt outputs⟩ mintage).toInt = mintage.toInt + outputs - inputs ↔
    outputs = inputs ∨ (inputs = 0 ∨ outputs < inputs) ∧ inputs < 2 ^ 63 ∧
      -2 ^ 63 ≤ mintage.toInt + outputs - inputs ∧ mintage.toInt + outputs - inputs < 2 ^ 63 := by
  have high := mintage.toInt_lt
  have out : (ofInt outputs).toInt = outputs := toInt_ofInt_of_le (by omega) outputsFit
  rw [Amounts.applyTo]
  simp only [out]
  by_cases fits : inputs < 2 ^ 63
  · have inp : (ofInt inputs).toInt = inputs := toInt_ofInt_of_le (by omega) fits
    have zero : ofInt inputs = 0 ↔ inputs = 0 := by
      rw [← toInt_inj, inp]
      rfl
    simp only [zero]
    split_ifs with melts mints
    · rw [toInt_sub, toInt_sub]
      simp only [Int.bmod_def]
      omega
    · rw [toInt_add]
      simp only [Int.bmod_def]
      omega
    · omega
  · have nothing : outputs = 0 := by omega
    subst nothing
    rw [toInt_ofInt]
    split_ifs with melts mints
    · -- the sum of the inputs has wrapped around to a positive amount
      have wrapped : 2 ^ 64 ≤ inputs := by
        rw [Int.bmod_def] at melts
        split_ifs at melts <;> simp only [size] at * <;> omega
      have := (mintage - (ofInt inputs - ofInt 0)).le_toInt
      omega
    · omega
    · omega

section

variable {describedGroup : CTransaction → CGroupTokenID} {view : COutPoint → Coin} {tx : CTransaction}
  {records : TokenRecords} {group : CGroupTokenID}

theorem mintage_accumulateTokenData_of_spent {txin : CTxIn} (listed : txin ∈ tx.vin)
    (spent : (view txin.prevout).isSpent = true) :
    (accumulateTokenData describedGroup view tx records).2.mintage group = records.mintage group := by
  rw [accumulateTokenData]
  split_ifs with coinbase
  · rfl
  · cases scanned : TokenScan.scanInputs view tx.vin { accumulatedAuthorities := records.accumulatedAuthorities } with
    | mk found scan =>
      have failed : found = false := by
        rw [← TokenScan.scanInputs_of_spent listed spent, scanned]
      rw [failed]
      rfl

theorem mintage_accumulateTokenData (notCoinbase : tx.isCoinBase = false)
    (unspent : ∀ txin ∈ tx.vin, (view txin.prevout).isSpent = false) :
    (accumulateTokenData describedGroup view tx records).2.mintage group =
      Amounts.applyTo ⟨ofInt (tokenInputs view tx.vin group), ofInt (tokenOutputs tx.vout group)⟩
        (records.mintage group) := by
  rw [accumulateTokenData, if_neg (by simp [notCoinbase]), TokenScan.scanInputs_of_unspent unspent]
  dsimp only
  set scan := tx.vout.foldl TokenScan.scanOutput _ with scanned
  have amounts : (scan.mintages.lookup group).getD {} =
      ⟨ofInt (tokenInputs view tx.vin group), ofInt (tokenOutputs tx.vout group)⟩ := by
    change scan.amounts group = _
    rw [TokenScan.amounts_foldl_scanOutput, TokenScan.amounts_foldl_scanInput]
    simp [TokenScan.amounts, Amounts.plusInputs, Amounts.plusOutputs]
  have recorded := TokenRecords.mintage_recordMintages scan.mintageGenesis scan.mintages
    { records with accumulatedAuthorities := scan.accumulatedAuthorities } group
  rw [amounts] at recorded
  split_ifs
  · exact recorded
  · exact recorded

/-! ## Accepted transactions -/

variable {readonlyCoins : COutPoint → Coin} {result : GroupBalanceMap}

theorem tokenAmount_eq_quantity {out : CTxOut} (grouped : (ofTxOut out).associatedGroup = group)
    (unfenced : group.hasFlag HOLDS_NEX = false) : tokenAmount out = (ofTxOut out).quantity := by
  rw [tokenAmount, grouped, unfenced, if_neg Bool.false_ne_true]

theorem tokenOutputs_eq_outputTotal (unfenced : group.hasFlag HOLDS_NEX = false) (vout : List CTxOut) :
    tokenOutputs vout group = outputTotal vout group := by
  induction vout with
  | nil => simp [tokenOutputs, outputTotal]
  | cons out rest ih =>
    rw [tokenOutputs_cons, ih]
    by_cases grouped : (ofTxOut out).associatedGroup = group
    · rw [(totals_cons_self grouped rest).2.2, tokenAmount_eq_quantity grouped unfenced]
      cases plain : (ofTxOut out).isAuthority <;> simp [IsToken, grouped, plain]
    · rw [(totals_cons_of_ne grouped rest).2.2, if_neg fun token => grouped token.1, zero_add]

theorem tokenInputs_eq_inputTotal (unfenced : group.hasFlag HOLDS_NEX = false) (vin : List CTxIn) :
    tokenInputs view vin group = inputTotal view readonlyCoins vin group := by
  induction vin with
  | nil => simp [tokenInputs, inputTotal]
  | cons txin rest ih =>
    rw [tokenInputs_cons, inputTotal_cons, ih]
    cases readOnly : txin.isReadOnly with
    | true => simp
    | false =>
      have coin : inputCoin view readonlyCoins txin = view txin.prevout := by simp [inputCoin, readOnly]
      rw [inputInfo, coin]
      by_cases grouped : (ofTxOut (view txin.prevout).out).associatedGroup = group
      · rw [tokenAmount_eq_quantity grouped unfenced]
        simp [IsToken]
      · simp [IsToken, grouped]

theorem quantity_nonpos_of_fenced {vout : List CTxOut} {gBalance tally : GroupBalanceMap}
    (tallied : tallyOutputs vout gBalance = .ok tally) {out : CTxOut} (listed : out ∈ vout)
    (fenced : (ofTxOut out).associatedGroup.hasFlag HOLDS_NEX = true) :
    (ofTxOut out).quantity.toInt ≤ 0 := by
  induction vout generalizing gBalance with
  | nil => cases listed
  | cons first rest ih =>
    obtain ⟨-, tallied⟩ := Validation.seq_eq_ok_iff.mp tallied
    split_ifs at tallied with native
    · cases mem_cons.mp listed with
      | inl same =>
        rw [same, native] at fenced
        exact absurd fenced (by decide)
      | inr later => exact ih tallied later
    · obtain ⟨bal, one, tallied⟩ := Validation.bind_eq_ok_iff.mp tallied
      cases mem_cons.mp listed with
      | inl same =>
        obtain ⟨held, -⟩ := Validation.seq_eq_ok_iff.mp one
        rw [invalidIf_eq_ok_iff, ← same] at held
        exact not_lt.mp fun positive => held ⟨fenced, positive⟩
      | inr later => exact ih tallied later

section

variable (accepted : checkGroupTokens tx view readonlyCoins = .ok result)

include accepted

theorem tokenOutputs_eq_zero_of_fenced (fenced : group.hasFlag HOLDS_NEX = true) : tokenOutputs tx.vout group = 0 := by
  obtain ⟨outs, tallied, -⟩ := Validation.bind_eq_ok_iff.mp accepted
  apply sum_eq_zero
  simp only [forall_mem_map, mem_filter, decide_eq_true_eq]
  intro out kept
  exact le_antisymm (quantity_nonpos_of_fenced tallied kept.1 (kept.2.1 ▸ fenced)) kept.2.quantity_nonneg

theorem tokenTotals_of_unfenced (unfenced : group.hasFlag HOLDS_NEX = false) :
    tokenOutputs tx.vout group < 2 ^ 63 ∧ tokenInputs view tx.vin group < 2 ^ 63 ∧
      (tx.vin = [] → tokenOutputs tx.vout group = 0) := by
  rw [tokenOutputs_eq_outputTotal unfenced, @tokenInputs_eq_inputTotal view _ readonlyCoins unfenced]
  by_cases isGroup : group = NoGroup
  · subst isGroup
    rw [outputTotal_noGroup, inputTotal_noGroup]
    exact ⟨by decide, by decide, fun _ => rfl⟩
  obtain ⟨bal, checked, passed, describes⟩ := checkGroupTokens_describes accepted isGroup
  have output : bal.output.toInt = outputTotal tx.vout group := by
    refine describes.output fun out _ grouped plain => ?_
    rw [tokenAmount_eq_quantity grouped unfenced]
    exact IsToken.quantity_nonneg ⟨grouped, plain⟩
  refine ⟨output ▸ bal.output.toInt_lt, describes.input ▸ bal.input.toInt_lt, fun noInputs => ?_⟩
  obtain ⟨creation, -, mint, -⟩ := checkBalance_eq_ok passed
  rcases checkCreation_eq_ok describes creation with ⟨genesis, -⟩ | ⟨-, rfl⟩
  · obtain ⟨first, head, -⟩ := genesis.idMatches
    rw [noInputs] at head
    cases head
  · rw [output, describes.input, describes.ctrlPerms, noInputs] at mint
    have nonneg : 0 ≤ outputTotal tx.vout group :=
      tokenOutputs_eq_outputTotal unfenced tx.vout ▸ tokenOutputs_nonneg _ _
    by_contra minted
    have capable := mint (lt_of_le_of_ne nonneg (Ne.symm minted))
    simp [capabilities, activatedAuthorities, combined, hasCapability, NONE] at capable

/-- The mintage of a group changes by what comes out of it less what goes in, exactly if these are equal, or
all coins are there, the group is not at the same time moved and minted, and the numbers are not too large. -/
theorem mintage_recorded_iff (describedGroup : CTransaction → CGroupTokenID) (records : TokenRecords)
    (group : CGroupTokenID) :
    ((accumulateTokenData describedGroup view tx records).2.mintage group).toInt =
      (records.mintage group).toInt + tokenOutputs tx.vout group - tokenInputs view tx.vin group ↔
    tokenOutputs tx.vout group = tokenInputs view tx.vin group ∨
      (∀ txin ∈ tx.vin, (view txin.prevout).isSpent = false) ∧
      (tokenInputs view tx.vin group = 0 ∨ tokenOutputs tx.vout group < tokenInputs view tx.vin group) ∧
      tokenInputs view tx.vin group < 2 ^ 63 ∧
      -2 ^ 63 ≤ (records.mintage group).toInt + tokenOutputs tx.vout group - tokenInputs view tx.vin group ∧
      (records.mintage group).toInt + tokenOutputs tx.vout group - tokenInputs view tx.vin group < 2 ^ 63 := by
  have inputsNonneg := tokenInputs_nonneg view tx.vin group
  have outputsNonneg := tokenOutputs_nonneg tx.vout group
  cases coinbase : tx.isCoinBase with
  | true =>
    have noInputs : tx.vin = [] := isEmpty_iff.mp coinbase
    have noOutputs : tokenOutputs tx.vout group = 0 := by
      cases fenced : group.hasFlag HOLDS_NEX with
      | true => exact tokenOutputs_eq_zero_of_fenced accepted fenced
      | false => exact (tokenTotals_of_unfenced accepted fenced).2.2 noInputs
    have same : tokenOutputs tx.vout group = tokenInputs view tx.vin group := by
      rw [noOutputs, noInputs]
      rfl
    rw [accumulateTokenData, if_pos coinbase]
    dsimp only
    omega
  | false =>
    by_cases unspent : ∀ txin ∈ tx.vin, (view txin.prevout).isSpent = false
    · have bounds : tokenOutputs tx.vout group < 2 ^ 63 ∧
          (tokenInputs view tx.vin group < 2 ^ 63 ∨ tokenOutputs tx.vout group = 0) := by
        cases fenced : group.hasFlag HOLDS_NEX with
        | true =>
          have zero := tokenOutputs_eq_zero_of_fenced accepted fenced
          exact ⟨by omega, Or.inr zero⟩
        | false =>
          obtain ⟨outputs, inputs, -⟩ := tokenTotals_of_unfenced accepted fenced
          exact ⟨outputs, Or.inl inputs⟩
      rw [mintage_accumulateTokenData coinbase unspent,
        applyTo_toInt_eq_iff inputsNonneg outputsNonneg bounds.1 bounds.2]
      exact or_congr_right (iff_and_self.mpr fun _ => unspent)
    · have missing : ∃ txin ∈ tx.vin, (view txin.prevout).isSpent = true := by
        push Not at unspent
        simpa using unspent
      obtain ⟨txin, listed, spent⟩ := missing
      rw [mintage_accumulateTokenData_of_spent listed spent]
      constructor
      · intro recorded
        exact Or.inl (by omega)
      · rintro (same | ⟨all, -⟩)
        · omega
        · exact absurd all unspent

end

end

theorem mintage_recorded_iff_sample :
    (∃ result, checkGroupTokens sampleMint sampleTokenView sampleTokenView = .ok result) ∧
    ((accumulateTokenData (fun _ => NoGroup) sampleTokenView sampleMint {}).2.mintage sampleGroup).toInt =
      (({} : TokenRecords).mintage sampleGroup).toInt + tokenOutputs sampleMint.vout sampleGroup -
        tokenInputs sampleTokenView sampleMint.vin sampleGroup := by
  obtain ⟨result, accepted⟩ := sampleMint_accepted
  refine ⟨⟨result, accepted⟩, (mintage_recorded_iff accepted (fun _ => NoGroup) {} sampleGroup).mpr (Or.inr ?_)⟩
  decide

def sampleMixedView (outpoint : COutPoint) : Coin :=
  if outpoint = ⟨3⟩ then ⟨⟨1, 546, sampleGroupScript sampleGroup [5, 0]⟩, false, 1⟩ else sampleTokenView outpoint

def sampleMixedMint : CTransaction where
  vin := [{ prevout := ⟨2⟩ }, { prevout := ⟨3⟩ }]
  vout := [⟨1, 546, sampleGroupScript sampleGroup [7, 0]⟩]

/-- Tokens that are minted while others of the group are moved are not recorded. -/
theorem mixed_mint_not_recorded :
    (∃ result, checkGroupTokens sampleMixedMint sampleMixedView sampleMixedView = .ok result) ∧
    tokenInputs sampleMixedView sampleMixedMint.vin sampleGroup = 5 ∧
    tokenOutputs sampleMixedMint.vout sampleGroup = 7 ∧
    (accumulateTokenData (fun _ => NoGroup) sampleMixedView sampleMixedMint {}).2.mintage sampleGroup = 0 :=
  ⟨Validation.exists_ok_of_toBool (by decide), by decide, by decide, by decide⟩

end Nexa
