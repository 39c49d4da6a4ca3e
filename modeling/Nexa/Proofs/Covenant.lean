import Nexa.Proofs.AuthorityNonce

/-! # Covenants keep their templates

The covenant of a group is the template of the first of its consumed inputs that has one. Every output of
the group has to show the covenant, unless the transaction has the capability `RESCRIPT`, which a creation
of the group always has. So tokens move from template to template only under an authority.
-/

namespace Nexa

open GroupAuthorityFlags CGroupTokenID CGroupTokenInfo Validation List

/-- The template hash of an output, empty for an output that is not a template. -/
def templateOf (out : CTxOut) : Bytes := (getScriptTemplate out.scriptPubKey out.scriptType).contractId

variable (view readonlyCoins : COutPoint → Coin)

/-- A consumed input of the group that is not an authority. -/
def IsTokenInput (group : CGroupTokenID) (inp : CTxIn) : Prop :=
  (inputInfo view readonlyCoins inp).associatedGroup = group ∧ inp.isReadOnly = false ∧
    (inputInfo view readonlyCoins inp).isAuthority = false

instance (view readonlyCoins : COutPoint → Coin) (group : CGroupTokenID) (inp : CTxIn) :
    Decidable (IsTokenInput view readonlyCoins group inp) := inferInstanceAs (Decidable (_ ∧ _))

/-- The templates of the consumed inputs of a group, in order. -/
def inputTemplates (vin : List CTxIn) (group : CGroupTokenID) : List Bytes :=
  (vin.filter fun inp => IsTokenInput view readonlyCoins group inp).map fun inp =>
    templateOf (inputCoin view readonlyCoins inp).out

/-- The first template of a list, empty if there is none. -/
def firstTemplate (templates : List Bytes) : Bytes := (templates.find? (· ≠ [])).getD []

theorem firstTemplate_cons (template : Bytes) (rest : List Bytes) :
    firstTemplate (template :: rest) = if template = [] then firstTemplate rest else template := by
  rw [firstTemplate]
  split_ifs with empty
  · simp [empty, firstTemplate]
  · simp [empty]

theorem firstTemplate_mem {templates : List Bytes} (nonempty : templates ≠ []) :
    firstTemplate templates ∈ templates := by
  rw [firstTemplate]
  cases found : templates.find? (· ≠ []) with
  | some template => exact mem_of_find?_eq_some found
  | none =>
    obtain ⟨template, member⟩ := exists_mem_of_ne_nil _ nonempty
    have empty := find?_eq_none.mp found template member
    rw [decide_eq_true_eq, not_ne_iff] at empty
    exact empty ▸ member

theorem templateHash_ne_nil {script : CScript} {type : ScriptType} {templateHash hiddenArgsHash rest : Bytes}
    (template : getScriptTemplate script type = .ok templateHash hiddenArgsHash rest) : templateHash ≠ [] := by
  revert template
  fun_cases getScriptTemplate script type
  case case7 found accepted _ _ _ _ _ =>
    rintro template rfl
    injection template with empty
    rw [empty] at accepted
    simp [isTemplateHash] at accepted
  all_goals nofun

/-! ## The covenant of a balance -/

variable {out : CTxOut}

theorem addAuthority_covenant (flags : GroupAuthorityFlags) (bal : GroupBalance) :
    (addAuthority flags bal).covenant = bal.covenant := by
  rw [addAuthority]
  split_ifs <;> rfl

variable {bal result : GroupBalance}

theorem addInput_covenant (added : addInput out bal = .ok result) : result.covenant = bal.covenant := by
  rw [addInput] at added
  split_ifs at added with plain
  · obtain ⟨input, -, ⟨⟩⟩ := bind_eq_ok_iff.mp added
    rfl
  · cases added
    rfl

theorem tallyInput_covenant (tallied : tallyInput out bal = .ok result)
    (covenanted : (ofTxOut out).associatedGroup.hasFlag COVENANT = true) :
    result.covenant = if (ofTxOut out).isAuthority then bal.covenant
      else firstTemplate [bal.covenant, templateOf out] := by
  obtain ⟨withCovenant, found, tallied⟩ := bind_eq_ok_iff.mp tallied
  obtain ⟨counted, added, ⟨⟩⟩ := bind_eq_ok_iff.mp tallied
  have same := addAuthority_covenant (ofTxOut out).controllingGroupFlags bal
  refine (addInput_covenant added).trans ?_
  rw [findCovenant] at found
  rw [← same]
  cases authority : (ofTxOut out).isAuthority with
  | true =>
    simp only [authority] at found
    cases found
    rfl
  | false =>
    rw [if_neg Bool.false_ne_true, firstTemplate_cons, firstTemplate_cons]
    by_cases missing : (addAuthority (ofTxOut out).controllingGroupFlags bal).covenant = []
    · rw [if_pos ⟨by simp [authority], covenanted, missing⟩] at found
      rw [if_pos missing, templateOf]
      split at found
      · cases found
      · rename_i noTemplate
        cases found
        rw [noTemplate, missing]
        rfl
      · rename_i template
        cases found
        rw [template]
        exact (if_neg (templateHash_ne_nil template)).symm
    · rw [if_neg fun wanted => missing wanted.2.2] at found
      cases found
      rw [if_neg missing]

section

variable {view readonlyCoins : COutPoint → Coin} {vin : List CTxIn} {gBalance result : GroupBalanceMap}
  {group : CGroupTokenID}

theorem inputTemplates_cons (inp : CTxIn) (rest : List CTxIn) : inputTemplates view readonlyCoins (inp :: rest) group =
      (if IsTokenInput view readonlyCoins group inp then [templateOf (inputCoin view readonlyCoins inp).out] else []) ++
        inputTemplates view readonlyCoins rest group := by
  split_ifs <;> simp_all [inputTemplates]

theorem firstTemplate_append_cons (template other : Bytes) (rest : List Bytes) :
    firstTemplate (firstTemplate [template, other] :: rest) = firstTemplate (template :: other :: rest) := by
  simp only [firstTemplate_cons]
  split_ifs <;> simp_all [firstTemplate]

theorem tallyInputs_covenant (tallied : tallyInputs view readonlyCoins vin gBalance = .ok result)
    (covenanted : group.hasFlag COVENANT = true) :
    (result.balance group).covenant =
      firstTemplate ((gBalance.balance group).covenant :: inputTemplates view readonlyCoins vin group) := by
  induction vin generalizing gBalance with
  | nil =>
    cases tallied
    rw [firstTemplate_cons]
    split_ifs with missing
    · exact missing
    · rfl
  | cons inp rest ih =>
    obtain ⟨-, tallied⟩ := seq_eq_ok_iff.mp tallied
    change (if countsInput inp (inputInfo view readonlyCoins inp) then _ else _) = _ at tallied
    rw [inputTemplates_cons]
    split_ifs at tallied with counts
    · obtain ⟨bal, one, tallied⟩ := bind_eq_ok_iff.mp tallied
      rw [ih tallied, ← inputInfo]
      by_cases same : (inputInfo view readonlyCoins inp).associatedGroup = group
      · have step := tallyInput_covenant one (by rw [← inputInfo, same]; exact covenanted)
        rw [← inputInfo, same] at step
        rw [same, GroupBalanceMap.balance_modify_self, step]
        cases authority : (inputInfo view readonlyCoins inp).isAuthority with
        | true => simp [IsTokenInput, authority]
        | false =>
          have consumed := (isActivated_of_countsInput.1 counts).2 authority
          rw [if_neg Bool.false_ne_true, if_pos ⟨same, consumed, authority⟩, firstTemplate_append_cons]
          rfl
      · rw [GroupBalanceMap.balance_modify_of_ne same, if_neg fun token => same token.1]
        rfl
    · have notToken : ¬IsTokenInput view readonlyCoins group inp := by
        rintro ⟨grouped, consumed, -⟩
        apply counts
        have valid : (inputInfo view readonlyCoins inp).invalid = false := by
          by_contra invalid
          have native := (native_of_invalid (Bool.not_eq_false _ ▸ invalid)).1
          rw [← inputInfo, grouped] at native
          rw [native] at covenanted
          exact absurd covenanted (by decide)
        simp [countsInput, valid, consumed]
      rw [ih tallied, if_neg notToken]
      rfl

/-! ## The check of the outputs -/

variable {vout : List CTxOut} {outp : CTxOut}

variable {tx : CTransaction}

theorem delegatedBalance_covenant (gBalance : GroupBalanceMap) (group : CGroupTokenID) :
    (delegatedBalance gBalance group).covenant = (gBalance.balance group).covenant := by
  rw [delegatedBalance]
  split_ifs <;> rfl

/-- An accepted transaction of this kind moves tokens of a covenanted group without the right to change their
template: it consumes some, has no capability `RESCRIPT` and does not create the group. -/
structure KeepsCovenant (view readonlyCoins : COutPoint → Coin) (tx : CTransaction) (group : CGroupTokenID) : Prop where
  accepted : ∃ result, checkGroupTokens tx view readonlyCoins = .ok result
  tokenInput : ∃ inp ∈ tx.vin, IsTokenInput view readonlyCoins group inp
  noRescript : ¬IsAuthorised view readonlyCoins tx group RESCRIPT
  notGenesis : ¬IsGenesis view readonlyCoins tx group

section

variable (keeps : KeepsCovenant view readonlyCoins tx group) (covenanted : group.hasFlag COVENANT = true)
  (listed : outp ∈ tx.vout) (grouped : (ofTxOut outp).associatedGroup = group)

include keeps covenanted listed grouped

theorem KeepsCovenant.template_eq :
    templateOf outp = firstTemplate (inputTemplates view readonlyCoins tx.vin group) := by
  obtain ⟨outs, ins, balance, talliedOutputs, talliedInputs, passed, checkedOutputs⟩ :=
    checkGroupTokens_eq_ok_iff.mp keeps.accepted
  have isGroup : group ≠ NoGroup := by
    rintro rfl
    exact absurd covenanted (by decide)
  have describes := delegatedBalance_describes talliedOutputs talliedInputs isGroup
  -- the group is not created, so that the loop over the balances has not changed this one
  have unchanged : balance group = delegatedBalance ins group := by
    rcases checkCreation_eq_ok describes (checkBalance_eq_ok (passed group)).1 with ⟨genesis, -⟩ | ⟨-, same⟩
    · exact absurd genesis keeps.notGenesis
    · exact same
  have bound : hasCapability (balance group).ctrlPerms RESCRIPT = false := by
    rw [unchanged, describes.ctrlPerms, Bool.eq_false_iff]
    intro capable
    exact keeps.noRescript (isAuthorised_of_capability capable)
  have shown : templateOf outp = (balance group).covenant := by
    by_contra differs
    have passes := (checkCovenants_eq_ok_iff.mp checkedOutputs outp listed).2
    rw [grouped] at passes
    exact passes ⟨covenanted, by rw [bound]; rfl, differs⟩
  obtain ⟨output, afterOutputs, -⟩ := tallyOutputs_eq_ok talliedOutputs isGroup
  rw [shown, unchanged, delegatedBalance_covenant, tallyInputs_covenant talliedInputs covenanted,
    afterOutputs, firstTemplate_cons]
  exact if_pos rfl

theorem KeepsCovenant.exists_input : ∃ inp ∈ tx.vin, IsTokenInput view readonlyCoins group inp ∧
      templateOf outp = templateOf (inputCoin view readonlyCoins inp).out := by
  have someInput : inputTemplates view readonlyCoins tx.vin group ≠ [] := by
    obtain ⟨inp, member, token⟩ := keeps.tokenInput
    rw [inputTemplates, Ne, map_eq_nil_iff]
    exact ne_nil_of_mem (mem_filter.mpr ⟨member, decide_eq_true token⟩)
  have member := firstTemplate_mem someInput
  rw [← keeps.template_eq covenanted listed grouped] at member
  obtain ⟨inp, kept, same⟩ := mem_map.mp member
  rw [mem_filter, decide_eq_true_eq] at kept
  exact ⟨inp, kept.1, kept.2, same.symm⟩

end

end

/-- Transactions one after the other that spend tokens of the group from the given coins and from outputs of
earlier ones. -/
inductive CovenantChain (group : CGroupTokenID) (coins : Set CTxOut) : List CTransaction → Prop
  | nil : CovenantChain group coins []
  | snoc {txs : List CTransaction} {tx : CTransaction} {view readonlyCoins : COutPoint → Coin}
      (before : CovenantChain group coins txs) (keeps : KeepsCovenant view readonlyCoins tx group)
      (spends : ∀ inp ∈ tx.vin, IsTokenInput view readonlyCoins group inp →
        (inputCoin view readonlyCoins inp).out ∈ coins ∨
          ∃ earlier ∈ txs, (inputCoin view readonlyCoins inp).out ∈ earlier.vout) :
      CovenantChain group coins (txs ++ [tx])

theorem CovenantChain.template_mem {group : CGroupTokenID} {coins : Set CTxOut} {txs : List CTransaction}
    (chain : CovenantChain group coins txs) (covenanted : group.hasFlag COVENANT = true) {tx : CTransaction}
    (member : tx ∈ txs) {outp : CTxOut} (listed : outp ∈ tx.vout)
    (grouped : (ofTxOut outp).associatedGroup = group) :
    ∃ out ∈ coins, (ofTxOut out).associatedGroup = group ∧ templateOf outp = templateOf out := by
  induction chain generalizing tx outp with
  | nil => cases member
  | @snoc txs last view readonlyCoins before keeps spends ih =>
    rcases mem_append.mp member with earlier | isLast
    · exact ih earlier listed grouped
    · obtain rfl := mem_singleton.mp isLast
      obtain ⟨inp, input, token, same⟩ := keeps.exists_input covenanted listed grouped
      rw [same]
      rcases spends inp input token with initial | ⟨earlier, inTxs, output⟩
      · exact ⟨_, initial, token.1, rfl⟩
      · exact ih inTxs output token.1

/-- Outside of creations and without `RESCRIPT`, the outputs of a covenanted group have the template of a consumed
input, and a chain of such transactions reaches no new template. -/
theorem covenant_templates_kept {group : CGroupTokenID} (covenanted : group.hasFlag COVENANT = true) :
    (∀ view readonlyCoins tx, KeepsCovenant view readonlyCoins tx group → ∀ outp ∈ tx.vout,
      (CGroupTokenInfo.ofTxOut outp).associatedGroup = group →
      ∃ inp ∈ tx.vin, IsTokenInput view readonlyCoins group inp ∧
        templateOf outp = templateOf (inputCoin view readonlyCoins inp).out) ∧
    ∀ coins txs, CovenantChain group coins txs → ∀ tx ∈ txs, ∀ outp ∈ tx.vout,
      (CGroupTokenInfo.ofTxOut outp).associatedGroup = group →
      ∃ out ∈ coins, (CGroupTokenInfo.ofTxOut out).associatedGroup = group ∧ templateOf outp = templateOf out := by
  refine ⟨?_, ?_⟩
  · intro view readonlyCoins tx keeps outp listed grouped
    exact keeps.exists_input covenanted listed grouped
  · intro coins txs chain tx member outp listed grouped
    exact chain.template_mem covenanted member listed grouped

def samplePlainCovenant : CGroupTokenID := replicate 31 0 ++ [1]

def samplePlainCovenantView (outpoint : COutPoint) : Coin :=
  if outpoint = ⟨3⟩ then ⟨⟨1, 546, sampleGroupScript samplePlainCovenant [5, 0]⟩, false, 1⟩
  else ⟨⟨0, 1000, [0x51]⟩, false, 1⟩

def sampleCovenantTransfer : CTransaction where
  vin := [{ prevout := ⟨3⟩ }]
  vout := [⟨1, 546, sampleGroupScript samplePlainCovenant [5, 0]⟩]

theorem sampleCovenantTransfer_keeps :
    KeepsCovenant samplePlainCovenantView samplePlainCovenantView sampleCovenantTransfer samplePlainCovenant where
  accepted := exists_ok_of_toBool (by decide)
  tokenInput := ⟨_, mem_cons_self, by decide⟩
  noRescript := by
    have noOwn : activatedAuthorities samplePlainCovenantView samplePlainCovenantView sampleCovenantTransfer.vin
        samplePlainCovenant = [] := by decide
    have noParent : samplePlainCovenant.isSubgroup = false := by decide
    simp [IsAuthorised, HasAuthority, noOwn, noParent]
  notGenesis genesis := absurd genesis.authorityOutput (by decide)

theorem covenant_templates_kept_sample : samplePlainCovenant.hasFlag COVENANT = true ∧
    KeepsCovenant samplePlainCovenantView samplePlainCovenantView sampleCovenantTransfer samplePlainCovenant ∧
    ∃ inp ∈ sampleCovenantTransfer.vin,
      IsTokenInput samplePlainCovenantView samplePlainCovenantView samplePlainCovenant inp ∧
      templateOf ⟨1, 546, sampleGroupScript samplePlainCovenant [5, 0]⟩ =
        templateOf (inputCoin samplePlainCovenantView samplePlainCovenantView inp).out := by
  have covenanted : samplePlainCovenant.hasFlag COVENANT = true := by decide
  refine ⟨covenanted, sampleCovenantTransfer_keeps, ?_⟩
  exact (covenant_templates_kept covenanted).1 _ _ _ sampleCovenantTransfer_keeps _ mem_cons_self (by decide)

/-- A creation that consumes tokens of its own group may give the group a new template. -/
theorem covenant_left_by_genesis : sampleCovenantGroup.hasFlag COVENANT = true ∧
    (∃ result, checkGroupTokens sampleCovenantGenesis sampleCovenantView sampleCovenantView = .ok result) ∧
    (∃ inp ∈ sampleCovenantGenesis.vin, IsTokenInput sampleCovenantView sampleCovenantView sampleCovenantGroup inp) ∧
    ¬IsAuthorised sampleCovenantView sampleCovenantView sampleCovenantGenesis sampleCovenantGroup RESCRIPT ∧
    ∃ outp ∈ sampleCovenantGenesis.vout, (CGroupTokenInfo.ofTxOut outp).associatedGroup = sampleCovenantGroup ∧
      templateOf outp ∉
        inputTemplates sampleCovenantView sampleCovenantView sampleCovenantGenesis.vin sampleCovenantGroup := by
  have shape : sampleCovenantGroup.hasFlag COVENANT = true ∧ sampleCovenantGroup.isSubgroup = false ∧
      IsTokenInput sampleCovenantView sampleCovenantView sampleCovenantGroup { prevout := ⟨3⟩ } ∧
      (ofTxOut (sampleOtherTemplate sampleCovenantGroup
        (bytesLE 8 sampleFlaggedPerms.toNat))).associatedGroup = sampleCovenantGroup ∧
      templateOf (sampleOtherTemplate sampleCovenantGroup (bytesLE 8 sampleFlaggedPerms.toNat)) ∉
        inputTemplates sampleCovenantView sampleCovenantView sampleCovenantGenesis.vin sampleCovenantGroup := by
    decide +kernel
  obtain ⟨covenanted, noParent, token, grouped, newTemplate⟩ := shape
  refine ⟨covenanted, sampleCovenantGenesis_accepted, ⟨_, mem_cons_of_mem _ mem_cons_self, token⟩, ?_,
    ⟨_, mem_cons_self, grouped, newTemplate⟩⟩
  simp [IsAuthorised, HasAuthority, sampleCovenantGenesis_isGenesis.notActivated, noParent]

end Nexa
