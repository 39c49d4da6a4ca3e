import Nexa.Proofs.TokenAuthority

/-! # The bits of an authority without a capability

Ten of the flag bits of an authority have no meaning, and the bits below the flags are the nonce of a
group creation. `RESERVED_FLAG_BITS` is empty, so that a creation may set any of the ten bits. A nonce is
refused only where the transaction has no capability for the group.
-/

namespace Nexa

open GroupAuthorityFlags CGroupTokenID CGroupTokenInfo Validation List

variable {tx : CTransaction} {view readonlyCoins : COutPoint → Coin} {result : GroupBalanceMap} {group : CGroupTokenID}

variable {outp : CTxOut} {vout : List CTxOut}

theorem flags_eq_quantity (authority : (ofTxOut outp).isAuthority = true) :
    (ofTxOut outp).controllingGroupFlags = (ofTxOut outp).quantity.toUInt64.toBitVec := by
  obtain ⟨native, -, -⟩ | ⟨-, -, flags⟩ := ofTxOut_wellFormed outp
  · exact absurd native (ne_noGroup_of_isAuthority authority)
  · rw [flags, if_pos ((isAuthority_iff outp).2.mp authority)]

theorem mem_authorityOutputs :
    outp ∈ authorityOutputs vout group ↔ outp ∈ vout ∧ (ofTxOut outp).associatedGroup = group ∧
      (ofTxOut outp).isAuthority = true := by
  rw [authorityOutputs, mem_filter, decide_eq_true_eq]

/-! ## Flag bits without a meaning -/

/-- The output holds the native coin only. -/
def IsNative (outp : CTxOut) : Prop := (ofTxOut outp).associatedGroup = NoGroup ∧ (ofTxOut outp).invalid = false

/-- The only tokens of the transaction are the authority of one output, whose group it creates. -/
structure CreatesOnly (view readonlyCoins : COutPoint → Coin) (tx : CTransaction) (outp : CTxOut) : Prop where
  outputs : ∃ before after, tx.vout = before ++ outp :: after ∧ ∀ other ∈ before ++ after, IsNative other
  inputs : ∀ inp ∈ tx.vin, (inputCoin view readonlyCoins inp).isSpent = false ∧
    IsNative (inputCoin view readonlyCoins inp).out
  templates : ∀ outp ∈ tx.vout, getScriptTemplate outp.scriptPubKey outp.scriptType ≠ .invalid
  authority : (ofTxOut outp).isAuthority = true
  created : ∃ first, tx.vin.head? = some first ∧ newGroupId first.prevout (firstOpReturn tx.vout)
    (ofTxOut outp).controllingGroupFlags = (ofTxOut outp).associatedGroup

theorem tallyOutputs_native {before : List CTxOut} (native : ∀ outp ∈ before, IsNative outp) (rest : List CTxOut)
    (gBalance : GroupBalanceMap) : tallyOutputs (before ++ rest) gBalance = tallyOutputs rest gBalance := by
  induction before with
  | nil => rfl
  | cons outp before ih =>
    obtain ⟨⟨native, valid⟩, others⟩ := forall_mem_cons.mp native
    rw [cons_append, tallyOutputs, valid, native]
    exact ih others

/-- The balance of a group with one output, in front of the checks. -/
def createdBalance (ctrlOutputPerms : GroupAuthorityFlags) (numInputs : ℕ) : GroupBalance :=
  { ctrlOutputPerms, numInputs, numOutputs := 1 }

theorem tallyOutput_authority (authority : (ofTxOut outp).isAuthority = true) :
    tallyOutput outp {} = .ok (createdBalance (ofTxOut outp).controllingGroupFlags 0) := by
  have negative := (isAuthority_iff outp).2.mp authority
  simp [tallyOutput, authority, invalidIf, negative.not_gt, createdBalance, NONE, pure, Except.pure, bind, Except.bind]

theorem tallyInput_native (native : IsNative outp) (bal : GroupBalance) :
    tallyInput outp bal = .ok { bal with numInputs := bal.numInputs + 1 } := by
  have covenant : NoGroup.hasFlag COVENANT = false := by decide
  have flags : (ofTxOut outp).controllingGroupFlags = NONE := by
    apply flags_eq_none
    rw [Bool.eq_false_iff]
    exact fun authority => ne_noGroup_of_isAuthority authority native.1
  simp [tallyInput, findCovenant, addInput, addAuthority, native.1, flags, covenant, pure, Except.pure, bind,
    Except.bind]

theorem tallyInputs_native {vin : List CTxIn} {gBalance : GroupBalanceMap}
    (native : ∀ inp ∈ vin, (inputCoin view readonlyCoins inp).isSpent = false ∧
      IsNative (inputCoin view readonlyCoins inp).out) :
    ∃ result, tallyInputs view readonlyCoins vin gBalance = .ok result ∧
      ∀ group, ∃ numInputs, result.balance group = { gBalance.balance group with numInputs } := by
  induction vin generalizing gBalance with
  | nil => exact ⟨gBalance, rfl, fun group => ⟨_, rfl⟩⟩
  | cons inp rest ih =>
    obtain ⟨⟨unspent, isNative⟩, native⟩ := forall_mem_cons.mp native
    simp only [tallyInputs, unspent, isNative.1, tallyInput_native isNative]
    split
    · obtain ⟨result, tallied, balances⟩ := @ih (gBalance.modify NoGroup _) native
      refine ⟨result, tallied, fun group => ?_⟩
      obtain ⟨numInputs, same⟩ := balances group
      refine ⟨numInputs, same.trans ?_⟩
      by_cases isNative : group = NoGroup
      · rw [isNative, GroupBalanceMap.balance_modify_self]
      · rw [GroupBalanceMap.balance_modify_of_ne (Ne.symm isNative)]
    · exact ih native

namespace CreatesOnly

variable (creates : CreatesOnly view readonlyCoins tx outp)

include creates

theorem eq_or_isNative {other : CTxOut} (member : other ∈ tx.vout) : other = outp ∨ IsNative other := by
  obtain ⟨before, after, outputs, native⟩ := creates.outputs
  rw [outputs, mem_append, mem_cons, or_left_comm, ← mem_append] at member
  exact member.imp_right (native other)

theorem tallied : ∃ outs ins, tallyOutputs tx.vout {} = .ok outs ∧
    tallyInputs view readonlyCoins tx.vin outs = .ok ins ∧
    ∀ group, ∃ numInputs, delegatedBalance ins group = if group = (ofTxOut outp).associatedGroup then
        createdBalance (ofTxOut outp).controllingGroupFlags numInputs
      else { numInputs } := by
  obtain ⟨before, after, outputs, native⟩ := creates.outputs
  rw [forall_mem_append] at native
  have isGroup := ne_noGroup_of_isAuthority creates.authority
  obtain ⟨outs, talliedOutputs, created⟩ : ∃ outs, tallyOutputs tx.vout {} = .ok outs ∧ ∀ group, outs.balance group =
      if group = (ofTxOut outp).associatedGroup then createdBalance (ofTxOut outp).controllingGroupFlags 0 else {} := by
    obtain ⟨native, -, -⟩ | ⟨-, valid, -⟩ := ofTxOut_wellFormed outp
    · exact absurd native isGroup
    · rw [outputs, tallyOutputs_native native.1, tallyOutputs, if_neg isGroup, valid]
      rw [tallyOutput_authority creates.authority]
      have rest := tallyOutputs_native native.2 []
      rw [append_nil] at rest
      exact ⟨_, rest _, fun group => Function.update_apply ..⟩
  obtain ⟨ins, talliedInputs, balances⟩ := tallyInputs_native creates.inputs
  refine ⟨outs, ins, talliedOutputs, talliedInputs, fun group => ?_⟩
  -- no balance has permissions, so that nothing is delegated
  obtain ⟨numInputs, own⟩ := balances group
  obtain ⟨parentInputs, parent⟩ := balances group.parentGroup
  refine ⟨numInputs, ?_⟩
  rw [delegatedBalance, parent, own, created, created]
  split_ifs <;> simp [delegateFrom, createdBalance, NONE]

theorem checkBalance_iff (numInputs : ℕ) {checked : GroupBalance} : checkBalance tx (ofTxOut outp).associatedGroup
        (createdBalance (ofTxOut outp).controllingGroupFlags numInputs) = .ok checked ↔
      (ofTxOut outp).associatedGroup.flags &&& GROUP_RESERVED_BITS = 0 ∧
        checked = { createdBalance (ofTxOut outp).controllingGroupFlags numInputs with
          ctrlPerms := ACTIVE_FLAG_BITS, allowedCtrlOutputPerms := ACTIVE_FLAG_BITS } := by
  obtain ⟨first, head, matched⟩ := creates.created
  obtain ⟨rest, inputs⟩ := head?_eq_some_iff.mp head
  have authority := hasCapability_of_isAuthority creates.authority
  have none : RESERVED_FLAG_BITS = 0 := by decide
  have melt : hasCapability ACTIVE_FLAG_BITS MELT = true := by decide
  have mint : hasCapability ACTIVE_FLAG_BITS MINT = true := by decide
  simp only [checkBalance, checkCreation, createdBalance, inputs, authority, matched, none, bind_eq_ok_iff,
    invalidIf_eq_ok_iff, and_self, if_true]
  constructor
  · rintro ⟨_, ⟨_, clear, _, -, _, -, ⟨⟩⟩, _, -, _, -, _, -, ⟨⟩⟩
    exact ⟨not_ne_iff.mp clear, rfl⟩
  · rintro ⟨clear, rfl⟩
    exact ⟨_, ⟨(), not_ne_iff.mpr clear, (), by simp, (), by simp, rfl⟩, (), by simp [melt], (), by simp [mint], (),
      by simp [BitVec.and_assoc], rfl⟩

end CreatesOnly

/-- Without other tokens a creation is accepted exactly if the id of the group has no reserved bits, whatever the flags
of its authority are. -/
theorem creation_accepted_iff (creates : CreatesOnly view readonlyCoins tx outp) :
    (∃ result, checkGroupTokens tx view readonlyCoins = .ok result) ↔
      (CGroupTokenInfo.ofTxOut outp).associatedGroup.flags &&& GROUP_RESERVED_BITS = 0 := by
  obtain ⟨outs, ins, talliedOutputs, talliedInputs, balances⟩ := creates.tallied
  rw [checkGroupTokens_eq_ok_iff]
  constructor
  · rintro ⟨_, _, balance, sameOuts, sameIns, passed, -⟩
    cases talliedOutputs.symm.trans sameOuts
    cases talliedInputs.symm.trans sameIns
    obtain ⟨numInputs, own⟩ := balances (ofTxOut outp).associatedGroup
    have passed := passed (ofTxOut outp).associatedGroup
    rw [own, if_pos rfl] at passed
    exact ((creates.checkBalance_iff numInputs).mp passed).1
  · intro clear
    have passes (group : CGroupTokenID) : ∃ checked, checkBalance tx group (delegatedBalance ins group) = .ok checked ∧
        (group = (ofTxOut outp).associatedGroup → hasCapability checked.ctrlPerms RESCRIPT = true) := by
      obtain ⟨numInputs, balance⟩ := balances group
      rw [balance]
      split_ifs with new
      · rw [new]
        exact ⟨_, (creates.checkBalance_iff numInputs).mpr ⟨clear, rfl⟩,
          fun _ => show hasCapability ACTIVE_FLAG_BITS RESCRIPT = true by decide⟩
      · exact ⟨_, checkBalance_of_unused rfl rfl rfl, fun self => absurd self new⟩
    choose balance passed rescript using passes
    refine ⟨outs, ins, balance, talliedOutputs, talliedInputs, passed, checkCovenants_eq_ok_iff.mpr fun other member =>
      ⟨creates.templates other member, ?_⟩⟩
    -- outputs of the native coin have no covenant, and the creation may change that of its group
    rintro ⟨covenant, bound, -⟩
    rcases creates.eq_or_isNative member with rfl | native
    · simp [rescript] at bound
    · rw [native.1] at covenant
      exact absurd covenant (by decide)

def sampleFlaggedPerms : GroupAuthorityFlags := 0xfe00000000007952

def sampleCovenantGroup : CGroupTokenID := newGroupId ⟨1⟩ [] sampleFlaggedPerms

def sampleCovenantView (outpoint : COutPoint) : Coin :=
  if outpoint = ⟨3⟩ then ⟨⟨1, 546, sampleGroupScript sampleCovenantGroup [5, 0]⟩, false, 1⟩
  else ⟨⟨0, 1000, [0x51]⟩, false, 1⟩

def sampleOtherTemplate (group : CGroupTokenID) (quantity : Bytes) : CTxOut :=
  ⟨1, 546, 32 :: group ++ UInt8.ofNat quantity.length :: quantity ++ 20 :: replicate 20 7 ++ [0x00]⟩

def sampleFlaggedCreation : CTransaction where
  vin := [{ prevout := ⟨1⟩ }]
  vout := [sampleOtherTemplate sampleCovenantGroup (bytesLE 8 sampleFlaggedPerms.toNat)]

theorem creation_accepted_iff_sample :
    ∃ result, checkGroupTokens sampleFlaggedCreation sampleCovenantView sampleCovenantView = .ok result := by
  refine (creation_accepted_iff ⟨⟨[], [], rfl, nofun⟩, ?_, ?_, ?_, _, rfl, ?_⟩).mpr ?_
  · intro inp member
    obtain rfl := mem_singleton.mp member
    exact ⟨rfl, rfl, rfl⟩
  · intro outp member
    obtain rfl := mem_singleton.mp member
    decide +kernel
  all_goals decide +kernel

def sampleCovenantGenesis : CTransaction where
  vin := [{ prevout := ⟨1⟩ }, { prevout := ⟨3⟩ }]
  vout := [sampleOtherTemplate sampleCovenantGroup (bytesLE 8 sampleFlaggedPerms.toNat)]

theorem sampleCovenantGenesis_accepted :
    ∃ result, checkGroupTokens sampleCovenantGenesis sampleCovenantView sampleCovenantView = .ok result :=
  exists_ok_of_toBool (by decide +kernel)

theorem sampleCovenantGenesis_isGenesis :
    IsGenesis sampleCovenantView sampleCovenantView sampleCovenantGenesis sampleCovenantGroup where
  authorityOutput := by decide +kernel
  notActivated := by decide +kernel
  idMatches := ⟨_, rfl, by decide +kernel⟩

/-- The flag bits that are not active. -/
def undefinedFlagBits : GroupAuthorityFlags := ALL_FLAG_BITS &&& ~~~ACTIVE_FLAG_BITS

/-- A creation with an undefined flag bit is accepted. -/
theorem genesis_with_undefinedFlags :
    (∃ result, checkGroupTokens sampleCovenantGenesis sampleCovenantView sampleCovenantView = .ok result) ∧
    IsGenesis sampleCovenantView sampleCovenantView sampleCovenantGenesis sampleCovenantGroup ∧
    ¬∃ outp ∈ authorityOutputs sampleCovenantGenesis.vout sampleCovenantGroup,
      (CGroupTokenInfo.ofTxOut outp).controllingGroupFlags &&& undefinedFlagBits = 0 := by
  refine ⟨sampleCovenantGenesis_accepted, sampleCovenantGenesis_isGenesis, ?_⟩
  rintro ⟨outp, member, clear⟩
  obtain rfl := mem_singleton.mp (mem_authorityOutputs.mp member).1
  revert clear
  decide

/-! ## Nonces -/

/-- The inputs give no capability for the group: it has no activated authority, and if it is a subgroup its
parent has none that delegates. -/
def Unauthorised (view readonlyCoins : COutPoint → Coin) (tx : CTransaction) (group : CGroupTokenID) : Prop :=
  activatedAuthorities view readonlyCoins tx.vin group = [] ∧
    (group.isSubgroup = true → ¬HasAuthority view readonlyCoins tx group.parentGroup SUBGROUP)

theorem Unauthorised.capabilities_eq (unauthorised : Unauthorised view readonlyCoins tx group) :
    capabilities view readonlyCoins tx.vin group = NONE := by
  have noDelegation : ¬(group.isSubgroup = true ∧
      hasCapability (combined (activatedAuthorities view readonlyCoins tx.vin group.parentGroup)) SUBGROUP = true) := by
    rintro ⟨subgroup, delegates⟩
    exact unauthorised.2 subgroup (hasCapability_combined.mp delegates)
  rw [capabilities, if_neg noDelegation, unauthorised.1]
  rfl

theorem IsGenesis.unauthorised (genesis : IsGenesis view readonlyCoins tx group) :
    Unauthorised view readonlyCoins tx group := by
  refine ⟨genesis.notActivated, fun subgroup => ?_⟩
  obtain ⟨first, -, matched⟩ := genesis.idMatches
  have length : group.length = 32 := by rw [← matched, length_newGroupId]
  simp [isSubgroup, PARENT_GROUP_ID_SIZE, length] at subgroup

theorem outputPerms_nonce {vout : List CTxOut} (member : outp ∈ authorityOutputs vout group)
    (nonce : (ofTxOut outp).nonce ≠ 0) : outputPerms vout group &&& ~~~ALL_FLAG_BITS ≠ 0 := by
  have isAuthority := (mem_authorityOutputs.mp member).2.2
  have set : hasCapability (ofTxOut outp).controllingGroupFlags (~~~ALL_FLAG_BITS) = true := by
    rw [hasCapability, decide_eq_true_eq, flags_eq_quantity isAuthority]
    exact nonce
  have combinedSet : hasCapability (outputPerms vout group) (~~~ALL_FLAG_BITS) = true :=
    hasCapability_combined.mpr ⟨_, mem_map_of_mem member, set⟩
  rwa [hasCapability, decide_eq_true_eq] at combinedSet

/-- Without a capability for the group an authority with a nonce is a creation of the group. -/
theorem isGenesis_of_nonce (accepted : checkGroupTokens tx view readonlyCoins = .ok result)
    (member : outp ∈ authorityOutputs tx.vout group) (nonce : (ofTxOut outp).nonce ≠ 0)
    (unauthorised : Unauthorised view readonlyCoins tx group) : IsGenesis view readonlyCoins tx group := by
  obtain ⟨listed, grouped, isAuthority⟩ := mem_authorityOutputs.mp member
  have isGroup : group ≠ NoGroup := grouped ▸ ne_noGroup_of_isAuthority isAuthority
  obtain ⟨bal, checked, passed, describes⟩ := checkGroupTokens_describes accepted isGroup
  have creation := (checkBalance_eq_ok passed).1
  have creates : hasCapability bal.ctrlOutputPerms AUTHORITY = true ∧ bal.ctrlPerms = NONE := by
    rw [describes.ctrlOutputPerms, describes.ctrlPerms, outputPerms_authority_iff]
    exact ⟨ne_nil_of_mem member, unauthorised.capabilities_eq⟩
  rw [← creation_iff_isGenesis describes]
  rw [checkCreation, if_pos creates] at creation
  cases inputs : tx.vin with
  | nil =>
    rw [inputs] at creation
    cases creation
  | cons first rest =>
    rw [inputs] at creation
    dsimp only at creation
    split_ifs at creation with matched
    · exact ⟨creates.1, creates.2, first, rfl, matched⟩
    · obtain ⟨noNonce, -⟩ := seq_eq_ok_iff.mp creation
      rw [invalidIf_eq_ok_iff, not_ne_iff, describes.ctrlOutputPerms] at noNonce
      exact absurd noNonce (outputPerms_nonce member nonce)

theorem isGroupCreation_iff : (∃ flags, (ofTxOut outp).isGroupCreation flags = true) ↔
      (ofTxOut outp).isAuthority = true ∧ (ofTxOut outp).nonce ≠ 0 := by
  constructor
  · rintro ⟨flags, creation⟩
    rw [isGroupCreation, Bool.and_eq_true, Bool.and_eq_true, decide_eq_true_eq] at creation
    exact creation.1
  · rintro ⟨isAuthority, nonce⟩
    refine ⟨0, ?_⟩
    have long : PARENT_GROUP_ID_SIZE ≤ (ofTxOut outp).associatedGroup.length := by
      obtain ⟨native, -, -⟩ | ⟨long, -, -⟩ := ofTxOut_wellFormed outp
      · exact absurd native (ne_noGroup_of_isAuthority isAuthority)
      · exact long
    simpa [isGroupCreation, isAuthority, CGroupTokenID.hasFlag, long] using nonce

/-- Authorities with a nonce are created by a genesis of their group, and `isGroupCreation` tells so, exactly if
the inputs give no capability for the groups of these authorities. -/
theorem nonce_genesis_iff (accepted : checkGroupTokens tx view readonlyCoins = .ok result) :
    ((∀ outp ∈ tx.vout, (CGroupTokenInfo.ofTxOut outp).isAuthority = true → (CGroupTokenInfo.ofTxOut outp).nonce ≠ 0 →
        IsGenesis view readonlyCoins tx (CGroupTokenInfo.ofTxOut outp).associatedGroup) ∧
      ∀ outp ∈ tx.vout, ∀ flags, (CGroupTokenInfo.ofTxOut outp).isGroupCreation flags = true →
        IsGenesis view readonlyCoins tx (CGroupTokenInfo.ofTxOut outp).associatedGroup) ↔
    ∀ outp ∈ tx.vout, (CGroupTokenInfo.ofTxOut outp).isAuthority = true → (CGroupTokenInfo.ofTxOut outp).nonce ≠ 0 →
      Unauthorised view readonlyCoins tx (CGroupTokenInfo.ofTxOut outp).associatedGroup := by
  constructor
  · rintro ⟨onlyGenesis, -⟩ outp listed isAuthority nonce
    exact (onlyGenesis outp listed isAuthority nonce).unauthorised
  · intro unauthorised
    have onlyGenesis : ∀ outp ∈ tx.vout, (ofTxOut outp).isAuthority = true → (ofTxOut outp).nonce ≠ 0 →
        IsGenesis view readonlyCoins tx (ofTxOut outp).associatedGroup := by
      intro outp listed isAuthority nonce
      exact isGenesis_of_nonce accepted (mem_authorityOutputs.mpr ⟨listed, rfl, isAuthority⟩) nonce
        (unauthorised outp listed isAuthority nonce)
    refine ⟨onlyGenesis, fun outp listed flags creation => ?_⟩
    obtain ⟨isAuthority, nonce⟩ := isGroupCreation_iff.mp ⟨flags, creation⟩
    exact onlyGenesis outp listed isAuthority nonce

theorem nonce_genesis_iff_sample :
    (∃ result, checkGroupTokens sampleGenesisMelt sampleGenesisView sampleGenesisView = .ok result) ∧
    ∀ outp ∈ sampleGenesisMelt.vout, ∀ flags, (CGroupTokenInfo.ofTxOut outp).isGroupCreation flags = true →
      IsGenesis sampleGenesisView sampleGenesisView sampleGenesisMelt
        (CGroupTokenInfo.ofTxOut outp).associatedGroup := by
  obtain ⟨result, accepted⟩ := sampleGenesisMelt_accepted
  refine ⟨⟨result, accepted⟩, ((nonce_genesis_iff accepted).mpr ?_).2⟩
  intro outp listed _ _
  obtain rfl := mem_singleton.mp listed
  exact sampleGenesisMelt_isGenesis.unauthorised

def sampleNonce : CTransaction where
  vin := [{ prevout := ⟨1⟩ }, { prevout := ⟨2⟩ }]
  vout := [⟨1, 546, sampleGroupScript sampleGroup (bytesLE 8 ((AUTHORITY ||| MINT).toNat + 1))⟩]

/-- With an authority among the inputs a nonce is accepted outside of a creation. -/
theorem nonce_without_genesis : (∃ result, checkGroupTokens sampleNonce sampleTokenView sampleTokenView = .ok result) ∧
    (∃ outp ∈ sampleNonce.vout, (CGroupTokenInfo.ofTxOut outp).associatedGroup = sampleGroup ∧
      (CGroupTokenInfo.ofTxOut outp).isGroupCreation 0 = true) ∧
    ¬IsGenesis sampleTokenView sampleTokenView sampleNonce sampleGroup := by
  refine ⟨exists_ok_of_toBool (by decide), ⟨_, mem_cons_self, by decide⟩, ?_⟩
  intro genesis
  exact absurd genesis.notActivated (by decide)

end Nexa
