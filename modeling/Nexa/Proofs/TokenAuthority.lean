import Nexa.Proofs.GroupTokens

/-! # Tokens and authorities are not created from nothing

`CheckGroupTokens` compares the balances of a group after its parent has delegated to it. A group is
created when its id is the hash of the first prevout, the first data output and the permissions of
the new authority; then the transaction has all permissions for it. Otherwise tokens are minted,
melted and authorities renewed only with the flags of activated input authorities.
-/

namespace Nexa

open GroupAuthorityFlags CGroupTokenID CGroupTokenInfo Validation List Function

/-! ## The groups with a balance -/

/-- Each group is listed once, and what is not listed has an empty balance. -/
structure GroupBalanceMap.Valid (gBalance : GroupBalanceMap) : Prop where
  nodup : gBalance.groups.Nodup
  absent : ∀ group, group ∉ gBalance.groups → gBalance.balance group = {}

variable {gBalance : GroupBalanceMap} {vout : List CTxOut} {result : GroupBalanceMap}
  {view readonlyCoins : COutPoint → Coin} {vin : List CTxIn} {tx : CTransaction} {groups : List CGroupTokenID}
  {group : CGroupTokenID} {flag : GroupAuthorityFlags}

theorem GroupBalanceMap.Valid.modify (valid : gBalance.Valid) (group : CGroupTokenID)
    (f : GroupBalance → GroupBalance) : (gBalance.modify group f).Valid where
  nodup := valid.nodup.insert
  absent := by
    intro other missing
    rw [GroupBalanceMap.modify, mem_insert_iff, not_or] at missing
    rw [balance_modify_of_ne (Ne.symm missing.1)]
    exact valid.absent other missing.2

theorem tallyOutputs_valid (valid : gBalance.Valid) (tallied : tallyOutputs vout gBalance = .ok result) :
    result.Valid ∧ gBalance.groups ⊆ result.groups ∧
      ∀ outp ∈ vout, (ofTxOut outp).associatedGroup ≠ NoGroup → (ofTxOut outp).associatedGroup ∈ result.groups := by
  induction vout generalizing gBalance with
  | nil =>
    cases tallied
    exact ⟨valid, fun _ member => member, nofun⟩
  | cons outp rest ih =>
    obtain ⟨-, tallied⟩ := seq_eq_ok_iff.mp tallied
    simp only [forall_mem_cons]
    split_ifs at tallied with native
    · obtain ⟨valid, kept, others⟩ := ih valid tallied
      exact ⟨valid, kept, fun isGroup => absurd native isGroup, others⟩
    · obtain ⟨bal, -, tallied⟩ := bind_eq_ok_iff.mp tallied
      obtain ⟨valid, kept, others⟩ := ih (valid.modify _ _) tallied
      exact ⟨valid, fun _ member => kept (mem_insert_of_mem member), fun _ => kept mem_insert_self, others⟩

theorem tallyInputs_valid (valid : gBalance.Valid)
    (tallied : tallyInputs view readonlyCoins vin gBalance = .ok result) :
    result.Valid ∧ gBalance.groups ⊆ result.groups := by
  induction vin generalizing gBalance with
  | nil =>
    cases tallied
    exact ⟨valid, fun _ member => member⟩
  | cons inp rest ih =>
    obtain ⟨-, tallied⟩ := seq_eq_ok_iff.mp tallied
    dsimp only at tallied
    split_ifs at tallied with counts
    · obtain ⟨bal, -, tallied⟩ := bind_eq_ok_iff.mp tallied
      exact (ih (valid.modify _ _) tallied).imp_right fun kept _ member => kept (mem_insert_of_mem member)
    · exact ih valid tallied

theorem checkBalances_eq_ok_iff {balance final : CGroupTokenID → GroupBalance} (nodup : groups.Nodup) :
    checkBalances tx groups balance = .ok final ↔
      (∀ group ∈ groups, checkBalance tx group (balance group) = .ok (final group)) ∧
        ∀ group ∉ groups, final group = balance group := by
  induction groups generalizing balance with
  | nil =>
    simp only [checkBalances, pure, Except.pure, Except.ok.injEq, not_mem_nil, not_false_eq_true, false_imp_iff,
      implies_true, true_and, forall_const, funext_iff, eq_comm]
  | cons first rest ih =>
    obtain ⟨unlisted, nodup⟩ := nodup_cons.mp nodup
    rw [forall_mem_cons]
    simp only [checkBalances, bind_eq_ok_iff, ih nodup, mem_cons, not_or, and_imp]
    -- the rest sees the balances of its own groups
    have same {bal : GroupBalance} : (∀ group ∈ rest, checkBalance tx group (update balance first bal group) =
        .ok (final group)) ↔ ∀ group ∈ rest, checkBalance tx group (balance group) = .ok (final group) :=
      forall₂_congr fun group listed => by rw [update_of_ne (ne_of_mem_of_not_mem listed unlisted)]
    simp only [same]
    constructor
    · rintro ⟨bal, here, passed, kept⟩
      refine ⟨⟨?_, passed⟩, fun group other missing => ?_⟩
      · rwa [kept first unlisted, update_self]
      · rw [kept group missing, update_of_ne other]
    · rintro ⟨⟨here, passed⟩, kept⟩
      refine ⟨_, here, passed, fun group missing => ?_⟩
      by_cases self : group = first
      · rw [self, update_self]
      · rw [update_of_ne self, kept group self missing]

theorem checkCovenants_eq_ok_iff {balance : CGroupTokenID → GroupBalance} :
    checkCovenants balance vout = .ok () ↔
      ∀ outp ∈ vout, getScriptTemplate outp.scriptPubKey outp.scriptType ≠ .invalid ∧
      ¬((ofTxOut outp).associatedGroup.hasFlag COVENANT = true ∧
        (!hasCapability (balance (ofTxOut outp).associatedGroup).ctrlPerms RESCRIPT) = true ∧
        (getScriptTemplate outp.scriptPubKey outp.scriptType).contractId ≠
          (balance (ofTxOut outp).associatedGroup).covenant) := by
  induction vout with
  | nil => simp [checkCovenants, pure, Except.pure]
  | cons outp rest ih =>
    rw [checkCovenants, seq_eq_ok_iff, seq_eq_ok_iff, invalidIf_eq_ok_iff, invalidIf_eq_ok_iff, ih, forall_mem_cons,
      and_assoc]

theorem checkCovenants_congr {balance other : CGroupTokenID → GroupBalance}
    (same : ∀ outp ∈ vout, (ofTxOut outp).associatedGroup ≠ NoGroup →
      balance (ofTxOut outp).associatedGroup = other (ofTxOut outp).associatedGroup) :
    checkCovenants balance vout = .ok () ↔ checkCovenants other vout = .ok () := by
  rw [checkCovenants_eq_ok_iff, checkCovenants_eq_ok_iff]
  refine forall₂_congr fun outp listed => ?_
  by_cases native : (ofTxOut outp).associatedGroup = NoGroup
  · have free : NoGroup.hasFlag COVENANT = false := by decide
    simp [native, free]
  · rw [same outp listed native]

/-! ## The permissions of a group -/

section

variable (view readonlyCoins : COutPoint → Coin) (vin : List CTxIn) (group : CGroupTokenID)

/-- What the activated authorities allow for a group: its own, and its parent's if they delegate. -/
def capabilities : GroupAuthorityFlags :=
  let own := combined (activatedAuthorities view readonlyCoins vin group)
  let parent := combined (activatedAuthorities view readonlyCoins vin group.parentGroup)
  if group.isSubgroup ∧ hasCapability parent SUBGROUP then own ||| (parent &&& ~~~SUBGROUP) else own

/-- What authorities of a group may be created: from each own authority with `BATON`, and from each of
the parent with `BATON` and `SUBGROUP`. -/
def grantable : GroupAuthorityFlags :=
  let own := (activatedAuthorities view readonlyCoins vin group).filter fun x => hasCapability x BATON
  let parent := (activatedAuthorities view readonlyCoins vin group.parentGroup).filter fun x =>
    hasCapability x BATON && hasCapability x SUBGROUP
  if group.isSubgroup then combined own ||| (combined parent &&& ~~~SUBGROUP) else combined own

/-- The balance of a group as the checks see it. -/
structure GroupBalance.Describes (tx : CTransaction) (bal : GroupBalance) : Prop where
  output : (∀ outp ∈ tx.vout, (ofTxOut outp).associatedGroup = group →
    (ofTxOut outp).isAuthority = false → 0 ≤ (tokenAmount outp).toInt) →
    bal.output.toInt = outputTotal tx.vout group
  input : bal.input.toInt = inputTotal view readonlyCoins tx.vin group
  numOutputs : bal.numOutputs = outputCount tx.vout group
  ctrlOutputPerms : bal.ctrlOutputPerms = outputPerms tx.vout group
  ctrlPerms : bal.ctrlPerms = capabilities view readonlyCoins tx.vin group
  allowedCtrlOutputPerms : bal.allowedCtrlOutputPerms = grantable view readonlyCoins tx.vin group

end

theorem delegateFrom_empty (bal : GroupBalance) : delegateFrom {} bal = bal := by
  simp [delegateFrom, NONE]

theorem parentGroup_ne_noGroup (subgroup : group.isSubgroup = true) : group.parentGroup ≠ NoGroup := by
  intro empty
  have length := congrArg List.length empty
  simp [isSubgroup, parentGroup, PARENT_GROUP_ID_SIZE, NoGroup] at subgroup length
  simp [length] at subgroup

/-- The balance of a group after the pass that delegates, for groups without one as well. -/
def delegatedBalance (gBalance : GroupBalanceMap) (group : CGroupTokenID) : GroupBalance :=
  if group.isSubgroup then delegateFrom (gBalance.balance group.parentGroup) (gBalance.balance group)
  else gBalance.balance group

theorem delegatedBalance_totals (gBalance : GroupBalanceMap) (group : CGroupTokenID) :
    (delegatedBalance gBalance group).output = (gBalance.balance group).output ∧
      (delegatedBalance gBalance group).input = (gBalance.balance group).input ∧
      (delegatedBalance gBalance group).numOutputs = (gBalance.balance group).numOutputs ∧
      (delegatedBalance gBalance group).ctrlOutputPerms = (gBalance.balance group).ctrlOutputPerms := by
  rw [delegatedBalance]
  split_ifs <;> exact ⟨rfl, rfl, rfl, rfl⟩

theorem delegateToSubgroups_balance (valid : gBalance.Valid) (listed : group ∈ gBalance.groups) :
    (delegateToSubgroups gBalance).balance group = delegatedBalance gBalance group := by
  simp only [delegateToSubgroups, delegatedBalance, listed]
  by_cases subgroup : group.isSubgroup = true
  · by_cases parentListed : group.parentGroup ∈ gBalance.groups
    · simp [parentListed]
    · simp [valid.absent _ parentListed, delegateFrom_empty]
  · simp [subgroup]

/-- A balance without tokens and without new authorities passes. -/
theorem checkBalance_of_unused {bal : GroupBalance} (output : bal.output = 0) (input : bal.input = 0)
    (perms : bal.ctrlOutputPerms = NONE) : checkBalance tx group bal = .ok bal := by
  have noCreation : checkCreation tx group bal = .ok bal := by
    rw [checkCreation, perms]
    rfl
  rw [checkBalance, noCreation]
  simp [bind, Except.bind, invalidIf, perms, input, output, NONE, pure, Except.pure]

/-- A transaction is accepted exactly if every group passes the checks of the fourth loop, also the groups without a
balance, and every output those of the last one. -/
theorem checkGroupTokens_eq_ok_iff : (∃ result, checkGroupTokens tx view readonlyCoins = .ok result) ↔
    ∃ outs ins balance, tallyOutputs tx.vout {} = .ok outs ∧ tallyInputs view readonlyCoins tx.vin outs = .ok ins ∧
      (∀ group, checkBalance tx group (delegatedBalance ins group) = .ok (balance group)) ∧
      checkCovenants balance tx.vout = .ok () := by
  simp only [checkGroupTokens, bind_eq_ok_iff, exists_and_left]
  constructor
  · rintro ⟨result, outs, talliedOutputs, ins, talliedInputs, balance, checked, _, covenants, -⟩
    obtain ⟨validOutputs, -, counted⟩ := tallyOutputs_valid ⟨nodup_nil, fun _ _ => rfl⟩ talliedOutputs
    obtain ⟨valid, kept⟩ := tallyInputs_valid validOutputs talliedInputs
    refine ⟨outs, talliedOutputs, ins, talliedInputs,
      fun group => if group ∈ ins.groups then balance group else delegatedBalance ins group, fun group => ?_,
      (checkCovenants_congr fun outp listed isGroup => if_pos (kept (counted outp listed isGroup))).mpr covenants⟩
    dsimp only
    split_ifs with listed
    · rw [← delegateToSubgroups_balance valid listed]
      exact ((checkBalances_eq_ok_iff valid.nodup).mp checked).1 group listed
    · obtain ⟨output, input, -, perms⟩ := delegatedBalance_totals ins group
      rw [valid.absent group listed] at output input perms
      exact checkBalance_of_unused output input perms
  · rintro ⟨outs, talliedOutputs, ins, talliedInputs, balance, passed, covenants⟩
    obtain ⟨validOutputs, -, counted⟩ := tallyOutputs_valid ⟨nodup_nil, fun _ _ => rfl⟩ talliedOutputs
    obtain ⟨valid, kept⟩ := tallyInputs_valid validOutputs talliedInputs
    refine ⟨_, outs, talliedOutputs, ins, talliedInputs,
      fun group => if group ∈ ins.groups then balance group else (delegateToSubgroups ins).balance group, ?_, (),
      (checkCovenants_congr fun outp listed isGroup => if_pos (kept (counted outp listed isGroup))).mpr covenants, rfl⟩
    refine (checkBalances_eq_ok_iff valid.nodup).mpr ⟨fun group listed => ?_, fun group missing => if_neg missing⟩
    rw [if_pos listed, delegateToSubgroups_balance valid listed]
    exact passed group

/-- After the passes over outputs and inputs, the delegated balance of a group is as the transaction has it. -/
theorem delegatedBalance_describes {outs ins : GroupBalanceMap} (talliedOutputs : tallyOutputs tx.vout {} = .ok outs)
    (talliedInputs : tallyInputs view readonlyCoins tx.vin outs = .ok ins) (isGroup : group ≠ NoGroup) :
    (delegatedBalance ins group).Describes view readonlyCoins group tx := by
  obtain ⟨output, afterOutputs, total⟩ := tallyOutputs_eq_ok talliedOutputs isGroup
  have added := tallyInputs_spec talliedInputs group
  rw [afterOutputs] at added
  obtain ⟨sameOutput, sameInput, sameCount, samePerms⟩ := delegatedBalance_totals ins group
  have ctrlPerms := added.ctrlPerms.trans BitVec.zero_or
  have allowed := added.allowedCtrlOutputPerms.trans BitVec.zero_or
  constructor
  case output =>
    intro nonneg
    rw [sameOutput, added.output]
    exact (total nonneg).trans (Int.zero_add _)
  case input => rw [sameInput]; exact added.input.trans (Int.zero_add _)
  case numOutputs => rw [sameCount]; exact added.numOutputs.trans (Nat.zero_add _)
  case ctrlOutputPerms => rw [samePerms]; exact added.ctrlOutputPerms.trans BitVec.zero_or
  all_goals
    by_cases subgroup : group.isSubgroup = true
    · -- the parent of a subgroup is a group, whose balance had no permissions before the inputs
      have addedParent := tallyInputs_spec talliedInputs group.parentGroup
      obtain ⟨_, parentOutputs, -⟩ := tallyOutputs_eq_ok talliedOutputs (parentGroup_ne_noGroup subgroup)
      rw [parentOutputs] at addedParent
      have parentPerms := addedParent.ctrlPerms.trans BitVec.zero_or
      have parentAllowed := addedParent.allowedSubgroupCtrlOutputPerms.trans BitVec.zero_or
      simp [delegatedBalance, delegateFrom, capabilities, grantable, parentPerms, parentAllowed, ctrlPerms, allowed,
        subgroup]
    · simp [delegatedBalance, capabilities, grantable, ctrlPerms, allowed, subgroup]

/-- Every group passes the checks of the fourth loop with a balance that the transaction describes. -/
theorem checkGroupTokens_describes (accepted : checkGroupTokens tx view readonlyCoins = .ok result)
    (isGroup : group ≠ NoGroup) :
    ∃ bal checked, checkBalance tx group bal = .ok checked ∧ bal.Describes view readonlyCoins group tx := by
  obtain ⟨outs, ins, balance, talliedOutputs, talliedInputs, passed, -⟩ :=
    checkGroupTokens_eq_ok_iff.mp ⟨result, accepted⟩
  exact ⟨_, _, passed group, delegatedBalance_describes talliedOutputs talliedInputs isGroup⟩

/-! ## Creation of a group -/

/-- The transaction creates the group: it has an authority output of the group, no activated input
authority of it, and the id is the hash that `CheckGroupTokens` computes. -/
structure IsGenesis (view readonlyCoins : COutPoint → Coin) (tx : CTransaction) (group : CGroupTokenID) : Prop where
  authorityOutput : authorityOutputs tx.vout group ≠ []
  notActivated : activatedAuthorities view readonlyCoins tx.vin group = []
  idMatches : ∃ first, tx.vin.head? = some first ∧
    newGroupId first.prevout (firstOpReturn tx.vout) (outputPerms tx.vout group) = group

theorem hasCapability_of_isAuthority {info : CGroupTokenInfo} (authority : info.isAuthority = true) :
    hasCapability info.controllingGroupFlags AUTHORITY = true := by
  have single : AUTHORITY = BitVec.twoPow 64 63 := by decide
  rw [single, hasCapability_twoPow _ (by decide), ← isAuthority_eq]
  exact authority

theorem outputPerms_authority_iff (vout : List CTxOut) (group : CGroupTokenID) :
    hasCapability (outputPerms vout group) AUTHORITY = true ↔ authorityOutputs vout group ≠ [] := by
  rw [outputPerms, hasCapability_combined]
  constructor
  · rintro ⟨flags, member, -⟩ empty
    rw [empty] at member
    cases member
  · intro nonempty
    obtain ⟨outp, member⟩ := exists_mem_of_ne_nil _ nonempty
    refine ⟨_, mem_map_of_mem member, hasCapability_of_isAuthority ?_⟩
    simp only [authorityOutputs, mem_filter, decide_eq_true_eq] at member
    exact member.2.2

theorem length_newGroupId (prevout : COutPoint) (opReturn : CScript) (perms : GroupAuthorityFlags) :
    (newGroupId prevout opReturn perms).length = 32 := length_bytesLE 32 _

/-- Activated authorities have at least the flag `AUTHORITY`. -/
theorem combined_activated_eq_none_iff (view readonlyCoins : COutPoint → Coin) (vin : List CTxIn)
    (group : CGroupTokenID) : combined (activatedAuthorities view readonlyCoins vin group) = NONE ↔
      activatedAuthorities view readonlyCoins vin group = [] := by
  constructor
  · intro none
    by_contra nonempty
    obtain ⟨flags, member⟩ := exists_mem_of_ne_nil _ nonempty
    obtain ⟨inp, kept, rfl⟩ := mem_map.mp member
    have authority : (inputInfo view readonlyCoins inp).isAuthority = true := by
      simp only [mem_filter, decide_eq_true_eq, isActivated, Bool.and_eq_true] at kept
      exact kept.2.2.1
    have capable := hasCapability_combined.mpr ⟨_, member, hasCapability_of_isAuthority authority⟩
    rw [none] at capable
    exact absurd capable (by decide)
  · intro empty
    rw [empty]
    rfl

variable {bal checked : GroupBalance}

theorem creation_iff_isGenesis (describes : bal.Describes view readonlyCoins group tx) :
    (hasCapability bal.ctrlOutputPerms AUTHORITY = true ∧ bal.ctrlPerms = NONE ∧
      ∃ first, tx.vin.head? = some first ∧
        newGroupId first.prevout (firstOpReturn tx.vout) bal.ctrlOutputPerms = group) ↔
      IsGenesis view readonlyCoins tx group := by
  -- a group whose id is a hash is not a subgroup, so that nothing is delegated to it
  have capabilities_eq (first : CTxIn)
      (matched : newGroupId first.prevout (firstOpReturn tx.vout) (outputPerms tx.vout group) = group) :
      capabilities view readonlyCoins tx.vin group =
        combined (activatedAuthorities view readonlyCoins tx.vin group) := by
    have length : group.length = 32 := by rw [← matched, length_newGroupId]
    simp [capabilities, isSubgroup, PARENT_GROUP_ID_SIZE, length]
  rw [describes.ctrlOutputPerms, describes.ctrlPerms, outputPerms_authority_iff]
  constructor
  · rintro ⟨authority, none, first, head, matched⟩
    rw [capabilities_eq first matched, combined_activated_eq_none_iff] at none
    exact ⟨authority, none, first, head, matched⟩
  · rintro ⟨authority, inactive, first, head, matched⟩
    rw [capabilities_eq first matched, combined_activated_eq_none_iff]
    exact ⟨authority, inactive, first, head, matched⟩

theorem checkCreation_eq_ok (describes : bal.Describes view readonlyCoins group tx)
    (passed : checkCreation tx group bal = .ok checked) :
    (IsGenesis view readonlyCoins tx group ∧ bal.numOutputs = 1 ∧
      checked = { bal with ctrlPerms := ACTIVE_FLAG_BITS, allowedCtrlOutputPerms := ACTIVE_FLAG_BITS }) ∨
    (¬IsGenesis view readonlyCoins tx group ∧ checked = bal) := by
  rw [← creation_iff_isGenesis describes]
  rw [checkCreation] at passed
  split_ifs at passed with creates
  · cases inputs : tx.vin <;> rw [inputs] at passed
    · cases passed
    · dsimp only at passed
      split_ifs at passed with matched
      · simp only [seq_eq_ok_iff, invalidIf_eq_ok_iff, not_ne_iff] at passed
        obtain ⟨-, -, single, ⟨⟩⟩ := passed
        exact .inl ⟨⟨creates.1, creates.2, _, rfl, matched⟩, single, rfl⟩
      · obtain ⟨-, ⟨⟩⟩ := seq_eq_ok_iff.mp passed
        refine .inr ⟨?_, rfl⟩
        rintro ⟨-, -, other, head, otherMatched⟩
        cases head
        exact matched otherMatched
  · cases passed
    exact .inr ⟨fun creation => creates ⟨creation.1, creation.2.1⟩, rfl⟩

theorem checkBalance_eq_ok (passed : checkBalance tx group bal = .ok checked) :
    checkCreation tx group bal = .ok checked ∧
      (checked.output.toInt < checked.input.toInt → hasCapability checked.ctrlPerms MELT = true) ∧
      (checked.input.toInt < checked.output.toInt → hasCapability checked.ctrlPerms MINT = true) ∧
      checked.ctrlOutputPerms &&& ACTIVE_FLAG_BITS &&&
        ~~~(checked.allowedCtrlOutputPerms &&& ACTIVE_FLAG_BITS) = 0 := by
  simp only [checkBalance, bind_eq_ok_iff, invalidIf_eq_ok_iff] at passed
  obtain ⟨created, creation, _, melt, _, mint, _, perms, ⟨⟩⟩ := passed
  refine ⟨creation, ?_, ?_, not_ne_iff.mp perms⟩
  · intro less
    simpa [less] using melt
  · intro more
    simpa [more] using mint

/-! ## Amounts -/

section

variable (view readonlyCoins : COutPoint → Coin) (tx : CTransaction) (group : CGroupTokenID)
  (flag : GroupAuthorityFlags)

/-- Some activated input authority of the group carries the flag. -/
def HasAuthority : Prop :=
  ∃ flags ∈ activatedAuthorities view readonlyCoins tx.vin group, hasCapability flags flag = true

/-- The flag comes from the group itself, or from the parent of a subgroup together with `SUBGROUP`. -/
def IsAuthorised : Prop :=
  HasAuthority view readonlyCoins tx group flag ∨
    (group.isSubgroup = true ∧ HasAuthority view readonlyCoins tx group.parentGroup SUBGROUP ∧
      HasAuthority view readonlyCoins tx group.parentGroup flag)

/-- Some activated input authority with `BATON` carries the flag, or one of the parent that may delegate it. -/
def IsGranted : Prop :=
  (∃ flags ∈ activatedAuthorities view readonlyCoins tx.vin group,
    hasCapability flags BATON = true ∧ hasCapability flags flag = true) ∨
  (group.isSubgroup = true ∧ flag ≠ SUBGROUP ∧
    ∃ flags ∈ activatedAuthorities view readonlyCoins tx.vin group.parentGroup,
      hasCapability flags BATON = true ∧ hasCapability flags SUBGROUP = true ∧ hasCapability flags flag = true)

end

theorem isAuthorised_of_capability
    (capable : hasCapability (capabilities view readonlyCoins tx.vin group) flag = true) :
    IsAuthorised view readonlyCoins tx group flag := by
  rw [capabilities] at capable
  split_ifs at capable with delegates
  · rw [hasCapability_or, Bool.or_eq_true] at capable
    cases capable with
    | inl own => exact .inl (hasCapability_combined.mp own)
    | inr parent =>
      exact .inr ⟨delegates.1, hasCapability_combined.mp delegates.2,
        hasCapability_combined.mp (hasCapability_of_and parent)⟩
  · exact .inl (hasCapability_combined.mp capable)

theorem outputTotal_nonneg (nonneg : ∀ outp ∈ vout, 0 ≤ outp.nValue.toInt) (group : CGroupTokenID) :
    0 ≤ outputTotal vout group := by
  apply sum_nonneg
  simp only [forall_mem_map, mem_filter, decide_eq_true_eq, Bool.not_eq_true']
  exact fun outp kept => tokenAmount_nonneg kept.2.2 (nonneg outp kept.1)

theorem inputTotal_nonneg (nonneg : ∀ inp ∈ vin, 0 ≤ (inputCoin view readonlyCoins inp).out.nValue.toInt)
    (group : CGroupTokenID) : 0 ≤ inputTotal view readonlyCoins vin group := by
  apply sum_nonneg
  simp only [forall_mem_map, mem_filter, decide_eq_true_eq, Bool.not_eq_true']
  exact fun inp kept => tokenAmount_nonneg kept.2.2.2 (nonneg inp kept.1)

theorem outputTotal_noGroup (vout : List CTxOut) : outputTotal vout NoGroup = 0 := by
  apply sum_eq_zero
  simp only [forall_mem_map, mem_filter, decide_eq_true_eq]
  exact fun outp kept => tokenAmount_eq_zero kept.2.1

theorem inputTotal_noGroup (view readonlyCoins : COutPoint → Coin) (vin : List CTxIn) :
    inputTotal view readonlyCoins vin NoGroup = 0 := by
  apply sum_eq_zero
  simp only [forall_mem_map, mem_filter, decide_eq_true_eq]
  exact fun inp kept => tokenAmount_eq_zero kept.2.1

theorem IsGenesis.ne_noGroup (genesis : IsGenesis view readonlyCoins tx group) : group ≠ NoGroup := by
  rintro rfl
  obtain ⟨first, -, matched⟩ := genesis.idMatches
  have length := congrArg List.length matched
  cases length

theorem outputTotal_eq_zero_of_single (single : outputCount vout group = 1)
    (authority : authorityOutputs vout group ≠ []) : outputTotal vout group = 0 := by
  have parts : authorityOutputs vout group =
      (vout.filter fun outp => (ofTxOut outp).associatedGroup = group).filter fun outp =>
        (ofTxOut outp).isAuthority := by
    rw [authorityOutputs]
    simp [Bool.and_comm]
  have rest : outputTotal vout group =
      (((vout.filter fun outp => (ofTxOut outp).associatedGroup = group).filter fun outp =>
        !(ofTxOut outp).isAuthority).map fun outp => (tokenAmount outp).toInt).sum := by
    rw [outputTotal]
    simp [Bool.and_comm]
  obtain ⟨outp, only⟩ := length_eq_one_iff.mp single
  rw [parts, only] at authority
  rw [rest, only]
  cases isAuthority : (ofTxOut outp).isAuthority with
  | true => simp [isAuthority]
  | false => simp [isAuthority] at authority

/-- Tokens are minted and melted only with authority, except that a genesis may melt; a genesis creates no
tokens; and the totals fit into an amount. -/
theorem tokenTotals_authorised {tx : CTransaction} {view readonlyCoins : COutPoint → Coin} {result : GroupBalanceMap}
    (accepted : checkGroupTokens tx view readonlyCoins = .ok result)
    (outputs : ∀ outp ∈ tx.vout, 0 ≤ outp.nValue.toInt)
    (coins : ∀ inp ∈ tx.vin, 0 ≤ (inputCoin view readonlyCoins inp).out.nValue.toInt) (group : CGroupTokenID) :
    (inputTotal view readonlyCoins tx.vin group < outputTotal tx.vout group →
      IsAuthorised view readonlyCoins tx group MINT) ∧
    (outputTotal tx.vout group < inputTotal view readonlyCoins tx.vin group →
      IsAuthorised view readonlyCoins tx group MELT ∨ IsGenesis view readonlyCoins tx group) ∧
    (IsGenesis view readonlyCoins tx group → outputTotal tx.vout group = 0) ∧
    (0 ≤ outputTotal tx.vout group ∧ outputTotal tx.vout group < 2 ^ 63) ∧
    (0 ≤ inputTotal view readonlyCoins tx.vin group ∧ inputTotal view readonlyCoins tx.vin group < 2 ^ 63) := by
  by_cases isGroup : group = NoGroup
  · subst isGroup
    rw [outputTotal_noGroup, inputTotal_noGroup]
    exact ⟨nofun, nofun, fun _ => rfl, by decide, by decide⟩
  obtain ⟨bal, checked, passed, describes⟩ := checkGroupTokens_describes accepted isGroup
  obtain ⟨creation, melt, mint, -⟩ := checkBalance_eq_ok passed
  have output := describes.output fun outp listed _ plain =>
    tokenAmount_nonneg plain (outputs outp listed)
  have outputFits : 0 ≤ outputTotal tx.vout group ∧ outputTotal tx.vout group < 2 ^ 63 :=
    ⟨outputTotal_nonneg outputs group, output ▸ bal.output.toInt_lt⟩
  have inputFits : 0 ≤ inputTotal view readonlyCoins tx.vin group ∧
      inputTotal view readonlyCoins tx.vin group < 2 ^ 63 :=
    ⟨inputTotal_nonneg coins group, describes.input ▸ bal.input.toInt_lt⟩
  cases checkCreation_eq_ok describes creation with
  | inl created =>
    obtain ⟨genesis, single, -⟩ := created
    rw [describes.numOutputs] at single
    have nothing := outputTotal_eq_zero_of_single single genesis.authorityOutput
    refine ⟨?_, fun _ => .inr genesis, fun _ => nothing, outputFits, inputFits⟩
    omega
  | inr same =>
    obtain ⟨notGenesis, rfl⟩ := same
    rw [output, describes.input, describes.ctrlPerms] at melt mint
    exact ⟨fun more => isAuthorised_of_capability (mint more),
      fun less => .inl (isAuthorised_of_capability (melt less)),
      fun genesis => absurd genesis notGenesis, outputFits, inputFits⟩

/-! Sample transactions -/

def sampleGroupScript (group : CGroupTokenID) (quantity : Bytes) : CScript :=
  32 :: group ++ UInt8.ofNat quantity.length :: quantity ++ [0x51, 0x00]

def sampleGroup : CGroupTokenID := replicate 32 0

def sampleTokenView (outpoint : COutPoint) : Coin :=
  if outpoint = ⟨1⟩ then ⟨⟨0, 1000, [0x51]⟩, false, 1⟩
  else if outpoint = ⟨2⟩ then
    ⟨⟨1, 546, sampleGroupScript sampleGroup (bytesLE 8 (AUTHORITY ||| MINT ||| BATON).toNat)⟩, false, 1⟩
  else {}

def sampleMint : CTransaction where
  vin := [{ prevout := ⟨1⟩ }, { prevout := ⟨2⟩ }]
  vout := [⟨1, 546, sampleGroupScript sampleGroup [7, 0]⟩,
    ⟨1, 546, sampleGroupScript sampleGroup (bytesLE 8 (AUTHORITY ||| MINT).toNat)⟩]

theorem sampleMint_accepted : ∃ result, checkGroupTokens sampleMint sampleTokenView sampleTokenView = .ok result :=
  exists_ok_of_toBool (by decide)

theorem tokenTotals_authorised_mint : ∃ result,
    checkGroupTokens sampleMint sampleTokenView sampleTokenView = .ok result ∧
    outputTotal sampleMint.vout sampleGroup = 7 ∧
      inputTotal sampleTokenView sampleTokenView sampleMint.vin sampleGroup = 0 ∧
    IsAuthorised sampleTokenView sampleTokenView sampleMint sampleGroup MINT := by
  obtain ⟨result, accepted⟩ := sampleMint_accepted
  have output : outputTotal sampleMint.vout sampleGroup = 7 := by decide
  have input : inputTotal sampleTokenView sampleTokenView sampleMint.vin sampleGroup = 0 := by decide
  have minted := (tokenTotals_authorised accepted (by decide) (by decide) sampleGroup).1
  exact ⟨result, accepted, output, input, minted (by rw [input]; decide)⟩

def sampleGenesisPerms : GroupAuthorityFlags := 0xfc00000000007736

def sampleNewGroup : CGroupTokenID := newGroupId ⟨1⟩ [] sampleGenesisPerms

def sampleGenesisView (outpoint : COutPoint) : Coin :=
  if outpoint = ⟨3⟩ then ⟨⟨1, 546, sampleGroupScript sampleNewGroup [5, 0]⟩, false, 1⟩
  else ⟨⟨0, 1000, [0x51]⟩, false, 1⟩

def sampleGenesisMelt : CTransaction where
  vin := [{ prevout := ⟨1⟩ }, { prevout := ⟨3⟩ }]
  vout := [⟨1, 546, sampleGroupScript sampleNewGroup (bytesLE 8 sampleGenesisPerms.toNat)⟩]

theorem sampleGenesisMelt_accepted :
    ∃ result, checkGroupTokens sampleGenesisMelt sampleGenesisView sampleGenesisView = .ok result :=
  exists_ok_of_toBool (by decide +kernel)

theorem sampleGenesisMelt_isGenesis :
    IsGenesis sampleGenesisView sampleGenesisView sampleGenesisMelt sampleNewGroup where
  authorityOutput := by decide +kernel
  notActivated := by decide +kernel
  idMatches := ⟨_, rfl, by decide +kernel⟩

/-- A genesis may melt tokens that exist of its group, with no authority for that among its inputs. -/
theorem genesis_melts_without_authority :
    (∃ result, checkGroupTokens sampleGenesisMelt sampleGenesisView sampleGenesisView = .ok result) ∧
    outputTotal sampleGenesisMelt.vout sampleNewGroup = 0 ∧
    inputTotal sampleGenesisView sampleGenesisView sampleGenesisMelt.vin sampleNewGroup = 5 ∧
    ¬IsAuthorised sampleGenesisView sampleGenesisView sampleGenesisMelt sampleNewGroup MELT := by
  refine ⟨sampleGenesisMelt_accepted, by decide +kernel, by decide +kernel, ?_⟩
  have noParent : sampleNewGroup.isSubgroup = false := by decide
  simp [IsAuthorised, HasAuthority, sampleGenesisMelt_isGenesis.notActivated, noParent]

/-! ## Authorities -/

/-- The flags that have a meaning. -/
def activeFlags : List GroupAuthorityFlags := [AUTHORITY, MINT, MELT, BATON, RESCRIPT, SUBGROUP]

theorem activeFlags_twoPow (active : flag ∈ activeFlags) :
    ∃ i < 64, flag = BitVec.twoPow 64 i ∧ ACTIVE_FLAG_BITS.getLsbD i = true := by
  simp only [activeFlags, mem_cons, not_mem_nil, or_false] at active
  rcases active with rfl | rfl | rfl | rfl | rfl | rfl
  exacts [⟨63, by decide⟩, ⟨62, by decide⟩, ⟨61, by decide⟩, ⟨60, by decide⟩, ⟨59, by decide⟩, ⟨58, by decide⟩]

theorem isGranted_of_grantable (capable : hasCapability (grantable view readonlyCoins tx.vin group) flag = true) :
    IsGranted view readonlyCoins tx group flag := by
  have own (capable : hasCapability (combined ((activatedAuthorities view readonlyCoins tx.vin group).filter
      fun x => hasCapability x BATON)) flag = true) : IsGranted view readonlyCoins tx group flag := by
    obtain ⟨flags, member, capable⟩ := hasCapability_combined.mp capable
    obtain ⟨member, baton⟩ := mem_filter.mp member
    exact .inl ⟨flags, member, baton, capable⟩
  rw [grantable] at capable
  split_ifs at capable with subgroup
  · rw [hasCapability_or, Bool.or_eq_true] at capable
    cases capable with
    | inl capable => exact own capable
    | inr delegated =>
      have notSubgroup : flag ≠ SUBGROUP := by
        rintro rfl
        rw [hasCapability, decide_eq_true_eq, BitVec.and_assoc] at delegated
        exact delegated BitVec.and_zero
      obtain ⟨flags, member, capable⟩ := hasCapability_combined.mp (hasCapability_of_and delegated)
      obtain ⟨member, delegates⟩ := mem_filter.mp member
      rw [Bool.and_eq_true] at delegates
      exact .inr ⟨subgroup, notSubgroup, flags, member, delegates.1, delegates.2, capable⟩
  · exact own capable

/-- No authority escalates: outside of a genesis every active flag of an authority output is granted, and a
genesis has exactly one output of its group. -/
theorem authorityOutputs_granted {tx : CTransaction} {view readonlyCoins : COutPoint → Coin}
    {result : GroupBalanceMap} (accepted : checkGroupTokens tx view readonlyCoins = .ok result)
    (group : CGroupTokenID) :
    (¬IsGenesis view readonlyCoins tx group → ∀ outp ∈ authorityOutputs tx.vout group, ∀ flag ∈ activeFlags,
      hasCapability (CGroupTokenInfo.ofTxOut outp).controllingGroupFlags flag = true →
      IsGranted view readonlyCoins tx group flag) ∧
    (IsGenesis view readonlyCoins tx group → outputCount tx.vout group = 1) := by
  by_cases isGroup : group = NoGroup
  · refine ⟨?_, fun genesis => absurd isGroup genesis.ne_noGroup⟩
    intro _ outp member
    simp only [authorityOutputs, mem_filter, decide_eq_true_eq, isGroup] at member
    exact absurd member.2.1 (ne_noGroup_of_isAuthority member.2.2)
  obtain ⟨bal, checked, passed, describes⟩ := checkGroupTokens_describes accepted isGroup
  obtain ⟨creation, -, -, within⟩ := checkBalance_eq_ok passed
  cases checkCreation_eq_ok describes creation with
  | inl created =>
    obtain ⟨genesis, single, -⟩ := created
    exact ⟨fun notGenesis => absurd genesis notGenesis, fun _ => describes.numOutputs ▸ single⟩
  | inr same =>
    obtain ⟨notGenesis, rfl⟩ := same
    refine ⟨?_, fun genesis => absurd genesis notGenesis⟩
    intro _ outp member flag active capable
    rw [describes.ctrlOutputPerms, describes.allowedCtrlOutputPerms] at within
    apply isGranted_of_grantable
    -- the last test of the fourth loop leaves no active flag that is not allowed
    have combined : hasCapability (outputPerms tx.vout group) flag = true :=
      hasCapability_combined.mpr ⟨_, mem_map_of_mem member, capable⟩
    obtain ⟨i, bound, rfl, defined⟩ := activeFlags_twoPow active
    rw [hasCapability_twoPow _ bound] at combined ⊢
    have bit := congrArg (fun flags => BitVec.getLsbD flags i) within
    simpa [bound, combined, defined] using bit

theorem authorityOutputs_granted_mint : ∃ result,
    checkGroupTokens sampleMint sampleTokenView sampleTokenView = .ok result ∧
    IsGranted sampleTokenView sampleTokenView sampleMint sampleGroup MINT := by
  obtain ⟨result, accepted⟩ := sampleMint_accepted
  have notGenesis : ¬IsGenesis sampleTokenView sampleTokenView sampleMint sampleGroup := by
    intro genesis
    exact absurd genesis.notActivated (by decide)
  refine ⟨result, accepted, (authorityOutputs_granted accepted sampleGroup).1 notGenesis
    ⟨1, 546, sampleGroupScript sampleGroup (bytesLE 8 (AUTHORITY ||| MINT).toNat)⟩ ?_ MINT ?_ ?_⟩
  all_goals decide

end Nexa
