import Nexa.Proofs.BlockChain
import Nexa.Proofs.TokenAuthority

/-! # A group is created once

The id of a new group commits to the prevout of the first input. A coin can be consumed only once on a
chain, and then every group has one genesis; but a first input that is read-only leaves its coin in
place, or refers to a coin that another transaction of the block consumes.
-/

namespace Nexa

open BlockConnection List

/-- The data whose hash is the id of a new group. -/
def groupIdData (tx : CTransaction) (group : CGroupTokenID) (first : CTxIn) : Bytes := first.prevout.hash.toBytes ++
    (if (firstOpReturn tx.vout).length ≠ 0 then writeVector (firstOpReturn tx.vout) else []) ++
    bytesLE 8 (outputPerms tx.vout group).toNat

variable {group : CGroupTokenID} {first : CTxIn} {vin : List CTxIn}

theorem prevout_eq_of_groupIdData {tx tx' : CTransaction} {first' : CTxIn}
    (same : groupIdData tx group first = groupIdData tx' group first') : first.prevout = first'.prevout := by
  rw [groupIdData, groupIdData, append_assoc, append_assoc] at same
  have bytes := (append_inj same (by rw [Uint256.toBytes, Uint256.toBytes, length_bytesLE, length_bytesLE])).1
  exact COutPoint.hash_injective (Uint256.toBytes_injective bytes)

variable {σ : Type} [BackingView σ]

/-- `CheckGroupTokens` accepts the transaction at a position of the block as the genesis of a group. -/
structure BlockConnection.Creates (step : BlockConnection σ) (i : ℕ) (tx : CTransaction) (group : CGroupTokenID) :
    Prop where
  notGenesisBlock : ¬step.IsGenesisBlock
  listed : step.pblock.block.vtx[i]? = some tx
  accepted : ∃ balances, checkGroupTokens tx step.added.lookup step.beginningTipView.lookup = .ok balances
  genesis : IsGenesis step.added.lookup step.beginningTipView.lookup tx group

/-- The data that were hashed to get the ids of the groups that a chain creates. -/
def createdGroupData (steps : List (BlockConnection σ)) : Set Bytes :=
  {data | ∃ step ∈ steps, ∃ i tx group first, step.Creates i tx group ∧ tx.vin.head? = some first ∧
    data = groupIdData tx group first}

theorem prevout_mem_consumedBy {vin : List CTxIn} {first : CTxIn} (head : vin.head? = some first)
    (consumed : first.isReadOnly = false) : first.prevout ∈ consumedBy vin := by
  obtain ⟨rest, rfl⟩ := head?_eq_some_iff.mp head
  rw [consumedBy_cons, if_neg (by simp [consumed])]
  exact mem_cons_self

namespace BlockConnection.Creates

variable {step : BlockConnection σ} {i : ℕ} {tx : CTransaction}

theorem removed_eq (creates : step.Creates i tx group) : step.update.removed = step.pblock.block.consumed := by
  rw [update, if_neg creates.notGenesisBlock]

theorem mem_removed (creates : step.Creates i tx group) {outpoint : COutPoint}
    (consumed : outpoint ∈ consumedBy tx.vin) : outpoint ∈ step.update.removed := by
  rw [creates.removed_eq]
  exact mem_flatMap.mpr ⟨tx, mem_of_getElem? creates.listed, consumed⟩

theorem first_prevout {steps : List (BlockConnection σ)}
    (injective : Set.InjOn hash256 (createdGroupData steps)) (member : step ∈ steps) {step' : BlockConnection σ}
    (member' : step' ∈ steps) {j : ℕ} {tx' : CTransaction} (creates : step.Creates i tx group)
    (creates' : step'.Creates j tx' group) :
    ∃ first first', tx.vin.head? = some first ∧ tx'.vin.head? = some first' ∧ first.prevout = first'.prevout := by
  obtain ⟨first, head, matched⟩ := creates.genesis.idMatches
  obtain ⟨first', head', matched'⟩ := creates'.genesis.idMatches
  refine ⟨first, first', head, head', ?_⟩
  have hashes := Uint256.toBytes_injective (matched.trans matched'.symm)
  exact prevout_eq_of_groupIdData (injective ⟨step, member, i, tx, group, first, creates, head, rfl⟩
    ⟨step', member', j, tx', group, first', creates', head', rfl⟩ hashes)

end BlockConnection.Creates

/-- Where the first input of every genesis is consumed, a group has one genesis on a chain. -/
theorem genesis_once_of_consumed {steps : List (BlockConnection σ)} {last : Utxo}
    (chain : ConnectedChain (fun _ => none) steps last)
    (createdOnce : (ConnectedChain.createdOutpoints steps).Nodup)
    (injective : Set.InjOn hash256 (createdGroupData steps))
    (consumes : ∀ step ∈ steps, ∀ i tx group, step.Creates i tx group → ∀ first ∈ tx.vin.head?,
      first.isReadOnly = false)
    {n m i j : ℕ} {step step' : BlockConnection σ} (atN : steps[n]? = some step) (atM : steps[m]? = some step')
    {tx tx' : CTransaction} {group : CGroupTokenID} (creates : step.Creates i tx group)
    (creates' : step'.Creates j tx' group) : n = m ∧ i = j := by
  have member := mem_of_getElem? atN
  have member' := mem_of_getElem? atM
  obtain ⟨first, first', head, head', samePrevout⟩ := creates.first_prevout injective member member' creates'
  have inTx := prevout_mem_consumedBy head (consumes step member i tx group creates first head)
  have inTx' := prevout_mem_consumedBy head' (consumes step' member' j tx' group creates' first' head')
  rw [← samePrevout] at inTx'
  have once := chain.consumed_nodup createdOnce
  rw [flatMap_map] at once
  have sameBlock : n = m :=
    Ledger.index_eq_of_mem_flatMap once atN atM (creates.mem_removed inTx) (creates'.mem_removed inTx')
  subst sameBlock
  cases atN.symm.trans atM
  have blockOnce := (nodup_flatMap.mp once).1 step member
  rw [creates.removed_eq] at blockOnce
  exact ⟨rfl, Ledger.index_eq_of_mem_flatMap blockOnce creates.listed creates'.listed inTx inTx'⟩

/-! ## A group with two creations -/

def sampleTokenReward : CTransaction where
  vin := []
  vout := [{ nValue := 500, scriptPubKey := [0x51] }, { nValue := 500, scriptPubKey := [0x51] },
    { nValue := 0, scriptPubKey := 0x6a :: replicate 40 0 }]

def sampleCreatedPerms : GroupAuthorityFlags := 0xfc00000000006574

def sampleCreatedGroup : CGroupTokenID := newGroupId (sampleTokenReward.outpointAt 0) [] sampleCreatedPerms

def sampleCreation (vin : List CTxIn) : CTransaction where
  vin
  vout := [⟨1, 500, sampleGroupScript sampleCreatedGroup (bytesLE 8 sampleCreatedPerms.toNat)⟩]

def sampleOwner : CTransaction := sampleCreation [{ prevout := sampleTokenReward.outpointAt 0, amount := 500 }]

def sampleIntruder : CTransaction :=
  sampleCreation [{ type := CTxIn.READONLY, prevout := sampleTokenReward.outpointAt 0, nSequence := 0, amount := 0 },
    { prevout := sampleTokenReward.outpointAt 1, amount := 500 }]

variable {view readonlyCoins : COutPoint → Coin}

theorem isGenesis_sampleCreation (head : vin.head? = some first)
    (prevout : first.prevout = sampleTokenReward.outpointAt 0)
    (inactive : activatedAuthorities view readonlyCoins vin sampleCreatedGroup = []) :
    IsGenesis view readonlyCoins (sampleCreation vin) sampleCreatedGroup := by
  have shape : authorityOutputs (sampleCreation []).vout sampleCreatedGroup ≠ [] ∧
      newGroupId (sampleTokenReward.outpointAt 0) (firstOpReturn (sampleCreation []).vout)
        (outputPerms (sampleCreation []).vout sampleCreatedGroup) = sampleCreatedGroup := by decide +kernel
  exact ⟨shape.1, inactive, first, head, prevout ▸ shape.2⟩

def sampleOwnBlock : CBlockRef where
  block := sampleBlockOf sampleGenesisIndex [sampleTokenReward, sampleOwner]
    0x6aeb4ff5186729c57270c44937e823c0c56d758a47db261e655bbbfafc6cd058 [0]
  checked marked := (Bool.false_ne_true marked).elim

def sampleOwnStep : BlockConnection CCoinsViewDB := .ofAccepted sampleConnectContext sampleOwnBlock
    [{ header := sampleOwnBlock.block.toCBlockHeader }, sampleGenesisIndex] sampleEmptyView sampleEmptyView_coherent
    (by decide +kernel)

theorem sampleOwnStep_creates : sampleOwnStep.Creates 1 sampleOwner sampleCreatedGroup where
  notGenesisBlock := by decide +kernel
  listed := rfl
  accepted := Validation.exists_ok_of_toBool (by decide +kernel)
  genesis := isGenesis_sampleCreation rfl rfl (by decide +kernel)

theorem sampleOwnStep_chain : ConnectedChain (fun _ => none) [sampleOwnStep] sampleOwnStep.after.coins := by
  have start : sampleOwnStep.view.coins = fun _ => none := by
    exact funext sampleEmptyView_coins
  rw [← start]
  exact .cons (.nil _)

theorem group_eq_of_sampleCreation
    (genesis : IsGenesis view readonlyCoins (sampleCreation vin) group) : group = sampleCreatedGroup := by
  obtain ⟨out, listed⟩ := exists_mem_of_ne_nil _ genesis.authorityOutput
  rw [authorityOutputs, mem_filter] at listed
  obtain ⟨single, grouped⟩ := listed
  cases mem_singleton.mp single
  rw [decide_eq_true_eq] at grouped
  exact grouped.1.symm

theorem sampleCreation_injective {steps : List (BlockConnection CCoinsViewDB)}
    (creations : ∀ step ∈ steps, ∀ tx ∈ step.pblock.block.vtx, ∀ first ∈ tx.vin.head?,
      tx = sampleCreation tx.vin ∧ first.prevout = sampleTokenReward.outpointAt 0) :
    Set.InjOn hash256 (createdGroupData steps) := by
  have same : ∀ data ∈ createdGroupData steps,
      data = groupIdData sampleOwner sampleCreatedGroup { prevout := sampleTokenReward.outpointAt 0 } := by
    rintro data ⟨step, member, i, tx, group, first, creates, head, rfl⟩
    obtain ⟨creation, prevout⟩ := creations step member tx (mem_of_getElem? creates.listed) first head
    have genesis := creates.genesis
    rw [creation] at genesis ⊢
    rw [group_eq_of_sampleCreation genesis, groupIdData, prevout]
    rfl
  intro data member data' member' _
  rw [same data member, same data' member']

theorem genesis_once_of_consumed_sample : sampleOwnStep.Creates 1 sampleOwner sampleCreatedGroup ∧
    ∀ m j step tx, [sampleOwnStep][m]? = some step → step.Creates j tx sampleCreatedGroup → 0 = m ∧ 1 = j := by
  refine ⟨sampleOwnStep_creates, fun m j step tx atM creates => ?_⟩
  have txs : ∀ step ∈ [sampleOwnStep], ∀ tx ∈ step.pblock.block.vtx, ∀ first ∈ tx.vin.head?,
      (tx = sampleCreation tx.vin ∧ first.prevout = sampleTokenReward.outpointAt 0) ∧ first.isReadOnly = false := by
    intro step member tx listed first head
    cases mem_singleton.mp member
    rcases mem_pair.mp listed with rfl | rfl
    · cases head
    · cases head
      exact ⟨⟨rfl, rfl⟩, rfl⟩
  have injective := sampleCreation_injective fun step member tx listed first head =>
    (txs step member tx listed first head).1
  exact genesis_once_of_consumed sampleOwnStep_chain (by decide +kernel) injective
    (fun step member i tx group creates first head =>
      (txs step member tx (mem_of_getElem? creates.listed) first head).2)
    rfl atM sampleOwnStep_creates creates

def sampleTokenBlock : CBlockRef where
  block := sampleBlockOf sampleGenesisIndex [sampleTokenReward]
    0xc668e6a7a131b56a3bdd01761555c23adbe6233c0f661426de8f0e9283e21c25 [0]
  checked marked := (Bool.false_ne_true marked).elim

def sampleTokenIndex : CBlockIndex := { header := sampleTokenBlock.block.toCBlockHeader }

def sampleTokenStep : BlockConnection CCoinsViewDB :=
  .ofAccepted sampleConnectContext sampleTokenBlock [sampleTokenIndex, sampleGenesisIndex] sampleEmptyView
    sampleEmptyView_coherent (by decide +kernel)

theorem sampleTokenStep_coherent : sampleTokenStep.after.Coherent :=
  (refines_update ⟨by decide +kernel, fun outpoint _ => sampleEmptyView_coins outpoint⟩).2.1

def sampleIntruderBlock : CBlockRef where
  block := sampleBlockOf sampleTokenIndex [sampleReward, sampleOwner, sampleIntruder]
    0x5f39e5fa172f248bf6ea50ed3438eb07f8fd5c4daddcc04507c94982198531c3 [0]
  checked marked := (Bool.false_ne_true marked).elim

def sampleIntruderStep : BlockConnection CCoinsViewDB :=
  .ofAccepted { sampleConnectContext with mapBlockIndex := [sampleTokenIndex, sampleGenesisIndex] } sampleIntruderBlock
    [{ header := sampleIntruderBlock.block.toCBlockHeader }, sampleTokenIndex, sampleGenesisIndex]
    sampleTokenStep.after sampleTokenStep_coherent (by decide +kernel)

theorem sampleIntruderStep_chain : ConnectedChain (fun _ => none) [sampleTokenStep, sampleIntruderStep]
    sampleIntruderStep.after.coins := by
  have start : sampleTokenStep.view.coins = fun _ => none := by
    exact funext sampleEmptyView_coins
  have next : sampleTokenStep.after.coins = sampleIntruderStep.view.coins := by
    rw [sampleIntruderStep, ofAccepted]
  rw [← start]
  refine .cons ?_
  rw [next]
  exact .cons (.nil _)

theorem sampleIntruderStep_checks : ¬sampleIntruderStep.IsGenesisBlock ∧ ∀ tx ∈ [sampleOwner, sampleIntruder],
    (checkGroupTokens tx sampleIntruderStep.added.lookup sampleIntruderStep.beginningTipView.lookup).toBool = true ∧
    activatedAuthorities sampleIntruderStep.added.lookup sampleIntruderStep.beginningTipView.lookup tx.vin
      sampleCreatedGroup = [] := by
  decide +kernel

theorem sampleIntruderStep_creates {i : ℕ}
    (listed : sampleIntruderStep.pblock.block.vtx[i]? = some (sampleCreation vin))
    (member : sampleCreation vin ∈ [sampleOwner, sampleIntruder]) (head : vin.head? = some first)
    (prevout : first.prevout = sampleTokenReward.outpointAt 0) :
    sampleIntruderStep.Creates i (sampleCreation vin) sampleCreatedGroup := by
  obtain ⟨notGenesis, checks⟩ := sampleIntruderStep_checks
  obtain ⟨accepted, inactive⟩ := checks _ member
  exact ⟨notGenesis, listed, Validation.exists_ok_of_toBool accepted, isGenesis_sampleCreation head prevout inactive⟩

/-- With a read-only first input a group gets a second genesis, although no outpoint is created twice. -/
theorem genesis_repeated_by_readOnly_input :
    ConnectedChain (fun _ => none) [sampleTokenStep, sampleIntruderStep] sampleIntruderStep.after.coins ∧
    (ConnectedChain.createdOutpoints [sampleTokenStep, sampleIntruderStep]).Nodup ∧
    Set.InjOn hash256 (createdGroupData [sampleTokenStep, sampleIntruderStep]) ∧
    sampleIntruderStep.Creates 1 sampleOwner sampleCreatedGroup ∧
    sampleIntruderStep.Creates 2 sampleIntruder sampleCreatedGroup := by
  refine ⟨sampleIntruderStep_chain, by decide +kernel, sampleCreation_injective ?_,
    sampleIntruderStep_creates rfl (mem_cons_self) rfl rfl,
    sampleIntruderStep_creates rfl (mem_cons_of_mem _ mem_cons_self) rfl rfl⟩
  intro step member tx listed first head
  rcases mem_pair.mp member with rfl | rfl
  · cases mem_singleton.mp listed
    cases head
  · rcases mem_cons.mp listed with rfl | listed
    · cases head
    · rcases mem_pair.mp listed with rfl | rfl
      · cases head
        exact ⟨rfl, rfl⟩
      · cases head
        exact ⟨rfl, rfl⟩

end Nexa
