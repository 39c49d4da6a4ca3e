import Nexa.Proofs.TokenMintage

/-! # Recorded authorities and other groups

The variable `authority` of `AccumulateTokenData` lives through both loops. A group with an entry starts from
that entry, but a group without one starts from what was stored for the group before. So what is recorded
for a group depends on its own inputs and outputs only if it has an entry, or no authorities.
-/

namespace Nexa

open GroupAuthorityFlags CGroupTokenID CGroupTokenInfo Function List

/-! ## Authorities one after the other -/

/-- An authority that counts, up or down. -/
abbrev AuthorityEvent := ℤ × CGroupTokenInfo

/-- The map of authorities and the variable `authority` after an event. -/
def recordEvent (state : CAuthMap × CAuth) (event : AuthorityEvent) : CAuthMap × CAuth :=
  let authority := ((state.1.lookup event.2.associatedGroup).getD state.2).count event.1 event.2
  (state.1.insert event.2.associatedGroup authority, authority)

/-- What a sequence of events makes of the count that the first one finds. -/
def countEvents (events : List AuthorityEvent) (authority : CAuth) : CAuth :=
  events.foldl (fun authority event => authority.count event.1 event.2) authority

def eventsOf (group : CGroupTokenID) (events : List AuthorityEvent) : List AuthorityEvent :=
  events.filter fun event => event.2.associatedGroup = group

section

variable {group : CGroupTokenID} {state : CAuthMap × CAuth} {events : List AuthorityEvent} (event : AuthorityEvent)

theorem lookup_recordEvent : (recordEvent state event).1.lookup group = if event.2.associatedGroup = group then
        some (((state.1.lookup group).getD state.2).count event.1 event.2)
      else state.1.lookup group := by
  rw [recordEvent]
  by_cases same : group = event.2.associatedGroup
  · subst same
    simp
  · simp [same, Ne.symm]

theorem eventsOf_cons (rest : List AuthorityEvent) : eventsOf group (event :: rest) =
      if event.2.associatedGroup = group then event :: eventsOf group rest else eventsOf group rest := by
  split_ifs <;> simp_all [eventsOf]

theorem lookup_foldl_of_entry {entry : CAuth} (found : state.1.lookup group = some entry) :
    (events.foldl recordEvent state).1.lookup group = some (countEvents (eventsOf group events) entry) := by
  induction events generalizing state entry with
  | nil => exact found
  | cons event rest ih =>
    rw [eventsOf_cons]
    split_ifs with own
    · apply ih
      rw [lookup_recordEvent, if_pos own, found]
      rfl
    · apply ih
      rw [lookup_recordEvent, if_neg own]
      exact found

theorem lookup_foldl_of_eventsOf_eq_nil (none : eventsOf group events = []) :
    (events.foldl recordEvent state).1.lookup group = state.1.lookup group := by
  induction events generalizing state with
  | nil => rfl
  | cons event rest ih =>
    rw [eventsOf_cons] at none
    split_ifs at none with own
    rw [foldl_cons, ih none, lookup_recordEvent, if_neg own]

theorem lookup_foldl_of_first {event : AuthorityEvent} {rest : List AuthorityEvent}
    (first : event.2.associatedGroup = group) (absent : state.1.lookup group = none) :
    ((event :: rest).foldl recordEvent state).1.lookup group =
      some (countEvents (eventsOf group (event :: rest)) state.2) := by
  rw [foldl_cons, eventsOf_cons, if_pos first]
  apply lookup_foldl_of_entry
  rw [lookup_recordEvent, if_pos first, absent]
  rfl

theorem count_injective (sign : ℤ) (tg : CGroupTokenInfo) : Injective fun a : CAuth => a.count sign tg := by
  intro first second same
  simp only [CAuth.count] at same
  cases first
  cases second
  simpa using same

theorem countEvents_injective (events : List AuthorityEvent) : Injective (countEvents events) := by
  induction events with
  | nil => exact fun _ _ same => same
  | cons event rest ih =>
    intro first second same
    exact count_injective event.1 event.2 (ih same)

end

/-! ## The events of a transaction -/

def inputEvent (txin : CTxIn) (txout : CTxOut) : Option AuthorityEvent :=
  if TokenScan.countsAuthority txin (ofTxOut txout) then some (-1, ofTxOut txout)
  else none

def outputEvent (out : CTxOut) : Option AuthorityEvent := if out.scriptPubKey.head?.map UInt8.toNat ≠ some OP_RETURN ∧
      (ofTxOut out).associatedGroup ≠ NoGroup ∧ (ofTxOut out).isAuthority then
    some (1, ofTxOut out)
  else none

/-- The authorities of a transaction that count, in the order of the loops. -/
def authorityEvents (view : COutPoint → Coin) (tx : CTransaction) : List AuthorityEvent :=
  tx.vin.filterMap (fun txin => inputEvent txin (view txin.prevout).out) ++ tx.vout.filterMap outputEvent

namespace TokenScan

variable {scan : TokenScan} {view : COutPoint → Coin}

/-- The part of the state that authorities are recorded in. -/
def authorities (scan : TokenScan) : CAuthMap × CAuth := (scan.accumulatedAuthorities, scan.authority)

theorem authorities_scanInput (txin : CTxIn) (txout : CTxOut) :
    (scan.scanInput txin txout).authorities = (inputEvent txin txout).toList.foldl recordEvent scan.authorities := by
  rw [scanInput, inputEvent]
  split_ifs <;> rfl

theorem authorities_scanOutput (out : CTxOut) :
    (scan.scanOutput out).authorities = (outputEvent out).toList.foldl recordEvent scan.authorities := by
  rw [scanOutput, outputEvent]
  split_ifs <;> simp_all <;> rfl

theorem authorities_foldl_scanInput (vin : List CTxIn) :
    (vin.foldl (fun scan txin => scan.scanInput txin (view txin.prevout).out) scan).authorities =
      (vin.filterMap fun txin => inputEvent txin (view txin.prevout).out).foldl recordEvent scan.authorities := by
  induction vin generalizing scan with
  | nil => rfl
  | cons txin rest ih =>
    rw [foldl_cons, ih, authorities_scanInput]
    cases event : inputEvent txin (view txin.prevout).out <;> simp [event]

theorem authorities_foldl_scanOutput (vout : List CTxOut) :
    (vout.foldl scanOutput scan).authorities = (vout.filterMap outputEvent).foldl recordEvent scan.authorities := by
  induction vout generalizing scan with
  | nil => rfl
  | cons out rest ih =>
    rw [foldl_cons, ih, authorities_scanOutput]
    cases event : outputEvent out <;> simp [event]

end TokenScan

variable {describedGroup : CTransaction → CGroupTokenID} {view view' : COutPoint → Coin} {tx tx' : CTransaction}
  {records : TokenRecords} {group : CGroupTokenID}

theorem accumulatedAuthorities_foldl_recordMintage (mintageGenesis : AList fun _ : CGroupTokenID => CScript)
    (entries : List (Σ _ : CGroupTokenID, Amounts)) (records : TokenRecords) :
    (entries.foldl (TokenRecords.recordMintage mintageGenesis) records).accumulatedAuthorities =
      records.accumulatedAuthorities := by
  induction entries generalizing records with
  | nil => rfl
  | cons entry rest ih =>
    rw [foldl_cons, ih, TokenRecords.recordMintage, TokenRecords.recordMelt, TokenRecords.recordMint]
    split_ifs <;> rfl

/-- A transaction whose authorities are recorded: it is no coinbase and all its coins are there. -/
structure IsScanned (view : COutPoint → Coin) (tx : CTransaction) : Prop where
  notCoinbase : tx.isCoinBase = false
  unspent : ∀ txin ∈ tx.vin, (view txin.prevout).isSpent = false

theorem accumulatedAuthorities_accumulateTokenData (scanned : IsScanned view tx) :
    (accumulateTokenData describedGroup view tx records).2.accumulatedAuthorities =
      ((authorityEvents view tx).foldl recordEvent (records.accumulatedAuthorities, {})).1 := by
  rw [accumulateTokenData, if_neg (by simp [scanned.notCoinbase]), TokenScan.scanInputs_of_unspent scanned.unspent,
    authorityEvents, foldl_append]
  dsimp only
  set scan := tx.vout.foldl TokenScan.scanOutput _ with final
  have authorities : scan.authorities = (tx.vout.filterMap outputEvent).foldl recordEvent
        ((tx.vin.filterMap fun txin => inputEvent txin (view txin.prevout).out).foldl recordEvent
          (records.accumulatedAuthorities, {})) := by
    rw [TokenScan.authorities_foldl_scanOutput, TokenScan.authorities_foldl_scanInput]
    rfl
  rw [← authorities]
  split_ifs
  · exact accumulatedAuthorities_foldl_recordMintage _ _ _
  · exact accumulatedAuthorities_foldl_recordMintage _ _ _

/-! ## Two runs -/

/-- The inputs of a group with their coins. -/
def inputsOf (group : CGroupTokenID) (view : COutPoint → Coin) (vin : List CTxIn) : List (CTxIn × Coin) :=
  (vin.map fun txin => (txin, view txin.prevout)).filter fun input =>
    (ofTxOut input.2.out).associatedGroup = group

def outputsOf (group : CGroupTokenID) (vout : List CTxOut) : List CTxOut :=
  vout.filter fun out => (ofTxOut out).associatedGroup = group

/-- Two transactions, each with its coins, have the same inputs and outputs of a group. -/
structure SamePart (group : CGroupTokenID) (view : COutPoint → Coin) (tx : CTransaction) (view' : COutPoint → Coin)
    (tx' : CTransaction) : Prop where
  inputs : inputsOf group view tx.vin = inputsOf group view' tx'.vin
  outputs : outputsOf group tx.vout = outputsOf group tx'.vout

theorem group_of_inputEvent {txin : CTxIn} {txout : CTxOut} {event : AuthorityEvent}
    (found : inputEvent txin txout = some event) :
    event.2.associatedGroup = (ofTxOut txout).associatedGroup := by
  rw [inputEvent] at found
  split_ifs at found
  cases found
  rfl

theorem group_of_outputEvent {out : CTxOut} {event : AuthorityEvent} (found : outputEvent out = some event) :
    event.2.associatedGroup = (ofTxOut out).associatedGroup := by
  rw [outputEvent] at found
  split_ifs at found
  cases found
  rfl

theorem eventsOf_filterMap {α : Type*} {event : α → Option AuthorityEvent} {source : α → CGroupTokenID}
    (agrees : ∀ a e, event a = some e → e.2.associatedGroup = source a) (items : List α) :
    eventsOf group (items.filterMap event) = (items.filter fun a => source a = group).filterMap event := by
  induction items with
  | nil => rfl
  | cons a rest ih =>
    rw [filterMap_cons, filter_cons]
    cases found : event a with
    | none =>
      rw [ih]
      split_ifs <;> simp [found]
    | some e =>
      rw [eventsOf_cons, agrees a e found]
      split_ifs <;> simp_all

theorem eventsOf_authorityEvents : eventsOf group (authorityEvents view tx) =
      (inputsOf group view tx.vin).filterMap (fun input => inputEvent input.1 input.2.out) ++
        (outputsOf group tx.vout).filterMap outputEvent := by
  have inputs : tx.vin.filterMap (fun txin => inputEvent txin (view txin.prevout).out) =
      (tx.vin.map fun txin => (txin, view txin.prevout)).filterMap fun input => inputEvent input.1 input.2.out := by
    rw [filterMap_map]
    rfl
  rw [authorityEvents, inputs, eventsOf, filter_append, ← eventsOf, ← eventsOf,
    eventsOf_filterMap (fun _ _ found => group_of_inputEvent found),
    eventsOf_filterMap (fun _ _ found => group_of_outputEvent found)]
  rfl

theorem SamePart.eventsOf_eq (same : SamePart group view tx view' tx') :
    eventsOf group (authorityEvents view' tx') = eventsOf group (authorityEvents view tx) := by
  rw [eventsOf_authorityEvents, eventsOf_authorityEvents, same.inputs, same.outputs]

/-! ## An authority of another group in front -/

theorem inputsOf_eq_map : inputsOf group view tx.vin =
    (tx.vin.filter fun txin => (ofTxOut (view txin.prevout).out).associatedGroup = group).map
      fun txin => (txin, view txin.prevout) := by
  rw [inputsOf, filter_map]
  rfl

/-- The part of a group alone, behind an input for another coin. -/
def behindInput (group : CGroupTokenID) (view : COutPoint → Coin) (tx : CTransaction) (first : COutPoint) :
    CTransaction :=
  { tx with
    vin := { prevout := first } :: (inputsOf group view tx.vin).map Prod.fst
    vout := outputsOf group tx.vout }

variable {first : COutPoint} {coin : Coin}

theorem map_inputs_update (fresh : first ∉ tx.vin.map CTxIn.prevout) :
    ((inputsOf group view tx.vin).map Prod.fst).map (fun txin => (txin, update view first coin txin.prevout)) =
      inputsOf group view tx.vin := by
  rw [inputsOf_eq_map, map_map, map_map]
  refine map_congr_left fun txin kept => ?_
  have apart : txin.prevout ≠ first := by
    rintro rfl
    exact fresh (mem_map_of_mem (mem_filter.mp kept).1)
  simp [update_of_ne apart]

theorem samePart_behindInput (fresh : first ∉ tx.vin.map CTxIn.prevout)
    (other : (ofTxOut coin.out).associatedGroup ≠ group) :
    SamePart group view tx (update view first coin) (behindInput group view tx first) where
  inputs := by
    have whole : (behindInput group view tx first).vin.map (fun txin => (txin, update view first coin txin.prevout)) =
        ({ prevout := first }, coin) :: inputsOf group view tx.vin := by
      rw [behindInput, map_cons, map_inputs_update fresh, update_self]
    rw [inputsOf, inputsOf, whole, filter_cons, if_neg (by simpa using other), inputsOf]
    simp
  outputs := by
    rw [behindInput, outputsOf, outputsOf]
    simp

theorem isScanned_behindInput (scanned : IsScanned view tx) (fresh : first ∉ tx.vin.map CTxIn.prevout)
    (unspent : coin.isSpent = false) :
    IsScanned (update view first coin) (behindInput group view tx first) where
  notCoinbase := rfl
  unspent := by
    intro txin member
    rw [behindInput, mem_cons] at member
    rcases member with rfl | member
    · rw [update_self]
      exact unspent
    · rw [inputsOf_eq_map, map_map] at member
      obtain ⟨kept, filtered, rfl⟩ := mem_map.mp member
      have listed := (mem_filter.mp filtered).1
      have apart : kept.prevout ≠ first := by
        rintro rfl
        exact fresh (mem_map_of_mem listed)
      change (update view first coin kept.prevout).isSpent = false
      rw [update_of_ne apart]
      exact scanned.unspent kept listed

theorem authorityEvents_behindInput (fresh : first ∉ tx.vin.map CTxIn.prevout)
    (authority : (ofTxOut coin.out).isAuthority = true) :
    authorityEvents (update view first coin) (behindInput group view tx first) =
      (-1, ofTxOut coin.out) :: eventsOf group (authorityEvents view tx) := by
  have counts : inputEvent { prevout := first } coin.out = some (-1, ofTxOut coin.out) := by
    rw [inputEvent]
    have isGroup := ne_noGroup_of_isAuthority authority
    simp [TokenScan.countsAuthority, authority, isGroup, CTxIn.isReadOnly, CTxIn.READONLY]
  have others : ((inputsOf group view tx.vin).map Prod.fst).filterMap
      (fun txin => inputEvent txin (update view first coin txin.prevout).out) =
      (inputsOf group view tx.vin).filterMap fun input => inputEvent input.1 input.2.out := by
    have updated := @map_inputs_update view tx group first coin fresh
    conv_rhs => rw [← updated, filterMap_map]
    rfl
  rw [eventsOf_authorityEvents, authorityEvents, behindInput, filterMap_cons, update_self, counts]
  rw [others, cons_append]

theorem exists_fresh_outpoint (size : tx.vin.length < 2 ^ 256) : ∃ first, first ∉ tx.vin.map CTxIn.prevout := by
  by_contra! all
  have covers : Finset.range (2 ^ 256) ⊆ (tx.vin.map fun txin => txin.prevout.hash.toNat).toFinset := by
    intro n below
    obtain ⟨txin, member, same⟩ := mem_map.mp (all ⟨BitVec.ofNat 256 n⟩)
    rw [mem_toFinset, mem_map]
    refine ⟨txin, member, ?_⟩
    rw [same, BitVec.toNat_ofNat, Nat.mod_eq_of_lt (Finset.mem_range.mp below)]
  have card := (Finset.card_le_card covers).trans (toFinset_card_le _)
  rw [length_map, Finset.card_range] at card
  exact absurd size (not_lt.mpr card)

/-- A group other than the given one. -/
def otherGroup (group : CGroupTokenID) : CGroupTokenID :=
  if group = replicate 32 0 then replicate 32 1 else replicate 32 0

theorem otherGroup_ne (group : CGroupTokenID) : otherGroup group ≠ group := by
  rw [otherGroup]
  split_ifs with zero
  · rw [zero]
    decide
  · exact Ne.symm zero

/-- A coin that is an authority of the group. -/
def authorityCoin (group : CGroupTokenID) (flags : BitVec 64) : Coin :=
  ⟨⟨1, 546, sampleGroupScript group (bytesLE 8 (AUTHORITY ||| flags).toNat)⟩, false, 1⟩

theorem authorityCoin_otherGroup (flags : BitVec 64) (capability : flags = MINT ∨ flags = MELT) :
    (ofTxOut (authorityCoin (otherGroup group) flags).out).associatedGroup = otherGroup group ∧
    (ofTxOut (authorityCoin (otherGroup group) flags).out).controllingGroupFlags = AUTHORITY ||| flags ∧
    (authorityCoin (otherGroup group) flags).isSpent = false := by
  rw [otherGroup]
  rcases capability with rfl | rfl
  · split_ifs <;> decide
  · split_ifs <;> decide

theorem count_authorityCoin_ne (authority : CAuth) :
    authority.count (-1) (ofTxOut (authorityCoin (otherGroup group) MINT).out) ≠
      authority.count (-1) (ofTxOut (authorityCoin (otherGroup group) MELT).out) := by
  intro same
  have mints := congrArg CAuth.nMint same
  simp only [CAuth.count, allowsMint, allows,
    (authorityCoin_otherGroup MINT (Or.inl rfl)).2.1, (authorityCoin_otherGroup MELT (Or.inr rfl)).2.1] at mints
  have differ : (decide ((AUTHORITY ||| MINT) &&& (AUTHORITY ||| MINT) = AUTHORITY ||| MINT)).toNat = 1 ∧
      (decide ((AUTHORITY ||| MELT) &&& (AUTHORITY ||| MINT) = AUTHORITY ||| MINT)).toNat = 0 := by decide
  omega

/-- The authorities recorded for a group depend on its own inputs and outputs only, exactly if it has an entry
already or none of its authorities count. -/
theorem authorities_ownPart_iff (scanned : IsScanned view tx) (size : tx.vin.length < 2 ^ 256)
    (describedGroup : CTransaction → CGroupTokenID) (records : TokenRecords) (group : CGroupTokenID) :
    (∀ view' tx', IsScanned view' tx' → SamePart group view tx view' tx' →
      (accumulateTokenData describedGroup view' tx' records).2.accumulatedAuthorities.lookup group =
        (accumulateTokenData describedGroup view tx records).2.accumulatedAuthorities.lookup group) ↔
    group ∈ records.accumulatedAuthorities ∨ eventsOf group (authorityEvents view tx) = [] := by
  rw [← AList.lookup_isSome, Option.isSome_iff_exists]
  constructor
  · intro frame
    by_contra! unsettled
    obtain ⟨absent, events⟩ := unsettled
    have absent := Option.eq_none_iff_forall_ne_some.mpr absent
    obtain ⟨first, fresh⟩ := exists_fresh_outpoint size
    obtain ⟨event, rest, own⟩ := exists_cons_of_ne_nil events
    have ownGroup : eventsOf group (event :: rest) = event :: rest := by
      rw [← own, eventsOf, eventsOf]
      simp
    have isOwn : event.2.associatedGroup = group := by
      have member : event ∈ eventsOf group (event :: rest) := by
        rw [ownGroup]
        exact mem_cons_self
      rw [eventsOf, mem_filter, decide_eq_true_eq] at member
      exact member.2
    -- a group without an entry finds the count of the other group in the variable
    have recorded (flags : BitVec 64) (capability : flags = MINT ∨ flags = MELT) :
        some (countEvents (eventsOf group (authorityEvents view tx))
          (((records.accumulatedAuthorities.lookup (otherGroup group)).getD {}).count (-1)
            (ofTxOut (authorityCoin (otherGroup group) flags).out))) =
          (accumulateTokenData describedGroup view tx records).2.accumulatedAuthorities.lookup group := by
      obtain ⟨grouped, granted, unspent⟩ := @authorityCoin_otherGroup group flags capability
      have authority : (ofTxOut (authorityCoin (otherGroup group) flags).out).isAuthority = true := by
        rw [isAuthority, granted]
        rcases capability with rfl | rfl <;> decide
      have other := otherGroup_ne group
      rw [← grouped] at other
      have behind := frame _ _ (isScanned_behindInput scanned fresh unspent) (samePart_behindInput fresh other)
      rw [accumulatedAuthorities_accumulateTokenData (isScanned_behindInput scanned fresh unspent),
        authorityEvents_behindInput fresh authority, foldl_cons, own,
        lookup_foldl_of_first isOwn (by rw [lookup_recordEvent, if_neg other, absent]), ownGroup] at behind
      dsimp only [recordEvent] at behind
      rwa [grouped, ← own] at behind
    have same := (recorded MINT (Or.inl rfl)).trans (recorded MELT (Or.inr rfl)).symm
    exact count_authorityCoin_ne _ (countEvents_injective _ (Option.some_injective _ same))
  · rintro (⟨entry, found⟩ | none) view' tx' scanned' same
    · rw [accumulatedAuthorities_accumulateTokenData scanned, accumulatedAuthorities_accumulateTokenData scanned',
        lookup_foldl_of_entry found, lookup_foldl_of_entry found, same.eventsOf_eq]
    · rw [accumulatedAuthorities_accumulateTokenData scanned, accumulatedAuthorities_accumulateTokenData scanned',
        lookup_foldl_of_eventsOf_eq_nil none, lookup_foldl_of_eventsOf_eq_nil (same.eventsOf_eq.trans none)]

def sampleTwoGroupsView : COutPoint → Coin := fun outpoint =>
  if outpoint = ⟨4⟩ then authorityCoin (otherGroup sampleGroup) MELT else sampleTokenView outpoint

def sampleAuthoritySpend : CTransaction where
  vin := [{ prevout := ⟨2⟩ }]
  vout := []

def sampleAuthoritySpendBehind : CTransaction where
  vin := [{ prevout := ⟨4⟩ }, { prevout := ⟨2⟩ }]
  vout := []

def sampleRecords : TokenRecords where
  accumulatedAuthorities := AList.singleton sampleGroup { nMint := 1, nRenew := 1 }

/-- With an entry, nothing that happens in other groups changes what is recorded. -/
theorem authorities_ownPart_iff_sample :
    sampleGroup ∈ sampleRecords.accumulatedAuthorities ∧ IsScanned sampleTwoGroupsView sampleAuthoritySpend ∧
    ∀ view' tx', IsScanned view' tx' → SamePart sampleGroup sampleTwoGroupsView sampleAuthoritySpend view' tx' →
      (accumulateTokenData (fun _ => NoGroup) view' tx' sampleRecords).2.accumulatedAuthorities.lookup sampleGroup =
        (accumulateTokenData (fun _ => NoGroup) sampleTwoGroupsView sampleAuthoritySpend
          sampleRecords).2.accumulatedAuthorities.lookup sampleGroup := by
  have entry : sampleGroup ∈ sampleRecords.accumulatedAuthorities := by decide
  have scanned : IsScanned sampleTwoGroupsView sampleAuthoritySpend := ⟨rfl, by decide⟩
  exact ⟨entry, scanned, (authorities_ownPart_iff scanned (by decide) _ _ _).mpr (Or.inl entry)⟩

/-- Without one, the count of the other group is taken over: the spent authority does not allow to melt. -/
theorem authorities_leftover :
    IsScanned sampleTwoGroupsView sampleAuthoritySpend ∧ IsScanned sampleTwoGroupsView sampleAuthoritySpendBehind ∧
    SamePart sampleGroup sampleTwoGroupsView sampleAuthoritySpend sampleTwoGroupsView sampleAuthoritySpendBehind ∧
    (accumulateTokenData (fun _ => NoGroup) sampleTwoGroupsView sampleAuthoritySpend {}).2.accumulatedAuthorities.lookup
      sampleGroup = some { nMint := -1, nRenew := -1 } ∧
    (accumulateTokenData (fun _ => NoGroup) sampleTwoGroupsView
      sampleAuthoritySpendBehind {}).2.accumulatedAuthorities.lookup sampleGroup =
        some { nMint := -1, nMelt := -1, nRenew := -1 } :=
  ⟨⟨rfl, by decide⟩, ⟨rfl, by decide⟩, ⟨by decide, rfl⟩, by decide, by decide⟩

end Nexa
