import Nexa.Model.Tailstorm.CoinbaseTx
import Nexa.Proofs.SummaryCoinbase

/-! # A coinbase that the node accepts

The miner and the check share the reward in the same way; they differ in the script of the summary block
only, which the check leaves empty. Both sides add up to the reward, so the coinbase is accepted however
the scripts coincide, as long as reward times score fits an amount. So is every other coinbase that adds up
to the reward and has the scripts of the dag.
-/

namespace Nexa

open Validation OutputMap CAmount List

/-! ## Amounts that do not overflow -/

theorem CAmount.ofResult_ok {result : ℤ} (nonneg : 0 ≤ result) (bound : result < 2 ^ 63) :
    ∃ amount, ofResult result = .ok amount ∧ amount.toInt = result := by
  have fits : -2 ^ 63 ≤ result ∧ result < 2 ^ 63 := ⟨by omega, bound⟩
  exact ⟨Int64.ofInt result, if_pos fits, Int64.toInt_ofInt_of_le fits.1 fits.2⟩

variable {nBlockReward : CAmount} {vout : List CTxOut} {outputs : OutputMap}

theorem exists_rewardShare {score nTotalScores : UInt32} (nonneg : 0 ≤ nBlockReward.toInt)
    (fits : nBlockReward.toInt * score.toNat < 2 ^ 63) (some : nTotalScores ≠ 0) :
    ∃ share, rewardShare nBlockReward score nTotalScores = .ok share ∧
      share.toInt = nBlockReward.toInt * score.toNat / nTotalScores.toNat := by
  have product : 0 ≤ nBlockReward.toInt * (score.toNat : ℤ) := Int.mul_nonneg nonneg (Int.natCast_nonneg _)
  have quotient := Int.ediv_le_self (nTotalScores.toNat : ℤ) product
  obtain ⟨amount, multiplied, value⟩ := ofResult_ok product fits
  obtain ⟨share, divided, shareValue⟩ := ofResult_ok
    (Int.ediv_nonneg product (Int.natCast_nonneg nTotalScores.toNat)) (by omega)
  rw [← Int.tdiv_eq_ediv_of_nonneg product, ← value] at divided
  exact ⟨share, bind_eq_ok_iff.mpr ⟨amount, multiplied, bind_eq_ok_iff.mpr
    ⟨(), assertThat_eq_ok_iff.mpr some, divided⟩⟩, shareValue⟩

theorem sumAmounts_ok {start : CAmount} {amounts : List CAmount} (startNonneg : 0 ≤ start.toInt)
    (nonneg : ∀ amount ∈ amounts, 0 ≤ amount.toInt) (bound : start.toInt + (amounts.map Int64.toInt).sum < 2 ^ 63) :
    ∃ sum, sumAmounts start amounts = .ok sum := by
  induction amounts generalizing start with
  | nil => exact ⟨start, rfl⟩
  | cons amount rest ih =>
    obtain ⟨first, nonneg⟩ := forall_mem_cons.mp nonneg
    have restNonneg : 0 ≤ (rest.map Int64.toInt).sum := sum_nonneg (by simpa using nonneg)
    rw [map_cons, sum_cons] at bound
    obtain ⟨next, added, value⟩ := ofResult_ok (by omega : 0 ≤ start.toInt + amount.toInt) (by omega)
    obtain ⟨sum, summed⟩ := @ih next (by omega) nonneg (by omega)
    exact ⟨sum, bind_eq_ok_iff.mpr ⟨next, added, summed⟩⟩

/-! ## Shares of the reward -/

section

variable {tree : CTailstormTree} {params : Params} {dag : BestDag}

/-- Every node that has a score gets an output with its script and its share. -/
theorem exists_shareOutputs {nTotalScores : UInt32} {entries : List (Σ _ : CTreeNodeRef, UInt32)}
    (nonneg : 0 ≤ nBlockReward.toInt) (some : nTotalScores ≠ 0)
    (payouts : ∀ entry ∈ entries, (tree.node entry.1).payout.isSome)
    (fits : ∀ entry ∈ entries, nBlockReward.toInt * entry.2.toNat < 2 ^ 63) :
    ∃ vout, shareOutputs tree nBlockReward nTotalScores entries = .ok vout ∧
      (vout.map fun out => Option.some out.scriptPubKey) = (entries.map fun entry => tree.payoutScript entry.1) ∧
      (vout.map fun out => out.nValue.toInt) =
        entries.map fun entry => nBlockReward.toInt * entry.2.toNat / nTotalScores.toNat := by
  induction entries with
  | nil => exact ⟨[], rfl, rfl, rfl⟩
  | cons entry rest ih =>
    obtain ⟨first, payouts⟩ := forall_mem_cons.mp payouts
    obtain ⟨firstFits, fits⟩ := forall_mem_cons.mp fits
    obtain ⟨out, payout⟩ := Option.isSome_iff_exists.mp first
    obtain ⟨share, computed, value⟩ := exists_rewardShare nonneg firstFits some
    obtain ⟨others, shared, scripts, amounts⟩ := ih payouts fits
    refine ⟨{ out with nValue := share } :: others, ?_, ?_, ?_⟩
    · simp only [shareOutputs, payout, bind_eq_ok_iff]
      exact ⟨share, computed, others, shared, rfl⟩
    · rw [map_cons, map_cons, scripts, CTailstormTree.payoutScript, payout]
      rfl
    · rw [map_cons, map_cons, amounts, value]

/-- Parts in proportion to their scores, rounded down, do not exceed the whole. -/
theorem sum_ediv_mul_le (whole total : ℤ) (positive : 0 < total) (scores : List ℤ) :
    (scores.map fun score => whole * score / total).sum * total ≤ whole * scores.sum := by
  induction scores with
  | nil => simp
  | cons score scores ih =>
    have part := Int.ediv_mul_le (whole * score) positive.ne'
    rw [map_cons, sum_cons, sum_cons, Int.add_mul, Int.mul_add]
    omega

/-- The scores of the nodes of a dag. -/
abbrev BestDag.scores (dag : BestDag) (tree : CTailstormTree) : DagScores := getDagScores tree dag.nodes

abbrev BestDag.nTotalScores (dag : BestDag) (tree : CTailstormTree) (params : Params) : UInt32 :=
  totalScores params (dag.scores tree)

/-- What holds of a dag that is summarized: it contains the ancestors of its nodes, the nodes have a payout,
`tailstorm_k` is at least 2, as the chain parameters assert, and the scores add up to less than 2^32. -/
structure SummarizedDag (tree : CTailstormTree) (params : Params) (dag : BestDag) : Prop where
  closed : ∀ node ∈ dag.nodes, ¬ (tree.node node).fUncle → ∀ ancestor ∈ tree.ancestors node, ancestor ∈ dag.nodes
  payouts : ∀ node ∈ dag.nodes, (tree.node node).payout.isSome
  tailstorm : 2 ≤ params.tailstormK
  scores : ((dag.scores tree).entries.map fun entry => entry.2.toNat).sum + (summaryBlockScore params).toNat < 2 ^ 32

/-- The products of the reward and the scores are amounts. -/
structure FitsScores (tree : CTailstormTree) (params : Params) (dag : BestDag) (reward : CAmount) : Prop where
  shares : ∀ entry ∈ (dag.scores tree).entries, reward.toInt * entry.2.toNat < 2 ^ 63
  own : reward.toInt * (summaryBlockScore params).toNat < 2 ^ 63

/-- The payouts are worth the reward, and every node of the dag has one. -/
structure PaysDag (tree : CTailstormTree) (dag : BestDag) (reward : CAmount) (payouts : List CTxOut) : Prop where
  nonneg : ∀ out ∈ payouts, 0 ≤ out.nValue.toInt
  total : outputsTotal payouts = reward.toInt
  paid : ∀ node ∈ dag.nodes, ∃ out ∈ payouts, tree.payoutScript node = some out.scriptPubKey

namespace SummarizedDag

section

variable (summarized : SummarizedDag tree params dag)

include summarized

theorem perm_keys : dag.nodes.Perm (dag.scores tree).keys := by
  refine (subperm_of_subset dag.nodup fun _ => mem_getDagScores).antisymm (subperm_of_subset ?_ fun _ => ?_)
  · exact (dag.scores tree).keys_nodup
  · exact mem_of_mem_scoresOf summarized.closed

theorem length_entries : (dag.scores tree).entries.length = dag.nodes.length := by
  rw [summarized.perm_keys.length_eq, AList.keys, keys, length_map]

theorem toNat_nTotalScores : (dag.nTotalScores tree params).toNat =
    (summaryBlockScore params).toNat + ((dag.scores tree).entries.map fun entry => entry.2.toNat).sum := by
  have fits := summarized.scores
  rw [BestDag.nTotalScores, totalScores]
  generalize (dag.scores tree).entries = entries at fits ⊢
  generalize summaryBlockScore params = start at fits ⊢
  induction entries generalizing start with
  | nil => simp
  | cons entry rest ih =>
    rw [map_cons, sum_cons] at fits ⊢
    have added : (start + entry.2).toNat = start.toNat + entry.2.toNat := by
      rw [UInt32.toNat_add]
      exact Nat.mod_eq_of_lt (by omega)
    rw [foldl_cons, ih _ (by omega)]
    omega

theorem nTotalScores_pos : 0 < (dag.nTotalScores tree params).toNat := by
  have tailstorm : (2 : UInt32).toNat ≤ params.tailstormK.toNat := summarized.tailstorm
  have two : (2 : UInt32).toNat = 2 := rfl
  have own : (summaryBlockScore params).toNat = params.tailstormK.toNat - 1 :=
    UInt32.toNat_sub_of_le _ _ (UInt32.le_iff_toNat_le.mpr (show 1 ≤ _ by omega))
  rw [summarized.toNat_nTotalScores]
  omega

/-- The shares of the nodes and of the summary block are within the reward. -/
theorem sum_shares_le (nBlockReward : CAmount) :
    ((dag.scores tree).entries.map fun entry =>
        nBlockReward.toInt * entry.2.toNat / (dag.nTotalScores tree params).toNat).sum +
      nBlockReward.toInt * (summaryBlockScore params).toNat / (dag.nTotalScores tree params).toNat ≤
      nBlockReward.toInt := by
  have total := summarized.toNat_nTotalScores
  have positive := summarized.nTotalScores_pos
  have parts := sum_ediv_mul_le nBlockReward.toInt (dag.nTotalScores tree params).toNat (by omega)
    ((summaryBlockScore params).toNat :: (dag.scores tree).entries.map fun entry => (entry.2.toNat : ℤ))
  have scores : ((dag.scores tree).entries.map fun entry => (entry.2.toNat : ℤ)).sum =
      (((dag.scores tree).entries.map fun entry => entry.2.toNat).sum : ℕ) := by
    rw [← Nat.coe_castRingHom, map_list_sum, map_map]
    rfl
  have whole : ((summaryBlockScore params).toNat : ℤ) +
      (((dag.scores tree).entries.map fun entry => entry.2.toNat).sum : ℕ) = (dag.nTotalScores tree params).toNat := by
    omega
  rw [map_cons, sum_cons, sum_cons, map_map, scores, whole] at parts
  rw [Int.add_comm]
  exact Int.le_of_mul_le_mul_right parts (by omega)

section

variable (nonneg : 0 ≤ nBlockReward.toInt)

include nonneg

omit summarized in
theorem share_nonneg (score : UInt32) :
    0 ≤ nBlockReward.toInt * score.toNat / ((dag.nTotalScores tree params).toNat : ℤ) :=
  Int.ediv_nonneg (Int.mul_nonneg nonneg (Int.natCast_nonneg _)) (Int.natCast_nonneg _)

/-- The dues are within the reward. -/
theorem sum_nodeDue_le : (dag.nodes.map (nodeDue tree params nBlockReward dag)).sum ≤ nBlockReward.toInt := by
  have dues : (dag.nodes.map (nodeDue tree params nBlockReward dag)).sum = ((dag.scores tree).entries.map fun entry =>
      nBlockReward.toInt * entry.2.toNat / (dag.nTotalScores tree params).toNat).sum := by
    rw [(summarized.perm_keys.map _).sum_eq, AList.keys, keys, map_map]
    refine congrArg sum (map_congr_left fun entry member => ?_)
    have found : (getDagScores tree dag.nodes).lookup entry.1 = some entry.2 := AList.mem_lookup_iff.mpr member
    simp only [nodeDue, Function.comp, found, Option.getD_some]
  have shares := summarized.sum_shares_le nBlockReward
  have own := @share_nonneg nBlockReward tree params dag nonneg (summaryBlockScore params)
  omega

/-- The shares are computed when reward times score always fits. With the output of the summary block they pay the
dag, whatever script it has. -/
theorem paysDag (fits : FitsScores tree params dag nBlockReward) (summary : CAmount → CTxOut)
    (values : ∀ amount, (summary amount).nValue = amount) :
    ∃ vout, rewardOutputs tree params nBlockReward dag summary = .ok vout ∧ PaysDag tree dag nBlockReward vout := by
  have some : dag.nTotalScores tree params ≠ 0 := fun zero =>
    absurd summarized.nTotalScores_pos (by rw [zero]; decide)
  obtain ⟨shares, shared, scripts, amounts⟩ := exists_shareOutputs nonneg some (fun entry member =>
    summarized.payouts _ (summarized.perm_keys.symm.subset (mem_map_of_mem member))) fits.shares
  have sharesNonneg : ∀ out ∈ shares, 0 ≤ out.nValue.toInt := by
    intro out member
    have value : out.nValue.toInt ∈ shares.map fun out => out.nValue.toInt := mem_map_of_mem member
    rw [amounts] at value
    obtain ⟨entry, -, same⟩ := mem_map.mp value
    exact (share_nonneg nonneg entry.2).trans_eq same
  have sharesLe := summarized.sum_shares_le nBlockReward
  rw [← amounts, ← outputsTotal] at sharesLe
  obtain ⟨ownShare, ownComputed, ownValue⟩ := exists_rewardShare nonneg fits.own some
  have ownNonneg : 0 ≤ ownShare.toInt := ownValue ▸ share_nonneg nonneg _
  have sharesTotal : 0 ≤ outputsTotal shares := sum_nonneg (forall_mem_map.mpr sharesNonneg)
  have limit := nBlockReward.toInt_lt
  obtain ⟨subsidies, summed⟩ : ∃ sum, sumAmounts 0 (shares.map CTxOut.nValue) = .ok sum := by
    refine sumAmounts_ok le_rfl (forall_mem_map.mpr sharesNonneg) ?_
    rw [map_map]
    change 0 + outputsTotal shares < _
    omega
  have subsidiesValue : subsidies.toInt = 0 + outputsTotal shares := by
    have sum := sumAmounts_eq_ok summed
    rwa [map_map] at sum
  obtain ⟨total, added, totalValue⟩ := ofResult_ok (by omega : 0 ≤ subsidies.toInt + ownShare.toInt) (by omega)
  obtain ⟨remainder, left, remainderValue⟩ := ofResult_ok (by omega : 0 ≤ nBlockReward.toInt - total.toInt)
    (by omega)
  obtain ⟨nValue, adjusted, value⟩ := ofResult_ok (by omega : 0 ≤ ownShare.toInt + remainder.toInt) (by omega)
  refine ⟨shares ++ [summary nValue], ?_, forall_mem_append.mpr ⟨sharesNonneg, ?_⟩, ?_, fun node listed => ?_⟩
  · simp only [rewardOutputs, bind_eq_ok_iff]
    refine ⟨(), assertThat_eq_ok_iff.mpr summarized.length_entries.le, shares, shared, subsidies, summed, ownShare,
      ownComputed, total, added, remainder, left, nValue, adjusted, ?_⟩
    rw [← summarized.length_entries, Nat.sub_self]
    rfl
  · rw [forall_mem_singleton, values]
    omega
  · rw [outputsTotal, map_append, sum_append, map_singleton, sum_singleton, values]
    change outputsTotal shares + _ = _
    omega
  · obtain ⟨entry, member, rfl⟩ := mem_map.mp (@mem_getDagScores tree _ _ listed)
    have paid : tree.payoutScript entry.1 ∈ shares.map fun out => Option.some out.scriptPubKey := by
      rw [scripts]
      exact mem_map_of_mem member
    obtain ⟨out, found, same⟩ := mem_map.mp paid
    exact ⟨out, mem_append_left _ found, same.symm⟩

end

end

end SummarizedDag

end

/-! ## Groups -/

/-- No group has a negative amount. -/
def OutputMap.Nonneg (outputs : OutputMap) : Prop := ∀ entry ∈ outputs.entries, 0 ≤ entry.2.nValue.toInt

namespace OutputMap.Nonneg

section

variable (nonneg : outputs.Nonneg)

include nonneg

theorem total_nonneg : 0 ≤ outputs.total := sum_nonneg (forall_mem_map.mpr nonneg)

theorem erase (script : CScript) : Nonneg (outputs.erase script) :=
  fun entry member => nonneg entry ((kerase_sublist script outputs.entries).subset member)

theorem insert (script : CScript) {out : CTxOut} (value : 0 ≤ out.nValue.toInt) :
    Nonneg (outputs.insert script out) := by
  intro entry member
  rcases mem_cons.mp member with rfl | member
  · exact value
  · exact nonneg.erase script entry member

theorem le_total {script : CScript} {out : CTxOut} (found : outputs.lookup script = some out) :
    0 ≤ out.nValue.toInt ∧ out.nValue.toInt ≤ outputs.total := by
  have rest := (nonneg.erase script).total_nonneg
  have split := total_erase found
  exact ⟨nonneg ⟨script, out⟩ (AList.mem_lookup_iff.mp found), by omega⟩

end

end OutputMap.Nonneg

theorem groupOutputs_ok {start : OutputMap} (startNonneg : start.Nonneg) (nonneg : ∀ out ∈ vout, 0 ≤ out.nValue.toInt)
    (bound : start.total + outputsTotal vout < 2 ^ 63) :
    ∃ outputs, groupOutputs vout start = .ok outputs ∧ outputs.Nonneg ∧
      ∀ script, script ∈ start ∨ (∃ out ∈ vout, out.scriptPubKey = script) → script ∈ outputs := by
  induction vout generalizing start with
  | nil => exact ⟨start, rfl, startNonneg, by simp⟩
  | cons out rest ih =>
    obtain ⟨first, nonneg⟩ := forall_mem_cons.mp nonneg
    have restNonneg : 0 ≤ outputsTotal rest := sum_nonneg (forall_mem_map.mpr nonneg)
    have split : outputsTotal (out :: rest) = out.nValue.toInt + outputsTotal rest := rfl
    obtain ⟨group, joins, value⟩ : ∃ group, start.Joins out group ∧ 0 ≤ group.nValue.toInt := by
      cases found : start.lookup out.scriptPubKey with
      | none => exact ⟨out, .first found, first⟩
      | some old =>
        obtain ⟨oldNonneg, oldLe⟩ := startNonneg.le_total found
        obtain ⟨nValue, -, value⟩ := ofResult_ok (by omega : 0 ≤ old.nValue.toInt + out.nValue.toInt) (by omega)
        exact ⟨_, .known found value, show 0 ≤ nValue.toInt by omega⟩
    have total := joins.total
    obtain ⟨outputs, grouped, groupsNonneg, known⟩ := ih (startNonneg.insert out.scriptPubKey value) nonneg (by omega)
    refine ⟨outputs, groupOutputs_cons_eq_ok_iff.mpr ⟨group, joins, grouped⟩, groupsNonneg,
      fun script present => known script ?_⟩
    rw [AList.mem_insert]
    rcases present with old | ⟨output, member, rfl⟩
    · exact .inl (.inr old)
    · rcases mem_cons.mp member with rfl | later
      · exact .inl (.inl rfl)
      · exact .inr ⟨output, later, rfl⟩

theorem compareOutputs_ok {several : Bool} {entries : List (Σ _ : CScript, CTxOut)} {dag : OutputMap} {start : CAmount}
    (dagNonneg : dag.Nonneg) (startNonneg : 0 ≤ start.toInt) (nonneg : ∀ entry ∈ entries, 0 ≤ entry.2.nValue.toInt)
    (bound : start.toInt + (entries.map fun entry => entry.2.nValue.toInt).sum < 2 ^ 63) :
    ∃ unsettled sum, compareOutputs several entries dag start = .ok (unsettled, sum) ∧ unsettled.Nonneg ∧
      unsettled.total ≤ dag.total := by
  induction entries generalizing dag start with
  | nil => exact ⟨dag, start, rfl, dagNonneg, le_rfl⟩
  | cons entry rest ih =>
    obtain ⟨first, nonneg⟩ := forall_mem_cons.mp nonneg
    have restNonneg := sum_nonneg (forall_mem_map.mpr nonneg)
    rw [map_cons, sum_cons] at bound
    rw [compareOutputs]
    split_ifs with same
    · rw [Bool.and_eq_true, Option.any_eq_true] at same
      obtain ⟨-, due, found, -⟩ := same
      have value := dagNonneg.le_total found
      have others := total_erase found
      obtain ⟨unsettled, sum, compared, left, le⟩ := ih (dagNonneg.erase entry.1) startNonneg nonneg (by omega)
      exact ⟨unsettled, sum, compared, left, by omega⟩
    · obtain ⟨next, added, value⟩ := ofResult_ok (by omega : 0 ≤ start.toInt + entry.2.nValue.toInt) (by omega)
      obtain ⟨unsettled, sum, compared, left⟩ := @ih dag next dagNonneg (by omega) nonneg (by omega)
      exact ⟨unsettled, sum, bind_eq_ok_iff.mpr ⟨next, added, compared⟩, left⟩

theorem compareSums_ok {coinbase dag : OutputMap} (coinbaseNonneg : coinbase.Nonneg) (dagNonneg : dag.Nonneg)
    (bound : dag.total < 2 ^ 63) (same : coinbase.total = dag.total) : compareSums coinbase dag = .ok true := by
  have ordered : ∀ entry ∈ coinbase.inOrder, 0 ≤ entry.2.nValue.toInt := fun entry member =>
    coinbaseNonneg entry ((perm_insertionSort _ coinbase.entries).subset member)
  obtain ⟨unsettled, sum, settled, left, le⟩ := @compareOutputs_ok _ coinbase.inOrder dag 0
    dagNonneg le_rfl ordered (by
      rw [sum_inOrder]
      change 0 + _ < _
      omega)
  obtain ⟨leftSum, summed⟩ : ∃ leftSum,
      sumAmounts 0 (unsettled.inOrder.map fun entry => entry.2.nValue) = .ok leftSum := by
    refine sumAmounts_ok le_rfl (forall_mem_map.mpr fun entry member =>
      left entry ((perm_insertionSort _ unsettled.entries).subset member)) ?_
    rw [map_map]
    change 0 + (unsettled.inOrder.map fun entry => entry.2.nValue.toInt).sum < _
    rw [sum_inOrder]
    omega
  have compared : compareSums coinbase dag = .ok (decide (leftSum = sum)) :=
    bind_eq_ok_iff.mpr ⟨_, settled, bind_eq_ok_iff.mpr ⟨leftSum, summed, rfl⟩⟩
  rw [compared, (compareSums_eq_ok compared).mpr same]

theorem allPaidBy_ok {tree : CTailstormTree} {nodes : List CTreeNodeRef}
    (paid : ∀ ref ∈ nodes, ∃ script, tree.payoutScript ref = some script ∧ script ∈ outputs) :
    allPaidBy tree outputs nodes = .ok true := by
  induction nodes with
  | nil => rfl
  | cons ref rest ih =>
    obtain ⟨⟨script, payout, known⟩, paid⟩ := forall_mem_cons.mp paid
    rw [allPaidBy, payout]
    exact (if_pos known).trans (ih paid)

theorem groupOutputs_keyed {start : OutputMap} (keyed : ∀ entry ∈ start.entries, entry.2.scriptPubKey = entry.1)
    (grouped : groupOutputs vout start = .ok outputs) :
    ∀ entry ∈ outputs.entries, entry.2.scriptPubKey = entry.1 := by
  induction vout generalizing start with
  | nil =>
    cases grouped
    exact keyed
  | cons out rest ih =>
    obtain ⟨group, joins, grouped⟩ := groupOutputs_cons_eq_ok_iff.mp grouped
    refine ih (fun entry member => ?_) grouped
    rcases mem_cons.mp member with rfl | member
    · cases joins with
      | first unknown => rfl
      | @known old _ found _ => exact keyed ⟨_, old⟩ (AList.mem_lookup_iff.mp found)
    · exact keyed entry ((kerase_sublist _ start.entries).subset member)

/-! ## The coinbase -/

section

variable {tree : CTailstormTree} {params : Params} {dag : BestDag} {nValue : CAmount}

variable {payouts : List CTxOut} {data : CScript} {settings : CoinbaseSettings} {nHeight : ℤ}

/-- The outputs before and after they are grouped. -/
theorem PaysDag.grouped (pays : PaysDag tree dag nValue payouts) :
    ∃ outputs, groupOutputs payouts ∅ = .ok outputs ∧ outputs.Nonneg ∧ outputs.total = nValue.toInt ∧
      (∀ node ∈ dag.nodes, ∃ script, tree.payoutScript node = some script ∧ script ∈ outputs) ∧
      PaysDag tree dag nValue (outputs.inOrder.map fun entry => entry.2) := by
  have none : OutputMap.total ∅ = 0 := rfl
  have limit := nValue.toInt_lt
  obtain ⟨outputs, grouped, nonneg, known⟩ := @groupOutputs_ok payouts ∅ (forall_mem_nil _) pays.nonneg (by
    rw [pays.total]
    omega)
  have total : outputs.total = nValue.toInt := by rw [groupOutputs_total grouped, none, pays.total, Int.zero_add]
  have keyed := groupOutputs_keyed (forall_mem_nil _) grouped
  have ordered := perm_insertionSort (fun x y : Σ _ : CScript, CTxOut => y.1.before x.1 = false) outputs.entries
  have paid : ∀ node ∈ dag.nodes, ∃ script, tree.payoutScript node = some script ∧ script ∈ outputs := by
    intro node listed
    obtain ⟨out, member, payout⟩ := pays.paid node listed
    exact ⟨_, payout, known _ (.inr ⟨out, member, rfl⟩)⟩
  refine ⟨outputs, grouped, nonneg, total, paid, ?_, ?_, ?_⟩
  · exact forall_mem_map.mpr fun entry member => nonneg entry (ordered.subset member)
  · rw [outputsTotal, map_map, ← total]
    exact outputs.sum_inOrder
  · intro node listed
    obtain ⟨script, payout, present⟩ := paid node listed
    obtain ⟨entry, member, rfl⟩ := mem_map.mp present
    exact ⟨entry.2, mem_map.mpr ⟨entry, ordered.symm.subset member, rfl⟩, by rw [payout, keyed entry member]⟩

section

variable (summarized : SummarizedDag tree params dag)

include summarized

/-- The check accepts every coinbase that pays the dag in front of its data. -/
theorem SummarizedDag.validate (nonneg : 0 ≤ nValue.toInt) (fits : FitsScores tree params dag nValue)
    (pays : PaysDag tree dag nValue payouts) {block : CBlock}
    (coinbase : block.vtx.head? = some (coinbaseWith payouts data)) :
    validateSummaryBlockCoinbase tree params nValue block dag = .ok true := by
  obtain ⟨vout, computed, due⟩ := summarized.paysDag nonneg fits (fun nValue => { nValue }) fun _ => rfl
  obtain ⟨dagGroups, dagGrouped, dagNonneg, dagTotal, -⟩ := due.grouped
  obtain ⟨groups, grouped, groupsNonneg, groupsTotal, paid, -⟩ := pays.grouped
  have blockPayouts : block.coinbasePayouts = payouts := by
    rw [CBlock.coinbasePayouts, coinbase]
    exact dropLast_concat
  have some : block.vtx ≠ [] := by
    rintro none
    rw [none] at coinbase
    cases coinbase
  have limit := nValue.toInt_lt
  have single : checkSingleScript tree groups dag.nodes = .ok true := by
    unfold checkSingleScript
    split_ifs
    · exact allPaidBy_ok paid
    · rfl
  simp only [validateSummaryBlockCoinbase, bind_eq_ok_iff]
  refine ⟨vout, computed, dagGroups, dagGrouped, (), assertThat_eq_ok_iff.mpr some, groups, ?_, true, single, ?_⟩
  · rw [blockPayouts]
    exact grouped
  · exact compareSums_ok groupsNonneg dagNonneg (by omega) (groupsTotal.trans dagTotal.symm)

/-- A coinbase that pays the reward to one script and nothing to all others. -/
def CBlock.paying (tree : CTailstormTree) (dag : BestDag) (nValue : CAmount) (own : CScript) : CBlock :=
  { vtx := [coinbaseWith ((dag.nodes.filterMap tree.payoutScript).map
      (fun script => { nValue := 0, scriptPubKey := script }) ++ [{ nValue, scriptPubKey := own }]) []] }

theorem SummarizedDag.validate_paying (nonneg : 0 ≤ nValue.toInt) (fits : FitsScores tree params dag nValue)
    (own : CScript) :
    (∀ out ∈ (CBlock.paying tree dag nValue own).coinbasePayouts, 0 ≤ out.nValue.toInt) ∧
      validateSummaryBlockCoinbase tree params nValue (.paying tree dag nValue own) dag = .ok true ∧
      ∀ script ≠ own, (CBlock.paying tree dag nValue own).scriptPaid script = 0 := by
  let zeros := (dag.nodes.filterMap tree.payoutScript).map fun script =>
    ({ nValue := 0, scriptPubKey := script } : CTxOut)
  have payouts : (CBlock.paying tree dag nValue own).coinbasePayouts = zeros ++ [{ nValue, scriptPubKey := own }] :=
    dropLast_concat
  have zero : ∀ out ∈ zeros, out.nValue.toInt = 0 := forall_mem_map.mpr fun _ _ => rfl
  have pays : PaysDag tree dag nValue (zeros ++ [{ nValue, scriptPubKey := own }]) := by
    refine ⟨?_, ?_, fun node listed => ?_⟩
    · exact forall_mem_append.mpr ⟨fun out member => (zero out member).ge, forall_mem_singleton.mpr nonneg⟩
    · rw [outputsTotal, map_append, sum_append, map_singleton, sum_singleton, sum_eq_zero (forall_mem_map.mpr zero),
        Int.zero_add]
    · obtain ⟨out, payout⟩ := Option.isSome_iff_exists.mp (summarized.payouts node listed)
      have script : tree.payoutScript node = some out.scriptPubKey := by rw [CTailstormTree.payoutScript, payout]; rfl
      exact ⟨_, mem_append_left _ (mem_map_of_mem (mem_filterMap.mpr ⟨node, listed, script⟩)), script⟩
  refine ⟨payouts ▸ pays.nonneg, summarized.validate nonneg fits pays rfl, fun script other => ?_⟩
  rw [CBlock.scriptPaid, outputsTotal, payouts]
  refine sum_eq_zero (forall_mem_map.mpr fun out member => ?_)
  obtain ⟨listed, same⟩ := mem_filter.mp member
  obtain early | last := mem_append.mp listed
  · exact zero out early
  · rw [mem_singleton.mp last] at same
    exact absurd (of_decide_eq_true same).symm other

/-- The scripts of the dag get their dues if every script but one, that of the summary block, is paid exactly what
it is due. The check itself guarantees a due of nothing only. -/
theorem summaryCoinbase_pays_dues (nonneg : 0 ≤ nValue.toInt) (fits : FitsScores tree params dag nValue) :
    (∀ (block : CBlock) (own : CScript), validateSummaryBlockCoinbase tree params nValue block dag = .ok true →
      (∀ script ≠ own, block.scriptPaid script = scriptDue tree params nValue dag script) →
      ∀ script ∈ dagScripts tree dag, scriptDue tree params nValue dag script ≤ block.scriptPaid script) ∧
    ∀ script ∈ dagScripts tree dag, (∀ block : CBlock, (∀ out ∈ block.coinbasePayouts, 0 ≤ out.nValue.toInt) →
        validateSummaryBlockCoinbase tree params nValue block dag = .ok true →
        scriptDue tree params nValue dag script ≤ block.scriptPaid script) ↔
      scriptDue tree params nValue dag script ≤ 0 := by
  have payouts : ∀ ref ∈ dag.nodes, (tree.payoutScript ref).isSome := fun ref listed => by
    simpa [CTailstormTree.payoutScript] using summarized.payouts ref listed
  refine ⟨fun block own accepted others script _ => ?_,
    fun script _ => ⟨fun guaranteed => ?_, fun nothing block outputs _ => ?_⟩⟩
  · by_cases isOwn : script = own
    · have left := summarized.sum_nodeDue_le nonneg
      obtain ⟨vout, computed, pays⟩ := summarized.paysDag nonneg fits (fun nValue => { nValue }) fun _ => rfl
      rw [isOwn, scriptPaid_own payouts ((outputsTotal_of_validate computed accepted).trans pays.total) others]
      omega
    · exact (others script isOwn).ge
  · obtain ⟨outputs, accepted, unpaid⟩ := summarized.validate_paying nonneg fits (0 :: script)
    rw [← unpaid script (cons_ne_self 0 script).symm]
    exact guaranteed _ outputs accepted
  · exact nothing.trans (sum_nonneg (forall_mem_map.mpr fun out member => outputs out (mem_filter.mp member).1))

/-- The payouts of a coinbase for the reward pay the dag. -/
theorem SummarizedDag.coinbasePayouts (nonneg : 0 ≤ nValue.toInt) (fits : FitsScores tree params dag nValue)
    (scriptType : ScriptType) (scriptPubKeyIn : CScript) :
    ∃ payouts, Nexa.coinbasePayouts tree params scriptType scriptPubKeyIn nValue (some dag) = .ok payouts ∧
      PaysDag tree dag nValue payouts := by
  rw [Nexa.coinbasePayouts]
  split_ifs with empty
  · refine ⟨_, rfl, ?_, ?_, ?_⟩
    · exact forall_mem_singleton.mpr nonneg
    · simp [outputsTotal, payTo]
    · simp [empty]
  · obtain ⟨vout, computed, due⟩ :=
      summarized.paysDag nonneg fits (payTo scriptType scriptPubKeyIn) fun _ => rfl
    obtain ⟨outputs, grouped, -, -, -, pays⟩ := due.grouped
    exact ⟨_, bind_eq_ok_iff.mpr ⟨vout, computed, bind_eq_ok_iff.mpr ⟨outputs, grouped, rfl⟩⟩, pays⟩

end

theorem outputsTotal_coinbaseWith (payouts : List CTxOut) (data : CScript) :
    outputsTotal (coinbaseWith payouts data).vout = outputsTotal payouts := by
  simp [outputsTotal, coinbaseWith]

/-- A miner's coinbase for the reward is accepted and spends it exactly, however the scripts coincide, as long
as reward times score is an amount and the data output has room for the height. -/
theorem coinbaseTx_accepted (summarized : SummarizedDag tree params dag) (nonneg : 0 ≤ nValue.toInt)
    (fits : FitsScores tree params dag nValue) {settings : CoinbaseSettings} {nHeight : ℤ}
    (room : (heightScript nHeight).length ≤ settings.dataCarrierSize) (scriptType : ScriptType)
    (scriptPubKeyIn : CScript) :
    ∃ tx, coinbaseTx tree params settings scriptType scriptPubKeyIn nHeight nValue (some dag) = .ok tx ∧
      outputsTotal tx.vout = nValue.toInt ∧
      ∀ block : CBlock, block.vtx.head? = some tx →
        validateSummaryBlockCoinbase tree params nValue block dag = .ok true := by
  obtain ⟨payouts, paid, pays⟩ := summarized.coinbasePayouts nonneg fits scriptType scriptPubKeyIn
  obtain ⟨data, described⟩ : ∃ data, coinbaseData settings nHeight = .ok data := by
    unfold coinbaseData
    dsimp only
    rw [if_pos room]
    split_ifs
    · exact ⟨_, rfl⟩
    · exact ⟨_, rfl⟩
  -- the coinbase has its payouts and some data behind them
  obtain ⟨filled, made⟩ : ∃ filled, coinbaseTx tree params settings scriptType scriptPubKeyIn nHeight nValue
      (some dag) = .ok (coinbaseWith payouts filled) := by
    rw [coinbaseTx, paid]
    rw [described]
    by_cases small : (coinbaseWith payouts data).getTxSize < minTxSize
    · exact ⟨_, if_pos small⟩
    · exact ⟨data, if_neg small⟩
  refine ⟨_, made, ?_, fun block coinbase => summarized.validate nonneg fits pays coinbase⟩
  rw [outputsTotal_coinbaseWith, pays.total]

end

def sampleTree : CTailstormTree where
  node ref :=
    { subblock := some
        { hash := ref, prevHashes := ∅
          vtx := [{ vin := [], vout := [{ nValue := 0, scriptPubKey := [UInt8.ofNat (0x51 + ref)] }] }] }
      setAncestors := if ref = 1 then {0} else ∅ }
  parents_lt := by
    intro ref parent linked
    simp only [DagHeap.parents] at linked
    split_ifs at linked with second
    · rw [Finset.mem_singleton] at linked
      subst second linked
      exact Nat.zero_lt_one
    · exact absurd linked (Finset.notMem_empty parent)

def sampleDag : BestDag := ⟨[0, 1], by decide⟩

theorem sampleDag_summarized : SummarizedDag sampleTree { tailstormK := 3 } sampleDag := by
  constructor <;> decide +kernel

theorem sampleDag_fitsScores : FitsScores sampleTree { tailstormK := 3 } sampleDag 600 := by
  constructor <;> decide +kernel

/-- The summary block pays the script of the first subblock. -/
theorem coinbaseTx_accepted_sample :
    ∃ tx, coinbaseTx sampleTree { tailstormK := 3 } {} .satoscript [0x51] 5 600 (some sampleDag) = .ok tx ∧
      outputsTotal tx.vout = 600 ∧
      ∀ block : CBlock, block.vtx.head? = some tx →
        validateSummaryBlockCoinbase sampleTree { tailstormK := 3 } 600 block sampleDag = .ok true :=
  coinbaseTx_accepted sampleDag_summarized (by decide) sampleDag_fitsScores (by decide) .satoscript [0x51]

def sampleCoinbase (payouts : List (CScript × CAmount)) : CBlock :=
  { vtx := [{ vin := [], vout := (payouts.map fun payout => { nValue := payout.2, scriptPubKey := payout.1 }) ++
      [{ nValue := 0, scriptPubKey := [0x6a] }] }] }

/-- Half of the largest amount cannot be multiplied with the score of two. -/
theorem coinbaseTx_not_made :
    coinbaseTx sampleTree { tailstormK := 3 } {} .satoscript [0x53] 5 (2 ^ 62) (some sampleDag) = crash ∧
    validateSummaryBlockCoinbase sampleTree { tailstormK := 3 } (2 ^ 62)
      (sampleCoinbase [([0x51], 2 ^ 60), ([0x52], 2 ^ 60), ([0x53], 2 ^ 61)]) sampleDag = crash := by
  decide +kernel

theorem sampleCoinbase_exact : ∀ script ≠ [0x53],
    (sampleCoinbase [([0x51], 200), ([0x52], 200), ([0x53], 200)]).scriptPaid script =
      scriptDue sampleTree { tailstormK := 3 } 600 sampleDag script := by
  intro script other
  by_cases first : script = [0x51]
  · subst first
    decide +kernel
  by_cases second : script = [0x52]
  · subst second
    decide +kernel
  simp [CBlock.scriptPaid, scriptDue, sampleCoinbase, CBlock.coinbasePayouts, sampleDag, sampleTree,
    CTailstormTree.payoutScript, DagNode.payout, outputsTotal, Ne.symm first, Ne.symm second, Ne.symm other]

/-- With K = 3 both subblocks and the summary block are due a third of the reward. -/
theorem summaryCoinbase_pays_dues_sample :
    validateSummaryBlockCoinbase sampleTree { tailstormK := 3 } 600
        (sampleCoinbase [([0x51], 200), ([0x52], 200), ([0x53], 200)]) sampleDag = .ok true ∧
      ∀ script ∈ dagScripts sampleTree sampleDag, scriptDue sampleTree { tailstormK := 3 } 600 sampleDag script ≤
        (sampleCoinbase [([0x51], 200), ([0x52], 200), ([0x53], 200)]).scriptPaid script := by
  have accepted : validateSummaryBlockCoinbase sampleTree { tailstormK := 3 } 600
      (sampleCoinbase [([0x51], 200), ([0x52], 200), ([0x53], 200)]) sampleDag = .ok true := by decide +kernel
  exact ⟨accepted, (summaryCoinbase_pays_dues sampleDag_summarized (by decide) sampleDag_fitsScores).1 _ [0x53] accepted
    sampleCoinbase_exact⟩

/-- The first subblock gets nothing, its third goes to the script of the summary block. -/
theorem summaryCoinbase_withholds_due :
    validateSummaryBlockCoinbase sampleTree { tailstormK := 3 } 600
        (sampleCoinbase [([0x52], 200), ([0x53], 400)]) sampleDag = .ok true ∧
      [0x51] ∈ dagScripts sampleTree sampleDag ∧
      (sampleCoinbase [([0x52], 200), ([0x53], 400)]).scriptPaid [0x51] = 0 ∧
      scriptDue sampleTree { tailstormK := 3 } 600 sampleDag [0x51] = 200 := by
  decide +kernel

end Nexa
