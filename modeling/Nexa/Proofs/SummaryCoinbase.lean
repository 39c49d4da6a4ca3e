import Nexa.Model.Tailstorm.SummaryCoinbase
import Nexa.Proofs.DagRounds
import Nexa.ToMathlib.GroupedSum

/-! # What a summary coinbase pays to the miners of the dag

Every script of the dag is due the sum of the shares of its nodes. The comparison settles the groups
that agree and then looks at two totals only, so that it accepts whatever adds up to the reward.
-/

namespace Nexa

open Validation List

/-! ## Ancestors and scores -/

variable {tree : CTailstormTree}

theorem mem_getDagScores {nodes : List CTreeNodeRef} {node : CTreeNodeRef} (listed : node ∈ nodes) :
    node ∈ getDagScores tree nodes := mem_scoresOf listed

theorem length_le_getDagScores (dag : BestDag) : dag.nodes.length ≤ (getDagScores tree dag.nodes).entries.length := by
  have included : dag.nodes ⊆ (getDagScores tree dag.nodes).keys := fun _ listed => mem_getDagScores listed
  have := (dag.nodup.subperm included).length_le
  rwa [AList.keys, keys, length_map] at this

/-- The scores are those of the dag in memory, which are computed in as many rounds as its nodes have numbers. -/
theorem getDagScores_eq {rounds : ℕ} {nodes : List CTreeNodeRef} (enough : ∀ node ∈ nodes, node < rounds) :
    tree.node.getDagScores rounds nodes = some (getDagScores tree nodes) := by
  have ends (node : CTreeNodeRef) : (calculateAncestors tree.node.parents (node + 1) node).isSome :=
    ancestorsLoop_isSome Set.univ id (fun ref _ parent linked => ⟨trivial, tree.parents_lt ref parent linked⟩)
      fun parent linked => ⟨trivial, tree.parents_lt node parent linked⟩
  have same : ∀ node ∈ nodes,
      calculateAncestors tree.node.parents rounds node = some (tree.ancestors node) := by
    intro node listed
    obtain ⟨found, ended⟩ := Option.isSome_iff_exists.mp (ends node)
    rw [CTailstormTree.ancestors, ended]
    exact ancestorsLoop_mono (enough node listed) ended
  rw [DagHeap.getDagScores, if_pos fun node listed => .inr (by rw [same node listed]; rfl)]
  exact congrArg some (scoresOf_congr fun node listed _ => by rw [same node listed, Option.getD_some])

/-! ## Sums -/

variable (outputs : OutputMap)

/-- The value of all groups. -/
def OutputMap.total : ℤ := outputs.sumBy fun entry => entry.2.nValue.toInt

/-- The value of a list of outputs. -/
def outputsTotal (vout : List CTxOut) : ℤ := (vout.map fun out => out.nValue.toInt).sum

theorem OutputMap.sum_inOrder : (outputs.inOrder.map fun entry => entry.2.nValue.toInt).sum = outputs.total :=
  ((perm_insertionSort _ outputs.entries).map _).sum_eq

theorem sumAmounts_eq_ok {start sum : CAmount} {amounts : List CAmount} (summed : sumAmounts start amounts = .ok sum) :
    sum.toInt = start.toInt + (amounts.map Int64.toInt).sum := by
  induction amounts generalizing start with
  | nil =>
    cases summed
    simp
  | cons amount rest ih =>
    obtain ⟨next, added, summed⟩ := bind_eq_ok_iff.mp summed
    rw [ih summed, CAmount.add_eq_ok_iff.mp added, map_cons, sum_cons, Int.add_assoc]

theorem OutputMap.total_insert (script : CScript) (out : CTxOut) :
    OutputMap.total (outputs.insert script out) = out.nValue.toInt + OutputMap.total (outputs.erase script) :=
  AList.sumBy_insert (fun entry : Σ _ : CScript, CTxOut => entry.2.nValue.toInt) script out outputs

theorem OutputMap.total_erase {outputs : OutputMap} {script : CScript} {out : CTxOut}
    (found : outputs.lookup script = some out) :
    out.nValue.toInt + OutputMap.total (outputs.erase script) = outputs.total :=
  AList.sumBy_erase_of_lookup_eq_some (fun entry : Σ _ : CScript, CTxOut => entry.2.nValue.toInt) found

/-- What the group of an output becomes: the output itself, or the old group with the value added. -/
inductive OutputMap.Joins (out : CTxOut) : CTxOut → Prop
  | first (unknown : outputs.lookup out.scriptPubKey = none) : Joins out out
  | known {old : CTxOut} {nValue : CAmount} (found : outputs.lookup out.scriptPubKey = some old)
    (added : nValue.toInt = old.nValue.toInt + out.nValue.toInt) : Joins out { old with nValue }

variable {vout : List CTxOut} {start outputs : OutputMap} {out group : CTxOut}

theorem groupOutputs_cons_eq_ok_iff : groupOutputs (out :: vout) start = .ok outputs ↔
    ∃ group, start.Joins out group ∧ groupOutputs vout (start.insert out.scriptPubKey group) = .ok outputs := by
  rw [groupOutputs]
  constructor
  · intro grouped
    cases found : start.lookup out.scriptPubKey with
    | none =>
      rw [found] at grouped
      exact ⟨out, .first found, grouped⟩
    | some old =>
      rw [found] at grouped
      obtain ⟨nValue, added, grouped⟩ := bind_eq_ok_iff.mp grouped
      exact ⟨_, .known found (CAmount.add_eq_ok_iff.mp added), grouped⟩
  · rintro ⟨group, joins, grouped⟩
    cases joins with
    | first unknown => rwa [unknown]
    | known found added =>
      rw [found]
      exact bind_eq_ok_iff.mpr ⟨_, CAmount.add_eq_ok_iff.mpr added, grouped⟩

theorem OutputMap.Joins.total (joins : start.Joins out group) :
    OutputMap.total (start.insert out.scriptPubKey group) = start.total + out.nValue.toInt := by
  rw [OutputMap.total_insert]
  cases joins with
  | first unknown =>
    have same : OutputMap.total (start.erase out.scriptPubKey) = start.total :=
      AList.sumBy_erase_of_lookup_eq_none (fun entry : Σ _ : CScript, CTxOut => entry.2.nValue.toInt) unknown
    omega
  | known found added =>
    rw [← OutputMap.total_erase found]
    dsimp only
    omega

theorem groupOutputs_total (grouped : groupOutputs vout start = .ok outputs) :
    outputs.total = start.total + outputsTotal vout := by
  induction vout generalizing start with
  | nil =>
    cases grouped
    simp [outputsTotal]
  | cons out rest ih =>
    obtain ⟨group, joins, grouped⟩ := groupOutputs_cons_eq_ok_iff.mp grouped
    rw [ih grouped, joins.total, Int.add_assoc]
    rfl

/-- Settling a group takes the same value from both sides. -/
theorem compareOutputs_total {several : Bool} {entries : List (Σ _ : CScript, CTxOut)} {dag unsettled : OutputMap}
    {start sum : CAmount} (compared : compareOutputs several entries dag start = .ok (unsettled, sum)) :
    sum.toInt + dag.total = unsettled.total + start.toInt + (entries.map fun entry => entry.2.nValue.toInt).sum := by
  induction entries generalizing dag start with
  | nil =>
    cases compared
    simp [Int.add_comm]
  | cons entry rest ih =>
    rw [compareOutputs] at compared
    rw [map_cons, sum_cons]
    split_ifs at compared with same
    · rw [Bool.and_eq_true, Option.any_eq_true] at same
      obtain ⟨-, due, found, equal⟩ := same
      have equal := of_decide_eq_true equal
      have after := ih compared
      rw [← OutputMap.total_erase found, equal]
      omega
    · obtain ⟨next, added, compared⟩ := bind_eq_ok_iff.mp compared
      have after := ih compared
      rw [CAmount.add_eq_ok_iff.mp added] at after
      omega

theorem compareSums_eq_ok {coinbase dag : OutputMap} {equal : Bool} (compared : compareSums coinbase dag = .ok equal) :
    equal = true ↔ coinbase.total = dag.total := by
  obtain ⟨⟨unsettled, coinbaseSum⟩, settled, compared⟩ := bind_eq_ok_iff.mp compared
  obtain ⟨dagSum, summed, ⟨⟩⟩ := bind_eq_ok_iff.mp compared
  have sides := compareOutputs_total settled
  have left := sumAmounts_eq_ok summed
  rw [map_map] at left
  change dagSum.toInt = _ + (unsettled.inOrder.map fun entry => entry.2.nValue.toInt).sum at left
  rw [OutputMap.sum_inOrder] at sides left
  rw [decide_eq_true_iff, ← Int64.toInt_inj]
  omega

/-! ## The outputs the dag asks for -/

section

variable (tree : CTailstormTree) (params : Params) (nBlockReward : CAmount) (dag : BestDag)

/-- The part of the reward that a node is due: in proportion to its score, rounded down. -/
def nodeDue (ref : CTreeNodeRef) : ℤ :=
  let scores := getDagScores tree dag.nodes
  nBlockReward.toInt * ((scores.lookup ref).getD 0).toNat / (totalScores params scores).toNat

/-- What the nodes that pay a script are due together. -/
def scriptDue (script : CScript) : ℤ := ((dag.nodes.filter fun ref => tree.payoutScript ref = some script).map
    (nodeDue tree params nBlockReward dag)).sum

/-- The scripts of the nodes of the dag. -/
def dagScripts : Finset CScript := (dag.nodes.filterMap tree.payoutScript).toFinset

/-- What the coinbase pays to a script. -/
def CBlock.scriptPaid (block : CBlock) (script : CScript) : ℤ :=
  outputsTotal (block.coinbasePayouts.filter fun out => out.scriptPubKey = script)

variable {tree params nBlockReward dag}

/-! ## The coinbase -/

variable {block : CBlock}

/-- The dues of the scripts are the dues of the nodes. -/
theorem sum_scriptDue {scripts : Finset CScript} (included : dagScripts tree dag ⊆ scripts)
    (payouts : ∀ ref ∈ dag.nodes, (tree.payoutScript ref).isSome) :
    ∑ script ∈ scripts, scriptDue tree params nBlockReward dag script =
      (dag.nodes.map (nodeDue tree params nBlockReward dag)).sum := by
  have groups := sum_map_eq_sum_groups tree.payoutScript (nodeDue tree params nBlockReward dag)
    (scripts.image some) dag.nodes
  have noneElsewhere : (dag.nodes.filter fun ref => tree.payoutScript ref ∉ scripts.image some) = [] := by
    rw [filter_eq_nil_iff]
    intro ref listed
    obtain ⟨script, pays⟩ := Option.isSome_iff_exists.mp (payouts ref listed)
    have known : script ∈ dagScripts tree dag := by
      rw [dagScripts, mem_toFinset, mem_filterMap]
      exact ⟨ref, listed, pays⟩
    simp [pays, included known]
  rw [noneElsewhere, map_nil, sum_nil, Finset.sum_image fun _ _ _ _ same => Option.some_injective _ same] at groups
  simp only [scriptDue]
  omega

/-- An accepted coinbase spends what the dag asks for, on whichever scripts. -/
theorem outputsTotal_of_validate
    (computed : rewardOutputs tree params nBlockReward dag (fun nValue => { nValue }) = .ok vout)
    (accepted : validateSummaryBlockCoinbase tree params nBlockReward block dag = .ok true) :
    outputsTotal block.coinbasePayouts = outputsTotal vout := by
  simp only [validateSummaryBlockCoinbase, bind_eq_ok_iff] at accepted
  obtain ⟨_, same, _, dagGrouped, _, -, _, coinbaseGrouped, allPaid, -, accepted⟩ := accepted
  cases computed.symm.trans same
  cases allPaid with
  | false => cases accepted
  | true =>
    have equal := (compareSums_eq_ok accepted).mp rfl
    rw [groupOutputs_total coinbaseGrouped, groupOutputs_total dagGrouped] at equal
    exact Int.add_left_cancel equal

/-- If every script but one is paid what it is due, that one gets its due and what the dues leave of the reward. -/
theorem scriptPaid_own {own : CScript} (payouts : ∀ ref ∈ dag.nodes, (tree.payoutScript ref).isSome)
    (spent : outputsTotal block.coinbasePayouts = nBlockReward.toInt)
    (others : ∀ script ≠ own, block.scriptPaid script = scriptDue tree params nBlockReward dag script) :
    block.scriptPaid own = scriptDue tree params nBlockReward dag own +
      (nBlockReward.toInt - (dag.nodes.map (nodeDue tree params nBlockReward dag)).sum) := by
  let scripts := insert own (dagScripts tree dag ∪ (block.coinbasePayouts.map CTxOut.scriptPubKey).toFinset)
  have groups := sum_map_eq_sum_groups CTxOut.scriptPubKey (fun out => out.nValue.toInt) scripts block.coinbasePayouts
  have noneElsewhere : (block.coinbasePayouts.filter fun out => out.scriptPubKey ∉ scripts) = [] := by
    rw [filter_eq_nil_iff]
    intro out member
    have listed : out.scriptPubKey ∈ block.coinbasePayouts.map CTxOut.scriptPubKey := mem_map_of_mem member
    simp [scripts, listed]
  rw [noneElsewhere, map_nil, sum_nil, Int.zero_add] at groups
  have paid : ∑ script ∈ scripts, block.scriptPaid script = nBlockReward.toInt := groups.symm.trans spent
  have due : ∑ script ∈ scripts, scriptDue tree params nBlockReward dag script =
      (dag.nodes.map (nodeDue tree params nBlockReward dag)).sum :=
    sum_scriptDue (fun _ known => Finset.mem_insert_of_mem (Finset.mem_union_left _ known)) payouts
  have same : ∑ script ∈ scripts.erase own, block.scriptPaid script =
      ∑ script ∈ scripts.erase own, scriptDue tree params nBlockReward dag script :=
    Finset.sum_congr rfl fun script listed => others script (Finset.ne_of_mem_erase listed)
  have listed : own ∈ scripts := Finset.mem_insert_self own _
  rw [← Finset.add_sum_erase _ _ listed] at paid due
  omega

end

end Nexa
