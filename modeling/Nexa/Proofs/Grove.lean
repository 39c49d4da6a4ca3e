import Nexa.Proofs.DagAncestors
import Nexa.Proofs.TreeLinks

/-! # Double spends in the ancestry of a subblock

Over any sequence of insertions and removals, `checkUpdateAncestryInsertIntoDag` admits a subblock only
if none of its transactions competes with another one of the subblock or of its ancestors. Ancestors in
unrelated branches may compete with each other: a subblock that merges such branches is admitted.
-/

namespace Nexa

open Option

namespace DagHeap

variable (heap : DagHeap)

/-- Different transactions of the two nodes consume the same outpoint. -/
def Competes (node other : CTreeNodeRef) : Prop :=
  ∃ tx ∈ heap.txns node, ∃ rival ∈ heap.txns other, rival.getId ≠ tx.getId ∧
    ∃ outpoint ∈ consumedBy tx.vin, outpoint ∈ consumedBy rival.vin

/-- `holder` is the node or one of its transitive ancestors. -/
def InAncestry (holder node : CTreeNodeRef) : Prop := Relation.ReflTransGen (IsParent heap.parents) holder node

/-- The node competes with itself or with one of its ancestors. -/
def OwnDoubleSpend (node : CTreeNodeRef) : Prop := ∃ holder, heap.InAncestry holder node ∧ heap.Competes node holder

/-- Some two in the ancestry of the node compete. -/
def AncestryDoubleSpend (node : CTreeNodeRef) : Prop :=
  ∃ holder other, heap.InAncestry holder node ∧ heap.InAncestry other node ∧ heap.Competes holder other

theorem OwnDoubleSpend.ancestryDoubleSpend {heap : DagHeap} {node : CTreeNodeRef} (own : heap.OwnDoubleSpend node) :
    heap.AncestryDoubleSpend node := by
  obtain ⟨holder, above, competes⟩ := own
  exact ⟨node, holder, .refl, above, competes⟩

theorem OwnDoubleSpend.mono {heap next : DagHeap} {node : CTreeNodeRef} (own : next.OwnDoubleSpend node)
    (same : heap.SameNodes next) (above : ∀ {holder}, next.InAncestry holder node → heap.InAncestry holder node) :
    heap.OwnDoubleSpend node := by
  obtain ⟨holder, inside, competes⟩ := own
  refine ⟨holder, above inside, ?_⟩
  rwa [Competes, same.txns_eq, same.txns_eq] at competes

end DagHeap

namespace TreeState

variable {tree : TreeState} {rounds : ℕ} {newNode : CTreeNodeRef} {subblock : DagSubblock}

variable {setAncestors : Finset CTreeNodeRef}

/-- A subblock whose transactions are in order is admitted if the scan finds no conflict. -/
theorem checkUpdateAncestryInsertIntoDag_eq (indexed : tree.Indexed)
    (block : (tree.heap newNode).subblock = some subblock)
    (fresh : (tree.heap newNode).hash ∉ tree.dag) :
    tree.checkUpdateAncestryInsertIntoDag rounds newNode = if inTxidOrder subblock.vtx then
        (calculateAncestors tree.heap.parents rounds newNode).map fun setAncestors =>
          let scan := subblock.vtx.foldl (tree.conflictRegistry.scanTx setAncestors newNode) {}
          if scan.hasConflict then (false, tree) else (true, tree.admitNode newNode scan.localSpends)
      else some (false, tree) := by
  have unknown := mt indexed.mem_indexed.mp fresh
  rw [checkUpdateAncestryInsertIntoDag]
  simp only [block, map_some, getD_some, CDagConflictRegistry.scanSpends, unknown]
  cases ordered : inTxidOrder subblock.vtx with
  | false => rfl
  | true =>
    cases ended : calculateAncestors tree.heap.parents rounds newNode with
    | none => simp
    | some setAncestors =>
      cases conflict : (subblock.vtx.foldl (tree.conflictRegistry.scanTx setAncestors newNode) {}).hasConflict with
      | true => simp [conflict]
      | false => simp [conflict, fresh, admitNode]

/-! ## What holds in every tree -/

/-- The index and the links fit the dag, and no subblock of the dag double spends in its own ancestry. -/
structure Sound (tree : TreeState) : Prop where
  indexed : tree.Indexed
  links : tree.WellLinked
  clean : ∀ {node}, tree.Linked node → ¬ tree.heap.OwnDoubleSpend node

variable {next : TreeState}

theorem sound_of_bare {heap : DagHeap}
    (bare : ∀ node, (heap node).setAncestors = ∅ ∧ (heap node).setDescendants = ∅) : Sound { heap } where
  indexed := ⟨nofun, by simp, by simp [Linked], by simp⟩
  links := by
    refine ⟨fun parent child => ?_, fun {parent child} above => ?_, fun _ => 0, 0, fun _ => le_rfl,
      fun {parent child} above => ?_⟩
    · simp [bare]
    · simp [bare] at above
    · simp [bare] at above
  clean linked := by simp [Linked] at linked

variable {setPrevNodes : Finset CTreeNodeRef}

theorem linked_prevNodes (indexed : tree.Indexed) (found : tree.prevNodes subblock = some setPrevNodes) :
    ∀ parent ∈ setPrevNodes, tree.Linked parent := by
  rw [prevNodes] at found
  split_ifs at found
  · cases found
    simp
  · cases found
    intro parent listed
    simp only [Finset.mem_biUnion, mem_toFinset] at listed
    obtain ⟨prevHash, -, looked⟩ := listed
    rw [Linked, indexed.hash_eq looked, looked]

theorem not_linked (fresh : (tree.heap newNode).hash ∉ tree.dag) : ¬ tree.Linked newNode :=
  fun linked => fresh linked.mem_dag

theorem inAncestry_of_linkNode (links : tree.WellLinked) (unlinked : ¬ tree.Linked newNode)
    {holder node : CTreeNodeRef} (linked : tree.Linked node)
    (above : (tree.linkNode newNode setPrevNodes).heap.InAncestry holder node) : tree.heap.InAncestry holder node := by
  induction above with
  | refl => exact .refl
  | tail _ parent ih =>
    rcases (mem_setAncestors_linkNode ..).mp parent with parent | ⟨rfl, -⟩
    · exact (ih (links.linked parent).1).tail parent
    · exact absurd linked unlinked

/-! ## Insertion -/

/-- A node that is linked to its parents and not in the dag. -/
structure Attempted (tree : TreeState) (newNode : CTreeNodeRef) : Prop where
  indexed : tree.Indexed
  pending : tree.Pending newNode
  fresh : (tree.heap newNode).hash ∉ tree.dag
  clean : ∀ {node}, tree.Linked node → ¬ tree.heap.OwnDoubleSpend node

section Insertion

variable {added : Bool}

theorem Sound.attempted (sound : tree.Sound) (fresh : (tree.heap newNode).hash ∉ tree.dag) : tree.Attempted newNode :=
  ⟨sound.indexed, sound.links.pending (not_linked fresh), fresh, sound.clean⟩

theorem Sound.linkNode (sound : tree.Sound) (fresh : (tree.heap newNode).hash ∉ tree.dag)
    {setPrevNodes : Finset CTreeNodeRef} (found : tree.prevNodes subblock = some setPrevNodes) :
    (tree.linkNode newNode setPrevNodes).Attempted newNode := by
  have same := tree.sameNodes_linkNode newNode setPrevNodes
  refine ⟨sound.indexed.relink same,
    sound.links.linkNode (not_linked fresh) (linked_prevNodes sound.indexed found), ?_, fun linked own => ?_⟩
  · rw [(same newNode).1]
    exact fresh
  · have linked := (linked_relink_iff same).mp linked
    exact sound.clean linked (own.mono same (inAncestry_of_linkNode sound.links (not_linked fresh) linked))

theorem Attempted.addSubblockOrphan (attempted : tree.Attempted newNode) : (tree.addSubblockOrphan newNode).Sound := by
  have same := tree.sameNodes_unlinkNode newNode
  rw [TreeState.addSubblockOrphan, if_neg attempted.fresh]
  refine ⟨attempted.indexed.relink same, attempted.pending.unlinkNode, fun linked own => ?_⟩
  refine attempted.clean ((linked_relink_iff same).mp linked) (own.mono same fun above => ?_)
  exact Relation.ReflTransGen.mono (fun _ _ parent => ((mem_setAncestors_unlinkNode ..).mp parent).2) _ _ above

/-- The scan ends, as the links lead down from the node in some rank. -/
theorem Attempted.exists_calculateAncestors (attempted : tree.Attempted newNode) :
    ∃ enough, ∀ rounds ≥ enough, ∃ setAncestors,
      calculateAncestors tree.heap.parents rounds newNode = some setAncestors := by
  obtain ⟨rank, bound, low, grows⟩ := attempted.pending.ranked
  refine ⟨bound + 2, fun rounds enough => isSome_iff_exists.mp ?_⟩
  obtain ⟨more, rfl⟩ := Nat.exists_eq_add_of_le' enough
  refine ancestorsLoop_isSome Set.univ rank (fun _ _ _ above => ⟨trivial, grows above⟩) fun ref _ => ⟨trivial, ?_⟩
  exact Nat.lt_of_le_of_lt (low ref) (Nat.lt_of_lt_of_le (Nat.lt_succ_self bound) (Nat.le_add_left _ more))

section

variable (attempted : tree.Attempted newNode)

include attempted

section

variable (block : (tree.heap newNode).subblock = some subblock)

include block

theorem Attempted.hasConflict_iff (found : calculateAncestors tree.heap.parents rounds newNode = some setAncestors) :
    (subblock.vtx.foldl (tree.conflictRegistry.scanTx setAncestors newNode) {}).hasConflict ↔
      tree.heap.OwnDoubleSpend newNode := by
  have txns : tree.heap.txns newNode = subblock.vtx := by rw [DagHeap.txns, block, map_some, getD_some]
  refine (tree.conflictRegistry.hasConflict_foldl setAncestors newNode subblock.vtx).trans ?_
  rw [← txns]
  -- with the ancestors in the dag, the index tells the competing spends
  constructor
  · rintro ⟨tx, listed, outpoint, consumed, ⟨prior, spent, competing⟩ | ⟨rival, listedToo, ids, consumedToo⟩⟩
    · obtain ⟨-, rival, listedToo, sameId, consumedToo⟩ := attempted.indexed.mem_spendIndex.mp spent
      rw [CDagConflictRegistry.competes, decide_eq_true_eq, mem_of_calculateAncestors found] at competing
      obtain ⟨ids, above⟩ := competing
      refine ⟨prior.subblock, ?_, tx, listed, rival, listedToo, sameId ▸ ids, outpoint, consumed, consumedToo⟩
      exact above.elim (fun self => self ▸ .refl) Relation.TransGen.to_reflTransGen
    · exact ⟨newNode, .refl, tx, listed, rival, listedToo, ids, outpoint, consumed, consumedToo⟩
  · rintro ⟨holder, above, tx, listed, rival, listedToo, ids, outpoint, consumed, consumedToo⟩
    refine ⟨tx, listed, outpoint, consumed, ?_⟩
    rcases Relation.reflTransGen_iff_eq_or_transGen.mp above with rfl | path
    · exact .inr ⟨rival, listedToo, ids, consumedToo⟩
    · obtain ⟨_, linked, -⟩ := Relation.TransGen.head'_iff.mp path
      refine .inl ⟨⟨rival.getId, holder⟩, ?_, ?_⟩
      · exact attempted.indexed.mem_spendIndex.mpr
          ⟨(attempted.pending.linked linked).1, rival, listedToo, rfl, consumedToo⟩
      · rw [CDagConflictRegistry.competes, decide_eq_true_eq, mem_of_calculateAncestors found]
        exact ⟨ids, .inr path⟩

theorem Attempted.admitNode (clean : ¬ tree.heap.OwnDoubleSpend newNode) (setAncestors : Finset CTreeNodeRef) :
    (tree.admitNode newNode
      (subblock.vtx.foldl (tree.conflictRegistry.scanTx setAncestors newNode) {}).localSpends).Sound := by
  refine ⟨attempted.indexed.admitNode attempted.fresh fun {spend outpoint} => ?_,
    attempted.pending.admitNode attempted.fresh _, fun linked => ?_⟩
  · rw [tree.conflictRegistry.mem_localSpends_foldl, DagHeap.Spends, DagHeap.txns, block]
    constructor
    · rintro ⟨tx, listed, consumed, rfl⟩
      exact ⟨rfl, tx, listed, rfl, consumed⟩
    · rintro ⟨same, tx, listed, ids, consumed⟩
      exact ⟨tx, listed, consumed, by rw [ids, ← same]⟩
  · rcases (linked_admit_iff attempted.fresh).mp linked with linked | rfl
    · exact attempted.clean linked
    · exact clean

theorem Attempted.insert (ended : tree.checkUpdateAncestryInsertIntoDag rounds newNode = some (added, next)) :
    (if added then next else next.addSubblockOrphan newNode).Sound := by
  rw [checkUpdateAncestryInsertIntoDag_eq attempted.indexed block attempted.fresh] at ended
  split_ifs at ended
  · obtain ⟨setAncestors, found, result⟩ := map_eq_some_iff.mp ended
    have own := attempted.hasConflict_iff block found
    dsimp only at result
    split_ifs at result with conflict
    · cases result
      exact attempted.addSubblockOrphan
    · cases result
      exact attempted.admitNode block (mt own.mpr conflict) setAncestors
  · cases ended
    exact attempted.addSubblockOrphan

end

end

/-- A subblock is left alone, is kept as an orphan, or is linked to its parents and tried. -/
theorem insertIntoTree_cases (tree : TreeState) (newNode : CTreeNodeRef) (tooDeep : Bool) :
    (∀ rounds, tree.insertIntoTree rounds newNode tooDeep = some tree) ∨
    (tree.heap newNode).hash ∉ tree.dag ∧
      ((∀ rounds, tree.insertIntoTree rounds newNode tooDeep = some (tree.addSubblockOrphan newNode)) ∨
      ∃ subblock setPrevNodes, (tree.heap newNode).subblock = some subblock ∧
        tree.prevNodes subblock = some setPrevNodes ∧
        ∀ rounds, tree.insertIntoTree rounds newNode tooDeep =
          if tooDeep then some ((tree.linkNode newNode setPrevNodes).addSubblockOrphan newNode)
          else ((tree.linkNode newNode setPrevNodes).checkUpdateAncestryInsertIntoDag rounds newNode).map fun result =>
            if result.1 then result.2 else result.2.addSubblockOrphan newNode) := by
  cases block : (tree.heap newNode).subblock with
  | none => exact .inl fun _ => by simp only [insertIntoTree, block]
  | some subblock =>
    by_cases known : (tree.heap newNode).hash ∈ tree.dag
    · exact .inl fun _ => by simp [insertIntoTree, block, if_pos known]
    · refine .inr ⟨known, ?_⟩
      simp only [insertIntoTree, block, if_neg known]
      cases found : tree.prevNodes subblock with
      | none => exact .inl fun _ => rfl
      | some setPrevNodes =>
        refine .inr ⟨subblock, setPrevNodes, rfl, found, fun _ => ?_⟩
        cases tooDeep with
        | true => rfl
        | false => exact (map_eq_bind ..).symm

theorem Sound.insertIntoTree (sound : tree.Sound) {tooDeep : Bool}
    (ended : tree.insertIntoTree rounds newNode tooDeep = some next) : next.Sound := by
  rcases tree.insertIntoTree_cases newNode tooDeep with
    same | ⟨fresh, orphan | ⟨subblock, setPrevNodes, block, found, tried⟩⟩
  · exact some.inj ((same rounds).symm.trans ended) ▸ sound
  · exact some.inj ((orphan rounds).symm.trans ended) ▸ (sound.attempted fresh).addSubblockOrphan
  · have attempted := sound.linkNode fresh found
    rw [tried] at ended
    split_ifs at ended
    · exact some.inj ended ▸ attempted.addSubblockOrphan
    · obtain ⟨⟨added, checked⟩, checkEnded, rfl⟩ := map_eq_some_iff.mp ended
      exact attempted.insert ((tree.sameNodes_linkNode newNode setPrevNodes newNode).2.trans block) checkEnded

theorem Sound.exists_insertIntoTree (sound : tree.Sound) (newNode : CTreeNodeRef) (tooDeep : Bool) :
    ∃ enough, ∀ rounds ≥ enough, (tree.insertIntoTree rounds newNode tooDeep).isSome := by
  rcases tree.insertIntoTree_cases newNode tooDeep with
    same | ⟨fresh, orphan | ⟨subblock, setPrevNodes, block, found, tried⟩⟩
  · exact ⟨0, fun rounds _ => by rw [same, isSome_some]⟩
  · exact ⟨0, fun rounds _ => by rw [orphan, isSome_some]⟩
  · have attempted := sound.linkNode fresh found
    obtain ⟨enough, ends⟩ := attempted.exists_calculateAncestors
    refine ⟨enough, fun rounds large => ?_⟩
    rw [tried]
    split_ifs
    · rfl
    · obtain ⟨setAncestors, found⟩ := ends rounds large
      rw [checkUpdateAncestryInsertIntoDag_eq attempted.indexed
        ((tree.sameNodes_linkNode newNode setPrevNodes newNode).2.trans block) attempted.fresh, found]
      split_ifs <;> rfl

end Insertion

/-! ## Removal -/

variable {node : CTreeNodeRef}

theorem Indexed.removeFromGrove (indexed : tree.Indexed) (removed : removeFromGrove rounds tree node = some next) :
    next.Indexed := by
  induction rounds generalizing tree node next with
  | zero => cases removed
  | succ rounds ih =>
    rw [TreeState.removeFromGrove] at removed
    obtain ⟨left, folded, unlinked⟩ := bind_eq_some_iff.mp removed
    obtain rfl := some.inj unlinked
    have kept : left.Indexed := List.foldlM_option_inv Indexed (fun _ => ih) (indexed.expunge node) folded
    exact kept.relink (left.sameNodes_unlinkNode node)

theorem Sound.removeFromGrove (sound : tree.Sound) (linked : tree.Linked node)
    (removed : removeFromGrove rounds tree node = some next) : next.Sound := by
  obtain ⟨removable, shrinks, -⟩ := removes_removeFromGrove sound.links.removable linked.owns removed
  refine ⟨sound.indexed.removeFromGrove removed, sound.links.of_shrinks shrinks removable.twoWay, ?_⟩
  intro other otherLinked own
  rw [Linked, (shrinks.same other).1] at otherLinked
  refine sound.clean (shrinks.lookup otherLinked) (own.mono shrinks.same fun above => ?_)
  exact Relation.ReflTransGen.mono (fun _ _ parent => shrinks.ancestors _ parent) _ _ above

/-! ## Runs -/

/-- The trees that operations lead to, from nodes without links. -/
inductive Reachable : TreeState → Prop where
  | start {heap : DagHeap} (bare : ∀ node, (heap node).setAncestors = ∅ ∧ (heap node).setDescendants = ∅) :
    Reachable { heap }
  | step {tree next : TreeState} {rounds : ℕ} {op : TreeOp} (before : Reachable tree)
    (ended : tree.step rounds op = some next) : Reachable next

theorem Sound.step {next : TreeState} {rounds : ℕ} {op : TreeOp} (sound : tree.Sound)
    (ended : tree.step rounds op = some next) : next.Sound := by
  cases op with
  | insert newNode tooDeep => exact sound.insertIntoTree ended
  | remove hash =>
    rw [TreeState.step] at ended
    cases found : tree.dag.lookup hash with
    | none =>
      rw [found] at ended
      exact some.inj ended ▸ sound
    | some node =>
      rw [found] at ended
      refine sound.removeFromGrove ?_ ended
      rw [Linked, sound.indexed.hash_eq found, found]
  | clear =>
    exact some.inj ended ▸ sound_of_bare fun _ => ⟨rfl, rfl⟩

theorem Reachable.sound (reachable : tree.Reachable) : tree.Sound := by
  induction reachable with
  | start bare => exact sound_of_bare bare
  | step _ ended ih => exact ih.step ended

theorem Sound.exists_step (sound : tree.Sound) (op : TreeOp) :
    ∃ enough, ∀ rounds ≥ enough, (tree.step rounds op).isSome := by
  cases op with
  | insert newNode tooDeep => exact sound.exists_insertIntoTree newNode tooDeep
  | remove hash =>
    cases found : tree.dag.lookup hash with
    | none => exact ⟨0, fun rounds _ => by simp [TreeState.step, found]⟩
    | some node =>
      have linked : tree.Linked node := by rw [Linked, sound.indexed.hash_eq found, found]
      obtain ⟨rank, bound, ranked⟩ := sound.links.ranked
      refine ⟨bound + 1, fun rounds large => ?_⟩
      simp only [TreeState.step, found]
      exact removeFromGrove_isSome sound.links.removable linked.owns ranked (by omega)
  | clear => exact ⟨0, fun _ _ => rfl⟩

/-- In every tree that operations lead to, no subblock of the dag competes with its own ancestry, and every operation
ends. A subblock with its parents in the dag is rejected as a double spend exactly if it competes with its own
ancestry, so never if no two in its ancestry compete; else it is linked, if its transactions are in order. -/
theorem Reachable.admits_iff {tree : TreeState} (reachable : tree.Reachable) :
    (∀ node, tree.Linked node → ¬ tree.heap.OwnDoubleSpend node) ∧
    (∀ op, ∃ enough, ∀ rounds ≥ enough, (tree.step rounds op).isSome) ∧
    ∀ newNode subblock setPrevNodes, (tree.heap newNode).subblock = some subblock →
      (tree.heap newNode).hash ∉ tree.dag → tree.prevNodes subblock = some setPrevNodes →
      let tried := tree.linkNode newNode setPrevNodes
      ∃ enough, ∀ rounds ≥ enough, ∃ hasConflict added next,
        tried.conflictRegistry.scanSpends tried.heap rounds newNode false = some (hasConflict, tried.conflictRegistry) ∧
        tried.checkUpdateAncestryInsertIntoDag rounds newNode = some (added, next) ∧
        (hasConflict = true ↔ tried.heap.OwnDoubleSpend newNode) ∧
        (¬ tried.heap.AncestryDoubleSpend newNode → hasConflict = false) ∧
        (next.Linked newNode ↔ inTxidOrder subblock.vtx = true ∧ ¬ tried.heap.OwnDoubleSpend newNode) := by
  have sound := reachable.sound
  refine ⟨fun _ => sound.clean, sound.exists_step, fun newNode subblock setPrevNodes block fresh found => ?_⟩
  have attempted := sound.linkNode fresh found
  have block := (tree.sameNodes_linkNode newNode setPrevNodes newNode).2.trans block
  obtain ⟨enough, ends⟩ := attempted.exists_calculateAncestors
  refine ⟨enough, fun rounds large => ?_⟩
  obtain ⟨setAncestors, ended⟩ := ends rounds large
  set tried := tree.linkNode newNode setPrevNodes
  have own := attempted.hasConflict_iff block ended
  have never (clean : ¬ tried.heap.AncestryDoubleSpend newNode) : _ = false :=
    Bool.eq_false_iff.mpr fun conflict => clean (own.mp conflict).ancestryDoubleSpend
  have scanned : tried.conflictRegistry.scanSpends tried.heap rounds newNode false =
      some ((subblock.vtx.foldl (tried.conflictRegistry.scanTx setAncestors newNode) {}).hasConflict,
        tried.conflictRegistry) := by
    simp only [CDagConflictRegistry.scanSpends, block, ended]
    rfl
  have checked : tried.checkUpdateAncestryInsertIntoDag rounds newNode = _ :=
    checkUpdateAncestryInsertIntoDag_eq attempted.indexed block attempted.fresh
  rw [ended, map_some] at checked
  dsimp only at checked
  have unlinked := not_linked attempted.fresh
  split_ifs at checked with ordered conflict
  · exact ⟨_, _, _, scanned, checked, own, never, iff_of_false unlinked fun rest => rest.2 (own.mp conflict)⟩
  · refine ⟨_, _, _, scanned, checked, own, never, iff_of_true ?_ ⟨ordered, mt own.mpr conflict⟩⟩
    exact (linked_admit_iff attempted.fresh).mpr (.inr rfl)
  · exact ⟨_, _, _, scanned, checked, own, never, iff_of_false unlinked fun rest => ordered rest.1⟩

/-! ## A subblock that merges competing branches -/

def sampleBranch (hash : Uint256) (nValue : CAmount) : DagNode where
  hash := hash
  subblock := some {
    hash := hash
    prevHashes := {9}
    hashPrevBlock := 9
    vtx := [{ vin := [], vout := [] }, { vin := [{ prevout := ⟨7⟩ }], vout := [{ nValue := nValue }] }] }

def sampleMerge : DagHeap := fun node =>
  match node with
  | 0 => sampleBranch 1 10
  | 1 => sampleBranch 2 20
  | 2 => { hash := 3, subblock := some { hash := 3, prevHashes := {1, 2}, hashPrevBlock := 9 } }
  | _ => {}

def sampleRun (ops : List TreeOp) : Option TreeState := ops.foldlM (TreeState.step 5) { heap := sampleMerge }

theorem reachable_sampleRun {ops : List TreeOp} (ran : sampleRun ops = some tree) : tree.Reachable := by
  have bare : ∀ node, (sampleMerge node).setAncestors = ∅ ∧ (sampleMerge node).setDescendants = ∅ := by
    intro node
    unfold sampleMerge
    split <;> exact ⟨rfl, rfl⟩
  exact List.foldlM_option_inv Reachable (fun _ => .step) (.start bare) ran

theorem Reachable.admits_iff_sampleMerge :
    ∃ tree, sampleRun [.insert 0 false, .insert 1 false, .insert 2 false] = some tree ∧ tree.Reachable ∧
      tree.Linked 2 ∧ ¬ tree.heap.OwnDoubleSpend 2 := by
  have run : (sampleRun [.insert 0 false, .insert 1 false, .insert 2 false]).map
      (fun tree => (tree.dag.lookup (tree.heap 2).hash)) = some (some 2) := by decide +kernel
  obtain ⟨tree, ran, linked⟩ := map_eq_some_iff.mp run
  have reachable := reachable_sampleRun ran
  exact ⟨tree, ran, reachable, linked, (Reachable.admits_iff reachable).1 2 linked⟩

/-- Its ancestry holds two different transactions that consume the same outpoint. -/
theorem exists_linked_ancestryDoubleSpend :
    ∃ tree : TreeState, tree.Reachable ∧ tree.Linked 2 ∧ tree.heap.AncestryDoubleSpend 2 := by
  have run : (sampleRun [.insert 0 false, .insert 1 false, .insert 2 false]).map (fun tree =>
      (tree.dag.lookup (tree.heap 2).hash, (tree.heap 2).setAncestors, tree.heap.txns 0, tree.heap.txns 1)) =
        some (some 2, {0, 1}, sampleMerge.txns 0, sampleMerge.txns 1) := by decide +kernel
  have competes : sampleMerge.Competes 0 1 :=
    ⟨_, List.mem_cons_of_mem _ List.mem_cons_self, _, List.mem_cons_of_mem _ List.mem_cons_self, by decide +kernel,
      ⟨7⟩, by decide, by decide⟩
  obtain ⟨tree, ran, facts⟩ := map_eq_some_iff.mp run
  simp only [Prod.mk.injEq] at facts
  obtain ⟨linked, parents, left, right⟩ := facts
  have above (parent : CTreeNodeRef) (listed : parent ∈ ({0, 1} : Finset CTreeNodeRef)) :
      tree.heap.InAncestry parent 2 := .single (parents ▸ listed : parent ∈ (tree.heap 2).setAncestors)
  refine ⟨tree, reachable_sampleRun ran, linked, 0, 1, above 0 (by decide), above 1 (by decide), ?_⟩
  rwa [DagHeap.Competes, left, right]

end TreeState

end Nexa
