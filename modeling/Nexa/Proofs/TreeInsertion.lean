import Nexa.Proofs.TreeRemoval

/-! # Inserting subblocks into an ordered tree

A tree stays ordered under insertions, removals and regenerations. If a subblock is processed then so
are its parents. The nodes of the dag are no uncles. What an operation takes out of the dag is on record.
-/

namespace Nexa

open Option Function TreeState List

theorem TreeState.unlinkNode_of_bare {tree : TreeState} {node : CTreeNodeRef} (bare : tree.Bare node) :
    tree.unlinkNode node = tree := by
  obtain ⟨parentless, childless⟩ := bare
  have cleared : clearLinks tree.heap node = tree.heap := by
    refine update_eq_self_iff.mpr ?_
    cases record : tree.heap node
    rw [record] at parentless childless
    dsimp only at parentless childless
    rw [parentless, childless]
  simp only [unlinkNode, parentless, Finset.notMem_empty, if_false]
  rw [cleared]

namespace TailstormTree

variable {ν : Type} {tree next : TailstormTree ν} {ctx : TreeContext ν} {rounds : ℕ} {k : TailstormK}
  {newNode : CTreeNodeRef} {subblock : DagSubblock} {added : Bool}

/-- The parents of a processed subblock are processed. -/
def ProcessedFirst (tree : TailstormTree ν) : Prop :=
  ∀ parent child, tree.Linked child → parent ∈ (tree.heap child).setAncestors → tree.fProcessed child →
    tree.fProcessed parent

/-- The uncles are marked and kept under their hashes, and the nodes of the dag are not marked. -/
structure Flagged (tree : TailstormTree ν) : Prop where
  uncle : ∀ {hash uncle}, tree.mapUncles.lookup hash = some uncle →
    (tree.heap uncle).hash = hash ∧ (tree.heap uncle).fUncle = true
  regular : ∀ {node}, tree.Linked node → (tree.heap node).fUncle = false

/-- What holds of a tree between operations. -/
structure Kept (tree : TailstormTree ν) : Prop where
  sound : tree.toTreeState.Sound
  ordered : tree.Ordered
  processed : tree.ProcessedFirst
  flagged : tree.Flagged

theorem kept_of_bare {heap : DagHeap}
    (bare : ∀ node, (heap node).setAncestors = ∅ ∧ (heap node).setDescendants = ∅) (view : ν) :
    Kept { heap, view } := by
  refine ⟨sound_of_bare bare, ⟨.refl _, fun {parent child} linked => ?_⟩, fun parent child linked => ?_,
    fun {hash uncle} found => ?_, fun {node} linked => ?_⟩
  · simp [Linked] at linked
  · simp [Linked] at linked
  · simp at found
  · simp [Linked] at linked

/-- An operation makes `next` of `tree`: what holds of trees holds again, the nodes stay what they were, and the dag
is the given one without the subblocks that went on record. Operations on the dag lead there from `start`. -/
structure Settles (dag : AList fun _ : Uint256 => CTreeNodeRef) (start : TreeState) (tree next : TailstormTree ν) :
    Prop where
  kept : next.Kept
  same : tree.heap.SameNodes next.heap
  fUncle : ∀ node, (next.heap node).fUncle = (tree.heap node).fUncle
  records : Records {hash | hash ∈ dag} dag tree next
  run : DagRun start next.toTreeState

variable {start : TreeState}

theorem Kept.settles (kept : tree.Kept) : Settles tree.dag tree.toTreeState tree tree :=
  ⟨kept, fun _ => ⟨rfl, rfl⟩, fun _ => rfl, .refl _ tree, .refl⟩

theorem Settles.of_relinked {dag : AList fun _ : Uint256 => CTreeNodeRef} {relinked : TailstormTree ν}
    (settles : Settles dag start relinked next) (same : tree.heap.SameNodes relinked.heap)
    (fUncle : ∀ node, (relinked.heap node).fUncle = (tree.heap node).fUncle)
    (record : relinked.expunged = tree.expunged) :
    Settles dag start tree next where
  kept := settles.kept
  run := settles.run
  same node := ⟨(settles.same node).1.trans (same node).1, (settles.same node).2.trans (same node).2⟩
  fUncle node := (settles.fUncle node).trans (fUncle node)
  records := by
    obtain ⟨gone, found, facts⟩ := settles.records
    exact ⟨gone, record ▸ found, facts⟩

theorem Settles.of_trims {trimmed : TailstormTree ν} (trims : tree.Trims trimmed)
    (settles : Settles trimmed.dag trimmed.toTreeState trimmed next) : Settles tree.dag tree.toTreeState tree next where
  kept := settles.kept
  run := trims.run.trans settles.run
  same node := ⟨(settles.same node).1.trans (trims.same node).1, (settles.same node).2.trans (trims.same node).2⟩
  fUncle node := (settles.fUncle node).trans (trims.fUncle node)
  records := trims.records.trans (settles.records.mono trims.records.subset)

/-- A subblock that is not in the dag and may be linked to its parents. -/
structure Tried (tree : TailstormTree ν) (newNode : CTreeNodeRef) : Prop where
  attempted : tree.toTreeState.Attempted newNode
  ordered : tree.Ordered
  processed : tree.ProcessedFirst
  flagged : tree.Flagged
  regular : (tree.heap newNode).fUncle = false

theorem Trims.flagged (trims : tree.Trims next) (flagged : tree.Flagged) : next.Flagged where
  uncle {hash uncle} found := by
    rw [(trims.same uncle).1, trims.fUncle]
    exact flagged.uncle (trims.mapUncles found)
  regular {node} linked := by
    rw [trims.fUncle]
    exact flagged.regular (trims.linked linked)

theorem Trims.processed (trims : tree.Trims next) (processed : tree.ProcessedFirst) : next.ProcessedFirst := by
  intro parent child linked above flag
  rw [trims.fProcessed] at flag ⊢
  exact processed parent child (trims.linked linked) (trims.ancestors child above) flag

variable {node : CTreeNodeRef} {linked left : TailstormTree ν}

/-! ## Admission -/

/-- The tree with an arrival that is in the dag. It has not been numbered yet. -/
def adding (tree : TailstormTree ν) (newNode : CTreeNodeRef) (linked : TreeState) : TailstormTree ν :=
  { tree with toTreeState := linked, fProcessed := update tree.fProcessed newNode false }

/-- What an admitted subblock changes. -/
structure Admits (tree : TailstormTree ν) (newNode : CTreeNodeRef) (next : TailstormTree ν) : Prop where
  kept : next.Kept
  admitted : ∃ localSpends nSequenceId view,
    next = { tree.adding newNode (tree.toTreeState.admitNode newNode localSpends) with nSequenceId, view }

section

variable (tried : tree.Tried newNode)

include tried

theorem Tried.mem_dagNodes : node ∈ tree.dagNodes ↔ tree.Linked node := by
  rw [dagNodes, mem_inKeyOrder]
  refine ⟨fun ⟨_, found⟩ => ?_, fun linked => ⟨_, linked⟩⟩
  rw [Linked, tried.attempted.indexed.hash_eq found, found]

theorem Tried.ne_of_linked (linked : tree.Linked node) : node ≠ newNode :=
  fun self => not_linked tried.attempted.fresh (self ▸ linked)

theorem Tried.ne_of_above {parent child : CTreeNodeRef} (above : parent ∈ (tree.heap child).setAncestors) :
    parent ≠ newNode :=
  tried.ne_of_linked (tried.attempted.pending.linked above).1

variable (localSpends : MultiMap COutPoint CDagSpend)

theorem Tried.ordered_placedLast : Ordered { tree.adding newNode (tree.toTreeState.admitNode newNode localSpends) with
      nSequenceId := update tree.nSequenceId newNode (tree.admitNode newNode localSpends).dag.keys.length } := by
  have fresh := tried.attempted.fresh
  have size : (tree.admitNode newNode localSpends).dag.keys.length = tree.dag.keys.length + 1 := by
    rw [admitNode, AList.keys_insert, length_cons, erase_of_not_mem fresh]
  have others : tree.dagNodes.map (update tree.nSequenceId newNode (tree.dag.keys.length + 1)) =
      tree.dagNodes.map tree.nSequenceId := by
    apply map_congr_left
    intro node listed
    exact update_of_ne (tried.ne_of_linked (tried.mem_dagNodes.mp listed)) _ _
  rw [size]
  refine ⟨?_, fun {parent child} linked above => ?_⟩
  · change Perm _ (range' 1 (tree.admitNode newNode localSpends).dag.keys.length)
    refine ((inKeyOrder_insert_perm tree.dag fresh newNode).map _).trans ?_
    change (update tree.nSequenceId _ _ newNode :: tree.dagNodes.map _).Perm _
    rw [others, update_self, size, range'_1_concat, Nat.add_comm]
    exact (tried.ordered.dense.cons _).trans (perm_append_singleton _ _).symm
  · change update tree.nSequenceId _ _ parent < update tree.nSequenceId _ _ child
    have linkedParent := (tried.attempted.pending.linked above).1
    have range := tried.ordered.pos_and_le (tried.mem_dagNodes.mpr linkedParent)
    rw [update_of_ne (tried.ne_of_linked linkedParent)]
    rcases (linked_admit_iff fresh).mp linked with linked | rfl
    · rw [update_of_ne (tried.ne_of_linked linked)]
      exact tried.ordered.parents_lt linked above
    · rw [update_self]
      omega

theorem Tried.processed_admit :
    (tree.adding newNode (tree.toTreeState.admitNode newNode localSpends)).ProcessedFirst := by
  intro parent child linked above flag
  change update tree.fProcessed _ _ _ = true at flag ⊢
  rcases (linked_admit_iff tried.attempted.fresh).mp linked with linked | rfl
  · rw [update_of_ne (tried.ne_of_linked linked)] at flag
    rw [update_of_ne (tried.ne_of_above above)]
    exact tried.processed parent child linked above flag
  · rw [update_self] at flag
    cases flag

theorem Tried.flagged_admit : (tree.adding newNode (tree.toTreeState.admitNode newNode localSpends)).Flagged := by
  refine ⟨tried.flagged.uncle, fun {node} linked => ?_⟩
  rcases (linked_admit_iff tried.attempted.fresh).mp linked with linked | rfl
  · exact tried.flagged.regular linked
  · exact tried.regular

theorem Tried.admits (block : (tree.heap newNode).subblock = some subblock)
    (ended : tree.checkUpdateAncestryInsertIntoDag k rounds newNode = some (added, next)) :
    added = false ∧ next = tree ∨ added = true ∧ tree.Admits newNode next ∧
      tree.toTreeState.checkUpdateAncestryInsertIntoDag rounds newNode = some (true, next.toTreeState) := by
  obtain ⟨⟨admitted, linked⟩, checked, ended⟩ := bind_eq_some_iff.mp ended
  cases admitted with
  | false =>
    cases ended
    exact .inl ⟨rfl, rfl⟩
  | true =>
    have sound := tried.attempted.insert block checked
    -- an admitted subblock is added to the dag, and the links stay
    obtain ⟨localSpends, rfl⟩ : ∃ localSpends, linked = tree.admitNode newNode localSpends := by
      clear ended sound
      rw [TreeState.checkUpdateAncestryInsertIntoDag_eq tried.attempted.indexed block tried.attempted.fresh] at checked
      split_ifs at checked
      · obtain ⟨setAncestors, -, result⟩ := map_eq_some_iff.mp checked
        dsimp only at result
        split_ifs at result
        · cases result
        · cases result
          exact ⟨_, rfl⟩
      · cases checked
    have processed := tried.processed_admit localSpends
    have flagged := tried.flagged_admit localSpends
    right
    split_ifs at ended
    · cases ended
      exact ⟨rfl, ⟨⟨sound, tried.ordered_placedLast localSpends, processed, { flagged with }⟩, localSpends, _, _, rfl⟩,
        checked⟩
    · obtain ⟨numbered, renumbered, ⟨⟩⟩ := bind_eq_some_iff.mp ended
      obtain ⟨ordered, nSequenceId, rfl⟩ := ordered_of_renumberDag sound renumbered
      exact ⟨rfl, ⟨⟨sound, ordered, processed, { flagged with }⟩, localSpends, nSequenceId, _, rfl⟩, checked⟩

end

/-! ## Regeneration -/

theorem Ordered.processed_selected (ordered : tree.Ordered) (sound : tree.toTreeState.Sound) {n : ℕ}
    {fProcessed : CTreeNodeRef → Bool}
    (selected : ∀ node ∈ tree.dagNodes, fProcessed node → node ∈ tree.sortedDag.take n)
    (applied : ∀ node ∈ tree.sortedDag.take n, fProcessed node) :
    ProcessedFirst { tree with fProcessed } := by
  intro parent child linked above flag
  have low := (ordered.mem_take_sortedDag.mp (selected child ((mem_dagNodes sound).mpr linked) flag)).2
  have less := ordered.parents_lt linked above
  refine applied parent (ordered.mem_take_sortedDag.mpr ⟨(mem_dagNodes sound).mpr (sound.links.linked above).1, ?_⟩)
  exact less.le.trans low

theorem fProcessed_cleared (ctx : TreeContext ν) (listed : node ∈ tree.dagNodes) :
    (tree.cleared ctx).fProcessed node = false := if_pos listed

theorem settles_of_regenerateLoop {left : ℕ} (sound : tree.toTreeState.Sound) (flagged : tree.Flagged)
    (ended : regenerateLoop k ctx rounds left tree = some next) : Settles tree.dag tree.toTreeState tree next := by
  induction left generalizing tree with
  | zero => cases ended
  | succ left ih =>
    obtain ⟨numbered, renumbered, ended⟩ := bind_eq_some_iff.mp ended
    obtain ⟨setTxnExclusions, -, ended⟩ := bind_eq_some_iff.mp ended
    obtain ⟨⟨failed, view⟩, -, ended⟩ := bind_eq_some_iff.mp ended
    have ordered := (ordered_of_renumberDag sound renumbered).1
    have same : numbered.toTreeState = tree.toTreeState ∧ numbered.expunged = tree.expunged ∧ numbered.Flagged := by
      obtain ⟨-, nSequenceId, rfl⟩ := ordered_of_renumberDag sound renumbered
      exact ⟨rfl, rfl, { flagged with }⟩
    obtain ⟨sameTree, record, flagged⟩ := same
    have heaps := congrArg TreeState.heap sameTree
    have sound : numbered.toTreeState.Sound := sameTree ▸ sound
    suffices Settles numbered.dag numbered.toTreeState numbered next by
      refine sameTree ▸ this.of_relinked (fun node => ?_) (fun node => ?_) record
      · rw [heaps]
        exact ⟨rfl, rfl⟩
      · rw [heaps]
    cases failed with
    | none =>
      cases ended
      refine ⟨⟨sound, { ordered with }, ?_, { flagged with }⟩, fun _ => ⟨rfl, rfl⟩, fun _ => rfl,
        .refl _ numbered, .refl⟩
      refine ordered.processed_selected sound (fun node listed flag => ?_) fun node listed => if_pos listed
      by_contra outside
      have flag := (if_neg outside).symm.trans flag
      cases (fProcessed_cleared ctx listed).symm.trans flag
    | some badTxid =>
      dsimp only at ended
      split_ifs at ended
      · cases ended
        refine ⟨⟨sound, { ordered with }, ?_, { flagged with }⟩, fun _ => ⟨rfl, rfl⟩, fun _ => rfl, .refl _ numbered,
          .refl⟩
        refine ordered.processed_selected sound (fun node listed flag => (?_ : node ∈ take 0 _)) (by simp)
        cases (fProcessed_cleared ctx listed).symm.trans flag
      · obtain ⟨trimmed, removed, ended⟩ := bind_eq_some_iff.mp ended
        have trims : Trims { numbered.cleared ctx with view } trimmed := trims_removeBadSubblocks sound removed
        have settles := ih trims.sound (trims.flagged { flagged with }) ended
        exact (settles.of_trims trims).of_relinked (fun _ => ⟨rfl, rfl⟩) (fun _ => rfl) rfl

theorem Kept.reGenerateDagData (kept : tree.Kept) (ended : tree.reGenerateDagData k ctx rounds = some next) :
    Settles tree.dag tree.toTreeState tree next := by
  rw [TailstormTree.reGenerateDagData] at ended
  cases listed : tree.dagNodes with
  | nil =>
    rw [listed] at ended
    exact Option.some.inj ended ▸ kept.settles
  | cons treenode rest =>
    rw [listed] at ended
    dsimp only at ended
    split_ifs at ended
    · exact settles_of_regenerateLoop kept.sound kept.flagged ended
    · exact Option.some.inj ended ▸ kept.settles

/-! ## Appending -/

theorem Admits.withView (admits : tree.Admits newNode next) (view : ν) : tree.Admits newNode { next with view } := by
  obtain ⟨⟨sound, ordered, processed, flagged⟩, localSpends, nSequenceId, _, rfl⟩ := admits
  exact ⟨⟨sound, { ordered with }, processed, { flagged with }⟩, localSpends, nSequenceId, view, rfl⟩

/-- The dag with one more subblock. -/
def dagWith (tree : TailstormTree ν) (newNode : CTreeNodeRef) : AList fun _ : Uint256 => CTreeNodeRef :=
  tree.dag.insert (tree.heap newNode).hash newNode

theorem Admits.settles (admits : tree.Admits newNode linked) (settles : Settles linked.dag start linked next) :
    Settles (tree.dagWith newNode) start tree next := by
  obtain ⟨-, localSpends, nSequenceId, view, rfl⟩ := admits
  exact settles.of_relinked (fun _ => ⟨rfl, rfl⟩) (fun _ => rfl) rfl

theorem expunged_addSubblockOrphan (tree : TailstormTree ν) (newNode : CTreeNodeRef) :
    (tree.addSubblockOrphan newNode).expunged = tree.expunged := by
  rw [TailstormTree.addSubblockOrphan]
  split_ifs <;> rfl

section

variable (tried : tree.Tried newNode)

include tried

theorem Tried.settles_withdrawn {withdrawn : TailstormTree ν} (admits : tree.Admits newNode next)
    (same : ∀ node ∈ tree.dagNodes, next.nSequenceId node = tree.nSequenceId node)
    (removed : removeFromGrove rounds next newNode = some withdrawn) :
    Settles next.dag next.toTreeState next withdrawn := by
  have linked : next.Linked newNode := by
    obtain ⟨-, localSpends, nSequenceId, view, rfl⟩ := admits
    exact (linked_admit_iff tried.attempted.fresh).mpr (.inr rfl)
  have trims := trims_removeFromGrove admits.kept.sound linked removed
  refine ⟨⟨trims.sound, ⟨?_, fun {parent child} linked above => ?_⟩, trims.processed admits.kept.processed,
    trims.flagged admits.kept.flagged⟩, trims.same, trims.fUncle, trims.records, trims.run⟩
  · have dag : withdrawn.dag = tree.dag := by
      have childless : (next.heap newNode).setDescendants = ∅ := by
        obtain ⟨-, localSpends, nSequenceId, view, rfl⟩ := admits
        exact tried.attempted.pending.childless
      rw [removeFromGrove_of_childless childless removed]
      obtain ⟨-, localSpends, nSequenceId, view, rfl⟩ := admits
      exact AList.erase_insert_of_notMem tried.attempted.fresh newNode
    have numbers := map_congr_left same
    rw [dagNodes, dag, trims.nSequenceId, ← dagNodes, numbers]
    exact tried.ordered.dense
  · rw [trims.nSequenceId]
    exact admits.kept.ordered.parents_lt (trims.linked linked) (trims.ancestors child above)

theorem Tried.settles_appendSubblock {appended : TailstormTree ν} {setTxnExclusions : Finset Uint256}
    (admits : tree.Admits newNode next) (room : ¬ tree.selectionSize k ≤ tree.dag.keys.length)
    (append : tree.isAppend k next newNode = true)
    (ended : next.appendSubblock ctx rounds newNode setTxnExclusions = some appended) :
    Settles next.dag next.toTreeState next appended := by
  rw [isAppend, Bool.and_eq_true, Bool.and_eq_true, Bool.not_eq_true', List.all_eq_true] at append
  obtain ⟨⟨consistent, -⟩, same⟩ := append
  simp only [decide_eq_true_eq] at same
  obtain ⟨⟨failed, view⟩, -, ended⟩ := bind_eq_some_iff.mp ended
  cases failed with
  | some badTxid =>
    have settles := tried.settles_withdrawn (admits.withView view) same ended
    exact settles.of_relinked (fun _ => ⟨rfl, rfl⟩) (fun _ => rfl) rfl
  | none =>
    cases ended
    obtain ⟨sound, ordered, processed, flagged⟩ := admits.kept
    refine ⟨⟨sound, { ordered with }, fun parent child linked above flag => ?_, { flagged with }⟩, fun _ => ⟨rfl, rfl⟩,
      fun _ => rfl, .refl _ next, .refl⟩
    obtain ⟨-, localSpends, nSequenceId, _, rfl⟩ := admits
    have linkedParent := (tried.attempted.pending.linked above).1
    have different := tried.ne_of_linked linkedParent
    change update (update tree.fProcessed newNode false) newNode true parent = true
    rw [update_of_ne different, update_of_ne different]
    -- the view of a consistent tree embodies all nodes as long as the selection is not full
    have listed := tried.mem_dagNodes.mpr linkedParent
    have low := (tried.ordered.pos_and_le listed).2
    rw [needsRegeneration, List.any_eq_false] at consistent
    have embodied := consistent parent listed
    simp only [bne_iff_ne, not_not] at embodied
    rw [embodied, decide_eq_true_eq]
    omega

/-! ## Insertion -/

theorem Tried.insert (block : (tree.heap newNode).subblock = some subblock)
    (ended : tree.insert k ctx rounds newNode = some (added, next)) :
    added = false ∧ next = tree ∨ added = true ∧ ∃ start,
      tree.toTreeState.checkUpdateAncestryInsertIntoDag rounds newNode = some (true, start) ∧
        Settles (tree.dagWith newNode) start tree next := by
  rw [TailstormTree.insert] at ended
  cases root : tree.pindexSummaryRoot with
  | none =>
    rw [root] at ended
    cases ended
    exact .inl ⟨rfl, rfl⟩
  | some pindexSummaryRoot =>
    rw [root] at ended
    dsimp only at ended
    split_ifs at ended with known deep parked
    · exact absurd known tried.attempted.fresh
    · cases ended
      exact .inl ⟨rfl, rfl⟩
    · refine (tried.admits block ended).imp_right (And.imp_right fun ⟨admits, checked⟩ => ?_)
      exact ⟨_, checked, admits.settles admits.kept.settles⟩
    · obtain ⟨⟨admitted, linked⟩, checked, ended⟩ := bind_eq_some_iff.mp ended
      rcases tried.admits block checked with ⟨rfl, rfl⟩ | ⟨rfl, admits, checked⟩
      · cases ended
        exact .inl ⟨rfl, rfl⟩
      · obtain ⟨applied, application, ⟨⟩⟩ := bind_eq_some_iff.mp ended
        refine .inr ⟨rfl, _, checked, admits.settles ?_⟩
        rw [TailstormTree.applyAdmitted] at application
        split_ifs at application with moved beyond
        · exact admits.kept.reGenerateDagData application
        · cases application
          exact admits.kept.settles
        · obtain ⟨setTxnExclusions, -, application⟩ := bind_eq_some_iff.mp application
          split_ifs at application
          · exact admits.kept.reGenerateDagData application
          · rw [Bool.not_eq_true', Bool.not_eq_false] at moved
            exact tried.settles_appendSubblock admits (fun full => parked (.inr full)) moved application

theorem Tried.addSubblockOrphan :
    Settles tree.dag (tree.toTreeState.addSubblockOrphan newNode) tree (tree.addSubblockOrphan newNode) := by
  have fresh := tried.attempted.fresh
  have sound := tried.attempted.addSubblockOrphan
  have same := tree.toTreeState.sameNodes_unlinkNode newNode
  rw [TreeState.addSubblockOrphan, if_neg fresh] at sound ⊢
  rw [TailstormTree.addSubblockOrphan, if_neg fresh]
  refine ⟨⟨sound, ⟨tried.ordered.dense, fun {parent child} linked above => ?_⟩,
    fun parent child linked above flag => ?_,
    fun {hash uncle} found => ?_, fun {node} linked => ?_⟩, same, fUncle_unlinkNode _ newNode, .refl _ tree, .refl⟩
  · have linked := (linked_relink_iff same).mp linked
    exact tried.ordered.parents_lt linked ((mem_setAncestors_unlinkNode ..).mp above).2
  · have linked := (linked_relink_iff same).mp linked
    have above := ((mem_setAncestors_unlinkNode ..).mp above).2
    change update tree.fProcessed newNode false child = true at flag
    change update tree.fProcessed newNode false parent = true
    rw [update_of_ne (tried.ne_of_linked linked)] at flag
    rw [update_of_ne (tried.ne_of_above above)]
    exact tried.processed parent child linked above flag
  · rw [(same uncle).1, fUncle_unlinkNode]
    exact tried.flagged.uncle found
  · exact (fUncle_unlinkNode ..).trans (tried.flagged.regular ((linked_relink_iff same).mp linked))

theorem Tried.insertLinked (block : (tree.heap newNode).subblock = some subblock)
    (ended : tree.insertLinked k ctx rounds newNode = some (added, next)) :
    (∃ start, (start = tree.toTreeState.addSubblockOrphan newNode ∨
        tree.toTreeState.checkUpdateAncestryInsertIntoDag rounds newNode = some (true, start)) ∧
      Settles (bif added then tree.dagWith newNode else tree.dag) start tree next) ∧
      (added = false → next.expunged = tree.expunged) := by
  obtain ⟨⟨inserted, after⟩, insertion, finished⟩ := bind_eq_some_iff.mp ended
  rcases tried.insert block insertion with ⟨rfl, rfl⟩ | ⟨rfl, start, checked, settles⟩
  · cases finished
    exact ⟨⟨_, .inl rfl, tried.addSubblockOrphan⟩, fun _ => expunged_addSubblockOrphan ..⟩
  · cases finished
    exact ⟨⟨start, .inr checked, settles⟩, nofun⟩

end

theorem fUncle_linkNode (tree : TreeState) (newNode : CTreeNodeRef) (setPrevNodes : Finset CTreeNodeRef)
    (node : CTreeNodeRef) : ((tree.linkNode newNode setPrevNodes).heap node).fUncle = (tree.heap node).fUncle := by
  by_cases self : node = newNode
  · subst self
    simp only [linkNode, update_self]
    split_ifs <;> rfl
  · simp only [linkNode, update_of_ne self]
    split_ifs <;> rfl

theorem linkNode_empty (tree : TreeState) (newNode : CTreeNodeRef) : tree.linkNode newNode ∅ = tree := by
  simp [linkNode]

theorem Settles.of_begins {setPrevNodes : Finset CTreeNodeRef} {dag : AList fun _ : Uint256 => CTreeNodeRef}
    (settles : Settles dag start tree next) (block : (tree.heap newNode).subblock = some subblock)
    (fresh : (tree.heap newNode).hash ∉ tree.dag) (found : tree.prevNodes subblock = some setPrevNodes)
    (begins : start = (tree.toTreeState.linkNode newNode setPrevNodes).addSubblockOrphan newNode ∨
      (tree.toTreeState.linkNode newNode setPrevNodes).checkUpdateAncestryInsertIntoDag rounds newNode =
        some (true, start)) : Settles dag tree.toTreeState tree next := by
  refine { settles with run := ?_ }
  rcases begins with rfl | checked
  · refine .head ⟨rounds, .insert newNode true, ?_⟩ settles.run
    simp only [TreeState.step, TreeState.insertIntoTree, block, if_neg fresh, found]
    rfl
  · refine .head ⟨rounds, .insert newNode false, ?_⟩ settles.run
    simp only [TreeState.step, TreeState.insertIntoTree, block, if_neg fresh, found, checked]
    rfl

section

variable (kept : tree.Kept) (fresh : (tree.heap newNode).hash ∉ tree.dag) (regular : (tree.heap newNode).fUncle = false)

include kept fresh regular

theorem Kept.tried : tree.Tried newNode :=
  ⟨kept.sound.attempted fresh, kept.ordered, kept.processed, kept.flagged, regular⟩

theorem Kept.linkNode {setPrevNodes : Finset CTreeNodeRef} (found : tree.prevNodes subblock = some setPrevNodes) :
    Tried { tree with toTreeState := tree.toTreeState.linkNode newNode setPrevNodes } newNode := by
  have same := tree.toTreeState.sameNodes_linkNode newNode setPrevNodes
  have unlinked := not_linked fresh
  have old {parent child : CTreeNodeRef} (linked : tree.Linked child)
      (above : parent ∈ ((tree.toTreeState.linkNode newNode setPrevNodes).heap child).setAncestors) :
      parent ∈ (tree.heap child).setAncestors :=
    ((mem_setAncestors_linkNode ..).mp above).resolve_right fun new => unlinked (new.1 ▸ linked)
  refine ⟨kept.sound.linkNode fresh found, ⟨kept.ordered.dense, fun {parent child} linked above => ?_⟩,
    fun parent child linked above flag => ?_, ⟨fun {hash uncle} found => ?_, fun {node} linked => ?_⟩, ?_⟩
  · have linked := (linked_relink_iff same).mp linked
    exact kept.ordered.parents_lt linked (old linked above)
  · have linked := (linked_relink_iff same).mp linked
    exact kept.processed parent child linked (old linked above) flag
  · rw [(same uncle).1, fUncle_linkNode]
    exact kept.flagged.uncle found
  · exact (fUncle_linkNode ..).trans (kept.flagged.regular ((linked_relink_iff same).mp linked))
  · exact (fUncle_linkNode ..).trans regular

theorem Kept.settles_insertIntoTree (ended : tree.insertIntoTree k ctx rounds newNode = some (added, next)) :
    Settles (bif added then tree.dagWith newNode else tree.dag) tree.toTreeState tree next ∧
      (added = false → next.expunged = tree.expunged) := by
  rw [TailstormTree.insertIntoTree] at ended
  cases block : (tree.heap newNode).subblock with
  | none =>
    rw [block] at ended
    cases ended
    exact ⟨kept.settles, fun _ => rfl⟩
  | some subblock =>
    rw [block] at ended
    dsimp only at ended
    split_ifs at ended with base
    · obtain ⟨initialized, rooted, ended⟩ := bind_eq_some_iff.mp ended
      have found : tree.prevNodes subblock = some ∅ := if_pos base
      rw [initializeTree] at rooted
      split_ifs at rooted
      · obtain ⟨pindex, -, rfl⟩ := map_eq_some_iff.mp rooted
        obtain ⟨attempted, ordered, processed, flagged, regular⟩ := kept.tried fresh regular
        have tried : Tried { tree with pindexSummaryRoot := some pindex } newNode :=
          ⟨attempted, { ordered with }, processed, { flagged with }, regular⟩
        obtain ⟨⟨start, begins, settles⟩, record⟩ := tried.insertLinked block ended
        rw [← linkNode_empty tree.toTreeState newNode] at begins
        refine ⟨Settles.of_begins ?_ block fresh found begins, record⟩
        exact settles.of_relinked (fun _ => ⟨rfl, rfl⟩) (fun _ => rfl) rfl
      · cases rooted
        obtain ⟨⟨start, begins, settles⟩, record⟩ := (kept.tried fresh regular).insertLinked block ended
        rw [← linkNode_empty tree.toTreeState newNode] at begins
        exact ⟨settles.of_begins block fresh found begins, record⟩
    · cases found : tree.prevNodes subblock with
      | none =>
        rw [found] at ended
        cases ended
        obtain ⟨kept, same, fUncle, records, run⟩ := (kept.tried fresh regular).addSubblockOrphan
        refine ⟨⟨kept, same, fUncle, records, .head ⟨rounds, .insert newNode false, ?_⟩ run⟩,
          fun _ => expunged_addSubblockOrphan ..⟩
        simp only [TreeState.step, TreeState.insertIntoTree, block, if_neg fresh, found]
      | some setPrevNodes =>
        rw [found] at ended
        have same := tree.toTreeState.sameNodes_linkNode newNode setPrevNodes
        obtain ⟨⟨start, begins, settles⟩, record⟩ :=
          (kept.linkNode fresh regular found).insertLinked ((same newNode).2.trans block) ended
        rw [dagWith, (same newNode).1] at settles
        have relinked := settles.of_relinked same (fUncle_linkNode _ newNode setPrevNodes) rfl
        exact ⟨relinked.of_begins block fresh found begins, record⟩

end

theorem Kept.insertIntoTree (kept : tree.Kept) (regular : (tree.heap newNode).fUncle = false)
    (ended : tree.insertIntoTree k ctx rounds newNode = some (added, next)) :
    next.Kept ∧ DagRun tree.toTreeState next.toTreeState := by
  by_cases known : (tree.heap newNode).hash ∈ tree.dag
  · rw [TailstormTree.insertIntoTree] at ended
    split at ended
    · cases ended
      exact ⟨kept, .refl⟩
    · rw [if_pos known] at ended
      cases ended
      exact ⟨kept, .refl⟩
  · have settles := (kept.settles_insertIntoTree known regular ended).1
    exact ⟨settles.kept, settles.run⟩

/-! ## Uncles and removal -/

theorem Kept.addUncles (kept : tree.Kept) {uncles : List CTreeNodeRef}
    (marked : ∀ uncle ∈ uncles, (tree.heap uncle).fUncle = true) :
    Settles tree.dag tree.toTreeState tree (tree.addUncles uncles) := by
  rw [TailstormTree.addUncles]
  induction uncles generalizing tree with
  | nil => exact kept.settles
  | cons first uncles ih =>
    obtain ⟨firstMarked, marked⟩ := forall_mem_cons.mp marked
    rw [foldl_cons]
    split_ifs with known
    · exact ih kept marked
    · obtain ⟨sound, ordered, processed, flagged⟩ := kept
      have keptFirst : Kept { tree with mapUncles := tree.mapUncles.insert (tree.heap first).hash first } := by
        refine ⟨sound, { ordered with }, processed, fun {hash uncle} found => ?_, flagged.regular⟩
        rw [AList.lookup_insert_eq_ite] at found
        split_ifs at found with same
        · cases found
          exact ⟨same.symm, firstMarked⟩
        · exact flagged.uncle found
      exact (ih keptFirst marked).of_relinked (fun _ => ⟨rfl, rfl⟩) (fun _ => rfl) rfl

theorem expunged_addUncles (tree : TailstormTree ν) (uncles : List CTreeNodeRef) :
    (tree.addUncles uncles).expunged = tree.expunged := by
  rw [TailstormTree.addUncles]
  induction uncles generalizing tree with
  | nil => rfl
  | cons first uncles ih =>
    rw [foldl_cons, ih]
    split_ifs <;> rfl

theorem Kept.settles_removeFromGrove (kept : tree.Kept) (linked : tree.Linked node)
    (removed : removeFromGrove rounds tree node = some left) (renumbered : left.renumberDag rounds = some next) :
    Settles tree.dag tree.toTreeState tree next := by
  have trims := trims_removeFromGrove kept.sound linked removed
  have processed := trims.processed kept.processed
  have flagged := trims.flagged kept.flagged
  obtain ⟨ordered, nSequenceId, rfl⟩ := ordered_of_renumberDag trims.sound renumbered
  exact ⟨⟨trims.sound, ordered, processed, { flagged with }⟩, trims.same, trims.fUncle, trims.records, trims.run⟩

theorem Kept.removeFromGrove_of_notMem (kept : tree.Kept) (absent : (tree.heap node).hash ∉ tree.dag)
    (removed : removeFromGrove rounds tree node = some left) :
    left = { tree with
      mapUncles := tree.mapUncles.erase (tree.heap node).hash
      expunged := (tree.heap node).hash :: tree.expunged } := by
  obtain ⟨parentless, childless⟩ := kept.sound.links.bare (not_linked absent)
  have registry : tree.conflictRegistry.unlink tree.heap node = tree.conflictRegistry :=
    if_pos (mt kept.sound.indexed.mem_indexed.mp absent)
  have links : (tree.expunge node).toTreeState.unlinkNode node = (tree.expunge node).toTreeState :=
    unlinkNode_of_bare ⟨parentless, childless⟩
  rw [removeFromGrove_of_childless childless removed, links, expunge, TreeState.expunge, registry,
    AList.erase_of_notMem absent]

theorem Kept.kept_removeFromGrove_of_notMem (kept : tree.Kept) (absent : (tree.heap node).hash ∉ tree.dag)
    (removed : removeFromGrove rounds tree node = some left) (renumbered : left.renumberDag rounds = some next) :
    next.Kept ∧ next.toTreeState = tree.toTreeState ∧ next.expunged = (tree.heap node).hash :: tree.expunged := by
  have flagged : left.Flagged ∧ left.toTreeState = tree.toTreeState ∧ left.fProcessed = tree.fProcessed ∧
      left.expunged = (tree.heap node).hash :: tree.expunged := by
    rw [kept.removeFromGrove_of_notMem absent removed]
    refine ⟨⟨fun {hash uncle} found => ?_, kept.flagged.regular⟩, rfl, rfl, rfl⟩
    rw [AList.lookup_erase_eq_ite] at found
    split_ifs at found
    exact kept.flagged.uncle found
  obtain ⟨flagged, sameTree, sameFlags, record⟩ := flagged
  have processed : left.ProcessedFirst := by
    intro parent child linked above flag
    rw [sameTree] at linked above
    rw [sameFlags] at flag ⊢
    exact kept.processed parent child linked above flag
  obtain ⟨ordered, nSequenceId, rfl⟩ := ordered_of_renumberDag (sameTree ▸ kept.sound) renumbered
  exact ⟨⟨sameTree ▸ kept.sound, ordered, processed, { flagged with }⟩, sameTree, record⟩

theorem Kept.remove {hash : Uint256} (kept : tree.Kept) (ended : tree.remove rounds hash = some next) :
    next.Kept ∧ DagRun tree.toTreeState next.toTreeState := by
  rw [TailstormTree.remove] at ended
  cases found : tree.dag.lookup hash with
  | none =>
    rw [found] at ended
    cases ended
    exact ⟨kept, .refl⟩
  | some node =>
    rw [found] at ended
    obtain ⟨left, removed, renumbered⟩ := bind_eq_some_iff.mp ended
    have settles := kept.settles_removeFromGrove (kept.sound.linked_of_lookup found) removed renumbered
    exact ⟨settles.kept, settles.run⟩

end TailstormTree

end Nexa
