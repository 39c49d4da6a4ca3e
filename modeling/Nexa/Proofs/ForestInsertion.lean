import Nexa.Proofs.ForestGroves

/-! # Inserting subblocks into a consistent forest

A subblock that `_Insert` is given becomes a member of one grove or an orphan. Between the start and the
end of the insertion it is one of the waiting nodes.
-/

namespace Nexa.CTailstormForest

open Option AList List

variable {ν : Type} {memory : NodeMemory} {k : TailstormK} {ctx : ForestContext ν memory} {rounds : ℕ}
  {forest next : CTailstormForest ν} {waiting : Set CTreeNodeRef} {linking : Set Uint256} {grove : GroveRef}
  {node newNode : CTreeNodeRef} {hash : Uint256} {added : Bool}

/-! ## Finding groves -/

theorem getGrove_of_lookup (found : forest.mapAllGrovesByNode.lookup hash = some grove) :
    forest.getGrove hash = some grove := by
  rw [getGrove, found]

theorem hasGrove_of_getGrove (found : forest.getGrove hash = some grove) : forest.HasGrove grove := by
  rw [getGrove] at found
  cases owned : forest.mapAllGrovesByNode.lookup hash with
  | some owner =>
    rw [owned] at found
    exact Option.some.inj found ▸ ⟨hash, owned⟩
  | none =>
    rw [owned] at found
    exact (mem_inKeyOrder _).mp (mem_of_find?_eq_some found)

theorem not_hasGrove_freshGrove (forest : CTailstormForest ν) : ¬ forest.HasGrove forest.freshGrove := by
  intro ⟨hash, found⟩
  have listed : forest.freshGrove ∈ inKeyOrder forest.mapAllGrovesByNode := (mem_inKeyOrder _).mpr ⟨hash, found⟩
  exact Nat.not_succ_le_self _ (le_max_of_le' 0 listed le_rfl)

/-! ## Orphans -/

section

variable (consistent : forest.Consistent memory waiting linking)

include consistent

theorem Consistent.parkOrphan (known : forest.mapAllNodes.lookup (memory.hash node) = some node)
    (free : forest.mapAllGrovesByNode.lookup (memory.hash node) = none) :
    (forest.parkOrphan (memory.hash node) node).Consistent memory waiting linking ∧
      (forest.parkOrphan (memory.hash node) node).mapNodesUnlinked.lookup (memory.hash node) = some node := by
  refine ⟨⟨consistent.accounted.park known free, fun {grove} live => ?_, consistent.regular⟩, ?_⟩
  · obtain ⟨hash, found⟩ := live
    change (forest.mapAllGrovesByNode.erase _).lookup hash = some grove at found
    rw [lookup_erase_eq_ite] at found
    split_ifs at found
    exact consistent.groves ⟨hash, found⟩
  · change (forest.mapNodesUnlinked.emplace _ node).lookup _ = some node
    rw [lookup_emplace]
    split_ifs with absent
    · rfl
    · obtain ⟨other, parked⟩ := ne_none_iff_exists'.mp fun none => absent ⟨rfl, none⟩
      rw [parked, ← consistent.accounted.loose parked]
      exact known

theorem Consistent.addSubblockOrphan (known : forest.mapAllNodes.lookup (memory.hash node) = some node) :
    (forest.addSubblockOrphan memory node).Consistent memory waiting linking ∧
      (forest.mapAllGrovesByNode.lookup (memory.hash node) = none →
        (forest.addSubblockOrphan memory node).mapNodesUnlinked.lookup (memory.hash node) = some node) := by
  rw [CTailstormForest.addSubblockOrphan, ← NodeMemory.hash]
  cases owned : forest.mapAllGrovesByNode.lookup (memory.hash node) with
  | some grove =>
    have listed : memory.hash node ∈ (forest.groves grove).tree.dag := by
      obtain ⟨member, found, -⟩ := consistent.accounted.owned owned
      have sameNodes := (consistent.groves ⟨_, owned⟩).nodes (memory.hash node)
      exact lookup_isSome.mp (isSome_of_eq_some (sameNodes.symm.trans found))
    rw [getGrove_of_lookup owned]
    dsimp only
    rw [if_pos listed]
    exact ⟨consistent, nofun⟩
  | none =>
    cases found : forest.getGrove (memory.hash node) with
    | none => exact (consistent.parkOrphan known owned).imp_right fun parked _ => parked
    | some grove =>
      have live := hasGrove_of_getGrove found
      have absent := consistent.notMem_dag live owned
      dsimp only
      rw [if_neg absent]
      have changed : (forest.setTree grove ((forest.groves grove).tree.addSubblockOrphan node)).Consistent memory
          waiting linking :=
        consistent.setGrove rfl fun live =>
          (consistent.groves live).addSubblockOrphan absent (consistent.regular known).1
      exact (changed.parkOrphan known owned).imp_right fun parked _ => parked

/-! ## Uncles -/

theorem Consistent.addUncles (own : GroveRef) :
    (forest.setTree grove ((forest.groves grove).tree.addUncles (ctx.getUncles forest own))).Consistent memory
      waiting linking :=
  consistent.setGrove rfl fun live => (consistent.groves live).addUncles (ctx.marked forest own)

theorem Consistent.reGenerateDagData (live : forest.HasGrove grove)
    (ended : forest.reGenerateDagData k ctx rounds grove = some next) :
    next.Consistent memory waiting linking ∧ ∀ other, other ≠ grove → forest.HasGrove other → next.HasGrove other := by
  obtain ⟨after, regenerated, ended⟩ := bind_eq_some_iff.mp ended
  obtain rfl := Option.some.inj ended
  have settles := (consistent.groves live).tree.reGenerateDagData regenerated
  exact ⟨consistent.settle live settles, fun other different => consistent.hasGrove_settle live settles different⟩

theorem Consistent.pushUnclesTo (live : forest.HasGrove grove)
    (ended : forest.pushUnclesTo k ctx rounds grove = some next) :
    next.Consistent memory waiting linking ∧ ∀ other, other ≠ grove → forest.HasGrove other → next.HasGrove other := by
  have pushed : (forest.setTree grove ((forest.groves grove).tree.addUncles (ctx.getUncles forest grove))).Consistent
      memory waiting linking := consistent.addUncles grove
  rw [CTailstormForest.pushUnclesTo] at ended
  split_ifs at ended
  · exact pushed.reGenerateDagData live ended
  · cases ended
    exact ⟨pushed, fun _ _ alive => alive⟩

theorem Consistent.pushUncles_foldlM {targets : List GroveRef} (distinct : targets.Nodup)
    (live : ∀ grove ∈ targets, forest.HasGrove grove)
    (ended : targets.foldlM (CTailstormForest.pushUnclesTo k ctx rounds) forest = some next) :
    next.Consistent memory waiting linking := by
  induction targets generalizing forest with
  | nil => exact Option.some.inj ended ▸ consistent
  | cons grove targets ih =>
    obtain ⟨between, first, ended⟩ := bind_eq_some_iff.mp ended
    obtain ⟨fresh, distinct⟩ := nodup_cons.mp distinct
    obtain ⟨alive, live⟩ := forall_mem_cons.mp live
    obtain ⟨consistent, others⟩ := consistent.pushUnclesTo alive first
    refine ih consistent distinct (fun other listed => ?_) ended
    exact others other (fun same => fresh (same ▸ listed)) (live other listed)

theorem Consistent.pushUncles (ended : forest.pushUncles k ctx rounds node = some next) :
    next.Consistent memory waiting linking := by
  rw [CTailstormForest.pushUncles] at ended
  split_ifs at ended
  · refine consistent.pushUncles_foldlM ?_ (fun grove listed => ?_) ended
    · exact ((perm_insertionSort _ _).nodup_iff.mpr (nodup_dedup _)).filter _
    · have potential := (perm_insertionSort _ _).mem_iff.mp (mem_of_mem_filter listed)
      obtain ⟨node, -, found⟩ := mem_filterMap.mp (mem_dedup.mp potential)
      exact hasGrove_of_getGrove found
  · exact Option.some.inj ended ▸ consistent

theorem Consistent.updateUncles (ended : forest.updateUncles k ctx rounds grove node = some next) :
    next.Consistent memory waiting linking := by
  rw [CTailstormForest.updateUncles] at ended
  split at ended
  · exact consistent.pushUncles ended
  · exact (consistent.addUncles _).pushUncles ended

/-! ## Insertion into a grove -/

theorem Consistent.parkOrphan_assign (known : forest.mapAllNodes.lookup (memory.hash node) = some node)
    (free : forest.mapAllGrovesByNode.lookup (memory.hash node) = none) (grove : GroveRef) :
    ((forest.assign (memory.hash node) grove).parkOrphan (memory.hash node) node).Consistent memory waiting
      linking := by
  have absent := lookup_eq_none.mp free
  have parked := (consistent.parkOrphan known free).1
  rw [CTailstormForest.parkOrphan, erase_of_notMem absent] at parked
  rw [CTailstormForest.parkOrphan, assign]
  rwa [erase_insert_of_notMem absent]

end

theorem rooted_eq (grove : CTailstormGrove ν) (subblock : DagSubblock) :
    ∃ roothash, grove.rooted subblock = { grove with roothash } := by
  rw [CTailstormGrove.rooted]
  split_ifs
  · exact ⟨_, rfl⟩
  · exact ⟨grove.roothash, rfl⟩

theorem Consistent.insertIntoTree (consistent : forest.Consistent memory waiting ∅)
    (known : forest.mapAllNodes.lookup (memory.hash node) = some node)
    (free : forest.mapAllGrovesByNode.lookup (memory.hash node) = none) (kept : (forest.groves grove).Kept memory)
    (mine : forest.HasGrove grove ∨ (forest.groves grove).mapGroveNodes = ∅)
    (ended : (forest.assign (memory.hash node) grove).insertIntoTree k ctx rounds grove node = some (added, next)) :
    next.Consistent memory (bif added then waiting \ {node} else waiting)
      (bif added then {memory.hash node} else ∅) := by
  have absent : memory.hash node ∉ (forest.groves grove).mapGroveNodes := by
    rcases mine with live | none
    · intro listed
      obtain ⟨member, found⟩ := isSome_iff_exists.mp (lookup_isSome.mpr listed)
      cases free.symm.trans (consistent.accounted.member live found)
    · rw [none]
      exact notMem_empty _
  have unlisted : memory.hash node ∉ (forest.groves grove).tree.dag := by
    rwa [← lookup_eq_none, ← kept.nodes, lookup_eq_none]
  obtain ⟨regular, hasBlock⟩ := consistent.regular known
  obtain ⟨subblock, block⟩ := isSome_iff_exists.mp hasBlock
  rw [CTailstormForest.insertIntoTree, block, ← NodeMemory.hash] at ended
  dsimp only [assign] at ended
  rw [if_neg unlisted, if_neg absent] at ended
  obtain ⟨⟨taken, after⟩, inserted, ended⟩ := bind_eq_some_iff.mp ended
  obtain ⟨settles, record⟩ := kept.tree.settles_insertIntoTree ((kept.same node).1.symm ▸ unlisted)
    ((kept.fUncle node).trans regular) inserted
  obtain ⟨roothash, rooted⟩ := rooted_eq _ subblock
  rw [rooted] at ended
  cases taken with
  | true =>
    obtain ⟨uncled, updated, ⟨⟩⟩ := bind_eq_some_iff.mp ended
    exact (consistent.enroll known free kept mine settles).updateUncles updated
  | false =>
    have changed : (forest.setGrove grove { forest.groves grove with roothash, tree := after }).Consistent memory
        waiting ∅ := consistent.setGrove rfl fun _ => kept.withTree settles ((record rfl).trans kept.clean) roothash
    have parked := changed.parkOrphan_assign known free grove
    rw [if_neg Bool.false_ne_true] at ended
    split_ifs at ended
    · cases ended
      exact parked
    · obtain ⟨uncled, updated, ⟨⟩⟩ := bind_eq_some_iff.mp ended
      exact parked.updateUncles updated

theorem Consistent.freshGrove (consistent : forest.Consistent memory waiting linking) (changed : CTailstormGrove ν) :
    (forest.setGrove forest.freshGrove changed).Consistent memory waiting linking := by
  have dead := not_hasGrove_freshGrove forest
  have untouched {other : GroveRef} (live : forest.HasGrove other) :
      (forest.setGrove forest.freshGrove changed).groves other = forest.groves other :=
    groves_setGrove_of_ne fun same => dead (same ▸ live)
  refine ⟨consistent.accounted.withMembers fun other live => ?_, fun {other} live => ?_, consistent.regular⟩
  · exact congrArg CTailstormGrove.mapGroveNodes (untouched live)
  · rw [untouched live]
    exact consistent.groves live

theorem kept_newGrove (memory : NodeMemory) (view : ν) :
    CTailstormGrove.Kept memory { tree := { heap := memory.heap, view } } := by
  refine ⟨TailstormTree.kept_of_bare memory.bare view, fun _ => rfl, fun _ => ⟨rfl, rfl⟩, fun _ => rfl, rfl⟩

theorem Consistent.insertIntoGrove {pindex : SummaryIndex} (consistent : forest.Consistent memory waiting ∅)
    (known : forest.mapAllNodes.lookup (memory.hash node) = some node)
    (ended : forest.insertIntoGrove k ctx rounds pindex node = some (added, next)) :
    next.Consistent memory (bif added then waiting \ {node} else waiting)
      (bif added then {memory.hash node} else ∅) := by
  rw [CTailstormForest.insertIntoGrove] at ended
  split_ifs at ended with owned
  · cases ended
    obtain ⟨grove, owned⟩ := isSome_iff_exists.mp (lookup_isSome.mpr owned)
    have accounted := consistent.accounted.link owned
    rw [insert_empty_eq] at accounted
    have away : node ∉ waiting := by
      intro waits
      cases (consistent.accounted.waitsApart waits).symm.trans owned
    rw [cond_true, Set.sdiff_singleton_eq_self away]
    exact ⟨accounted, consistent.groves, consistent.regular⟩
  · have free := lookup_eq_none.mpr owned
    cases found : forest.getGrove pindex.hash with
    | some grove =>
      rw [found] at ended
      have live := hasGrove_of_getGrove found
      exact consistent.insertIntoTree known free (consistent.groves live) (.inl live) ended
    | none =>
      rw [found] at ended
      have fresh := consistent.freshGrove { tree := { heap := memory.heap, view := ctx.newView } }
      have own : (forest.setGrove forest.freshGrove { tree := { heap := memory.heap, view := ctx.newView } }).groves
          forest.freshGrove = { tree := { heap := memory.heap, view := ctx.newView } } := groves_setGrove_self
      refine fresh.insertIntoTree known free ?_ (.inr ?_) ended
      · rw [own]
        exact kept_newGrove memory ctx.newView
      · rw [own]

/-! ## Insertion into the forest -/

theorem Consistent.removeSubblockOrphan (consistent : forest.Consistent memory waiting linking)
    (placed : forest.mapAllGrovesByNode.lookup hash = none → forest.mapAllNodes.lookup hash = none) :
    (forest.removeSubblockOrphan hash).Consistent memory waiting (linking \ {hash}) :=
  ⟨consistent.accounted.unpark placed, consistent.groves, consistent.regular⟩

section

variable (consistent : forest.Consistent memory waiting ∅)

include consistent

theorem Consistent.insertKnown {inserted : Bool} {subblock : DagSubblock} (waits : node ∈ waiting)
    (sameHash : memory.hash node = memory.hash newNode)
    (ended : forest.insertKnown k ctx rounds inserted newNode node subblock = some (added, next)) :
    next.Consistent memory (waiting \ {node}) ∅ ∧ (added = false → next.Consistent memory waiting ∅) ∨
      added = false ∧ next = (bif inserted then
        { forest with mapAllNodes := forest.mapAllNodes.erase (memory.hash newNode) } else forest) := by
  have park {forest : CTailstormForest ν} (consistent : forest.Consistent memory waiting ∅) :
      (forest.addSubblockOrphan memory node).Consistent memory (waiting \ {node}) ∅ ∧
        (false = false → (forest.addSubblockOrphan memory node).Consistent memory waiting ∅) := by
    obtain ⟨kept, parked⟩ := consistent.addSubblockOrphan (consistent.accounted.waits waits)
    have settled := kept.accounted.settle (parked (consistent.accounted.waitsApart waits))
    exact ⟨⟨settled, kept.groves, kept.regular⟩, fun _ => kept⟩
  rw [CTailstormForest.insertKnown, ← NodeMemory.hash] at ended
  split at ended
  · cases ended
    exact .inl (park consistent)
  · split_ifs at ended with linkable wrong new
    · cases ended
      exact .inl (park consistent)
    · cases ended
      exact .inr ⟨rfl, by rw [new, cond_true]⟩
    · cases ended
      exact .inr ⟨rfl, by rw [Bool.not_eq_true] at new; rw [new, cond_false]⟩
    · obtain ⟨⟨fOK, placed⟩, insertion, ended⟩ := bind_eq_some_iff.mp ended
      have settled := consistent.insertIntoGrove (consistent.accounted.waits waits) insertion
      cases fOK with
      | true =>
        cases ended
        have linked : placed.Consistent memory (waiting \ {node}) {memory.hash node} := settled
        have removed := linked.removeSubblockOrphan (linked.accounted.linked rfl)
        rw [sdiff_self, sameHash] at removed
        exact .inl ⟨removed, nofun⟩
      | false =>
        cases ended
        exact .inl (park settled)

theorem Consistent.insertKnown_of_owned {subblock : DagSubblock}
    (known : forest.mapAllNodes.lookup (memory.hash node) = some node)
    (owned : forest.mapAllGrovesByNode.lookup (memory.hash node) = some grove)
    (sameHash : memory.hash node = memory.hash newNode)
    (ended : forest.insertKnown k ctx rounds false newNode node subblock = some (added, next)) :
    next.Consistent memory waiting ∅ := by
  have parked := (consistent.addSubblockOrphan known).1
  rw [CTailstormForest.insertKnown] at ended
  split at ended
  · cases ended
    exact parked
  · split_ifs at ended with linkable wrong new
    · cases ended
      exact parked
    · cases new
    · cases ended
      exact consistent
    · have listed : (memory.heap node).hash ∈ forest.mapAllGrovesByNode := lookup_isSome.mp (isSome_of_eq_some owned)
      rw [CTailstormForest.insertIntoGrove] at ended
      rw [if_pos listed] at ended
      cases ended
      have removed := consistent.removeSubblockOrphan fun free => nomatch free.symm.trans owned
      rw [Set.empty_sdiff, sameHash] at removed
      exact removed

theorem Consistent.insert (regular : (memory.heap newNode).fUncle = false)
    (ended : forest.insert k ctx rounds newNode = some (added, next)) :
    next.Consistent memory (bif added then waiting \ {forest.knownNode memory newNode} else waiting) ∅ := by
  rw [CTailstormForest.insert] at ended
  cases block : (memory.heap newNode).subblock with
  | none =>
    rw [block] at ended
    cases ended
    exact consistent
  | some subblock =>
    rw [block, ← NodeMemory.hash] at ended
    dsimp only at ended
    cases found : forest.mapAllNodes.lookup (memory.hash newNode) with
    | none =>
      -- a new node waits while it is being inserted
      have absent := lookup_eq_none.mp found
      have self : forest.knownNode memory newNode = newNode := by rw [knownNode, ← NodeMemory.hash, found, getD_none]
      have away : newNode ∉ waiting := fun waits => by cases found.symm.trans (consistent.accounted.waits waits)
      rw [self, emplace, if_neg absent, decide_eq_true absent] at ended
      rw [self, Set.sdiff_singleton_eq_self away, Bool.cond_self]
      have entered : Consistent memory (Insert.insert newNode waiting) ∅
          { forest with mapAllNodes := forest.mapAllNodes.insert (memory.hash newNode) newNode } := by
        refine ⟨consistent.accounted.enter found, consistent.groves, fun {hash node} read => ?_⟩
        rw [lookup_insert_eq_ite] at read
        split_ifs at read
        · obtain rfl := Option.some.inj read
          exact ⟨regular, isSome_of_eq_some block⟩
        · exact consistent.regular read
      have rest := Set.insert_sdiff_self_of_notMem away
      rcases entered.insertKnown (Set.mem_insert ..) rfl ended with ⟨settled, -⟩ | ⟨-, dropped⟩
      · rwa [rest] at settled
      · rw [erase_insert_of_notMem absent] at dropped
        exact dropped ▸ consistent
    | some node =>
      have listed := lookup_isSome.mp (isSome_of_eq_some found)
      have known : forest.knownNode memory newNode = node := by rw [knownNode, ← NodeMemory.hash, found, getD_some]
      have sameHash := consistent.accounted.keyed found
      rw [known, emplace, if_pos listed, decide_eq_false (not_not_intro listed)] at ended
      rw [known]
      rw [← sameHash] at found
      cases owned : forest.mapAllGrovesByNode.lookup (memory.hash node) with
      | some grove =>
        have away : node ∉ waiting := fun waits => by cases (consistent.accounted.waitsApart waits).symm.trans owned
        rw [Set.sdiff_singleton_eq_self away, Bool.cond_self]
        exact consistent.insertKnown_of_owned found owned sameHash ended
      | none =>
        have awaited : forest.Consistent memory (Insert.insert node waiting) ∅ :=
          ⟨consistent.accounted.await found owned, consistent.groves, consistent.regular⟩
        rcases awaited.insertKnown (Set.mem_insert ..) sameHash ended with ⟨settled, kept⟩ | ⟨rfl, dropped⟩
        · by_cases waits : node ∈ waiting
          · rw [Set.insert_eq_of_mem waits] at settled kept
            cases added with
            | true => exact settled
            | false => exact kept rfl
          · rw [Set.insert_sdiff_self_of_notMem waits] at settled
            rwa [Set.sdiff_singleton_eq_self waits, Bool.cond_self]
        · exact dropped ▸ consistent

end

end Nexa.CTailstormForest
