import Nexa.Model.Tailstorm.Forest
import Nexa.Proofs.TreeInsertion
import Nexa.ToMathlib.Registry

/-! # The groves of a consistent forest

The maps of a forest are a registry: all nodes, the grove of each linked one, the nodes of each grove,
and the orphans. What an operation takes out of a tree it takes out of all maps.
-/

namespace Nexa

open AList TailstormTree

variable {ν : Type} {memory : NodeMemory} {k : TailstormK} {ctx : ForestContext ν memory} {rounds : ℕ}

/-- The key of a node. -/
def NodeMemory.hash (memory : NodeMemory) (node : CTreeNodeRef) : Uint256 := (memory.heap node).hash

/-- What holds of a grove between operations. -/
structure CTailstormGrove.Kept (memory : NodeMemory) (grove : CTailstormGrove ν) : Prop where
  tree : grove.tree.Kept
  nodes : ∀ hash, grove.mapGroveNodes.lookup hash = grove.tree.dag.lookup hash
  same : memory.heap.SameNodes grove.tree.heap
  fUncle : ∀ node, (grove.tree.heap node).fUncle = (memory.heap node).fUncle
  clean : grove.tree.expunged = []

theorem CTailstormGrove.kept_of_settles {roothash : Uint256} {dag mapGroveNodes : AList fun _ : Uint256 => CTreeNodeRef}
    {start : TreeState} {tree after : TailstormTree ν} (same : memory.heap.SameNodes tree.heap)
    (fUncle : ∀ node, (tree.heap node).fUncle = (memory.heap node).fUncle) (clean : tree.expunged = [])
    (nodes : ∀ hash, mapGroveNodes.lookup hash = dag.lookup hash) (settles : Settles dag start tree after) :
    CTailstormGrove.Kept memory
      { roothash, mapGroveNodes := mapGroveNodes.eraseAll after.expunged, tree := { after with expunged := [] } } where
  tree := by
    obtain ⟨sound, ordered, processed, flagged⟩ := settles.kept
    exact ⟨sound, ⟨ordered.dense, ordered.parents_lt⟩, processed, flagged.uncle, flagged.regular⟩
  nodes hash := by
    obtain ⟨gone, record, -, lookups⟩ := settles.records
    rw [clean, List.append_nil] at record
    rw [lookup_eraseAll, record, lookups, nodes]
  same node := ⟨(settles.same node).1.trans (same node).1, (settles.same node).2.trans (same node).2⟩
  fUncle node := (settles.fUncle node).trans (fUncle node)
  clean := rfl

namespace CTailstormGrove.Kept

variable {grove : CTailstormGrove ν} {start : TreeState} {after : TailstormTree ν} (kept : grove.Kept memory)

include kept

theorem withTree (settles : Settles grove.tree.dag start grove.tree after) (record : after.expunged = [])
    (roothash : Uint256) : Kept memory { grove with roothash, tree := after } := by
  have settled : Kept memory { grove with
      roothash, mapGroveNodes := grove.mapGroveNodes.eraseAll after.expunged, tree := { after with expunged := [] } } :=
    kept_of_settles kept.same kept.fUncle kept.clean kept.nodes settles
  obtain ⟨_, _, _, _, _, _, _, _⟩ := after
  cases record
  exact settled

theorem addUncles {uncles : List CTreeNodeRef} (marked : ∀ uncle ∈ uncles, (memory.heap uncle).fUncle = true) :
    Kept memory { grove with tree := grove.tree.addUncles uncles } := by
  refine kept.withTree (kept.tree.addUncles fun uncle listed => ?_) ?_ _
  · rw [kept.fUncle]
    exact marked uncle listed
  · rw [expunged_addUncles, kept.clean]

theorem tried {node : CTreeNodeRef} (fresh : (memory.heap node).hash ∉ grove.tree.dag)
    (regular : (memory.heap node).fUncle = false) : grove.tree.Tried node := by
  refine kept.tree.tried ?_ ?_
  · rwa [(kept.same node).1]
  · rwa [kept.fUncle]

theorem addSubblockOrphan {node : CTreeNodeRef} (fresh : (memory.heap node).hash ∉ grove.tree.dag)
    (regular : (memory.heap node).fUncle = false) :
    Kept memory { grove with tree := grove.tree.addSubblockOrphan node } := by
  refine kept.withTree (kept.tried fresh regular).addSubblockOrphan ?_ _
  rw [expunged_addSubblockOrphan, kept.clean]

end CTailstormGrove.Kept

namespace CTailstormForest

variable (forest : CTailstormForest ν)

/-- The maps of a forest. -/
def registry : Registry Uint256 CTreeNodeRef GroveRef where
  all := forest.mapAllNodes
  owner := forest.mapAllGrovesByNode
  members grove := (forest.groves grove).mapGroveNodes
  loose := forest.mapNodesUnlinked

/-- Some node belongs to the grove. -/
def HasGrove (grove : GroveRef) : Prop := forest.registry.Live grove

/-- The maps account for all nodes, the groves are kept, and the nodes have subblocks and are no uncles. -/
structure Consistent (memory : NodeMemory) (waiting : Set CTreeNodeRef) (linking : Set Uint256)
    (forest : CTailstormForest ν) : Prop where
  accounted : forest.registry.Accounted memory.hash waiting linking
  groves : ∀ {grove}, forest.HasGrove grove → (forest.groves grove).Kept memory
  regular : ∀ {hash node}, forest.mapAllNodes.lookup hash = some node →
    (memory.heap node).fUncle = false ∧ (memory.heap node).subblock.isSome

variable {forest next : CTailstormForest ν} {waiting : Set CTreeNodeRef} {linking : Set Uint256} {grove : GroveRef}
  {node : CTreeNodeRef} {hash : Uint256}

/-! ## Changing one grove -/

variable {changed : CTailstormGrove ν}

theorem groves_setGrove_self : (forest.setGrove grove changed).groves grove = changed := Function.update_self ..

theorem groves_setGrove_of_ne {other : GroveRef} (different : other ≠ grove) :
    (forest.setGrove grove changed).groves other = forest.groves other := Function.update_of_ne different ..

theorem members_setGrove : (forest.setGrove grove changed).registry.members =
    Function.update forest.registry.members grove changed.mapGroveNodes :=
  Function.comp_update CTailstormGrove.mapGroveNodes ..

theorem registry_setGrove (nodes : changed.mapGroveNodes = (forest.groves grove).mapGroveNodes) :
    (forest.setGrove grove changed).registry = forest.registry := by
  rw [Registry.mk.injEq]
  refine ⟨rfl, rfl, members_setGrove.trans ?_, rfl⟩
  rw [nodes]
  exact Function.update_eq_self ..

theorem Consistent.setGrove (consistent : forest.Consistent memory waiting linking)
    (nodes : changed.mapGroveNodes = (forest.groves grove).mapGroveNodes)
    (kept : forest.HasGrove grove → changed.Kept memory) :
    (forest.setGrove grove changed).Consistent memory waiting linking := by
  have same := registry_setGrove nodes
  refine ⟨same ▸ consistent.accounted, fun {other} live => ?_, consistent.regular⟩
  by_cases self : other = grove
  · subst self
    rw [groves_setGrove_self]
    exact kept live
  · rw [groves_setGrove_of_ne self]
    exact consistent.groves live

/-! ## Removals from a tree -/

theorem registry_eraseExpunged : (forest.eraseExpunged grove).registry =
    forest.registry.expunge grove (forest.groves grove).tree.expunged := by
  rw [Registry.mk.injEq]
  exact ⟨rfl, rfl, members_setGrove, rfl⟩

theorem groves_eraseExpunged_setGrove {changed : CTailstormGrove ν} :
    ((forest.setGrove grove changed).eraseExpunged grove).groves grove = { changed with
        mapGroveNodes := changed.mapGroveNodes.eraseAll changed.tree.expunged
        tree := { changed.tree with expunged := [] } } := by
  have own : (forest.setGrove grove changed).groves grove = changed := groves_setGrove_self
  rw [eraseExpunged]
  rw [own, groves_setGrove_self]

theorem consistent_eraseExpunged (accounted : forest.registry.Accounted memory.hash waiting linking)
    (groves : ∀ {other}, other ≠ grove → forest.HasGrove other → (forest.groves other).Kept memory)
    (regular : ∀ {hash node}, forest.mapAllNodes.lookup hash = some node →
      (memory.heap node).fUncle = false ∧ (memory.heap node).subblock.isSome)
    (own : ((forest.eraseExpunged grove).groves grove).Kept memory)
    (mine : ∀ hash ∈ (forest.groves grove).tree.expunged, ∀ owner,
      forest.mapAllGrovesByNode.lookup hash = some owner → owner = grove)
    (idle : ∀ node ∈ waiting, memory.hash node ∉ (forest.groves grove).tree.expunged) :
    (forest.eraseExpunged grove).Consistent memory waiting linking := by
  refine ⟨registry_eraseExpunged ▸ accounted.expunge mine idle, fun {other} live => ?_, fun {hash node} found => ?_⟩
  · by_cases self : other = grove
    · exact self ▸ own
    · obtain ⟨hash, found⟩ := live
      change (forest.mapAllGrovesByNode.eraseAll _).lookup hash = some other at found
      rw [lookup_eraseAll] at found
      split_ifs at found
      have same : (forest.eraseExpunged grove).groves other = forest.groves other := groves_setGrove_of_ne self
      rw [same]
      exact groves self ⟨hash, found⟩
  · change (forest.mapAllNodes.eraseAll _).lookup hash = some node at found
    rw [lookup_eraseAll] at found
    split_ifs at found
    exact regular found

theorem Consistent.settleTree {after : TailstormTree ν} (consistent : forest.Consistent memory waiting linking)
    (own : CTailstormGrove.Kept memory { forest.groves grove with
      mapGroveNodes := (forest.groves grove).mapGroveNodes.eraseAll after.expunged
      tree := { after with expunged := [] } })
    (mine : ∀ hash ∈ after.expunged, ∀ owner, forest.mapAllGrovesByNode.lookup hash = some owner → owner = grove)
    (idle : ∀ node ∈ waiting, memory.hash node ∉ after.expunged) :
    ((forest.setTree grove after).eraseExpunged grove).Consistent memory waiting linking := by
  have same : (forest.setTree grove after).registry = forest.registry := registry_setGrove rfl
  have tree : ((forest.setTree grove after).groves grove).tree = after :=
    congrArg CTailstormGrove.tree groves_setGrove_self
  refine consistent_eraseExpunged (same ▸ consistent.accounted) (fun {other} different alive => ?_) consistent.regular
    ?_ (by rw [tree]; exact mine) (by rwa [tree])
  · have untouched : (forest.setTree grove after).groves other = forest.groves other := groves_setGrove_of_ne different
    rw [untouched]
    exact consistent.groves alive
  · rwa [setTree, groves_eraseExpunged_setGrove]

theorem Consistent.owner_of_mem_dag (consistent : forest.Consistent memory waiting linking)
    (live : forest.HasGrove grove)
    (listed : hash ∈ (forest.groves grove).tree.dag) : forest.mapAllGrovesByNode.lookup hash = some grove := by
  obtain ⟨node, found⟩ := Option.isSome_iff_exists.mp (lookup_isSome.mpr listed)
  rw [← (consistent.groves live).nodes] at found
  exact consistent.accounted.member live found

theorem Consistent.notMem_dag (consistent : forest.Consistent memory waiting linking) (live : forest.HasGrove grove)
    (free : forest.mapAllGrovesByNode.lookup hash = none) : hash ∉ (forest.groves grove).tree.dag := by
  intro listed
  cases free.symm.trans (consistent.owner_of_mem_dag live listed)

section

variable {start : TreeState} {after : TailstormTree ν} (consistent : forest.Consistent memory waiting linking)
  (live : forest.HasGrove grove)
  (settles : Settles (forest.groves grove).tree.dag start (forest.groves grove).tree after)

include consistent live settles

theorem Consistent.owner_of_mem_expunged (listed : hash ∈ after.expunged) :
    forest.mapAllGrovesByNode.lookup hash = some grove := by
  obtain ⟨gone, record, inside, -⟩ := settles.records
  rw [record, (consistent.groves live).clean, List.append_nil] at listed
  exact consistent.owner_of_mem_dag live (inside hash listed)

theorem Consistent.settle : ((forest.setTree grove after).eraseExpunged grove).Consistent memory waiting linking := by
  have kept := consistent.groves live
  have owned {hash : Uint256} (listed : hash ∈ after.expunged) := consistent.owner_of_mem_expunged live settles listed
  refine consistent.settleTree
    (CTailstormGrove.kept_of_settles kept.same kept.fUncle kept.clean kept.nodes settles) ?_ ?_
  · intro hash listed owner found
    exact Option.some.inj (found.symm.trans (owned listed))
  · intro node waits listed
    cases (consistent.accounted.waitsApart waits).symm.trans (owned listed)

theorem Consistent.hasGrove_settle {other : GroveRef} (different : other ≠ grove) (alive : forest.HasGrove other) :
    ((forest.setTree grove after).eraseExpunged grove).HasGrove other := by
  obtain ⟨hash, found⟩ := alive
  have tree : ((forest.setTree grove after).groves grove).tree = after :=
    congrArg CTailstormGrove.tree groves_setGrove_self
  refine ⟨hash, (lookup_eraseAll ..).trans ?_⟩
  rw [if_neg]
  · exact found
  · intro listed
    have owned := consistent.owner_of_mem_expunged live settles (tree ▸ listed)
    exact different (Option.some.inj (found.symm.trans owned))

end

/-! ## A new member of a grove -/

/-- The forest with a node in a grove whose tree has been changed to take it. -/
def enrolled (memory : NodeMemory) (forest : CTailstormForest ν) (node : CTreeNodeRef) (grove : GroveRef)
    (roothash : Uint256) (after : TailstormTree ν) : CTailstormForest ν :=
  (forest.assign (memory.hash node) grove).setGrove grove
    { roothash, mapGroveNodes := (forest.groves grove).mapGroveNodes.insert (memory.hash node) node, tree := after }

variable {roothash : Uint256} {after : TailstormTree ν}

theorem registry_enrolled : (forest.enrolled memory node grove roothash after).registry =
    forest.registry.enroll (memory.hash node) grove node := by
  rw [Registry.mk.injEq]
  exact ⟨rfl, rfl, members_setGrove, rfl⟩

theorem lookup_owner_enrolled : (forest.enrolled memory node grove roothash after).mapAllGrovesByNode.lookup hash =
    if hash = memory.hash node then some grove else forest.mapAllGrovesByNode.lookup hash :=
  lookup_insert_eq_ite ..

theorem Consistent.enroll (consistent : forest.Consistent memory waiting ∅)
    (known : forest.mapAllNodes.lookup (memory.hash node) = some node)
    (free : forest.mapAllGrovesByNode.lookup (memory.hash node) = none) (kept : (forest.groves grove).Kept memory)
    (mine : forest.HasGrove grove ∨ (forest.groves grove).mapGroveNodes = ∅)
    {start : TreeState}
    (settles : Settles ((forest.groves grove).tree.dagWith node) start (forest.groves grove).tree after) :
    ((forest.enrolled memory node grove roothash after).eraseExpunged grove).Consistent memory (waiting \ {node})
      {memory.hash node} := by
  have accounted : (forest.enrolled memory node grove roothash after).registry.Accounted memory.hash (waiting \ {node})
      {memory.hash node} := by
    have enrolled := consistent.accounted.enroll known free mine
    rwa [insert_empty_eq, ← registry_enrolled] at enrolled
  have tree : ((forest.enrolled memory node grove roothash after).groves grove).tree = after :=
    congrArg CTailstormGrove.tree groves_setGrove_self
  have sameHash : ((forest.groves grove).tree.heap node).hash = memory.hash node := (kept.same node).1
  -- what the tree removes is the node itself or was in the grove before
  have own {hash : Uint256} (listed : hash ∈ after.expunged) :
      (forest.enrolled memory node grove roothash after).mapAllGrovesByNode.lookup hash = some grove := by
    obtain ⟨gone, record, inside, -⟩ := settles.records
    rw [record, kept.clean, List.append_nil] at listed
    rw [lookup_owner_enrolled]
    split_ifs with self
    · rfl
    have before : hash ∈ (forest.groves grove).tree.dag := by
      refine ((mem_insert _).mp (inside hash listed)).resolve_left fun same => self ?_
      rw [same, sameHash]
    refine consistent.owner_of_mem_dag (mine.resolve_right fun none => ?_) before
    have absent := kept.nodes hash
    rw [none] at absent
    exact lookup_eq_none.mp absent.symm before
  refine consistent_eraseExpunged accounted (fun {other} different alive => ?_) consistent.regular ?_ ?_ ?_
  · obtain ⟨hash, found⟩ := alive
    change (forest.enrolled memory node grove roothash after).mapAllGrovesByNode.lookup hash = some other at found
    rw [lookup_owner_enrolled] at found
    split_ifs at found with self
    · exact absurd (Option.some.inj found).symm different
    · rw [enrolled, groves_setGrove_of_ne different]
      exact consistent.groves ⟨hash, found⟩
  · rw [enrolled, groves_eraseExpunged_setGrove]
    refine CTailstormGrove.kept_of_settles kept.same kept.fUncle kept.clean (fun hash => ?_) settles
    rw [dagWith, sameHash, lookup_insert_eq_ite, lookup_insert_eq_ite, kept.nodes]
  · rw [tree]
    intro hash listed owner found
    exact Option.some.inj (found.symm.trans (own listed))
  · rw [tree]
    intro other waits listed
    have apart := accounted.waitsApart waits
    cases apart.symm.trans (own listed)

end CTailstormForest

end Nexa
