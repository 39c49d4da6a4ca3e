import Nexa.Proofs.OrderDag
import Nexa.Proofs.TxnExclusions

/-! # The analysis of a summary block's dag

`AnalyzeSummaryDag` rejects subblocks that are listed twice and subblocks with parents that are not
listed. If the rest is a dag, then it is accepted, and the result does not depend on the order of the
list. If there is a circle of parents, `CalculateAncestors` does not come to an end, and the test for
circles after it is not reached.
-/

namespace Nexa

open Option Function List

/-! ## The subblocks -/

section

variable (hashSummaryRoot : Uint256) (subblocks : List DagSubblock)

/-- No hash is listed twice. -/
def DistinctSubblocks : Prop := (subblocks.map DagSubblock.hash).Nodup

/-- The only parent is the summary root, or there are parents and all of them are listed. -/
def ParentsListed (subblock : DagSubblock) : Prop :=
  subblock.prevHashes = {hashSummaryRoot} ∨
    subblock.prevHashes ≠ ∅ ∧ ∀ prevHash ∈ subblock.prevHashes, prevHash ∈ subblocks.map DagSubblock.hash

/-- A listed subblock is the parent of another one that does not build on the summary root. -/
structure Links (parent child : DagSubblock) : Prop where
  parent_mem : parent ∈ subblocks
  child_mem : child ∈ subblocks
  inner : child.prevHashes ≠ {hashSummaryRoot}
  linked : parent.hash ∈ child.prevHashes

/-- No chain of parents comes back to where it started. -/
def AcyclicSubblocks : Prop :=
  ∀ subblock ∈ subblocks, ¬ Relation.TransGen (Links hashSummaryRoot subblocks) subblock subblock

end

/-! ## The graph -/

namespace SummaryGraph

/-- The node of a subblock. -/
def nodeOf (parents : DagSubblock → Finset CTreeNodeRef) (subblock : DagSubblock) : DagNode where
  hash := subblock.hash
  subblock := some subblock
  setAncestors := parents subblock

/-- The graph has one node for each subblock and finds it by its hash. -/
structure Holds (subblocks : List DagSubblock) (parents : DagSubblock → Finset CTreeNodeRef)
    (graph : SummaryGraph) : Prop where
  heap : graph.nodes.map graph.heap = subblocks.map (nodeOf parents)
  nodup : graph.nodes.Nodup
  distinct : DistinctSubblocks subblocks
  lookup : ∀ hash node, graph.mapNodes.lookup hash = some node ↔ node ∈ graph.nodes ∧ (graph.heap node).hash = hash

variable {graph : SummaryGraph} {subblocks : List DagSubblock} {parents : DagSubblock → Finset CTreeNodeRef}
  {alloc : ℕ → CTreeNodeRef} {hashSummaryRoot : Uint256}

namespace Holds

variable (holds : graph.Holds subblocks parents)

include holds

theorem exists_subblock {node : CTreeNodeRef} (listed : node ∈ graph.nodes) :
    ∃ subblock ∈ subblocks, graph.heap node = nodeOf parents subblock := by
  have image : graph.heap node ∈ subblocks.map (nodeOf parents) := holds.heap ▸ mem_map_of_mem listed
  obtain ⟨subblock, member, same⟩ := List.mem_map.mp image
  exact ⟨subblock, member, same.symm⟩

theorem exists_node {subblock : DagSubblock} (member : subblock ∈ subblocks) :
    ∃ node ∈ graph.nodes, graph.heap node = nodeOf parents subblock := by
  have image : nodeOf parents subblock ∈ graph.nodes.map graph.heap := holds.heap ▸ mem_map_of_mem member
  exact List.mem_map.mp image

theorem length_nodes : graph.nodes.length = subblocks.length := by
  rw [← List.length_map, holds.heap, List.length_map]

theorem mem_mapNodes {hash : Uint256} : hash ∈ graph.mapNodes ↔ hash ∈ subblocks.map DagSubblock.hash := by
  rw [← AList.lookup_isSome, isSome_iff_exists, List.mem_map]
  constructor
  · rintro ⟨node, found⟩
    obtain ⟨listed, rfl⟩ := (holds.lookup hash node).mp found
    obtain ⟨subblock, member, same⟩ := holds.exists_subblock listed
    exact ⟨subblock, member, same ▸ rfl⟩
  · rintro ⟨subblock, member, rfl⟩
    obtain ⟨node, listed, same⟩ := holds.exists_node member
    exact ⟨node, (holds.lookup _ node).mpr ⟨listed, same ▸ rfl⟩⟩

end Holds

variable {subblock : DagSubblock} {node : CTreeNodeRef} {todo : List CTreeNodeRef}

theorem Holds.concat (holds : graph.Holds subblocks parents) (fresh : subblock.hash ∉ subblocks.map DagSubblock.hash)
    (free : node ∉ graph.nodes) :
    Holds (subblocks ++ [subblock]) parents
      { heap := update graph.heap node (nodeOf parents subblock)
        mapNodes := graph.mapNodes.insert subblock.hash node
        nodes := graph.nodes ++ [node] } := by
  have kept : ∀ other ∈ graph.nodes,
      update graph.heap node (nodeOf parents subblock) other = graph.heap other :=
    fun other listed => update_of_ne (ne_of_mem_of_not_mem listed free) _ _
  constructor
  · simp only [map_append, map_singleton, update_self]
    rw [map_congr_left kept, holds.heap]
  · rw [← concat_eq_append]
    exact holds.nodup.concat free
  · rw [DistinctSubblocks, map_append, map_singleton, ← concat_eq_append]
    exact Nodup.concat fresh holds.distinct
  · intro hash other
    change _ ↔ other ∈ graph.nodes ++ [node] ∧ (update graph.heap node (nodeOf parents subblock) other).hash = hash
    rw [mem_append, mem_singleton]
    by_cases last : hash = subblock.hash
    · rw [last, AList.lookup_insert, some_inj]
      constructor
      · rintro rfl
        exact ⟨.inr rfl, by rw [update_self]; rfl⟩
      · rintro ⟨listed | rfl, same⟩
        · rw [kept other listed] at same
          exact absurd (holds.mem_mapNodes.mp (AList.lookup_isSome.mp
            (isSome_iff_exists.mpr ⟨other, (holds.lookup _ _).mpr ⟨listed, same⟩⟩))) fresh
        · rfl
    · rw [AList.lookup_insert_ne last, holds.lookup]
      constructor
      · exact fun ⟨listed, same⟩ => ⟨.inl listed, by rw [kept other listed, same]⟩
      · rintro ⟨listed | rfl, same⟩
        · exact ⟨listed, by rw [← same, kept other listed]⟩
        · rw [update_self] at same
          exact absurd same.symm last

theorem foldlM_addSubblock (injective : Injective alloc) {done : List DagSubblock} (rest : List DagSubblock)
    (holds : graph.Holds done fun _ => ∅) (allocated : graph.nodes = (range done.length).map alloc) :
    (∃ next : SummaryGraph, (rest.map some).foldlM (addSubblock alloc) graph = .ok next ∧
        next.Holds (done ++ rest) fun _ => ∅) ∨
      ∃ strReject, (rest.map some).foldlM (addSubblock alloc) graph = .error strReject ∧
        ¬ DistinctSubblocks (done ++ rest) := by
  induction rest generalizing done graph with
  | nil => exact .inl ⟨graph, rfl, by rwa [append_nil]⟩
  | cons subblock rest ih =>
    rw [map_cons, foldlM_cons]
    by_cases again : subblock.hash ∈ done.map DagSubblock.hash
    · have rejected : graph.addSubblock alloc (some subblock) = .error .duplicateSubblock :=
        if_pos (holds.mem_mapNodes.mpr again)
      refine .inr ⟨.duplicateSubblock, by rw [rejected]; rfl, fun distinct => ?_⟩
      rw [DistinctSubblocks, map_append, nodup_append] at distinct
      exact distinct.2.2 _ again _ mem_cons_self rfl
    · have free : alloc graph.nodes.length ∉ graph.nodes := by
        rw [allocated, List.length_map, List.length_range, List.mem_map]
        rintro ⟨i, early, same⟩
        exact Nat.lt_irrefl _ (injective same ▸ mem_range.mp early)
      have added : graph.addSubblock alloc (some subblock) = .ok
          { heap := update graph.heap (alloc graph.nodes.length) (nodeOf (fun _ => ∅) subblock)
            mapNodes := graph.mapNodes.insert subblock.hash (alloc graph.nodes.length)
            nodes := graph.nodes ++ [alloc graph.nodes.length] } := if_neg (mt holds.mem_mapNodes.mp again)
      rw [added, append_cons done]
      refine ih (holds.concat again free) ?_
      rw [holds.length_nodes, allocated, length_append, length_singleton, range_succ, map_append, map_singleton]

/-! ## Links -/

/-- The nodes of the parents. -/
def linkedParents (graph : SummaryGraph) (hashSummaryRoot : Uint256) (subblock : DagSubblock) : Finset CTreeNodeRef :=
  if subblock.prevHashes = {hashSummaryRoot} then ∅
  else subblock.prevHashes.biUnion fun prevHash => (graph.mapNodes.lookup prevHash).toFinset

theorem Holds.parentsOf_eq (holds : graph.Holds subblocks parents)
    (listed : ParentsListed hashSummaryRoot subblocks subblock) :
    graph.parentsOf hashSummaryRoot subblock = .ok (graph.linkedParents hashSummaryRoot subblock) := by
  rw [parentsOf, linkedParents]
  rcases listed with base | ⟨nonempty, listed⟩
  · rw [if_neg (by simp [base]), if_pos base, if_pos base]
  · have known : subblock.prevHashes ⊆ graph.mapNodes.keys.toFinset := fun prevHash member =>
      List.mem_toFinset.mpr (holds.mem_mapNodes.mpr (listed prevHash member))
    rw [if_neg nonempty]
    split_ifs <;> rfl

theorem Holds.parentsOf_eq_error (holds : graph.Holds subblocks parents)
    (unlisted : ¬ ParentsListed hashSummaryRoot subblocks subblock) :
    ∃ strReject, graph.parentsOf hashSummaryRoot subblock = .error strReject := by
  rw [ParentsListed, not_or, not_and] at unlisted
  rw [parentsOf]
  split_ifs with empty base known
  · exact ⟨_, rfl⟩
  · exact absurd base unlisted.1
  · refine absurd (fun prevHash member => holds.mem_mapNodes.mp ?_) (unlisted.2 empty)
    exact List.mem_toFinset.mp (known member)
  · exact ⟨_, rfl⟩

/-- The heap after the nodes of a list have been linked. -/
def linkedHeap (graph : SummaryGraph) (hashSummaryRoot : Uint256) (todo : List CTreeNodeRef) : DagHeap := fun node =>
  if node ∈ todo then
    { graph.heap node with
      setAncestors := ((graph.heap node).subblock.map (graph.linkedParents hashSummaryRoot)).getD ∅ }
  else graph.heap node

theorem linkNode_eq (held : (graph.heap node).subblock = some subblock) :
    graph.linkNode hashSummaryRoot node =
      (graph.parentsOf hashSummaryRoot subblock).map (graph.withAncestors node) := by
  rw [linkNode, held]

theorem subblock_withAncestors (graph : SummaryGraph) (node other : CTreeNodeRef) (setAncestors : Finset CTreeNodeRef) :
    ((graph.withAncestors node setAncestors).heap other).subblock = (graph.heap other).subblock := by
  by_cases same : other = node <;> simp [withAncestors, same]

theorem linkedHeap_withAncestors (absent : node ∉ todo) (held : (graph.heap node).subblock = some subblock) :
    (graph.withAncestors node (graph.linkedParents hashSummaryRoot subblock)).linkedHeap hashSummaryRoot todo =
      graph.linkedHeap hashSummaryRoot (node :: todo) := by
  funext other
  by_cases same : other = node
  · subst same
    simp [linkedHeap, withAncestors, absent, held]
  · simp only [linkedHeap, withAncestors, mem_cons, same, false_or, update_of_ne, ne_eq,
      not_false_eq_true]
    rfl

theorem foldlM_linkNode (nodup : todo.Nodup)
    (linkable : ∀ node ∈ todo, ∃ subblock, (graph.heap node).subblock = some subblock ∧
      graph.parentsOf hashSummaryRoot subblock = .ok (graph.linkedParents hashSummaryRoot subblock)) :
    todo.foldlM (linkNode hashSummaryRoot) graph =
      .ok { graph with heap := graph.linkedHeap hashSummaryRoot todo } := by
  induction todo generalizing graph with
  | nil => rfl
  | cons node todo ih =>
    obtain ⟨absent, nodup⟩ := nodup_cons.mp nodup
    obtain ⟨⟨subblock, held, linked⟩, linkable⟩ := forall_mem_cons.mp linkable
    rw [foldlM_cons, linkNode_eq held, linked, ← linkedHeap_withAncestors absent held]
    refine ih nodup fun other listed => ?_
    obtain ⟨otherSubblock, otherHeld, otherLinked⟩ := linkable other listed
    exact ⟨otherSubblock, by rw [subblock_withAncestors, otherHeld], otherLinked⟩

theorem foldlM_linkNode_eq_error (listed : node ∈ todo) (held : (graph.heap node).subblock = some subblock)
    (unlinkable : ∃ strReject, graph.parentsOf hashSummaryRoot subblock = .error strReject) :
    ∃ strReject, todo.foldlM (linkNode hashSummaryRoot) graph = .error strReject := by
  induction todo generalizing graph with
  | nil => exact absurd listed not_mem_nil
  | cons first todo ih =>
    rw [foldlM_cons]
    rcases mem_cons.mp listed with rfl | later
    · obtain ⟨strReject, rejected⟩ := unlinkable
      exact ⟨strReject, by rw [linkNode_eq held, rejected]; rfl⟩
    · cases firstHeld : (graph.heap first).subblock with
      | none =>
        rw [linkNode, firstHeld]
        exact ih later held unlinkable
      | some firstSubblock =>
        rw [linkNode_eq firstHeld]
        cases graph.parentsOf hashSummaryRoot firstSubblock with
        | error strReject => exact ⟨strReject, rfl⟩
        | ok setAncestors => exact ih later ((subblock_withAncestors ..).trans held) unlinkable

theorem Holds.linked (holds : graph.Holds subblocks fun _ => ∅) :
    Holds subblocks (graph.linkedParents hashSummaryRoot)
      { graph with heap := graph.linkedHeap hashSummaryRoot graph.nodes } := by
  have same : ∀ node ∈ graph.nodes, graph.linkedHeap hashSummaryRoot graph.nodes node =
      { graph.heap node with
        setAncestors := ((graph.heap node).subblock.map (graph.linkedParents hashSummaryRoot)).getD ∅ } :=
    fun node listed => if_pos listed
  refine ⟨?_, holds.nodup, holds.distinct, fun hash node => ?_⟩
  · calc graph.nodes.map (graph.linkedHeap hashSummaryRoot graph.nodes)
        = (graph.nodes.map graph.heap).map fun node => { node with
            setAncestors := (node.subblock.map (graph.linkedParents hashSummaryRoot)).getD ∅ } := by
          rw [List.map_map]
          exact map_congr_left same
      _ = subblocks.map (nodeOf (graph.linkedParents hashSummaryRoot)) := by
          rw [holds.heap, List.map_map]
          rfl
  · rw [holds.lookup]
    refine and_congr_right fun listed => ?_
    change _ ↔ (graph.linkedHeap hashSummaryRoot graph.nodes node).hash = hash
    rw [same node listed]

theorem ofSubblocks_eq (injective : Injective alloc) (hashSummaryRoot : Uint256)
    (subblocks : List DagSubblock) :
    (∃ graph : SummaryGraph, ofSubblocks alloc hashSummaryRoot (subblocks.map some) = .ok graph ∧
        graph.Holds subblocks (graph.linkedParents hashSummaryRoot) ∧
        ∀ subblock ∈ subblocks, ParentsListed hashSummaryRoot subblocks subblock) ∨
      ∃ strReject, ofSubblocks alloc hashSummaryRoot (subblocks.map some) = .error strReject ∧
        ¬ (DistinctSubblocks subblocks ∧ ∀ subblock ∈ subblocks, ParentsListed hashSummaryRoot subblocks subblock) := by
  have nothing : Holds [] (fun _ => ∅) {} := ⟨rfl, nodup_nil, nodup_nil, by simp⟩
  rw [ofSubblocks]
  rcases foldlM_addSubblock injective subblocks nothing rfl with
    ⟨graph, built, holds⟩ | ⟨strReject, rejected, duplicate⟩
  · rw [built]
    by_cases listed : ∀ subblock ∈ subblocks, ParentsListed hashSummaryRoot subblocks subblock
    · refine .inl ⟨_, foldlM_linkNode holds.nodup fun node member => ?_, holds.linked, listed⟩
      obtain ⟨subblock, inside, same⟩ := holds.exists_subblock member
      exact ⟨subblock, same ▸ rfl, holds.parentsOf_eq (listed subblock inside)⟩
    · rw [not_forall] at listed
      obtain ⟨subblock, unlisted⟩ := listed
      rw [Classical.not_imp] at unlisted
      obtain ⟨node, member, same⟩ := holds.exists_node unlisted.1
      obtain ⟨strReject, rejected⟩ := foldlM_linkNode_eq_error member (same ▸ rfl)
        (holds.parentsOf_eq_error unlisted.2)
      exact .inr ⟨strReject, rejected, fun ⟨_, listed⟩ => unlisted.2 (listed subblock unlisted.1)⟩
  · rw [rejected]
    exact .inr ⟨strReject, rfl, fun ⟨distinct, _⟩ => duplicate distinct⟩

/-! ## The dag -/

namespace Holds

variable (holds : graph.Holds subblocks (graph.linkedParents hashSummaryRoot)) {child : CTreeNodeRef}
  {parentSubblock : DagSubblock}

include holds

theorem mem_parents_iff (same : graph.heap child = nodeOf (graph.linkedParents hashSummaryRoot) subblock) :
    node ∈ graph.heap.parents child ↔ subblock.prevHashes ≠ {hashSummaryRoot} ∧ node ∈ graph.nodes ∧
      (graph.heap node).hash ∈ subblock.prevHashes := by
  rw [DagHeap.parents, same, nodeOf, linkedParents]
  split_ifs with base
  · simp [base]
  · simp only [Finset.mem_biUnion, mem_toFinset, mem_def, holds.lookup]
    constructor
    · rintro ⟨prevHash, member, listed, rfl⟩
      exact ⟨base, listed, member⟩
    · rintro ⟨-, listed, member⟩
      exact ⟨_, member, listed, rfl⟩

theorem isParent_iff (listed : node ∈ graph.nodes)
    (parentSame : graph.heap node = nodeOf (graph.linkedParents hashSummaryRoot) parentSubblock)
    (parentMember : parentSubblock ∈ subblocks) (member : subblock ∈ subblocks)
    (same : graph.heap child = nodeOf (graph.linkedParents hashSummaryRoot) subblock) :
    IsParent graph.heap.parents node child ↔ Links hashSummaryRoot subblocks parentSubblock subblock := by
  rw [IsParent, holds.mem_parents_iff same, parentSame]
  exact ⟨fun ⟨inner, _, linked⟩ => ⟨parentMember, member, inner, linked⟩, fun links =>
    ⟨links.inner, listed, links.linked⟩⟩

theorem mem_nodes_of_isParent (listed : child ∈ graph.nodes) (linked : IsParent graph.heap.parents node child) :
    node ∈ graph.nodes := by
  obtain ⟨subblock, -, same⟩ := holds.exists_subblock listed
  exact ((holds.mem_parents_iff same).mp linked).2.1

theorem transGen_links (listed : child ∈ graph.nodes)
    (path : Relation.TransGen (IsParent graph.heap.parents) node child)
    (member : subblock ∈ subblocks) (same : graph.heap child = nodeOf (graph.linkedParents hashSummaryRoot) subblock) :
    ∃ ancestor, graph.heap node = nodeOf (graph.linkedParents hashSummaryRoot) ancestor ∧
      Relation.TransGen (Links hashSummaryRoot subblocks) ancestor subblock := by
  induction path generalizing subblock with
  | single linked =>
    have inside := holds.mem_nodes_of_isParent listed linked
    obtain ⟨ancestor, ancestorMember, ancestorSame⟩ := holds.exists_subblock inside
    exact ⟨ancestor, ancestorSame, .single
      ((holds.isParent_iff inside ancestorSame ancestorMember member same).mp linked)⟩
  | tail _ linked ih =>
    have inside := holds.mem_nodes_of_isParent listed linked
    obtain ⟨middle, middleMember, middleSame⟩ := holds.exists_subblock inside
    obtain ⟨ancestor, ancestorSame, path⟩ := ih inside middleMember middleSame
    exact ⟨ancestor, ancestorSame, path.tail
      ((holds.isParent_iff inside middleSame middleMember member same).mp linked)⟩

theorem transGen_isParent (path : Relation.TransGen (Links hashSummaryRoot subblocks) subblock subblock) :
    ∃ node ∈ graph.nodes, Relation.TransGen (IsParent graph.heap.parents) node node := by
  have exists_node (subblock : DagSubblock) : ∃ node, subblock ∈ subblocks → node ∈ graph.nodes ∧
      graph.heap node = nodeOf (graph.linkedParents hashSummaryRoot) subblock := by
    by_cases member : subblock ∈ subblocks
    · exact (holds.exists_node member).imp fun _ found _ => found
    · exact ⟨0, fun inside => absurd inside member⟩
  choose node found using exists_node
  obtain ⟨_, -, links⟩ := Relation.TransGen.tail'_iff.mp path
  refine ⟨node subblock, (found _ links.child_mem).1, path.lift node fun parent child links => ?_⟩
  obtain ⟨listed, parentSame⟩ := found parent links.parent_mem
  exact (holds.isParent_iff listed parentSame links.parent_mem links.child_mem (found child links.child_mem).2).mpr
    links

theorem isUncle_eq_false (listed : node ∈ graph.nodes) : graph.heap.isUncle node = false := by
  obtain ⟨subblock, -, same⟩ := holds.exists_subblock listed
  rw [DagHeap.isUncle, same, nodeOf]

theorem eq_of_hash_eq (listed : node ∈ graph.nodes) (childListed : child ∈ graph.nodes)
    (same : (graph.heap node).hash = (graph.heap child).hash) : node = child := by
  have found := (holds.lookup _ _).mpr ⟨listed, same⟩
  rw [(holds.lookup _ _).mpr ⟨childListed, rfl⟩] at found
  exact (some_inj.mp found).symm

theorem map_hash : (graph.nodes.map fun node => (graph.heap node).hash) = subblocks.map DagSubblock.hash := by
  have image := congrArg (List.map DagNode.hash) holds.heap
  rwa [List.map_map, List.map_map] at image

end Holds

section

variable (holds : graph.Holds subblocks (graph.linkedParents hashSummaryRoot))
  (acyclic : AcyclicSubblocks hashSummaryRoot subblocks)

/-- The nodes of the graph as a dag. -/
def Holds.dag : DagNodes where
  heap := graph.heap
  nodes := graph.nodes
  hashes := holds.map_hash ▸ holds.distinct
  closed node listed parent linked := holds.mem_nodes_of_isParent listed linked
  acyclic node listed path := by
    obtain ⟨subblock, member, same⟩ := holds.exists_subblock listed
    obtain ⟨ancestor, again, path⟩ := holds.transGen_links listed path member same
    have circular : ancestor = subblock := some_inj.mp (congrArg DagNode.subblock (again.symm.trans same))
    exact acyclic subblock member (circular ▸ path)

theorem Holds.unclesLast : (holds.dag acyclic).UnclesLast := by
  intro uncle listed isUncle
  cases (holds.isUncle_eq_false listed).symm.trans isUncle

end

/-- Where the node with the same hash lies in another graph. -/
def moveTo (graph other : SummaryGraph) (node : CTreeNodeRef) : CTreeNodeRef :=
  (other.mapNodes.lookup (graph.heap node).hash).getD 0

section Relocation

variable {other : SummaryGraph} {others : List DagSubblock}
  (holds : graph.Holds subblocks (graph.linkedParents hashSummaryRoot))
  (otherHolds : other.Holds others (other.linkedParents hashSummaryRoot)) (perm : others.Perm subblocks)

include holds otherHolds perm

theorem exists_subblock_moveTo (listed : node ∈ graph.nodes) :
    graph.moveTo other node ∈ other.nodes ∧ ∃ subblock ∈ subblocks,
      graph.heap node = nodeOf (graph.linkedParents hashSummaryRoot) subblock ∧
        other.heap (graph.moveTo other node) = nodeOf (other.linkedParents hashSummaryRoot) subblock := by
  obtain ⟨subblock, member, same⟩ := holds.exists_subblock listed
  obtain ⟨moved, movedListed, movedSame⟩ := otherHolds.exists_node (perm.mem_iff.mpr member)
  have found : other.mapNodes.lookup (graph.heap node).hash = some moved :=
    (otherHolds.lookup _ _).mpr ⟨movedListed, by rw [movedSame, same]; rfl⟩
  have moves : graph.moveTo other node = moved := by rw [moveTo, found, getD_some]
  rw [moves]
  exact ⟨movedListed, subblock, member, same, movedSame⟩

theorem hash_moveTo (listed : node ∈ graph.nodes) :
    (other.heap (graph.moveTo other node)).hash = (graph.heap node).hash := by
  obtain ⟨-, subblock, -, same, movedSame⟩ := exists_subblock_moveTo holds otherHolds perm listed
  rw [same, movedSame, nodeOf, nodeOf]

theorem moveTo_injOn {a b : CTreeNodeRef} (listedA : a ∈ graph.nodes) (listedB : b ∈ graph.nodes)
    (same : graph.moveTo other a = graph.moveTo other b) : a = b := by
  apply holds.eq_of_hash_eq listedA listedB
  rw [← hash_moveTo holds otherHolds perm listedA, ← hash_moveTo holds otherHolds perm listedB, same]

theorem exists_moveTo_eq {moved : CTreeNodeRef} (listed : moved ∈ other.nodes) :
    ∃ node ∈ graph.nodes, graph.moveTo other node = moved := by
  obtain ⟨subblock, member, movedSame⟩ := otherHolds.exists_subblock listed
  obtain ⟨node, origin, same⟩ := holds.exists_node (perm.mem_iff.mp member)
  refine ⟨node, origin, otherHolds.eq_of_hash_eq (exists_subblock_moveTo holds otherHolds perm origin).1 listed ?_⟩
  rw [hash_moveTo holds otherHolds perm origin, same, movedSame, nodeOf, nodeOf]

theorem perm_map_moveTo : other.nodes.Perm (graph.nodes.map (graph.moveTo other)) := by
  have nodup : (graph.nodes.map (graph.moveTo other)).Nodup :=
    holds.nodup.map_on fun a listedA b listedB => moveTo_injOn holds otherHolds perm listedA listedB
  refine (perm_ext_iff_of_nodup otherHolds.nodup nodup).mpr fun moved => ?_
  rw [List.mem_map]
  constructor
  · exact exists_moveTo_eq holds otherHolds perm
  · rintro ⟨node, listed, rfl⟩
    exact (exists_subblock_moveTo holds otherHolds perm listed).1

theorem parents_moveTo (listed : node ∈ graph.nodes) :
    other.heap.parents (graph.moveTo other node) = (graph.heap.parents node).image (graph.moveTo other) := by
  obtain ⟨-, subblock, -, same, movedSame⟩ := exists_subblock_moveTo holds otherHolds perm listed
  ext moved
  simp only [otherHolds.mem_parents_iff movedSame, Finset.mem_image, holds.mem_parents_iff same]
  constructor
  · rintro ⟨inner, movedListed, linked⟩
    obtain ⟨parent, parentListed, rfl⟩ := exists_moveTo_eq holds otherHolds perm movedListed
    rw [hash_moveTo holds otherHolds perm parentListed] at linked
    exact ⟨parent, ⟨inner, parentListed, linked⟩, rfl⟩
  · rintro ⟨parent, ⟨inner, parentListed, linked⟩, rfl⟩
    rw [hash_moveTo holds otherHolds perm parentListed]
    exact ⟨inner, (exists_subblock_moveTo holds otherHolds perm parentListed).1, linked⟩

/-- The same subblocks in another order make the same dag at other addresses. -/
def Holds.relocation (acyclic : AcyclicSubblocks hashSummaryRoot subblocks)
    (otherAcyclic : AcyclicSubblocks hashSummaryRoot others) :
    DagNodes.Relocation (holds.dag acyclic) (otherHolds.dag otherAcyclic) where
  move := graph.moveTo other
  perm := perm_map_moveTo holds otherHolds perm
  hash _ listed := hash_moveTo holds otherHolds perm listed
  fUncle _ listed := by
    have movedListed := (exists_subblock_moveTo holds otherHolds perm listed).1
    exact (otherHolds.isUncle_eq_false movedListed).trans (holds.isUncle_eq_false listed).symm
  parents _ listed := parents_moveTo holds otherHolds perm listed

theorem subblock_moveTo (listed : node ∈ graph.nodes) :
    (other.heap (graph.moveTo other node)).subblock = (graph.heap node).subblock := by
  obtain ⟨-, subblock, -, same, movedSame⟩ := exists_subblock_moveTo holds otherHolds perm listed
  rw [same, movedSame, nodeOf, nodeOf]

theorem dagTxns_moveTo (listed : node ∈ graph.nodes) :
    dagTxns (some (other.heap (graph.moveTo other node))) = dagTxns (some (graph.heap node)) := by
  obtain ⟨-, subblock, -, same, movedSame⟩ := exists_subblock_moveTo holds otherHolds perm listed
  rw [same, movedSame]
  rfl

theorem exists_summary (acyclic : AcyclicSubblocks hashSummaryRoot subblocks)
    (otherAcyclic : AcyclicSubblocks hashSummaryRoot others) (coins : COutPoint → Option Coin) :
    ∃ summary enough, ∀ rounds ≥ enough, graph.analyze rounds coins = some (.ok summary) ∧
      other.analyze rounds coins = some (.ok summary) := by
  obtain ⟨ordered, ended, schedule⟩ := (holds.dag acyclic).exists_ordered
  have permuted : ordered.Perm graph.nodes := (holds.dag acyclic).perm_of_schedule schedule
  have inside : ∀ node ∈ ordered, node ∈ graph.nodes := fun node => permuted.mem_iff.mp
  obtain ⟨excluded, losers, found, -⟩ :=
    getTxnExclusionSet_isGreatest (ordered.map fun node => some _) coins
  have sameTxns : TxnScan.ofNodes ((ordered.map (graph.moveTo other)).map fun node => some (other.heap node)) =
      TxnScan.ofNodes (ordered.map fun node => some (graph.heap node)) := by
    rw [TxnScan.ofNodes, TxnScan.ofNodes, flatMap_map, flatMap_map, flatMap_map]
    congr 1
    exact flatMap_congr fun node listed => dagTxns_moveTo holds otherHolds perm (inside node listed)
  have sameOrdered : ((ordered.map (graph.moveTo other)).map fun node => (other.heap node).subblock) =
      ordered.map fun node => (graph.heap node).subblock := by
    rw [List.map_map]
    exact map_congr_left fun node listed => subblock_moveTo holds otherHolds perm (inside node listed)
  refine ⟨⟨ordered.map fun node => (graph.heap node).subblock, excluded⟩,
    max (max (holds.dag acyclic).rounds (otherHolds.dag otherAcyclic).rounds)
      ((dagTransactions (ordered.map fun node => some (graph.heap node))).length + 1), fun rounds enough => ?_⟩
  rw [ge_iff_le, max_le_iff, max_le_iff] at enough
  obtain ⟨⟨enoughOrder, enoughOther⟩, enoughTxns⟩ := enough
  have moved : other.heap.orderDag rounds other.nodes = some (ordered.map (graph.moveTo other)) :=
    (holds.relocation otherHolds perm acyclic otherAcyclic).orderDag_move (holds.unclesLast acyclic) schedule
      enoughOther
  have movedLength : (ordered.map (graph.moveTo other)).length = other.nodes.length := by
    rw [List.length_map, permuted.length_eq, holds.length_nodes, otherHolds.length_nodes, perm.length_eq]
  have movedExclusions : getTxnExclusionSet rounds
      ((ordered.map (graph.moveTo other)).map fun node => some (other.heap node)) (some coins) =
        some (excluded, losers) := by
    rw [getTxnExclusionSet, sameTxns]
    exact found rounds enoughTxns
  constructor
  · have order : graph.heap.orderDag rounds graph.nodes = some ordered := ended rounds enoughOrder
    rw [analyze, order, bind_eq_bind, bind_some, if_neg (not_not.mpr permuted.length_eq), found rounds enoughTxns]
    rfl
  · rw [← sameOrdered, analyze, moved, bind_eq_bind, bind_some, if_neg (not_not.mpr movedLength), movedExclusions]
    rfl

end Relocation

end SummaryGraph

/-! ## The result -/

section

variable (hashSummaryRoot : Uint256) (coins : COutPoint → Option Coin)

/-- `AnalyzeSummaryDag` comes to this result if its loops are given enough rounds. -/
def AnalysisReturns (alloc : ℕ → CTreeNodeRef) (subblocks : List DagSubblock) (result : Except DagReject SummaryDag) :
    Prop :=
  ∃ enough, ∀ rounds ≥ enough, analyzeSummaryDag alloc rounds hashSummaryRoot (subblocks.map some) coins = some result

variable (subblocks : List DagSubblock)

/-- The subblocks are distinct and their parents are listed. -/
def SelfContained : Prop :=
  DistinctSubblocks subblocks ∧ ∀ subblock ∈ subblocks, ParentsListed hashSummaryRoot subblocks subblock

/-- Wherever the nodes are allocated, the analysis returns, accepts exactly the self-contained dags, rejects a circle by
its name if nothing else is wrong, and does not depend on the order of the subblocks. -/
def AnalyzesDag : Prop :=
  ∀ alloc, Injective alloc → ∃ result, AnalysisReturns hashSummaryRoot coins alloc subblocks result ∧
    (result.isOk ↔ SelfContained hashSummaryRoot subblocks ∧ AcyclicSubblocks hashSummaryRoot subblocks) ∧
    (SelfContained hashSummaryRoot subblocks → ¬ AcyclicSubblocks hashSummaryRoot subblocks → result = .error .cycle) ∧
    ∀ others : List DagSubblock, others.Perm subblocks → ∀ otherAlloc, Injective otherAlloc →
      ∃ otherResult, AnalysisReturns hashSummaryRoot coins otherAlloc others otherResult ∧
        otherResult.toOption = result.toOption

end

variable {hashSummaryRoot : Uint256} {subblocks others : List DagSubblock}

theorem SelfContained.perm (contained : SelfContained hashSummaryRoot subblocks) (perm : others.Perm subblocks) :
    SelfContained hashSummaryRoot others := by
  refine ⟨(perm.map DagSubblock.hash).nodup_iff.mpr contained.1, fun subblock member => ?_⟩
  refine (contained.2 subblock (perm.mem_iff.mp member)).imp_right (And.imp_right fun listed prevHash linked => ?_)
  exact (perm.map DagSubblock.hash).mem_iff.mpr (listed prevHash linked)

theorem AcyclicSubblocks.perm (acyclic : AcyclicSubblocks hashSummaryRoot subblocks) (perm : others.Perm subblocks) :
    AcyclicSubblocks hashSummaryRoot others := by
  intro subblock member path
  refine acyclic subblock (perm.mem_iff.mp member) (Relation.TransGen.mono (fun parent child links => ?_) _ _ path)
  exact ⟨perm.mem_iff.mp links.parent_mem, perm.mem_iff.mp links.child_mem, links.inner, links.linked⟩

section Analysis

variable {coins : COutPoint → Option Coin} {alloc otherAlloc : ℕ → CTreeNodeRef}

theorem AnalysisReturns.unique {result another : Except DagReject SummaryDag}
    (returns : AnalysisReturns hashSummaryRoot coins alloc subblocks result)
    (returnsAnother : AnalysisReturns hashSummaryRoot coins alloc subblocks another) : result = another := by
  obtain ⟨enough, ended⟩ := returns
  obtain ⟨enoughAnother, endedAnother⟩ := returnsAnother
  have both := (ended _ (le_max_left enough enoughAnother)).symm.trans (endedAnother _ (le_max_right _ _))
  exact some_inj.mp both

section

variable (injective : Injective alloc)

include injective

theorem exists_graph (contained : SelfContained hashSummaryRoot subblocks) :
    ∃ graph : SummaryGraph, graph.Holds subblocks (graph.linkedParents hashSummaryRoot) ∧
      ∀ rounds coins, analyzeSummaryDag alloc rounds hashSummaryRoot (subblocks.map some) coins =
        graph.analyze rounds coins := by
  rcases SummaryGraph.ofSubblocks_eq injective hashSummaryRoot subblocks with ⟨graph, built, holds, -⟩ | ⟨_, -, bad⟩
  · exact ⟨graph, holds, fun rounds coins => by rw [analyzeSummaryDag, built]⟩
  · exact absurd contained bad

theorem analysisReturns_error (defective : ¬ SelfContained hashSummaryRoot subblocks) :
    ∃ strReject, AnalysisReturns hashSummaryRoot coins alloc subblocks (.error strReject) := by
  rcases SummaryGraph.ofSubblocks_eq injective hashSummaryRoot subblocks with
    ⟨graph, -, holds, listed⟩ | ⟨strReject, rejected, -⟩
  · exact absurd ⟨holds.distinct, listed⟩ defective
  · exact ⟨strReject, 0, fun rounds _ => by rw [analyzeSummaryDag, rejected]⟩

theorem exists_analysisReturns_ok (otherInjective : Injective otherAlloc)
    (contained : SelfContained hashSummaryRoot subblocks) (acyclic : AcyclicSubblocks hashSummaryRoot subblocks)
    (perm : others.Perm subblocks) :
    ∃ summary, AnalysisReturns hashSummaryRoot coins alloc subblocks (.ok summary) ∧
      AnalysisReturns hashSummaryRoot coins otherAlloc others (.ok summary) := by
  obtain ⟨graph, holds, analysis⟩ := exists_graph injective contained
  obtain ⟨other, otherHolds, otherAnalysis⟩ := exists_graph otherInjective (contained.perm perm)
  obtain ⟨summary, enough, ended⟩ :=
    SummaryGraph.exists_summary holds otherHolds perm acyclic (acyclic.perm perm) coins
  refine ⟨summary, ⟨enough, fun rounds more => ?_⟩, ⟨enough, fun rounds more => ?_⟩⟩
  · rw [analysis, (ended rounds more).1]
  · rw [otherAnalysis, (ended rounds more).2]

theorem analyzeSummaryDag_eq_none (contained : SelfContained hashSummaryRoot subblocks)
    (cyclic : ¬ AcyclicSubblocks hashSummaryRoot subblocks) (rounds : ℕ) :
    analyzeSummaryDag alloc rounds hashSummaryRoot (subblocks.map some) coins = none := by
  obtain ⟨graph, holds, analysis⟩ := exists_graph injective contained
  simp only [AcyclicSubblocks, not_forall, not_not] at cyclic
  obtain ⟨subblock, -, path⟩ := cyclic
  obtain ⟨node, listed, path⟩ := holds.transGen_isParent path
  rw [analysis, SummaryGraph.analyze, DagHeap.orderDag_eq_none listed (holds.isUncle_eq_false listed) path]
  rfl

end

/-- `AnalyzeSummaryDag` does all it should exactly if a circle of parents is not the only defect of the subblocks. -/
theorem analyzesDag_iff (hashSummaryRoot : Uint256) (coins : COutPoint → Option Coin) (subblocks : List DagSubblock) :
    AnalyzesDag hashSummaryRoot coins subblocks ↔
      ¬ (SelfContained hashSummaryRoot subblocks ∧ ¬ AcyclicSubblocks hashSummaryRoot subblocks) := by
  constructor
  · rintro analyzes ⟨contained, cyclic⟩
    obtain ⟨result, ⟨enough, ended⟩, -⟩ := analyzes id injective_id
    have stuck := ended enough le_rfl
    rw [analyzeSummaryDag_eq_none injective_id contained cyclic] at stuck
    cases stuck
  · intro fine alloc injective
    by_cases contained : SelfContained hashSummaryRoot subblocks
    · have acyclic : AcyclicSubblocks hashSummaryRoot subblocks := not_not.mp fun cyclic => fine ⟨contained, cyclic⟩
      obtain ⟨summary, returns, -⟩ := exists_analysisReturns_ok injective injective contained acyclic (List.Perm.refl _)
      refine ⟨.ok summary, returns, ⟨fun _ => ⟨contained, acyclic⟩, fun _ => rfl⟩,
        fun _ cyclic => absurd acyclic cyclic, ?_⟩
      intro others perm otherAlloc otherInjective
      obtain ⟨same, returnsSame, otherReturns⟩ :=
        exists_analysisReturns_ok injective otherInjective contained acyclic perm
      exact ⟨.ok same, otherReturns, by rw [returnsSame.unique returns]⟩
    · obtain ⟨strReject, returns⟩ := analysisReturns_error injective contained
      refine ⟨.error strReject, returns, ⟨fun accepted => ?_, fun both => absurd both.1 contained⟩,
        fun contained' => absurd contained' contained, fun others perm otherAlloc otherInjective => ?_⟩
      · cases accepted
      · obtain ⟨otherReject, otherReturns⟩ :=
          analysisReturns_error otherInjective fun other => contained (other.perm perm.symm)
        exact ⟨.error otherReject, otherReturns, rfl⟩

end Analysis

def sampleCircle : List DagSubblock := [{ hash := 1, prevHashes := {2} }, { hash := 2, prevHashes := {1} }]

/-- The circle is the only defect of the list, and no number of rounds suffices to reject it. -/
theorem analyzeSummaryDag_sampleCircle :
    SelfContained 0 sampleCircle ∧ ¬ AcyclicSubblocks 0 sampleCircle ∧
      ∀ rounds, analyzeSummaryDag id rounds 0 (sampleCircle.map some) (fun _ => none) = none := by
  have contained : SelfContained 0 sampleCircle := by
    refine ⟨by simp [DistinctSubblocks, sampleCircle], ?_⟩
    simp [ParentsListed, sampleCircle]
  have forth : Links 0 sampleCircle { hash := 1, prevHashes := {2} } { hash := 2, prevHashes := {1} } := by
    constructor <;> simp [sampleCircle]
  have back : Links 0 sampleCircle { hash := 2, prevHashes := {1} } { hash := 1, prevHashes := {2} } := by
    constructor <;> simp [sampleCircle]
  have cyclic : ¬ AcyclicSubblocks 0 sampleCircle := fun acyclic =>
    acyclic _ forth.parent_mem (.tail (.single forth) back)
  exact ⟨contained, cyclic, analyzeSummaryDag_eq_none injective_id contained cyclic⟩

end Nexa
