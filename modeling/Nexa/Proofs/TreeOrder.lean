import Nexa.Model.Tailstorm.Tree
import Nexa.Proofs.DagRounds
import Nexa.Proofs.Grove

/-! # The numbers of the nodes of a tree

`RenumberDag` numbers the nodes of a dag from 1 on, parents first. `SortedDag` puts each node at the
place of its number.
-/

namespace Nexa

open List

/-! ## Maps in the order of their keys -/

section

variable {α : Type} (map : AList fun _ : Uint256 => α)

theorem inKeyOrder_perm : (inKeyOrder map).Perm (map.entries.map Sigma.snd) := (perm_insertionSort _ _).map _

theorem length_inKeyOrder : (inKeyOrder map).length = map.keys.length := by
  rw [(inKeyOrder_perm map).length_eq, length_map, AList.keys, keys, length_map]

theorem mem_inKeyOrder {a : α} : a ∈ inKeyOrder map ↔ ∃ key, map.lookup key = some a := by
  rw [(inKeyOrder_perm map).mem_iff, mem_map]
  constructor
  · rintro ⟨⟨key, value⟩, listed, rfl⟩
    exact ⟨key, AList.mem_lookup_iff.mpr listed⟩
  · rintro ⟨key, found⟩
    exact ⟨⟨key, a⟩, AList.mem_lookup_iff.mp found, rfl⟩

theorem inKeyOrder_insert_perm {key : Uint256} (fresh : key ∉ map) (a : α) :
    (inKeyOrder (map.insert key a)).Perm (a :: inKeyOrder map) := by
  refine (inKeyOrder_perm _).trans ?_
  rw [AList.entries_insert_of_notMem fresh]
  exact (inKeyOrder_perm map).symm.cons a

theorem nodup_map_inKeyOrder {key : α → Uint256} (keyed : ∀ {hash a}, map.lookup hash = some a → key a = hash) :
    ((inKeyOrder map).map key).Nodup := by
  have same : (map.entries.map Sigma.snd).map key = map.keys := by
    rw [map_map]
    apply map_congr_left
    rintro ⟨hash, a⟩ listed
    exact keyed (AList.mem_lookup_iff.mpr listed)
  rw [((inKeyOrder_perm map).map key).nodup_iff, same]
  exact map.keys_nodup

end

/-! ## Numbering -/

variable {nodes : List CTreeNodeRef} {ids : CTreeNodeRef → ℕ} {node : CTreeNodeRef}

theorem numberNodes_of_notMem (n : ℕ) (absent : node ∉ nodes) : numberNodes n nodes ids node = ids node := by
  induction nodes generalizing n ids with
  | nil => rfl
  | cons first rest ih =>
    rw [mem_cons, not_or] at absent
    rw [numberNodes, ih (n + 1) absent.2, Function.update_of_ne absent.1]

theorem numberNodes_eq (distinct : nodes.Nodup) (n : ℕ) (listed : node ∈ nodes) :
    numberNodes n nodes ids node = n + 1 + nodes.idxOf node := by
  induction nodes generalizing n ids with
  | nil => cases listed
  | cons first rest ih =>
    obtain ⟨fresh, distinct⟩ := nodup_cons.mp distinct
    rw [numberNodes]
    by_cases same : node = first
    · subst same
      rw [numberNodes_of_notMem (n + 1) fresh, Function.update_self, idxOf_cons_self]
    · have listed := (mem_cons.mp listed).resolve_left same
      rw [ih distinct (n + 1) listed, idxOf_cons_ne _ (Ne.symm same)]
      omega

theorem map_numberNodes (distinct : nodes.Nodup) (n : ℕ) :
    nodes.map (numberNodes n nodes ids) = range' (n + 1) nodes.length := by
  apply ext_getElem
  · rw [length_map, length_range']
  · intro i bound _
    rw [length_map] at bound
    rw [getElem_map, getElem_range', numberNodes_eq distinct n (getElem_mem bound), distinct.idxOf_getElem]
    omega

/-! ## The dag as an ordered list -/

namespace TreeState

variable {tree : TreeState}

theorem Sound.linked_of_lookup (sound : tree.Sound) {hash : Uint256} {node : CTreeNodeRef}
    (found : tree.dag.lookup hash = some node) : tree.Linked node := by
  rw [Linked, sound.indexed.hash_eq found, found]

theorem Sound.mem_inKeyOrder_iff (sound : tree.Sound) {node : CTreeNodeRef} :
    node ∈ inKeyOrder tree.dag ↔ tree.Linked node := by
  rw [mem_inKeyOrder]
  exact ⟨fun ⟨_, found⟩ => sound.linked_of_lookup found, fun linked => ⟨_, linked⟩⟩

/-- The dag of a tree as nodes that can be ordered. -/
def Sound.dagNodes (sound : tree.Sound) : DagNodes where
  heap := tree.heap
  nodes := inKeyOrder tree.dag
  hashes := nodup_map_inKeyOrder tree.dag sound.indexed.hash_eq
  closed _ _ _ above := sound.mem_inKeyOrder_iff.mpr (sound.links.linked above).1
  acyclic node _ path := by
    obtain ⟨rank, bound, -, grows⟩ := sound.links.ranked
    have higher : ∀ {child}, Relation.TransGen (IsParent tree.heap.parents) node child → rank node < rank child := by
      intro child path
      induction path with
      | single above => exact grows above
      | tail _ above ih => exact ih.trans (grows above)
    exact lt_irrefl _ (higher path)

end TreeState

namespace TailstormTree

variable {ν : Type} {tree next : TailstormTree ν} {rounds : ℕ} {k : TailstormK}

/-- The nodes of the dag are numbered from 1 on, parents before their children. -/
structure Ordered (tree : TailstormTree ν) : Prop where
  dense : (tree.dagNodes.map tree.nSequenceId).Perm (range' 1 tree.dag.keys.length)
  parents_lt : ∀ {parent child}, tree.Linked child → parent ∈ (tree.heap child).setAncestors →
    tree.nSequenceId parent < tree.nSequenceId child

theorem mem_dagNodes (sound : tree.toTreeState.Sound) {node : CTreeNodeRef} :
    node ∈ tree.dagNodes ↔ tree.Linked node := sound.mem_inKeyOrder_iff

theorem length_dagNodes (tree : TailstormTree ν) : tree.dagNodes.length = tree.dag.keys.length :=
  length_inKeyOrder tree.dag

theorem ordered_of_renumberDag (sound : tree.toTreeState.Sound) (ended : tree.renumberDag rounds = some next) :
    next.Ordered ∧ ∃ nSequenceId, next = { tree with nSequenceId } := by
  obtain ⟨ordered, found, rfl⟩ := Option.map_eq_some_iff.mp ended
  have schedule := sound.dagNodes.schedule_of_orderDag found
  have perm : ordered.Perm tree.dagNodes := sound.dagNodes.perm_of_schedule schedule
  have distinct : ordered.Nodup := schedule.nodup nodup_nil
  refine ⟨⟨?_, fun {parent child} linked above => ?_⟩, _, rfl⟩
  · refine (perm.symm.map _).trans ?_
    rw [map_numberNodes distinct, perm.length_eq, length_dagNodes]
  · have listed := perm.mem_iff.mpr ((mem_dagNodes sound).mpr linked)
    obtain ⟨placed, rest, rfl⟩ := append_of_mem listed
    have before : parent ∈ placed := nil_append placed ▸ schedule.parents_mem parent above
    change numberNodes 0 _ _ parent < numberNodes 0 _ _ child
    rw [numberNodes_eq distinct 0 listed, numberNodes_eq distinct 0 (mem_append_left _ before),
      idxOf_append_of_mem before, idxOf_append_of_notMem]
    · have position := idxOf_lt_length_of_mem before
      omega
    · intro again
      exact (nodup_append.mp distinct).2.2 child again child mem_cons_self rfl

namespace Ordered

variable {n : ℕ}

theorem pos_and_le (ordered : tree.Ordered) (listed : node ∈ tree.dagNodes) :
    1 ≤ tree.nSequenceId node ∧ tree.nSequenceId node ≤ tree.dag.keys.length := by
  have number := ordered.dense.mem_iff.mp (mem_map_of_mem listed)
  rw [mem_range'_1] at number
  omega

theorem find_eq (ordered : tree.Ordered) (listed : node ∈ tree.dagNodes) (number : tree.nSequenceId node = n + 1) :
    (tree.dagNodes.find? fun node => tree.nSequenceId node = n + 1) = some node := by
  cases found : tree.dagNodes.find? fun node => tree.nSequenceId node = n + 1 with
  | none =>
    have none := find?_eq_none.mp found node listed
    simp [number] at none
  | some other =>
    have same : tree.nSequenceId other = n + 1 := by simpa using find?_some found
    rw [inj_on_of_nodup_map (ordered.dense.nodup_iff.mpr nodup_range') (mem_of_find?_eq_some found) listed
      (same.trans number.symm)]

theorem mem_sortedDag (ordered : tree.Ordered) : node ∈ tree.sortedDag ↔ node ∈ tree.dagNodes := by
  rw [sortedDag, mem_filterMap]
  constructor
  · rintro ⟨n, -, found⟩
    exact mem_of_find?_eq_some found
  · intro listed
    obtain ⟨positive, low⟩ := ordered.pos_and_le listed
    refine ⟨tree.nSequenceId node - 1, mem_range.mpr (by omega), ordered.find_eq listed (by omega)⟩

theorem sortedDag_pairwise (tree : TailstormTree ν) :
    tree.sortedDag.Pairwise fun a b => tree.nSequenceId a < tree.nSequenceId b := by
  rw [sortedDag, pairwise_filterMap]
  refine pairwise_lt_range.imp fun {n m} less a foundA b foundB => ?_
  have numberA : tree.nSequenceId a = n + 1 := by simpa using find?_some foundA
  have numberB : tree.nSequenceId b = m + 1 := by simpa using find?_some foundB
  omega

theorem sortedDag_nodup (tree : TailstormTree ν) : tree.sortedDag.Nodup :=
  (sortedDag_pairwise tree).imp fun less => ne_of_apply_ne _ less.ne

section

variable (ordered : tree.Ordered)

include ordered

theorem sortedDag_perm : tree.sortedDag.Perm tree.dagNodes := by
  have distinct := (ordered.dense.nodup_iff.mpr nodup_range').of_map
  exact (perm_ext_iff_of_nodup (sortedDag_nodup tree) distinct).mpr fun _ => ordered.mem_sortedDag

theorem map_sortedDag : tree.sortedDag.map tree.nSequenceId = range' 1 tree.dag.keys.length := by
  refine ((ordered.sortedDag_perm.map _).trans ordered.dense).eq_of_pairwise' ?_ pairwise_lt_range'
  exact pairwise_map.mpr (sortedDag_pairwise tree)

theorem nSequenceId_eq (listed : node ∈ tree.sortedDag) : tree.nSequenceId node = tree.sortedDag.idxOf node + 1 := by
  have position := idxOf_lt_length_of_mem listed
  have number : (tree.sortedDag.map tree.nSequenceId)[tree.sortedDag.idxOf node]? =
      some (tree.sortedDag.idxOf node + 1) := by
    rw [ordered.map_sortedDag, getElem?_range', Nat.one_mul, Nat.add_comm]
    rwa [← length_dagNodes, ← ordered.sortedDag_perm.length_eq]
  rw [getElem?_map, getElem?_eq_getElem position, getElem_idxOf] at number
  exact Option.some.inj number

theorem mem_take_sortedDag : node ∈ tree.sortedDag.take n ↔ node ∈ tree.dagNodes ∧ tree.nSequenceId node ≤ n := by
  by_cases listed : node ∈ tree.sortedDag
  · rw [mem_take_iff_idxOf_lt listed, ordered.nSequenceId_eq listed]
    exact (and_iff_right (ordered.mem_sortedDag.mp listed)).symm
  · refine iff_of_false (fun taken => listed (mem_of_mem_take taken)) fun both => listed ?_
    exact ordered.mem_sortedDag.mpr both.1

end

end Ordered

end TailstormTree

end Nexa
