import Nexa.Proofs.DagAncestors
import Nexa.Proofs.DagDescendants
import Nexa.Proofs.DagPlacing
import Nexa.Proofs.DagScores
import Nexa.ToMathlib.SortedLex

/-! # The order of the dag

`OrderDag` places all nodes of a dag after their parents. Of two ready nodes it places the one whose
own and descendants' scores rank higher, where shared descendants do not count. The scores do not
depend on the order of the nodes unless an uncle has a descendant that is no uncle, and neither does
the order of the dag.
-/

namespace Nexa

open Option Relation Finset

/-- `OrderDag` does not end if a node that is no uncle is among its own ancestors. -/
theorem DagHeap.orderDag_eq_none {heap : DagHeap} {nodes : List CTreeNodeRef} {node : CTreeNodeRef}
    (listed : node ∈ nodes) (regular : heap.isUncle node = false)
    (circular : TransGen (IsParent heap.parents) node node) (rounds : ℕ) : heap.orderDag rounds nodes = none := by
  have unknown : ¬ ∀ node ∈ nodes, heap.isUncle node ∨ (calculateAncestors heap.parents rounds node).isSome := by
    intro known
    have found := known node listed
    rw [regular, calculateAncestors_eq_none rounds circular] at found
    simp at found
  rw [orderDag, getDagScores, if_neg unknown]
  rfl

/-- One for each uncle, each ancestor, the node itself and each descendant that is no uncle. -/
noncomputable def DagHeap.dagScore (heap : DagHeap) (nodes : Finset CTreeNodeRef) (node : CTreeNodeRef) : ℕ :=
  {uncle ∈ nodes | heap.isUncle uncle}.card + (heap.ancestors nodes node).card + 1 +
    {other ∈ nodes | ¬ heap.isUncle other ∧ node ∈ heap.ancestors nodes other}.card

namespace DagHeap.IsDag

variable {heap : DagHeap} {nodes : List CTreeNodeRef} (dag : heap.IsDag nodes) {rounds : ℕ}
  (enough : nodes.length < rounds)

include dag enough

theorem getDagScores_eq :
    heap.getDagScores rounds nodes = some (scoresOf heap.isUncle (heap.ancestors nodes.toFinset) nodes) := by
  have known : ∀ node ∈ nodes, heap.isUncle node ∨ (calculateAncestors heap.parents rounds node).isSome :=
    fun node listed => .inr (by rw [dag.calculateAncestors_eq enough listed]; rfl)
  rw [getDagScores, if_pos known]
  congr 1
  exact scoresOf_congr fun node listed _ => by rw [dag.calculateAncestors_eq enough listed, getD_some]

theorem lookup_getDagScores (distinct : nodes.Nodup) : ∃ scores, heap.getDagScores rounds nodes = some scores ∧
    ∀ node ∈ nodes, ¬ heap.isUncle node →
      scores.lookup node = some (UInt32.ofNat (heap.dagScore nodes.toFinset node)) := by
  have card_eq : ∀ p : CTreeNodeRef → Bool, {other ∈ nodes.toFinset | p other}.card = nodes.countP p := by
    intro p
    rw [← List.toFinset_filter, List.toFinset_card_of_nodup (distinct.filter _), List.countP_eq_length_filter]
  refine ⟨_, dag.getDagScores_eq enough, fun node listed regular => ?_⟩
  rw [lookup_scoresOf listed fun uncle => absurd uncle regular, finalScore, if_neg regular,
    sum_contribution regular distinct, if_pos listed, dagScore, ← card_eq, ← card_eq]
  simp [add_assoc]

end DagHeap.IsDag

/-- A node with an uncle for its child. -/
def DagHeap.uncleChild : DagHeap
  | 0 => { hash := 10 }
  | 1 => { hash := 11, fUncle := true, setAncestors := {0} }
  | _ => {}

theorem DagHeap.uncleChild_isDag : uncleChild.IsDag [0, 1] where
  closed := by decide
  acyclic node listed := not_transGen_of_isSome 3 (by revert node; decide)

/-- A descendant that is an uncle does not count. -/
theorem DagHeap.getDagScores_uncleChild : uncleChild.IsDag [0, 1] ∧ [0, 1].filter uncleChild.isUncle = [1] ∧
      calculateAncestors uncleChild.parents 3 0 = some ∅ ∧ calculateAncestors uncleChild.parents 3 1 = some {0} ∧
      (uncleChild.getDagScores 3 [0, 1]).bind (·.lookup 0) = some 2 ∧ (2 : UInt32) ≠ 1 + 0 + 1 + 1 :=
  ⟨uncleChild_isDag, by decide +kernel⟩

theorem DagHeap.lookup_getDagScores_uncleChild : ∃ scores, uncleChild.getDagScores 3 [0, 1] = some scores ∧
    scores.lookup 0 = some (UInt32.ofNat (uncleChild.dagScore {0, 1} 0)) := by
  obtain ⟨scores, found, scored⟩ := uncleChild_isDag.lookup_getDagScores (Nat.lt_succ_self 2) (by decide)
  exact ⟨scores, found, scored 0 (by decide) (by decide)⟩

/-- Nodes in memory with distinct hashes that no link leads out of and no links lead in a circle. -/
structure DagNodes where
  heap : DagHeap
  nodes : List CTreeNodeRef
  hashes : (nodes.map fun node => (heap node).hash).Nodup
  closed : ∀ node ∈ nodes, ∀ parent ∈ heap.parents node, parent ∈ nodes
  acyclic : ∀ node ∈ nodes, ¬ TransGen (IsParent heap.parents) node node

namespace DagNodes

open scoped Classical

variable (dag : DagNodes)

/-- The nodes from which a chain of links leads to the node. -/
noncomputable def ancestors (node : CTreeNodeRef) : Finset CTreeNodeRef :=
  dag.nodes.toFinset.filter fun ancestor => TransGen (IsParent dag.heap.parents) ancestor node

/-- The node and its descendants. -/
noncomputable def withDescendants (node : CTreeNodeRef) : Finset CTreeNodeRef :=
  dag.nodes.toFinset.filter fun descendant => ReflTransGen (IsParent dag.heap.parents) node descendant

/-- The scores of the dag. -/
noncomputable def score (node : CTreeNodeRef) : UInt32 :=
  ((scoresOf dag.heap.isUncle dag.ancestors dag.nodes).lookup node).getD 0

/-- The scores of `node` and of those of its descendants that it does not share with `other`, highest first. -/
noncomputable def scoresAlone (node other : CTreeNodeRef) : List UInt32 :=
  ((dag.withDescendants node \ dag.withDescendants other).val.map dag.score).sort (· ≥ ·)

/-- `a` is preferred to `b`: its scores are lexicographically greater, or they are the same and its hash is lower. -/
def RanksBefore (a b : CTreeNodeRef) : Prop := dag.scoresAlone b a < dag.scoresAlone a b ∨
    dag.scoresAlone a b = dag.scoresAlone b a ∧ (dag.heap a).hash < (dag.heap b).hash

/-- A number of rounds that suffices for each of the loops. -/
def rounds : ℕ := dag.nodes.length * (dag.nodes.length + 1) + 2

variable (dag : DagNodes) {node : CTreeNodeRef} {rounds : ℕ}

theorem nodup : dag.nodes.Nodup := dag.hashes.of_map

theorem hash_injOn {a b : CTreeNodeRef} (listedA : a ∈ dag.nodes) (listedB : b ∈ dag.nodes)
    (same : (dag.heap a).hash = (dag.heap b).hash) : a = b :=
  List.inj_on_of_nodup_map dag.hashes listedA listedB same

theorem length_lt_of_rounds_le (enough : dag.rounds ≤ rounds) : dag.nodes.length < rounds := by
  have squared : dag.nodes.length ≤ dag.nodes.length * (dag.nodes.length + 1) :=
    Nat.le_mul_of_pos_right _ (Nat.succ_pos _)
  rw [DagNodes.rounds] at enough
  omega

/-! ## Ancestors -/

variable {ancestor : CTreeNodeRef}

theorem isDag : dag.heap.IsDag dag.nodes := ⟨dag.closed, dag.acyclic⟩

theorem mem_ancestors (listed : node ∈ dag.nodes) :
    ancestor ∈ dag.ancestors node ↔ TransGen (IsParent dag.heap.parents) ancestor node := dag.isDag.mem_ancestors listed

theorem getDagScores_eq (enough : dag.rounds ≤ rounds) :
    dag.heap.getDagScores rounds dag.nodes = some (scoresOf dag.heap.isUncle dag.ancestors dag.nodes) :=
  dag.isDag.getDagScores_eq (dag.length_lt_of_rounds_le enough)

/-! ## Descendants -/

theorem mem_children (listed : node ∈ dag.nodes) (child : CTreeNodeRef) :
    child ∈ dag.heap.children dag.nodes node ↔ child ∈ dag.nodes ∧ node ∈ dag.heap.parents child := by
  rw [DagHeap.children, if_pos listed, List.mem_filter, decide_eq_true_eq]

theorem children_sublist (node : CTreeNodeRef) : (dag.heap.children dag.nodes node).Sublist dag.nodes := by
  rw [DagHeap.children]
  split_ifs
  · exact List.filter_sublist
  · exact List.nil_sublist _

/-- The children lead to the same nodes as the links do. -/
theorem transGen_isChild_iff (listed : node ∈ dag.nodes) {descendant : CTreeNodeRef} :
    TransGen (IsChild (dag.heap.children dag.nodes)) node descendant ↔
      descendant ∈ dag.nodes ∧ TransGen (IsParent dag.heap.parents) node descendant := by
  constructor
  · intro path
    induction path with
    | single child =>
      obtain ⟨inside, linked⟩ := (dag.mem_children listed _).mp child
      exact ⟨inside, .single linked⟩
    | tail _ child ih =>
      obtain ⟨inside, linked⟩ := (dag.mem_children ih.1 _).mp child
      exact ⟨inside, ih.2.tail linked⟩
  · rintro ⟨inside, path⟩
    induction path with
    | single linked => exact .single ((dag.mem_children listed _).mpr ⟨inside, linked⟩)
    | tail _ linked ih =>
      have parentInside := dag.closed _ inside _ linked
      exact (ih parentInside).tail ((dag.mem_children parentInside _).mpr ⟨inside, linked⟩)

theorem reachScores_isSome (score : CTreeNodeRef → UInt32) (enough : dag.rounds ≤ rounds) (node : CTreeNodeRef) :
    (reachScores (dag.heap.children dag.nodes) score rounds node).isSome := by
  have inside : ∀ other, ∀ child ∈ dag.heap.children dag.nodes other, child ∈ dag.nodes.toFinset :=
    fun other child listed => List.mem_toFinset.mpr ((dag.children_sublist other).subset listed)
  have links : ∑ other ∈ dag.nodes.toFinset \ ∅, (dag.heap.children dag.nodes other).length ≤
      dag.nodes.length * dag.nodes.length := by
    rw [← List.toFinset_card_of_nodup dag.nodup]
    refine sum_le_card_nsmul _ _ _ fun other _ => ?_
    rw [List.toFinset_card_of_nodup dag.nodup]
    exact (dag.children_sublist other).length_le
  rw [reachScores, isSome_map]
  apply descendantsLoop_isSome fun other _ => inside other
  · exact fun child listed => inside node child (List.mem_reverse.mp listed)
  · have first := (dag.children_sublist node).length_le
    rw [DagNodes.rounds, Nat.mul_succ] at enough
    rw [List.length_reverse]
    omega

theorem reachScores_eq (enough : dag.rounds ≤ rounds) (listed : node ∈ dag.nodes) :
    reachScores (dag.heap.children dag.nodes) dag.score rounds node =
      some (((dag.withDescendants node).val.map dag.score).sort (· ≥ ·)) := by
  obtain ⟨scores, ended⟩ := isSome_iff_exists.mp (dag.reachScores_isSome dag.score enough node)
  obtain ⟨found, walked, rfl⟩ := map_eq_some_iff.mp ended
  obtain ⟨nodup, mem_found⟩ := nodup_and_mem_of_descendantsLoop walked
  have fresh : node ∉ found := fun again =>
    dag.acyclic node listed ((dag.transGen_isChild_iff listed).mp ((mem_found node).mp again)).2
  have members : dag.withDescendants node = (node :: found).toFinset := by
    ext descendant
    rw [withDescendants, mem_filter, List.mem_toFinset, List.mem_toFinset, List.mem_cons, mem_found,
      dag.transGen_isChild_iff listed, reflTransGen_iff_eq_or_transGen]
    constructor
    · exact fun ⟨inside, path⟩ => path.imp_right fun path => ⟨inside, path⟩
    · rintro (rfl | ⟨inside, path⟩)
      · exact ⟨listed, .inl rfl⟩
      · exact ⟨inside, .inr path⟩
  rw [ended, members, List.toFinset_val, (List.nodup_cons.mpr ⟨fresh, nodup⟩).dedup, Multiset.map_coe,
    Multiset.coe_sort_eq_insertionSort, List.map_cons]

/-! ## Ranking -/

/-- What `placedLater` compares. -/
noncomputable def rankKey (node : CTreeNodeRef) : List UInt32 ×ₗ ℕᵒᵈ :=
  toLex (((dag.withDescendants node).val.map dag.score).sort (· ≥ ·), OrderDual.toDual (dag.heap node).hash.toNat)

theorem val_map_withDescendants (a b : CTreeNodeRef) : (dag.withDescendants a).val.map dag.score =
      (dag.withDescendants a ∩ dag.withDescendants b).val.map dag.score +
        (dag.withDescendants a \ dag.withDescendants b).val.map dag.score := by
  rw [← filter_mem_eq_inter, sdiff_eq_filter, filter_val, filter_val, ← Multiset.map_add, Multiset.filter_add_not]

/-- Shared descendants do not decide. -/
theorem ranksBefore_iff (a b : CTreeNodeRef) : dag.RanksBefore a b ↔ dag.rankKey b < dag.rankKey a := by
  have splitA := dag.val_map_withDescendants a b
  have splitB := dag.val_map_withDescendants b a
  rw [inter_comm] at splitB
  rw [RanksBefore, scoresAlone, scoresAlone, rankKey, rankKey, Prod.Lex.toLex_lt_toLex, splitA, splitB,
    Multiset.sort_add_lt_sort_add_iff, Multiset.sort_inj, Multiset.sort_inj, Multiset.add_right_inj,
    OrderDual.toDual_lt_toDual, BitVec.lt_def, eq_comm]

theorem rankKey_injOn {a b : CTreeNodeRef} (listedA : a ∈ dag.nodes) (listedB : b ∈ dag.nodes)
    (same : dag.rankKey a = dag.rankKey b) : a = b := by
  have hashes := congrArg OrderDual.ofDual (Prod.ext_iff.mp (toLex_inj.mp same)).2
  exact dag.hash_injOn listedA listedB (BitVec.eq_of_toNat_eq hashes)

/-- The dag as something to be placed by priority. -/
def priority : PriorityDag CTreeNodeRef where
  nodes := {node | node ∈ dag.nodes}
  parents node := {parent | parent ∈ dag.heap.parents node}
  before := dag.RanksBefore
  closed node listed parent linked := dag.closed node listed parent linked
  founded := by
    refine Subrelation.wf (fun {parent child} linked => ?_) (measure fun node => (dag.ancestors node).card).wf
    exact dag.isDag.card_ancestors_lt linked.1 linked.2
  asymm a _ b _ less greater := lt_asymm ((dag.ranksBefore_iff a b).mp less) ((dag.ranksBefore_iff b a).mp greater)
  total a listedA b listedB different := by
    rw [dag.ranksBefore_iff, dag.ranksBefore_iff]
    exact lt_or_gt_of_ne fun same => different (dag.rankKey_injOn listedB listedA same).symm

theorem placingLinks : PlacingLinks dag.priority dag.heap.parents (dag.heap.children dag.nodes) where
  mem_parents _ _ := Iff.rfl
  mem_children _ listed := dag.mem_children listed
  nodup node := dag.nodup.sublist (dag.children_sublist node)

theorem placedLater_iff (reach : CTreeNodeRef → List UInt32) (hash : CTreeNodeRef → Uint256) (a b : CTreeNodeRef) :
    placedLater reach hash a b ↔
      toLex (reach a, OrderDual.toDual (hash a).toNat) < toLex (reach b, OrderDual.toDual (hash b).toNat) := by
  rw [placedLater, Prod.Lex.toLex_lt_toLex, OrderDual.toDual_lt_toDual, ← BitVec.lt_def]
  split_ifs with different
  · rw [decide_eq_true_eq, or_iff_left fun both => different both.1]
  · rw [not_not] at different
    rw [decide_eq_true_eq, different, or_iff_right (lt_irrefl _), and_iff_right rfl]

theorem placing_nil : Placing dag.priority dag.heap.parents
      ((dag.nodes.dedup.insertionSort (· ≤ ·)).filter fun node => (dag.heap.parents node ∩ dag.nodes.toFinset).card = 0)
      (fun node => (dag.heap.parents node ∩ dag.nodes.toFinset).card) [] := by
  have waiting : ∀ node ∈ dag.nodes, dag.heap.parents node ∩ dag.nodes.toFinset =
      waitingParents dag.heap.parents [] node := by
    intro node listed
    rw [waitingParents, filter_true_of_mem fun _ _ => List.not_mem_nil]
    exact inter_eq_left.mpr fun parent linked => List.mem_toFinset.mpr (dag.closed node listed parent linked)
  refine ⟨List.nodup_nil, by simp, by simp, fun node listed _ => by rw [waiting node listed],
    ((List.perm_insertionSort _ _).nodup_iff.mpr (List.nodup_dedup _)).filter _, fun node => ?_⟩
  rw [dag.placingLinks.ready_iff, List.mem_filter, List.mem_insertionSort, List.mem_dedup, decide_eq_true_eq,
    card_eq_zero]
  constructor
  · rintro ⟨listed, free⟩
    exact ⟨listed, List.not_mem_nil, waiting node listed ▸ free⟩
  · rintro ⟨listed, -, free⟩
    exact ⟨listed, (waiting node listed).trans free⟩

theorem orderDag_eq (enough : dag.rounds ≤ rounds) :
    ∃ ordered, dag.heap.orderDag rounds dag.nodes = some ordered ∧ dag.priority.Schedule [] ordered := by
  have later_iff := placedLater_iff
    (fun node => (reachScores (dag.heap.children dag.nodes) dag.score rounds node).getD [])
    fun node => (dag.heap node).hash
  have before_iff : ∀ a ∈ dag.priority.nodes, ∀ b ∈ dag.priority.nodes, dag.priority.before a b ↔
      toLex ((reachScores (dag.heap.children dag.nodes) dag.score rounds b).getD [],
        OrderDual.toDual (dag.heap b).hash.toNat) <
      toLex ((reachScores (dag.heap.children dag.nodes) dag.score rounds a).getD [],
        OrderDual.toDual (dag.heap a).hash.toNat) := by
    intro a listedA b listedB
    rw [dag.reachScores_eq enough listedA, dag.reachScores_eq enough listedB]
    exact dag.ranksBefore_iff a b
  have inside : ∀ node ∈ dag.priority.nodes, node ∈ dag.nodes.toFinset := fun _ => List.mem_toFinset.mpr
  have fits : dag.nodes.toFinset.card < rounds := by
    rw [List.toFinset_card_of_nodup dag.nodup]
    exact dag.length_lt_of_rounds_le enough
  obtain ⟨ordered, ended⟩ := isSome_iff_exists.mp (dag.placing_nil.isSome dag.placingLinks later_iff inside fits)
  obtain ⟨rest, rfl, schedule⟩ := dag.placing_nil.schedule dag.placingLinks later_iff before_iff ended
  refine ⟨_, ?_, schedule⟩
  have known : ∀ node ∈ dag.nodes,
      (reachScores (dag.heap.children dag.nodes) dag.score rounds node).isSome := fun node _ =>
    dag.reachScores_isSome _ enough node
  rw [DagHeap.orderDag, dag.getDagScores_eq enough]
  exact (if_pos known).trans ended

theorem exists_ordered : ∃ ordered, (∀ rounds ≥ dag.rounds, dag.heap.orderDag rounds dag.nodes = some ordered) ∧
      dag.priority.Schedule [] ordered := by
  obtain ⟨ordered, -, schedule⟩ := dag.orderDag_eq (le_refl _)
  refine ⟨ordered, fun rounds enough => ?_, schedule⟩
  obtain ⟨another, ended, followed⟩ := dag.orderDag_eq enough
  rw [ended, schedule.unique followed]

theorem perm_of_schedule {ordered : List CTreeNodeRef} (schedule : dag.priority.Schedule [] ordered) :
    ordered.Perm dag.nodes := by
  refine (List.perm_ext_iff_of_nodup (schedule.nodup List.nodup_nil) dag.nodup).mpr fun node => ?_
  exact ⟨schedule.subset node, schedule.complete node⟩

/-! ## Other orders of the input and other addresses -/

/-- No node that is no uncle descends from an uncle. -/
def UnclesLast : Prop := ∀ uncle ∈ dag.nodes, dag.heap.isUncle uncle → ∀ node ∈ dag.nodes, ¬ dag.heap.isUncle node →
    ¬ TransGen (IsParent dag.heap.parents) uncle node

/-- The nodes of `other` are those of `dag`, in any order and at any addresses. -/
structure Relocation (dag other : DagNodes) where
  move : CTreeNodeRef → CTreeNodeRef
  perm : other.nodes.Perm (dag.nodes.map move)
  hash : ∀ node ∈ dag.nodes, (other.heap (move node)).hash = (dag.heap node).hash
  fUncle : ∀ node ∈ dag.nodes, other.heap.isUncle (move node) = dag.heap.isUncle node
  parents : ∀ node ∈ dag.nodes, other.heap.parents (move node) = (dag.heap.parents node).image move

namespace Relocation

variable {dag} {other : DagNodes} (relocation : Relocation dag other)

theorem injOn : Set.InjOn relocation.move {node | node ∈ dag.nodes} := by
  intro a listedA b listedB same
  apply dag.hash_injOn listedA listedB
  rw [← relocation.hash a listedA, ← relocation.hash b listedB, same]

theorem move_mem (listed : node ∈ dag.nodes) : relocation.move node ∈ other.nodes :=
  relocation.perm.mem_iff.mpr (List.mem_map_of_mem listed)

theorem exists_of_mem {moved : CTreeNodeRef} (listed : moved ∈ other.nodes) :
    ∃ node ∈ dag.nodes, relocation.move node = moved :=
  List.mem_map.mp (relocation.perm.mem_iff.mp listed)

section

variable (listed : node ∈ dag.nodes)

include listed

theorem transGen_move {ancestor : CTreeNodeRef} (path : TransGen (IsParent dag.heap.parents) ancestor node) :
    TransGen (IsParent other.heap.parents) (relocation.move ancestor) (relocation.move node) := by
  have moved : ∀ {parent child}, child ∈ dag.nodes → parent ∈ dag.heap.parents child →
      relocation.move parent ∈ other.heap.parents (relocation.move child) := by
    intro parent child inside linked
    rw [relocation.parents child inside]
    exact mem_image_of_mem _ linked
  induction path with
  | single linked => exact .single (moved listed linked)
  | tail _ linked ih => exact (ih (dag.closed _ listed _ linked)).tail (moved listed linked)

theorem exists_of_transGen {moved : CTreeNodeRef}
    (path : TransGen (IsParent other.heap.parents) moved (relocation.move node)) :
    ∃ ancestor, relocation.move ancestor = moved ∧ TransGen (IsParent dag.heap.parents) ancestor node := by
  have origin : ∀ {parent child}, child ∈ dag.nodes → parent ∈ other.heap.parents (relocation.move child) →
      ∃ before ∈ dag.heap.parents child, relocation.move before = parent := by
    intro parent child inside linked
    rw [relocation.parents child inside] at linked
    exact mem_image.mp linked
  generalize target : relocation.move node = last at path
  induction path generalizing node with
  | single linked =>
    subst target
    obtain ⟨parent, linked, same⟩ := origin listed linked
    exact ⟨parent, same, .single linked⟩
  | tail _ linked ih =>
    subst target
    obtain ⟨parent, linked, same⟩ := origin listed linked
    obtain ⟨ancestor, moved, path⟩ := ih (dag.closed node listed parent linked) same
    exact ⟨ancestor, moved, path.tail linked⟩

theorem ancestors_move : other.ancestors (relocation.move node) = (dag.ancestors node).image relocation.move := by
  ext moved
  rw [other.mem_ancestors (relocation.move_mem listed), mem_image]
  constructor
  · intro path
    obtain ⟨ancestor, same, path⟩ := relocation.exists_of_transGen listed path
    exact ⟨ancestor, (dag.mem_ancestors listed).mpr path, same⟩
  · rintro ⟨ancestor, found, rfl⟩
    exact relocation.transGen_move listed ((dag.mem_ancestors listed).mp found)

theorem withDescendants_move :
    other.withDescendants (relocation.move node) = (dag.withDescendants node).image relocation.move := by
  ext moved
  simp only [withDescendants, mem_filter, List.mem_toFinset, mem_image, reflTransGen_iff_eq_or_transGen]
  constructor
  · rintro ⟨inside, rfl | path⟩
    · exact ⟨node, ⟨listed, .inl rfl⟩, rfl⟩
    · obtain ⟨descendant, origin, rfl⟩ := relocation.exists_of_mem inside
      obtain ⟨ancestor, same, path⟩ := relocation.exists_of_transGen origin path
      rw [relocation.injOn (dag.isDag.mem_of_transGen origin path) listed same] at path
      exact ⟨descendant, ⟨origin, .inr path⟩, rfl⟩
  · rintro ⟨descendant, ⟨inside, rfl | path⟩, rfl⟩
    · exact ⟨relocation.move_mem inside, .inl rfl⟩
    · exact ⟨relocation.move_mem inside, .inr (relocation.transGen_move inside path)⟩

end

include relocation in
theorem unclesLast (last : dag.UnclesLast) : other.UnclesLast := by
  intro uncle _ isUncle moved listed regular path
  obtain ⟨node, origin, rfl⟩ := relocation.exists_of_mem listed
  obtain ⟨ancestor, rfl, chain⟩ := relocation.exists_of_transGen origin path
  have inside := dag.isDag.mem_of_transGen origin chain
  rw [relocation.fUncle ancestor inside] at isUncle
  rw [relocation.fUncle node origin] at regular
  exact last ancestor inside isUncle node origin regular chain

end Relocation

theorem lookup_eq_score (listed : node ∈ dag.nodes) :
    (scoresOf dag.heap.isUncle dag.ancestors dag.nodes).lookup node = some (dag.score node) := by
  have scored : node ∈ scoresOf dag.heap.isUncle dag.ancestors dag.nodes := mem_scoresOf listed
  obtain ⟨value, found⟩ := isSome_iff_exists.mp (AList.lookup_isSome.mpr scored)
  rw [score, found, getD_some]

theorem score_eq_finalScore (last : dag.UnclesLast) (listed : node ∈ dag.nodes) :
    dag.score node = finalScore dag.heap.isUncle dag.ancestors dag.nodes node := by
  rw [score, lookup_scoresOf listed fun isUncle other inside regular found =>
    last node listed isUncle other inside regular ((dag.mem_ancestors inside).mp found), getD_some]

namespace Relocation

variable {dag} {other : DagNodes} (relocation : Relocation dag other)

section

variable (last : dag.UnclesLast)

include last

/-- The score does not depend on the order of the nodes nor on what they are called. -/
theorem score_move (listed : node ∈ dag.nodes) : other.score (relocation.move node) = dag.score node := by
  rw [other.score_eq_finalScore (relocation.unclesLast last) (relocation.move_mem listed),
    dag.score_eq_finalScore last listed]
  have lengths : other.nodes.length = dag.nodes.length := by rw [relocation.perm.length_eq, List.length_map]
  have counts : other.nodes.countP other.heap.isUncle = dag.nodes.countP dag.heap.isUncle := by
    rw [relocation.perm.countP_eq, List.countP_map]
    exact List.countP_congr fun node member => by rw [Function.comp_apply, relocation.fUncle node member]
  have contributions : (other.nodes.map (contribution other.heap.isUncle other.ancestors (relocation.move node))).sum =
      (dag.nodes.map (contribution dag.heap.isUncle dag.ancestors node)).sum := by
    rw [(relocation.perm.map _).sum_eq, List.map_map]
    congr 1
    refine List.map_congr_left fun below member => ?_
    have subset : ∀ ancestor ∈ dag.ancestors below, ancestor ∈ dag.nodes := fun ancestor found =>
      List.mem_toFinset.mp (filter_subset _ _ found)
    have size : (other.ancestors (relocation.move below)).card = (dag.ancestors below).card := by
      rw [relocation.ancestors_move member]
      exact card_image_of_injOn fun a found b found' same => relocation.injOn (subset a found) (subset b found') same
    have same : relocation.move node = relocation.move below ↔ node = below :=
      ⟨fun same => relocation.injOn listed member same, congrArg relocation.move⟩
    have found : relocation.move node ∈ other.ancestors (relocation.move below) ↔ node ∈ dag.ancestors below := by
      rw [relocation.ancestors_move member, mem_image]
      refine ⟨?_, fun found => ⟨node, found, rfl⟩⟩
      rintro ⟨ancestor, found, same⟩
      rwa [← relocation.injOn (subset ancestor found) listed same]
    rw [Function.comp_apply, contribution, contribution, relocation.fUncle below member, size]
    simp [same, found]
  rw [finalScore, finalScore, relocation.fUncle node listed, lengths, counts, contributions]

theorem rankKey_move (listed : node ∈ dag.nodes) : other.rankKey (relocation.move node) = dag.rankKey node := by
  have inside : ∀ descendant ∈ dag.withDescendants node, descendant ∈ dag.nodes := fun descendant found =>
    List.mem_toFinset.mp (mem_filter.mp found).1
  have scores : (other.withDescendants (relocation.move node)).val.map other.score =
      (dag.withDescendants node).val.map dag.score := by
    rw [relocation.withDescendants_move listed, image_val_of_injOn (relocation.injOn.mono inside), Multiset.map_map]
    exact Multiset.map_congr rfl fun descendant found => relocation.score_move last (inside descendant found)
  rw [rankKey, rankKey, scores, relocation.hash node listed]

theorem renames : dag.priority.Renaming other.priority relocation.move where
  injOn := relocation.injOn
  nodes := by
    ext moved
    exact relocation.perm.mem_iff.trans List.mem_map
  parents node listed := by
    ext parent
    change parent ∈ other.heap.parents (relocation.move node) ↔ _
    rw [relocation.parents node listed, mem_image]
    rfl
  before a listedA b listedB less := by
    refine (other.ranksBefore_iff _ _).mpr ?_
    rw [relocation.rankKey_move last listedA, relocation.rankKey_move last listedB]
    exact (dag.ranksBefore_iff a b).mp less

theorem orderDag_move {ordered : List CTreeNodeRef} (schedule : dag.priority.Schedule [] ordered)
    (enough : other.rounds ≤ rounds) :
    other.heap.orderDag rounds other.nodes = some (ordered.map relocation.move) := by
  obtain ⟨another, ended, followed⟩ := other.orderDag_eq enough
  have moved := (relocation.renames last).schedule schedule (by simp)
  rw [ended, moved.unique followed]

end

end Relocation

/-- `OrderDag` orders the nodes of a dag parents first. Of two nodes that are ready at the same time the one with
the higher scores comes first. If no node that is no uncle descends from an uncle, then neither the order of the
input nor the addresses of the nodes matter. -/
theorem orderDag_spec (dag : DagNodes) :
    ∃ ordered, (∀ rounds ≥ dag.rounds, dag.heap.orderDag rounds dag.nodes = some ordered) ∧
      (∀ rounds ≥ dag.rounds, ∃ scores, dag.heap.getDagScores rounds dag.nodes = some scores ∧
        ∀ node ∈ dag.nodes, scores.lookup node = some (dag.score node)) ∧
      ordered.Perm dag.nodes ∧
      (∀ placed node rest, ordered = placed ++ node :: rest → ∀ parent ∈ dag.heap.parents node, parent ∈ placed) ∧
      (∀ placed rest a b, ordered = placed ++ rest → dag.priority.Ready placed a → dag.priority.Ready placed b →
        a ≠ b → (ordered.idxOf a < ordered.idxOf b ↔ dag.RanksBefore a b)) ∧
      (dag.UnclesLast → ∀ (other : DagNodes) (relocation : Relocation dag other), ∀ rounds ≥ other.rounds,
        other.heap.orderDag rounds other.nodes = some (ordered.map relocation.move)) := by
  obtain ⟨ordered, ended, schedule⟩ := dag.exists_ordered
  refine ⟨ordered, ended, fun rounds enough => ⟨_, dag.getDagScores_eq enough, fun node => dag.lookup_eq_score⟩,
    dag.perm_of_schedule schedule, ?_, ?_, fun last other relocation rounds => relocation.orderDag_move last schedule⟩
  · rintro placed node rest rfl
    exact schedule.parents_mem
  · rintro placed rest a b rfl readyA readyB different
    exact schedule.drop.idxOf_lt_idxOf_iff readyA readyB different

/-- Two uncles, each with a child that is no uncle. -/
def uncleHeap : DagHeap
  | 0 => { hash := 10, fUncle := true }
  | 1 => { hash := 11, setAncestors := {0} }
  | 2 => { hash := 12, fUncle := true }
  | 3 => { hash := 13, setAncestors := {2} }
  | _ => {}

/-- The first uncle is listed before its child, the second one after it. -/
def uncleDag : DagNodes where
  heap := uncleHeap
  nodes := [0, 1, 3, 2]
  hashes := by decide
  closed := by decide
  acyclic node listed := not_transGen_of_isSome 4 (by revert node; decide)

/-- The same nodes in another order. -/
def uncleDagReversed : DagNodes where
  heap := uncleHeap
  nodes := [2, 3, 1, 0]
  hashes := by decide
  closed := by decide
  acyclic node listed := not_transGen_of_isSome 4 (by revert node; decide)

/-- With such uncles the order of the input decides. -/
theorem orderDag_depends_on_input : uncleDag.nodes.Perm uncleDagReversed.nodes ∧
      uncleDag.heap.orderDag uncleDag.rounds uncleDag.nodes = some [2, 0, 1, 3] ∧
      uncleDagReversed.heap.orderDag uncleDagReversed.rounds uncleDagReversed.nodes = some [0, 2, 1, 3] := by
  refine ⟨by decide, ?_, ?_⟩
  · decide +kernel
  · decide +kernel

end DagNodes

end Nexa
