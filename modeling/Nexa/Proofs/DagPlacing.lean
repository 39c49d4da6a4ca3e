import Nexa.Model.Tailstorm.Dag
import Nexa.ToMathlib.PriorityDag

/-! # The placing loop of `OrderDag`

The queue holds the ready nodes, and the counters hold how many parents of a node still wait. The loop
follows the schedule of the dag and ends when all nodes are placed.
-/

namespace Nexa

open Finset

/-! ## The top of the queue -/

variable {κ : Type*} [LinearOrder κ] {key : CTreeNodeRef → κ} {later : CTreeNodeRef → CTreeNodeRef → Bool}

theorem foldl_later_spec (later_iff : ∀ a b, later a b ↔ key a < key b) (ready : List CTreeNodeRef)
    (node : CTreeNodeRef) :
    ready.foldl (fun top other => if later top other then other else top) node ∈ node :: ready ∧
      ∀ other ∈ node :: ready,
        key other ≤ key (ready.foldl (fun top other => if later top other then other else top) node) := by
  induction ready generalizing node with
  | nil => simp
  | cons second ready ih =>
    rw [List.foldl_cons]
    split_ifs with smaller
    · obtain ⟨listed, greatest⟩ := ih second
      refine ⟨List.mem_cons_of_mem _ listed, List.forall_mem_cons.mpr ⟨?_, greatest⟩⟩
      exact ((later_iff _ _).mp smaller).le.trans (greatest second List.mem_cons_self)
    · obtain ⟨listed, greatest⟩ := ih node
      obtain ⟨greatestFirst, greatestRest⟩ := List.forall_mem_cons.mp greatest
      refine ⟨?_, List.forall_mem_cons.mpr ⟨greatestFirst, List.forall_mem_cons.mpr ⟨?_, greatestRest⟩⟩⟩
      · rw [List.mem_cons] at listed ⊢
        exact listed.imp_right (List.mem_cons_of_mem _)
      · exact (not_lt.mp (mt (later_iff _ _).mpr smaller)).trans greatestFirst

variable {ready : List CTreeNodeRef}

theorem topOf_eq_some (later_iff : ∀ a b, later a b ↔ key a < key b) {top : CTreeNodeRef}
    (found : topOf later ready = some top) : top ∈ ready ∧ ∀ other ∈ ready, key other ≤ key top := by
  cases ready with
  | nil => cases found
  | cons node ready =>
    cases found
    exact foldl_later_spec later_iff ready node

theorem topOf_eq_none (found : topOf later ready = none) : ready = [] := by
  cases ready with
  | nil => rfl
  | cons node ready => cases found

/-! ## Released children -/

theorem foldl_release {nodes : List CTreeNodeRef} (distinct : nodes.Nodup) (ready : List CTreeNodeRef)
    (unplaced : CTreeNodeRef → ℕ) :
    nodes.foldl release (ready, unplaced) = ((nodes.filter fun child => unplaced child - 1 = 0).reverse ++ ready,
        fun node => if node ∈ nodes then unplaced node - 1 else unplaced node) := by
  induction nodes generalizing ready unplaced with
  | nil => simp
  | cons child nodes ih =>
    obtain ⟨fresh, distinct⟩ := List.nodup_cons.mp distinct
    have others : ∀ node ∈ nodes, Function.update unplaced child (unplaced child - 1) node = unplaced node := by
      intro node listed
      exact Function.update_of_ne (ne_of_mem_of_not_mem listed fresh) _ _
    rw [List.foldl_cons, release, ih distinct]
    apply Prod.ext
    · have filtered : (nodes.filter fun node => Function.update unplaced child (unplaced child - 1) node - 1 = 0) =
          nodes.filter fun node => unplaced node - 1 = 0 :=
        List.filter_congr fun node listed => by rw [others node listed]
      simp only [filtered]
      by_cases released : unplaced child - 1 = 0
      · simp [released]
      · simp [released]
    · funext node
      by_cases same : node = child
      · subst same
        simp [fresh]
      · by_cases listed : node ∈ nodes
        · simp [listed, others]
        · simp [same]

/-! ## The loop -/

variable {dag : PriorityDag CTreeNodeRef} {parents : CTreeNodeRef → Finset CTreeNodeRef}
  {children : CTreeNodeRef → List CTreeNodeRef} {ordered : List CTreeNodeRef} {unplaced : CTreeNodeRef → ℕ}

/-- The parents that are not placed yet. -/
def waitingParents (parents : CTreeNodeRef → Finset CTreeNodeRef) (ordered : List CTreeNodeRef)
    (node : CTreeNodeRef) : Finset CTreeNodeRef :=
  (parents node).filter (· ∉ ordered)

theorem waitingParents_append_singleton (node placed : CTreeNodeRef) :
    waitingParents parents (ordered ++ [placed]) node = (waitingParents parents ordered node).erase placed := by
  ext parent
  simp only [waitingParents, mem_filter, mem_erase, List.mem_append, List.mem_singleton]
  tauto

/-- The links of the dag are those the loop reads, from the child as well as from the parent. -/
structure PlacingLinks (dag : PriorityDag CTreeNodeRef) (parents : CTreeNodeRef → Finset CTreeNodeRef)
    (children : CTreeNodeRef → List CTreeNodeRef) : Prop where
  mem_parents : ∀ parent node, parent ∈ dag.parents node ↔ parent ∈ parents node
  mem_children : ∀ node ∈ dag.nodes, ∀ child, child ∈ children node ↔ child ∈ dag.nodes ∧ node ∈ parents child
  nodup : ∀ node, (children node).Nodup

theorem PlacingLinks.ready_iff (links : PlacingLinks dag parents children) {node : CTreeNodeRef} :
    dag.Ready ordered node ↔ node ∈ dag.nodes ∧ node ∉ ordered ∧ waitingParents parents ordered node = ∅ := by
  have settled : waitingParents parents ordered node = ∅ ↔ ∀ parent ∈ dag.parents node, parent ∈ ordered := by
    simp [waitingParents, links.mem_parents]
  rw [settled]
  exact ⟨fun ready => ⟨ready.mem, ready.waiting, ready.parents⟩, fun ⟨mem, waiting, parents⟩ => ⟨mem, waiting, parents⟩⟩

/-- What the loop knows before each round. -/
structure Placing (dag : PriorityDag CTreeNodeRef) (parents : CTreeNodeRef → Finset CTreeNodeRef)
    (ready : List CTreeNodeRef) (unplaced : CTreeNodeRef → ℕ) (ordered : List CTreeNodeRef) : Prop where
  nodup : ordered.Nodup
  subset : ∀ node ∈ ordered, node ∈ dag.nodes
  settled : ∀ node ∈ ordered, ∀ parent ∈ parents node, parent ∈ ordered
  unplaced : ∀ node ∈ dag.nodes, node ∉ ordered → unplaced node = (waitingParents parents ordered node).card
  ready_nodup : ready.Nodup
  mem_ready : ∀ node, node ∈ ready ↔ dag.Ready ordered node

section Step

variable (links : PlacingLinks dag parents children) (placing : Placing dag parents ready unplaced ordered)
  {node : CTreeNodeRef} (top : node ∈ ready)

include links placing top

variable {child other : CTreeNodeRef}

theorem Placing.child_waits (listed : child ∈ children node) :
    node ∈ waitingParents parents ordered child ∧ child ∉ ordered ++ [node] := by
  have isReady := (placing.mem_ready node).mp top
  have linked := ((links.mem_children node isReady.mem child).mp listed).2
  refine ⟨mem_filter.mpr ⟨linked, isReady.waiting⟩, fun placed => ?_⟩
  rcases List.mem_append.mp placed with placed | same
  · exact isReady.waiting (placing.settled child placed node linked)
  · rw [List.mem_singleton.mp same] at linked
    exact isReady.waiting (isReady.parents node ((links.mem_parents _ _).mpr linked))

theorem Placing.notMem_waitingParents (inside : other ∈ dag.nodes) (unlisted : other ∉ children node) :
    node ∉ waitingParents parents ordered other := by
  have isReady := (placing.mem_ready node).mp top
  intro linked
  exact unlisted ((links.mem_children node isReady.mem other).mpr ⟨inside, (mem_filter.mp linked).1⟩)

/-- The counters of the children sink with the node. -/
theorem Placing.unplaced_step (inside : other ∈ dag.nodes) (waiting : other ∉ ordered ++ [node]) :
    (if other ∈ children node then unplaced other - 1 else unplaced other) =
      (waitingParents parents (ordered ++ [node]) other).card := by
  have waits : other ∉ ordered := fun placed => waiting (List.mem_append_left _ placed)
  rw [waitingParents_append_singleton, placing.unplaced other inside waits]
  split_ifs with listed
  · rw [card_erase_of_mem (placing.child_waits links top listed).1]
  · rw [erase_eq_of_notMem (placing.notMem_waitingParents links top inside listed)]

/-- A child is released when its counter has come to 0. -/
theorem Placing.released_iff (listed : child ∈ children node) :
    unplaced child - 1 = 0 ↔ dag.Ready (ordered ++ [node]) child := by
  have inside := ((links.mem_children node ((placing.mem_ready node).mp top).mem child).mp listed).1
  have waiting := (placing.child_waits links top listed).2
  have counted := placing.unplaced_step links top inside waiting
  rw [if_pos listed] at counted
  rw [counted, card_eq_zero, links.ready_iff]
  exact ⟨fun settled => ⟨inside, waiting, settled⟩, fun ready => ready.2.2⟩

theorem Placing.mem_ready_step (other : CTreeNodeRef) :
    other ∈ ((children node).filter fun child => unplaced child - 1 = 0).reverse ++ ready.erase node ↔
      dag.Ready (ordered ++ [node]) other := by
  rw [List.mem_append, List.mem_reverse, List.mem_filter, decide_eq_true_eq, placing.ready_nodup.mem_erase_iff,
    placing.mem_ready]
  constructor
  · rintro (⟨listed, released⟩ | ⟨different, isReady⟩)
    · exact (placing.released_iff links top listed).mp released
    · exact isReady.append_singleton different
  · intro isReady
    by_cases listed : other ∈ children node
    · exact .inl ⟨listed, (placing.released_iff links top listed).mpr isReady⟩
    · obtain ⟨inside, waiting, settled⟩ := links.ready_iff.mp isReady
      rw [waitingParents_append_singleton,
        erase_eq_of_notMem (placing.notMem_waitingParents links top inside listed)] at settled
      rw [List.mem_append, List.mem_singleton, not_or] at waiting
      exact .inr ⟨waiting.2, links.ready_iff.mpr ⟨inside, waiting.1, settled⟩⟩

theorem Placing.ready_nodup_step :
    (((children node).filter fun child => unplaced child - 1 = 0).reverse ++ ready.erase node).Nodup := by
  rw [List.nodup_append]
  refine ⟨List.nodup_reverse.mpr ((links.nodup node).filter _), placing.ready_nodup.erase node, ?_⟩
  rintro child listed _ waits rfl
  have listed := (List.mem_filter.mp (List.mem_reverse.mp listed)).1
  have isReady := links.ready_iff.mp ((placing.mem_ready child).mp (List.mem_of_mem_erase waits))
  have linked := (placing.child_waits links top listed).1
  rw [isReady.2.2] at linked
  exact notMem_empty _ linked

/-- One round places a ready node and releases its children. -/
theorem Placing.step : Placing dag parents ((children node).foldl release (ready.erase node, unplaced)).1
      ((children node).foldl release (ready.erase node, unplaced)).2 (ordered ++ [node]) := by
  have isReady := (placing.mem_ready node).mp top
  rw [foldl_release (links.nodup node)]
  refine ⟨?_, ?_, ?_, fun _ => placing.unplaced_step links top, placing.ready_nodup_step links top,
    placing.mem_ready_step links top⟩
  · rw [List.nodup_append]
    exact ⟨placing.nodup, List.nodup_singleton _, fun a placed b last same =>
      isReady.waiting (List.mem_singleton.mp last ▸ same ▸ placed)⟩
  · rw [List.forall_mem_append, List.forall_mem_singleton]
    exact ⟨placing.subset, isReady.mem⟩
  · rw [List.forall_mem_append, List.forall_mem_singleton]
    exact ⟨fun a placed parent linked => List.mem_append_left _ (placing.settled a placed parent linked),
      fun parent linked => List.mem_append_left _ (isReady.parents parent ((links.mem_parents _ _).mpr linked))⟩

end Step

section

variable (links : PlacingLinks dag parents children) (later_iff : ∀ a b, later a b ↔ key a < key b)
include links later_iff

/-- The loop follows the schedule. -/
theorem Placing.schedule (before_iff : ∀ a ∈ dag.nodes, ∀ b ∈ dag.nodes, dag.before a b ↔ key b < key a) {rounds : ℕ}
    {result : List CTreeNodeRef} (placing : Placing dag parents ready unplaced ordered)
    (ended : placeLoop children later rounds ready unplaced ordered = some result) :
    ∃ rest, result = ordered ++ rest ∧ dag.Schedule ordered rest := by
  induction rounds generalizing ready unplaced ordered with
  | zero => cases ended
  | succ rounds ih =>
    rw [placeLoop] at ended
    cases found : topOf later ready with
    | none =>
      rw [found] at ended
      cases ended
      refine ⟨[], (List.append_nil _).symm, .done fun node isReady => ?_⟩
      have listed := (placing.mem_ready node).mpr isReady
      rw [topOf_eq_none found] at listed
      exact List.not_mem_nil listed
    | some node =>
      rw [found] at ended
      obtain ⟨top, greatest⟩ := topOf_eq_some later_iff found
      obtain ⟨rest, rfl, schedule⟩ := ih (placing.step links top) ended
      refine ⟨node :: rest, (List.append_cons _ _ _).symm, .place ((placing.mem_ready node).mp top) ?_ schedule⟩
      intro other isReady different
      have inside := ((placing.mem_ready node).mp top).mem
      refine (dag.total other isReady.mem node inside different).resolve_left fun less => ?_
      have greater := (before_iff other isReady.mem node inside).mp less
      exact not_lt.mpr (greatest other ((placing.mem_ready other).mpr isReady)) greater

theorem Placing.isSome {nodes : Finset CTreeNodeRef} (covered : ∀ node ∈ dag.nodes, node ∈ nodes) {rounds : ℕ}
    (placing : Placing dag parents ready unplaced ordered) (enough : nodes.card < rounds + ordered.length) :
    (placeLoop children later rounds ready unplaced ordered).isSome := by
  induction rounds generalizing ready unplaced ordered with
  | zero =>
    have fits : ordered.length ≤ nodes.card := by
      rw [← List.toFinset_card_of_nodup placing.nodup]
      exact card_le_card fun node placed =>
        covered node (placing.subset node (List.mem_toFinset.mp placed))
    omega
  | succ rounds ih =>
    rw [placeLoop]
    cases found : topOf later ready with
    | none => rfl
    | some node =>
      apply ih (placing.step links (topOf_eq_some later_iff found).1)
      rw [List.length_append, List.length_singleton]
      omega

end

end Nexa
