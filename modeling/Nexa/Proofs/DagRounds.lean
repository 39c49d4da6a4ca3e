import Nexa.Proofs.OrderDag

/-! # More rounds

A loop of `OrderDag` that ends after some rounds ends with the same result if it may take more of them.
So whatever `OrderDag` returns is the schedule of the dag.
-/

namespace Nexa

open List Option

section Loops

variable {rounds more : ℕ}

variable {parents : CTreeNodeRef → Finset CTreeNodeRef} {node : CTreeNodeRef}
  {children : CTreeNodeRef → List CTreeNodeRef}

section

variable (enough : rounds ≤ more)

include enough

theorem ancestorsLoop_mono {seen last found : Finset CTreeNodeRef}
    (ended : ancestorsLoop parents rounds seen last = some found) :
    ancestorsLoop parents more seen last = some found := by
  induction rounds generalizing more seen last with
  | zero => cases ended
  | succ rounds ih =>
    obtain ⟨more, rfl⟩ := Nat.exists_eq_succ_of_ne_zero (Nat.ne_zero_of_lt enough)
    rw [ancestorsLoop] at ended ⊢
    split_ifs at ended ⊢ with done
    · exact ended
    · exact ih (Nat.le_of_succ_le_succ enough) ended

theorem descendantsLoop_mono {toVisit found result : List CTreeNodeRef} {seen : Finset CTreeNodeRef}
    (ended : descendantsLoop children rounds toVisit seen found = some result) :
    descendantsLoop children more toVisit seen found = some result := by
  induction rounds generalizing more toVisit seen found with
  | zero => cases ended
  | succ rounds ih =>
    obtain ⟨more, rfl⟩ := Nat.exists_eq_succ_of_ne_zero (Nat.ne_zero_of_lt enough)
    cases toVisit with
    | nil => exact ended
    | cons descendant toVisit =>
      rw [descendantsLoop] at ended ⊢
      split_ifs at ended ⊢ with visited
      · exact ih (Nat.le_of_succ_le_succ enough) ended
      · exact ih (Nat.le_of_succ_le_succ enough) ended

theorem reachScores_mono {score : CTreeNodeRef → UInt32} {scores : List UInt32}
    (ended : reachScores children score rounds node = some scores) :
    reachScores children score more node = some scores := by
  rw [reachScores] at ended ⊢
  obtain ⟨found, visited, rfl⟩ := map_eq_some_iff.mp ended
  rw [descendantsLoop_mono enough visited]
  rfl

end

theorem topOf_congr {later other : CTreeNodeRef → CTreeNodeRef → Bool} {ready : List CTreeNodeRef}
    (same : ∀ a ∈ ready, ∀ b ∈ ready, later a b = other a b) : topOf later ready = topOf other ready := by
  cases ready with
  | nil => rfl
  | cons first ready =>
    rw [topOf]
    congr 1
    have inside : ∀ (rest : List CTreeNodeRef) (top : CTreeNodeRef), rest ⊆ first :: ready → top ∈ first :: ready →
        rest.foldl (fun top node => if later top node then node else top) top =
          rest.foldl (fun top node => if other top node then node else top) top := by
      intro rest
      induction rest with
      | nil => intros; rfl
      | cons node rest ih =>
        intro top listed member
        obtain ⟨nodeListed, restListed⟩ := cons_subset.mp listed
        rw [foldl_cons, same top member node nodeListed]
        apply ih _ restListed
        split_ifs
        · exact nodeListed
        · exact member
    exact inside ready first (subset_cons_self first ready) mem_cons_self

theorem mem_foldl_release {nodes : List CTreeNodeRef} {state : List CTreeNodeRef × (CTreeNodeRef → ℕ)}
    (listed : node ∈ (nodes.foldl release state).1) : node ∈ state.1 ∨ node ∈ nodes := by
  induction nodes generalizing state with
  | nil => exact .inl listed
  | cons child nodes ih =>
    rcases ih listed with listed | listed
    · rw [release] at listed
      split_ifs at listed
      · rcases mem_cons.mp listed with rfl | listed
        · exact .inr mem_cons_self
        · exact .inl listed
      · exact .inl listed
    · exact .inr (mem_cons_of_mem child listed)

theorem placeLoop_mono {later : CTreeNodeRef → CTreeNodeRef → Bool} {other : CTreeNodeRef → CTreeNodeRef → Bool}
    {nodes ready ordered result : List CTreeNodeRef} {unplacedParents : CTreeNodeRef → ℕ}
    (inside : ∀ node, children node ⊆ nodes) (enough : rounds ≤ more)
    (same : ∀ a ∈ nodes, ∀ b ∈ nodes, later a b = other a b) (listed : ready ⊆ nodes)
    (ended : placeLoop children later rounds ready unplacedParents ordered = some result) :
    placeLoop children other more ready unplacedParents ordered = some result := by
  induction rounds generalizing more ready unplacedParents ordered with
  | zero => cases ended
  | succ rounds ih =>
    obtain ⟨more, rfl⟩ := Nat.exists_eq_succ_of_ne_zero (Nat.ne_zero_of_lt enough)
    rw [placeLoop] at ended ⊢
    rw [← topOf_congr fun a memberA b memberB => same a (listed memberA) b (listed memberB)]
    cases top : topOf later ready with
    | none =>
      rw [top] at ended
      exact ended
    | some node =>
      rw [top] at ended
      refine ih (Nat.le_of_succ_le_succ enough) (fun released member => ?_) ended
      rcases mem_foldl_release member with member | child
      · exact listed (mem_of_mem_erase member)
      · exact inside node child

end Loops

namespace DagHeap

variable {heap : DagHeap} {rounds more : ℕ} {nodes : List CTreeNodeRef}

theorem getDagScores_mono {scores : DagScores} (enough : rounds ≤ more)
    (ended : heap.getDagScores rounds nodes = some scores) : heap.getDagScores more nodes = some scores := by
  rw [getDagScores] at ended ⊢
  split_ifs at ended with known
  have same : ∀ node ∈ nodes, ¬ heap.isUncle node →
      calculateAncestors heap.parents more node = calculateAncestors heap.parents rounds node := by
    intro node listed regular
    obtain ⟨found, ended⟩ := isSome_iff_exists.mp ((known node listed).resolve_left regular)
    exact (ancestorsLoop_mono enough ended).trans ended.symm
  have knownMore : ∀ node ∈ nodes, heap.isUncle node ∨ (calculateAncestors heap.parents more node).isSome := by
    intro node listed
    by_cases regular : heap.isUncle node
    · exact .inl regular
    · rw [same node listed regular]
      exact known node listed
  rw [if_pos knownMore, ← ended]
  congr 1
  apply scoresOf_congr
  intro node listed regular
  rw [same node listed regular]

theorem orderDag_mono {ordered : List CTreeNodeRef} (enough : rounds ≤ more)
    (ended : heap.orderDag rounds nodes = some ordered) : heap.orderDag more nodes = some ordered := by
  rw [orderDag] at ended ⊢
  obtain ⟨scores, scored, ended⟩ := bind_eq_some_iff.mp ended
  dsimp only at ended
  split_ifs at ended with known
  have same : ∀ node ∈ nodes, reachScores (heap.children nodes) (fun node => (scores.lookup node).getD 0) more node =
      reachScores (heap.children nodes) (fun node => (scores.lookup node).getD 0) rounds node := by
    intro node listed
    obtain ⟨found, ended⟩ := isSome_iff_exists.mp (known node listed)
    rw [ended, reachScores_mono enough ended]
  have knownMore : ∀ node ∈ nodes,
      (reachScores (heap.children nodes) (fun node => (scores.lookup node).getD 0) more node).isSome := by
    intro node listed
    rw [same node listed]
    exact known node listed
  rw [getDagScores_mono enough scored, bind_eq_bind, bind_some]
  rw [if_pos knownMore]
  refine placeLoop_mono (fun node => (?_ : _ ⊆ nodes)) enough (fun a listedA b listedB => ?_)
    (fun node member => ?_) ended
  · rw [children]
    split_ifs
    · exact filter_subset_self _
    · exact nil_subset _
  · rw [placedLater, placedLater, same a listedA, same b listedB]
  · exact mem_dedup.mp ((mem_insertionSort _).mp (mem_of_mem_filter member))

end DagHeap

/-- Whatever `OrderDag` returns is the schedule. -/
theorem DagNodes.schedule_of_orderDag (dag : DagNodes) {rounds : ℕ} {ordered : List CTreeNodeRef}
    (ended : dag.heap.orderDag rounds dag.nodes = some ordered) : dag.priority.Schedule [] ordered := by
  obtain ⟨another, ends, schedule⟩ := dag.exists_ordered
  have same := DagHeap.orderDag_mono (le_max_left rounds dag.rounds) ended
  rw [ends _ (le_max_right rounds dag.rounds)] at same
  exact some.inj same ▸ schedule

end Nexa
