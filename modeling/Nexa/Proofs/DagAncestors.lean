import Nexa.Model.Tailstorm.Dag

/-! # The ancestors of a node

`CalculateAncestors` follows the links level by level and does not look at what it has seen before. It
ends if the links lead downwards in some rank, and then it has found the ancestors. It does not end at
a node from which links can be followed for ever.
-/

namespace Nexa

open Relation Finset

section Ancestors

variable {parents : CTreeNodeRef → Finset CTreeNodeRef}

/-- `parent` is linked from `child`. -/
def IsParent (parents : CTreeNodeRef → Finset CTreeNodeRef) (parent child : CTreeNodeRef) : Prop :=
  parent ∈ parents child

variable {rounds : ℕ} {ancestor node : CTreeNodeRef}

theorem mem_of_ancestorsLoop {seen last found : Finset CTreeNodeRef}
    (ended : ancestorsLoop parents rounds seen last = some found) :
    ancestor ∈ found ↔ ancestor ∈ seen ∨ ∃ ref ∈ last, TransGen (IsParent parents) ancestor ref := by
  induction rounds generalizing seen last with
  | zero => cases ended
  | succ rounds ih =>
    rw [ancestorsLoop] at ended
    split_ifs at ended with done
    · cases ended
      simp [done]
    · rw [ih ended, mem_union, or_assoc]
      refine or_congr_right ⟨?_, ?_⟩
      · rintro (reached | ⟨parent, reached, path⟩)
        · obtain ⟨ref, listed, linked⟩ := mem_biUnion.mp reached
          exact ⟨ref, listed, .single linked⟩
        · obtain ⟨ref, listed, linked⟩ := mem_biUnion.mp reached
          exact ⟨ref, listed, path.tail linked⟩
      · rintro ⟨ref, listed, path⟩
        cases path with
        | single linked => exact .inl (mem_biUnion.mpr ⟨ref, listed, linked⟩)
        | tail path linked => exact .inr ⟨_, mem_biUnion.mpr ⟨ref, listed, linked⟩, path⟩

theorem mem_of_calculateAncestors {found : Finset CTreeNodeRef}
    (ended : calculateAncestors parents rounds node = some found) :
    ancestor ∈ found ↔ TransGen (IsParent parents) ancestor node := by
  rw [mem_of_ancestorsLoop ended]
  constructor
  · rintro (linked | ⟨parent, linked, path⟩)
    · exact .single linked
    · exact path.tail linked
  · intro path
    cases path with
    | single linked => exact .inl linked
    | tail path linked => exact .inr ⟨_, linked, path⟩

variable (region : Set CTreeNodeRef)

theorem ancestorsLoop_isSome (rank : CTreeNodeRef → ℕ)
    (sinks : ∀ ref ∈ region, ∀ parent ∈ parents ref, parent ∈ region ∧ rank parent < rank ref)
    {seen last : Finset CTreeNodeRef} (bounded : ∀ ref ∈ last, ref ∈ region ∧ rank ref < rounds) :
    (ancestorsLoop parents (rounds + 1) seen last).isSome := by
  induction rounds generalizing seen last with
  | zero =>
    have done : last = ∅ := eq_empty_of_forall_notMem fun ref listed =>
      Nat.not_lt_zero _ (bounded ref listed).2
    rw [ancestorsLoop, if_pos done]
    rfl
  | succ rounds ih =>
    rw [ancestorsLoop]
    split_ifs with done
    · rfl
    · apply ih
      intro parent reached
      obtain ⟨ref, listed, linked⟩ := mem_biUnion.mp reached
      obtain ⟨inside, low⟩ := bounded ref listed
      obtain ⟨parentInside, lower⟩ := sinks ref inside parent linked
      exact ⟨parentInside, Nat.lt_of_lt_of_le lower (Nat.le_of_lt_succ low)⟩

theorem ancestorsLoop_eq_none
    (unfounded : ∀ ref ∈ region, ∃ parent ∈ parents ref, parent ∈ region) {seen last : Finset CTreeNodeRef}
    (reached : ∃ ref ∈ last, ref ∈ region) : ancestorsLoop parents rounds seen last = none := by
  induction rounds generalizing seen last with
  | zero => rfl
  | succ rounds ih =>
    obtain ⟨ref, listed, inside⟩ := reached
    obtain ⟨parent, linked, parentInside⟩ := unfounded ref inside
    rw [ancestorsLoop, if_neg (ne_empty_of_mem listed)]
    exact ih ⟨parent, mem_biUnion.mpr ⟨ref, listed, linked⟩, parentInside⟩

theorem calculateAncestors_eq_none (rounds : ℕ) (circular : TransGen (IsParent parents) node node) :
    calculateAncestors parents rounds node = none := by
  -- whatever lies on a way from the node to itself is linked from there
  have back : ∀ ref, TransGen (IsParent parents) node ref →
      ∃ parent ∈ parents ref, TransGen (IsParent parents) node parent := by
    intro ref path
    cases path with
    | single linked => exact ⟨node, linked, circular⟩
    | tail path linked => exact ⟨_, linked, path⟩
  exact ancestorsLoop_eq_none {ref | TransGen _ node ref} back (back node circular)

theorem not_transGen_of_isSome (rounds : ℕ) (ends : (calculateAncestors parents rounds node).isSome) :
    ¬ TransGen (IsParent parents) node node := by
  intro circular
  rw [calculateAncestors_eq_none rounds circular] at ends
  cases ends

end Ancestors

/-! ## Lists of nodes that hold all ancestors -/

/-- The list holds the parents of its nodes, and no links lead in a circle. -/
structure DagHeap.IsDag (heap : DagHeap) (nodes : List CTreeNodeRef) : Prop where
  closed : ∀ node ∈ nodes, ∀ parent ∈ heap.parents node, parent ∈ nodes
  acyclic : ∀ node ∈ nodes, ¬ TransGen (IsParent heap.parents) node node

open scoped Classical

/-- The nodes from which a chain of links leads to the node. -/
noncomputable def DagHeap.ancestors (heap : DagHeap) (nodes : Finset CTreeNodeRef) (node : CTreeNodeRef) :
    Finset CTreeNodeRef :=
  nodes.filter fun ancestor => TransGen (IsParent heap.parents) ancestor node

namespace DagHeap.IsDag

variable {heap : DagHeap} {nodes : List CTreeNodeRef} (dag : heap.IsDag nodes) {ancestor node : CTreeNodeRef}
  {rounds : ℕ}

include dag

theorem mem_of_transGen (listed : node ∈ nodes) (path : TransGen (IsParent heap.parents) ancestor node) :
    ancestor ∈ nodes := by
  induction path with
  | single linked => exact dag.closed _ listed _ linked
  | tail _ linked ih => exact ih (dag.closed _ listed _ linked)

theorem mem_ancestors (listed : node ∈ nodes) :
    ancestor ∈ heap.ancestors nodes.toFinset node ↔ TransGen (IsParent heap.parents) ancestor node := by
  rw [ancestors, mem_filter, List.mem_toFinset]
  exact ⟨And.right, fun path => ⟨dag.mem_of_transGen listed path, path⟩⟩

theorem card_ancestors_lt {parent : CTreeNodeRef} (listed : node ∈ nodes) (linked : parent ∈ heap.parents node) :
    (heap.ancestors nodes.toFinset parent).card < (heap.ancestors nodes.toFinset node).card := by
  have parentListed := dag.closed node listed parent linked
  apply card_lt_card
  refine (ssubset_iff_of_subset fun ancestor found => ?_).mpr ⟨parent, ?_, fun found => ?_⟩
  · exact (dag.mem_ancestors listed).mpr (((dag.mem_ancestors parentListed).mp found).tail linked)
  · exact (dag.mem_ancestors listed).mpr (.single linked)
  · exact dag.acyclic parent parentListed ((dag.mem_ancestors parentListed).mp found)

theorem calculateAncestors_eq (enough : nodes.length < rounds) (listed : node ∈ nodes) :
    calculateAncestors heap.parents rounds node = some (heap.ancestors nodes.toFinset node) := by
  obtain ⟨rounds, rfl⟩ := Nat.exists_eq_add_one_of_ne_zero (Nat.ne_zero_of_lt enough)
  have ends : (calculateAncestors heap.parents (rounds + 1) node).isSome := by
    apply ancestorsLoop_isSome {ref | ref ∈ nodes} fun ref => (heap.ancestors nodes.toFinset ref).card
    · exact fun ref listed parent linked => ⟨dag.closed ref listed parent linked, dag.card_ancestors_lt listed linked⟩
    · intro parent linked
      refine ⟨dag.closed node listed parent linked, ?_⟩
      have lower := dag.card_ancestors_lt listed linked
      have fits : (heap.ancestors nodes.toFinset node).card ≤ nodes.length :=
        (card_le_card (filter_subset _ _)).trans (List.toFinset_card_le _)
      omega
  obtain ⟨found, ended⟩ := Option.isSome_iff_exists.mp ends
  rw [ended]
  congr 1
  ext ancestor
  rw [mem_of_calculateAncestors ended, dag.mem_ancestors listed]

end DagHeap.IsDag

end Nexa
