import Nexa.Proofs.SpendIndex
import Nexa.ToMathlib.OptionFold

/-! # The links of a tree

Links go both ways between nodes that are in the dag, and parents come before their children in some
rank. `RemoveFromGrove` takes the links of all nodes that it takes out of the dag, and it ends because
the rank grows from a node to its descendants.
-/

namespace Nexa.TreeState

open Function Finset Option

/-- Every link to a parent is a link to a child on the other side. -/
def TwoWay (tree : TreeState) : Prop :=
  ∀ parent child, parent ∈ (tree.heap child).setAncestors ↔ child ∈ (tree.heap parent).setDescendants

/-- The node has no links. -/
def Bare (tree : TreeState) (node : CTreeNodeRef) : Prop :=
  (tree.heap node).setAncestors = ∅ ∧ (tree.heap node).setDescendants = ∅

/-- No other node is in the dag under the hash of this one. -/
def Owns (tree : TreeState) (node : CTreeNodeRef) : Prop :=
  ∀ other, tree.dag.lookup (tree.heap node).hash = some other → other = node

theorem Linked.owns {tree : TreeState} {node : CTreeNodeRef} (linked : tree.Linked node) : tree.Owns node :=
  fun _ found => (some.inj (linked.symm.trans found)).symm

/-! ## What a removal leaves -/

/-- `next` is what remains of `tree`. A node that is no longer in the dag has no links. -/
structure Shrinks (tree next : TreeState) : Prop where
  same : tree.heap.SameNodes next.heap
  lookup : ∀ {hash node}, next.dag.lookup hash = some node → tree.dag.lookup hash = some node
  ancestors : ∀ node, (next.heap node).setAncestors ⊆ (tree.heap node).setAncestors
  descendants : ∀ node, (next.heap node).setDescendants ⊆ (tree.heap node).setDescendants
  bare : ∀ {node}, tree.Linked node → ¬ next.Linked node → next.Bare node

namespace Shrinks

variable {tree next last : TreeState} {node : CTreeNodeRef}

theorem refl (tree : TreeState) : tree.Shrinks tree where
  same _ := ⟨rfl, rfl⟩
  lookup := id
  ancestors _ := subset_rfl
  descendants _ := subset_rfl
  bare linked unlinked := absurd linked unlinked

theorem bare_of_bare (shrinks : tree.Shrinks next) (bare : tree.Bare node) : next.Bare node :=
  ⟨subset_empty.mp (bare.1 ▸ shrinks.ancestors node), subset_empty.mp (bare.2 ▸ shrinks.descendants node)⟩

theorem owns (shrinks : tree.Shrinks next) (owns : tree.Owns node) : next.Owns node := by
  intro other found
  rw [(shrinks.same node).1] at found
  exact owns other (shrinks.lookup found)

theorem trans (first : tree.Shrinks next) (second : next.Shrinks last) : tree.Shrinks last where
  same node := ⟨(second.same node).1.trans (first.same node).1, (second.same node).2.trans (first.same node).2⟩
  lookup found := first.lookup (second.lookup found)
  ancestors node := (second.ancestors node).trans (first.ancestors node)
  descendants node := (second.descendants node).trans (first.descendants node)
  bare {node} linked unlinked := by
    by_cases between : next.Linked node
    · exact second.bare between unlinked
    · exact second.bare_of_bare (first.bare linked between)

end Shrinks

/-! ## Taking the links of a node -/

section

variable (tree : TreeState) (node : CTreeNodeRef)

theorem sameNodes_unlinkNode : tree.heap.SameNodes (tree.unlinkNode node).heap := by
  intro other
  by_cases self : other = node
  · subst self
    simp only [unlinkNode, clearLinks, update_self]
    split_ifs <;> exact ⟨rfl, rfl⟩
  · simp only [unlinkNode, clearLinks, update_of_ne self]
    split_ifs <;> exact ⟨rfl, rfl⟩

variable {parent child : CTreeNodeRef}

theorem mem_setAncestors_unlinkNode : parent ∈ ((tree.unlinkNode node).heap child).setAncestors ↔
      child ≠ node ∧ parent ∈ (tree.heap child).setAncestors := by
  by_cases self : child = node
  · simp [self, unlinkNode, clearLinks]
  · simp only [self, unlinkNode, clearLinks, update_of_ne, ne_eq, not_false_eq_true, true_and]
    split_ifs <;> rfl

theorem mem_setDescendants_unlinkNode : child ∈ ((tree.unlinkNode node).heap parent).setDescendants ↔
      parent ≠ node ∧ child ∈ (tree.heap parent).setDescendants ∧
        (parent ∈ (tree.heap node).setAncestors → child ≠ node) := by
  by_cases self : parent = node
  · simp [self, unlinkNode, clearLinks]
  · simp only [self, unlinkNode, clearLinks, update_of_ne, ne_eq, not_false_eq_true]
    split_ifs with above
    · simp [above, and_comm]
    · simp [above]

theorem bare_unlinkNode : (tree.unlinkNode node).Bare node := by
  simp [Bare, unlinkNode, clearLinks]

variable {tree node}

theorem TwoWay.unlinkNode (twoWay : tree.TwoWay) (childless : (tree.heap node).setDescendants = ∅) :
    (tree.unlinkNode node).TwoWay := by
  intro parent child
  rw [mem_setAncestors_unlinkNode, mem_setDescendants_unlinkNode, twoWay]
  constructor
  · rintro ⟨other, linked⟩
    refine ⟨?_, linked, fun _ => other⟩
    rintro rfl
    exact notMem_empty child (childless ▸ linked)
  · rintro ⟨-, linked, other⟩
    refine ⟨?_, linked⟩
    rintro rfl
    exact other ((twoWay parent child).mpr linked) rfl

end

/-! ## Linking a node to its parents -/

section

variable (tree : TreeState) (newNode : CTreeNodeRef) (setPrevNodes : Finset CTreeNodeRef)

theorem sameNodes_linkNode : tree.heap.SameNodes (tree.linkNode newNode setPrevNodes).heap := by
  intro other
  by_cases self : other = newNode
  · subst self
    simp only [linkNode, update_self]
    split_ifs <;> exact ⟨rfl, rfl⟩
  · simp only [linkNode, update_of_ne self]
    split_ifs <;> exact ⟨rfl, rfl⟩

theorem mem_setAncestors_linkNode {parent child : CTreeNodeRef} :
    parent ∈ ((tree.linkNode newNode setPrevNodes).heap child).setAncestors ↔
      parent ∈ (tree.heap child).setAncestors ∨ child = newNode ∧ parent ∈ setPrevNodes := by
  by_cases self : child = newNode
  · subst self
    simp only [linkNode, update_self, true_and]
    split_ifs <;> exact mem_union
  · simp only [linkNode, self, update_of_ne, ne_eq, not_false_eq_true, false_and, or_false]
    split_ifs <;> rfl

theorem mem_setDescendants_linkNode {parent child : CTreeNodeRef} :
    child ∈ ((tree.linkNode newNode setPrevNodes).heap parent).setDescendants ↔
      child ∈ (tree.heap parent).setDescendants ∨ child = newNode ∧ parent ∈ setPrevNodes := by
  have untouched : (update tree.heap newNode { tree.heap newNode with
      setAncestors := (tree.heap newNode).setAncestors ∪ setPrevNodes } parent).setDescendants =
        (tree.heap parent).setDescendants := by
    by_cases self : parent = newNode
    · subst self
      rw [update_self]
    · rw [update_of_ne self]
  by_cases above : parent ∈ setPrevNodes
  · simp [linkNode, above, untouched, or_comm]
  · simp [linkNode, above, untouched]

end

/-! ## Removing a node and its descendants -/

/-- What a removal needs of the links: they go both ways and no child shares its hash with another node. -/
structure Removable (tree : TreeState) : Prop where
  twoWay : tree.TwoWay
  owns : ∀ {parent child}, parent ∈ (tree.heap child).setAncestors → tree.Owns child

variable {tree next : TreeState} {node : CTreeNodeRef}

theorem lookup_of_lookup_expunge {hash : Uint256} {other : CTreeNodeRef}
    (found : (tree.expunge node).dag.lookup hash = some other) : tree.dag.lookup hash = some other := by
  rw [expunge, AList.lookup_erase_eq_ite] at found
  split_ifs at found
  exact found

theorem Removable.expunge (removable : tree.Removable) : (tree.expunge node).Removable where
  twoWay := removable.twoWay
  owns linked other found := removable.owns linked other (lookup_of_lookup_expunge found)

theorem Removable.of_shrinks (removable : tree.Removable) (shrinks : tree.Shrinks next) (twoWay : next.TwoWay) :
    next.Removable where
  twoWay := twoWay
  owns linked := shrinks.owns (removable.owns (shrinks.ancestors _ linked))

theorem shrinks_unlinkNode (owns : tree.Owns node) (shrinks : (tree.expunge node).Shrinks next) :
    tree.Shrinks (next.unlinkNode node) where
  same other := ⟨(next.sameNodes_unlinkNode node other).1.trans (shrinks.same other).1,
    (next.sameNodes_unlinkNode node other).2.trans (shrinks.same other).2⟩
  lookup found := lookup_of_lookup_expunge (shrinks.lookup found)
  ancestors other _ linked := shrinks.ancestors other ((next.mem_setAncestors_unlinkNode node).mp linked).2
  descendants other _ linked := shrinks.descendants other ((next.mem_setDescendants_unlinkNode node).mp linked).2.1
  bare {other} linked unlinked := by
    by_cases self : other = node
    · exact self ▸ next.bare_unlinkNode node
    have kept : (tree.expunge node).Linked other :=
      linked_expunge_iff.mpr ⟨linked, fun same => self (owns other (same ▸ linked))⟩
    have gone := mt (linked_relink_iff (next.sameNodes_unlinkNode node)).mpr unlinked
    obtain ⟨parentless, childless⟩ := shrinks.bare kept gone
    refine ⟨eq_empty_of_forall_notMem fun parent above => ?_, eq_empty_of_forall_notMem fun child below => ?_⟩
    · have above := ((next.mem_setAncestors_unlinkNode node).mp above).2
      exact notMem_empty parent (parentless ▸ above)
    · have below := ((next.mem_setDescendants_unlinkNode node).mp below).2.1
      exact notMem_empty child (childless ▸ below)

/-- What one call of `RemoveFromGrove` does. -/
def Removes (tree : TreeState) (node : CTreeNodeRef) (next : TreeState) : Prop :=
  next.Removable ∧ tree.Shrinks next ∧ next.Bare node

theorem removes_foldlM {remove : TreeState → CTreeNodeRef → Option TreeState}
    (spec : ∀ {tree node next}, tree.Removable → tree.Owns node → remove tree node = some next → tree.Removes node next)
    {nodes : List CTreeNodeRef} (removable : tree.Removable) (owns : ∀ node ∈ nodes, tree.Owns node)
    (removed : nodes.foldlM remove tree = some next) :
    next.Removable ∧ tree.Shrinks next ∧ ∀ node ∈ nodes, next.Bare node := by
  induction nodes generalizing tree with
  | nil =>
    cases removed
    exact ⟨removable, .refl _, by simp⟩
  | cons node nodes ih =>
    obtain ⟨between, first, rest⟩ := bind_eq_some_iff.mp removed
    obtain ⟨nodeOwns, othersOwn⟩ := List.forall_mem_cons.mp owns
    obtain ⟨removableBetween, shrinks, bare⟩ := spec removable nodeOwns first
    obtain ⟨removableNext, shrinksNext, bares⟩ :=
      ih removableBetween (fun other member => shrinks.owns (othersOwn other member)) rest
    exact ⟨removableNext, shrinks.trans shrinksNext, List.forall_mem_cons.mpr ⟨shrinksNext.bare_of_bare bare, bares⟩⟩

theorem owns_descendants (removable : tree.Removable) :
    ∀ child ∈ (tree.heap node).setDescendants.sort (· ≤ ·), (tree.expunge node).Owns child := by
  intro child listed
  rw [mem_sort] at listed
  exact removable.expunge.owns ((removable.twoWay node child).mpr listed)

theorem removes_removeFromGrove {rounds : ℕ} (removable : tree.Removable) (owns : tree.Owns node)
    (removed : removeFromGrove rounds tree node = some next) : tree.Removes node next := by
  induction rounds generalizing tree node next with
  | zero => cases removed
  | succ rounds ih =>
    obtain ⟨left, folded, unlinked⟩ := bind_eq_some_iff.mp removed
    obtain rfl := some.inj unlinked
    obtain ⟨removableLeft, shrinks, bares⟩ := removes_foldlM ih removable.expunge (owns_descendants removable) folded
    have childless : (left.heap node).setDescendants = ∅ := by
      refine eq_empty_of_forall_notMem fun child below => ?_
      have listed := (mem_sort (· ≤ ·)).mpr (shrinks.descendants node below)
      have above := (removableLeft.twoWay node child).mpr below
      exact notMem_empty node ((bares child listed).1 ▸ above)
    have shrinksAll := shrinks_unlinkNode owns shrinks
    exact ⟨removable.of_shrinks shrinksAll (removableLeft.twoWay.unlinkNode childless), shrinksAll,
      left.bare_unlinkNode node⟩

/-- A rank that is nowhere above the bound and grows along the links. -/
def Ranked (tree : TreeState) (rank : CTreeNodeRef → ℕ) (bound : ℕ) : Prop :=
  (∀ node, rank node ≤ bound) ∧ ∀ {parent child}, parent ∈ (tree.heap child).setAncestors → rank parent < rank child

theorem removeFromGrove_isSome {rank : CTreeNodeRef → ℕ} {bound rounds : ℕ} (removable : tree.Removable)
    (owns : tree.Owns node) (ranked : tree.Ranked rank bound) (enough : bound < rounds + rank node) :
    (removeFromGrove rounds tree node).isSome := by
  induction rounds generalizing tree node with
  | zero =>
    have low := ranked.1 node
    omega
  | succ rounds ih =>
    have higher : ∀ child ∈ (tree.heap node).setDescendants.sort (· ≤ ·), rank node < rank child := fun child listed =>
      ranked.2 ((removable.twoWay node child).mpr ((mem_sort _).mp listed))
    -- at each child the links that are left are among those of the tree
    obtain ⟨left, folded⟩ : ∃ left, ((tree.heap node).setDescendants.sort (· ≤ ·)).foldlM (removeFromGrove rounds)
        (tree.expunge node) = some left := by
      refine (List.exists_foldlM_eq_some (fun left => left.Removable ∧ (tree.expunge node).Shrinks left) ?_
        ⟨removable.expunge, .refl _⟩).imp fun _ => And.left
      rintro left child listed ⟨removableLeft, shrinks⟩
      have childOwns := shrinks.owns (owns_descendants removable child listed)
      have rankedLeft : left.Ranked rank bound := ⟨ranked.1, fun linked => ranked.2 (shrinks.ancestors _ linked)⟩
      have enoughLeft : bound < rounds + rank child := by
        have above := higher child listed
        omega
      obtain ⟨next, removed⟩ := isSome_iff_exists.mp (ih removableLeft childOwns rankedLeft enoughLeft)
      obtain ⟨removableNext, shrinksNext, -⟩ := removes_removeFromGrove removableLeft childOwns removed
      exact ⟨next, removed, removableNext, shrinks.trans shrinksNext⟩
    have removed : removeFromGrove (rounds + 1) tree node = some (left.unlinkNode node) := by
      exact bind_eq_some_iff.mpr ⟨left, folded, rfl⟩
    rw [removed]
    rfl

/-! ## Links between the nodes of the dag -/

/-- Links go both ways between nodes in the dag, downwards in some rank. -/
structure WellLinked (tree : TreeState) : Prop where
  twoWay : tree.TwoWay
  linked : ∀ {parent child}, parent ∈ (tree.heap child).setAncestors → tree.Linked parent ∧ tree.Linked child
  ranked : ∃ rank bound, tree.Ranked rank bound

/-- One more node has links to its parents and is not in the dag yet. -/
structure Pending (tree : TreeState) (newNode : CTreeNodeRef) : Prop where
  twoWay : tree.TwoWay
  linked : ∀ {parent child}, parent ∈ (tree.heap child).setAncestors →
    tree.Linked parent ∧ (tree.Linked child ∨ child = newNode)
  childless : (tree.heap newNode).setDescendants = ∅
  ranked : ∃ rank bound, tree.Ranked rank bound

section Links

variable {newNode : CTreeNodeRef}

section

variable (links : tree.WellLinked)

include links

theorem WellLinked.removable : tree.Removable := ⟨links.twoWay, fun above => (links.linked above).2.owns⟩

theorem WellLinked.bare (unlinked : ¬ tree.Linked node) : tree.Bare node := by
  refine ⟨eq_empty_of_forall_notMem fun parent above => unlinked (links.linked above).2,
    eq_empty_of_forall_notMem fun child below => ?_⟩
  exact unlinked (links.linked ((links.twoWay node child).mpr below)).1

theorem WellLinked.of_shrinks (shrinks : tree.Shrinks next) (twoWay : next.TwoWay) : next.WellLinked := by
  refine ⟨twoWay, fun {parent child} above => ?_, ?_⟩
  · obtain ⟨parentLinked, childLinked⟩ := links.linked (shrinks.ancestors _ above)
    have below := (twoWay parent child).mp above
    refine ⟨by_contra fun gone => ?_, by_contra fun gone => ?_⟩
    · exact notMem_empty child ((shrinks.bare parentLinked gone).2 ▸ below)
    · exact notMem_empty parent ((shrinks.bare childLinked gone).1 ▸ above)
  · obtain ⟨rank, bound, low, grows⟩ := links.ranked
    exact ⟨rank, bound, low, fun above => grows (shrinks.ancestors _ above)⟩

theorem WellLinked.pending (unlinked : ¬ tree.Linked newNode) : tree.Pending newNode where
  twoWay := links.twoWay
  linked above := (links.linked above).imp_right .inl
  childless := (links.bare unlinked).2
  ranked := links.ranked

theorem WellLinked.linkNode (unlinked : ¬ tree.Linked newNode) {setPrevNodes : Finset CTreeNodeRef}
    (known : ∀ parent ∈ setPrevNodes, tree.Linked parent) : (tree.linkNode newNode setPrevNodes).Pending newNode := by
  have stays {node : CTreeNodeRef} (linked : tree.Linked node) : (tree.linkNode newNode setPrevNodes).Linked node :=
    (linked_relink_iff (tree.sameNodes_linkNode newNode setPrevNodes)).mpr linked
  have other {node : CTreeNodeRef} (linked : tree.Linked node) : node ≠ newNode := fun self => unlinked (self ▸ linked)
  refine ⟨fun parent child => ?_, fun {parent child} above => ?_, ?_, ?_⟩
  · rw [mem_setAncestors_linkNode, mem_setDescendants_linkNode, links.twoWay]
  · rw [mem_setAncestors_linkNode] at above
    rcases above with above | ⟨self, listed⟩
    · exact ⟨stays (links.linked above).1, .inl (stays (links.linked above).2)⟩
    · exact ⟨stays (known parent listed), .inr self⟩
  · refine eq_empty_of_forall_notMem fun child below => ?_
    rcases (mem_setDescendants_linkNode ..).mp below with below | ⟨-, listed⟩
    · exact notMem_empty child ((links.bare unlinked).2 ▸ below)
    · exact unlinked (known newNode listed)
  · obtain ⟨rank, bound, low, grows⟩ := links.ranked
    refine ⟨update rank newNode (bound + 1), bound + 1, fun node => ?_, fun {parent child} above => ?_⟩
    · by_cases self : node = newNode
      · rw [self, update_self]
      · rw [update_of_ne self]
        exact (low node).trans (Nat.le_succ bound)
    · rcases (mem_setAncestors_linkNode ..).mp above with above | ⟨rfl, listed⟩
      · rw [update_of_ne (other (links.linked above).1), update_of_ne (other (links.linked above).2)]
        exact grows above
      · rw [update_of_ne (other (known parent listed)), update_self]
        exact Nat.lt_succ_of_le (low parent)

end

theorem Pending.unlinkNode (pending : tree.Pending newNode) : (tree.unlinkNode newNode).WellLinked := by
  have stays {node : CTreeNodeRef} (linked : tree.Linked node) : (tree.unlinkNode newNode).Linked node :=
    (linked_relink_iff (tree.sameNodes_unlinkNode newNode)).mpr linked
  refine ⟨pending.twoWay.unlinkNode pending.childless, fun {parent child} above => ?_, ?_⟩
  · obtain ⟨other, above⟩ := (mem_setAncestors_unlinkNode ..).mp above
    obtain ⟨parentLinked, childLinked⟩ := pending.linked above
    exact ⟨stays parentLinked, stays (childLinked.resolve_right other)⟩
  · obtain ⟨rank, bound, low, grows⟩ := pending.ranked
    exact ⟨rank, bound, low, fun above => grows ((mem_setAncestors_unlinkNode ..).mp above).2⟩

theorem Pending.admitNode (pending : tree.Pending newNode) (fresh : (tree.heap newNode).hash ∉ tree.dag)
    (localSpends : MultiMap COutPoint CDagSpend) : (tree.admitNode newNode localSpends).WellLinked where
  twoWay := pending.twoWay
  linked above := by
    obtain ⟨parentLinked, childLinked⟩ := pending.linked above
    exact ⟨(linked_admit_iff fresh).mpr (.inl parentLinked), (linked_admit_iff fresh).mpr childLinked⟩
  ranked := pending.ranked

end Links

end Nexa.TreeState
