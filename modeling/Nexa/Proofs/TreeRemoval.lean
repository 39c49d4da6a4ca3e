import Nexa.Proofs.TreeOrder

/-! # Removing subblocks from an ordered tree

`RemoveFromGrove` changes the dag, the links and the uncles, and neither the numbers nor the flags of the
nodes that are left. What it takes out of the dag is on record.
-/

namespace Nexa.TailstormTree

open List AList Option

variable {ν : Type} {tree next last : TailstormTree ν} {rounds : ℕ} {node newNode : CTreeNodeRef}

theorem map_removeFromGrove (rounds : ℕ) (tree : TailstormTree ν) (node : CTreeNodeRef) :
    (removeFromGrove rounds tree node).map TailstormTree.toTreeState =
      TreeState.removeFromGrove rounds tree.toTreeState node := by
  induction rounds generalizing tree node with
  | zero => rfl
  | succ rounds ih =>
    let descendants := ((tree.expunge node).heap node).setDescendants.sort (· ≤ ·)
    have folded := map_foldlM_option (@TailstormTree.toTreeState ν) ih descendants (tree.expunge node)
    change Option.map _ (Option.bind _ _) = Option.bind (foldlM _ (tree.expunge node).toTreeState descendants) _
    rw [← folded]
    cases descendants.foldlM (removeFromGrove rounds) (tree.expunge node) with
    | none => rfl
    | some left => rfl

/-! ## The record of removals -/

/-- The subblocks that went on record since `tree` are in the region, and `next` has the others of the dag. -/
def Records (region : Set Uint256) (dag : AList fun _ : Uint256 => CTreeNodeRef) (tree next : TailstormTree ν) : Prop :=
  ∃ gone, next.expunged = gone ++ tree.expunged ∧ (∀ hash ∈ gone, hash ∈ region) ∧
    ∀ hash, next.dag.lookup hash = if hash ∈ gone then none else dag.lookup hash

namespace Records

variable {region smaller : Set Uint256} {dag : AList fun _ : Uint256 => CTreeNodeRef}

theorem refl (region : Set Uint256) (tree : TailstormTree ν) : Records region tree.dag tree tree :=
  ⟨[], rfl, by simp, by simp⟩

theorem mono (records : Records smaller dag tree next) (within : smaller ⊆ region) : Records region dag tree next := by
  obtain ⟨gone, record, inside, lookups⟩ := records
  exact ⟨gone, record, fun hash listed => within (inside hash listed), lookups⟩

theorem trans (first : Records region dag tree next) (second : Records region next.dag next last) :
    Records region dag tree last := by
  obtain ⟨gone, record, inside, lookups⟩ := first
  obtain ⟨more, recordToo, insideToo, lookupsToo⟩ := second
  refine ⟨more ++ gone, ?_, ?_, fun hash => ?_⟩
  · rw [recordToo, record, append_assoc]
  · intro hash listed
    exact (mem_append.mp listed).elim (insideToo hash) (inside hash)
  · rw [lookupsToo, lookups]
    by_cases late : hash ∈ more
    · simp [late]
    · simp [late]

theorem subset (records : Records region dag tree next) : {hash | hash ∈ next.dag} ⊆ {hash | hash ∈ dag} := by
  obtain ⟨gone, -, -, lookups⟩ := records
  intro hash listed
  have found := lookup_isSome.mpr listed
  rw [lookups] at found
  split_ifs at found
  · cases found
  · exact lookup_isSome.mp found

end Records

/-! ## What stays -/

/-- What a removal leaves of the rest of the tree. -/
structure Frame (tree next : TailstormTree ν) : Prop where
  nSequenceId : next.nSequenceId = tree.nSequenceId
  fProcessed : next.fProcessed = tree.fProcessed
  same : tree.heap.SameNodes next.heap
  fUncle : ∀ node, (next.heap node).fUncle = (tree.heap node).fUncle
  descendants : ∀ node, (next.heap node).setDescendants ⊆ (tree.heap node).setDescendants
  mapUncles : ∀ {hash uncle}, next.mapUncles.lookup hash = some uncle → tree.mapUncles.lookup hash = some uncle

namespace Frame

theorem refl (tree : TailstormTree ν) : tree.Frame tree :=
  ⟨rfl, rfl, fun _ => ⟨rfl, rfl⟩, fun _ => rfl, fun _ => subset_rfl, id⟩

theorem trans (first : tree.Frame next) (second : next.Frame last) : tree.Frame last where
  nSequenceId := second.nSequenceId.trans first.nSequenceId
  fProcessed := second.fProcessed.trans first.fProcessed
  same node := ⟨(second.same node).1.trans (first.same node).1, (second.same node).2.trans (first.same node).2⟩
  fUncle node := (second.fUncle node).trans (first.fUncle node)
  descendants node := (second.descendants node).trans (first.descendants node)
  mapUncles found := first.mapUncles (second.mapUncles found)

end Frame

theorem frame_expunge (tree : TailstormTree ν) (node : CTreeNodeRef) : tree.Frame (tree.expunge node) where
  nSequenceId := rfl
  fProcessed := rfl
  same _ := ⟨rfl, rfl⟩
  fUncle _ := rfl
  descendants _ := subset_rfl
  mapUncles found := by
    rw [expunge, lookup_erase_eq_ite] at found
    split_ifs at found
    exact found

theorem fUncle_unlinkNode (tree : TreeState) (node other : CTreeNodeRef) :
    ((tree.unlinkNode node).heap other).fUncle = (tree.heap other).fUncle := by
  by_cases self : other = node
  · subst self
    simp only [TreeState.unlinkNode, TreeState.clearLinks, Function.update_self]
    split_ifs <;> rfl
  · simp only [TreeState.unlinkNode, TreeState.clearLinks, Function.update_of_ne self]
    split_ifs <;> rfl

theorem frame_removeFromGrove (removed : removeFromGrove rounds tree node = some next) : tree.Frame next := by
  induction rounds generalizing tree node next with
  | zero => cases removed
  | succ rounds ih =>
    obtain ⟨left, folded, unlinked⟩ := bind_eq_some_iff.mp removed
    obtain rfl := some.inj unlinked
    have kept : tree.Frame left := foldlM_option_inv (tree.Frame ·)
      (fun _ framed removed => framed.trans (ih removed)) (frame_expunge tree node) folded
    have same := left.toTreeState.sameNodes_unlinkNode node
    refine ⟨kept.nSequenceId, kept.fProcessed, fun other => ?_, fun other => ?_, fun other child below => ?_,
      kept.mapUncles⟩
    · exact ⟨(same other).1.trans (kept.same other).1, (same other).2.trans (kept.same other).2⟩
    · exact (fUncle_unlinkNode left.toTreeState node other).trans (kept.fUncle other)
    · exact kept.descendants other ((left.toTreeState.mem_setDescendants_unlinkNode node).mp below).2.1

/-- The hashes of all children are in the region. -/
def ChildrenIn (region : Set Uint256) (tree : TailstormTree ν) : Prop :=
  ∀ parent, ∀ child ∈ (tree.heap parent).setDescendants, (tree.heap child).hash ∈ region

theorem Frame.childrenIn {region : Set Uint256} (frame : tree.Frame next) (inside : tree.ChildrenIn region) :
    next.ChildrenIn region := by
  intro parent child below
  rw [(frame.same child).1]
  exact inside parent child (frame.descendants parent below)

theorem records_removeFromGrove {region : Set Uint256} (inside : tree.ChildrenIn region)
    (own : (tree.heap node).hash ∈ region) (removed : removeFromGrove rounds tree node = some next) :
    Records region tree.dag tree next := by
  induction rounds generalizing tree node next with
  | zero => cases removed
  | succ rounds ih =>
    obtain ⟨left, folded, unlinked⟩ := bind_eq_some_iff.mp removed
    obtain rfl := some.inj unlinked
    have expunged : Records region tree.dag tree (tree.expunge node) := by
      refine ⟨[(tree.heap node).hash], rfl, by simpa using own, fun hash => ?_⟩
      simp only [mem_singleton]
      exact lookup_erase_eq_ite ..
    have kept : tree.Frame left ∧ Records region tree.dag tree left := by
      refine foldlM_option_inv (fun left => tree.Frame left ∧ Records region tree.dag tree left)
        (fun {left child _} listed kept removed => ?_) ⟨frame_expunge tree node, expunged⟩ folded
      have below : child ∈ (tree.heap node).setDescendants := (Finset.mem_sort _).mp listed
      have ownChild : (left.heap child).hash ∈ region := by
        rw [(kept.1.same child).1]
        exact inside node child below
      exact ⟨kept.1.trans (frame_removeFromGrove removed),
        kept.2.trans (ih (kept.1.childrenIn inside) ownChild removed)⟩
    exact kept.2

/-- Operations on the dag and its links lead from one tree to the other. -/
def DagRun : TreeState → TreeState → Prop :=
  Relation.ReflTransGen fun tree next => ∃ rounds op, TreeState.step rounds tree op = some next

theorem DagRun.reachable {tree next : TreeState} (run : DagRun tree next) (reachable : tree.Reachable) :
    next.Reachable := by
  induction run with
  | refl => exact reachable
  | tail _ last reached =>
    obtain ⟨rounds, op, ended⟩ := last
    exact reached.step ended

/-- What is left after a removal is a sound tree with fewer nodes and links. -/
structure Trims (tree next : TailstormTree ν) : Prop extends tree.Frame next where
  records : Records {hash | hash ∈ tree.dag} tree.dag tree next
  sound : next.toTreeState.Sound
  linked : ∀ {node}, next.Linked node → tree.Linked node
  ancestors : ∀ node, (next.heap node).setAncestors ⊆ (tree.heap node).setAncestors
  run : DagRun tree.toTreeState next.toTreeState

namespace Trims

theorem refl (sound : tree.toTreeState.Sound) : tree.Trims tree :=
  ⟨.refl tree, .refl _ tree, sound, id, fun _ => subset_rfl, .refl⟩

theorem trans (first : tree.Trims next) (second : next.Trims last) : tree.Trims last :=
  ⟨first.toFrame.trans second.toFrame, first.records.trans (second.records.mono first.records.subset), second.sound,
    fun linked => first.linked (second.linked linked), fun node => (second.ancestors node).trans (first.ancestors node),
    first.run.trans second.run⟩

end Trims

theorem trims_removeFromGrove (sound : tree.toTreeState.Sound) (linked : tree.Linked node)
    (removed : removeFromGrove rounds tree node = some next) : tree.Trims next := by
  have projected : TreeState.removeFromGrove rounds tree.toTreeState node = some next.toTreeState := by
    rw [← map_removeFromGrove, removed, map_some]
  obtain ⟨-, shrinks, -⟩ := TreeState.removes_removeFromGrove sound.links.removable linked.owns projected
  have inside : tree.ChildrenIn {hash | hash ∈ tree.dag} := by
    intro parent child below
    have childLinked := (sound.links.linked ((sound.links.twoWay parent child).mpr below)).2
    exact lookup_isSome.mp (isSome_of_eq_some childLinked)
  have own := lookup_isSome.mp (isSome_of_eq_some linked)
  refine ⟨frame_removeFromGrove removed, records_removeFromGrove inside own removed,
    sound.removeFromGrove linked projected, fun {other} otherLinked => ?_, shrinks.ancestors,
    .single ⟨rounds, .remove (tree.heap node).hash, ?_⟩⟩
  · rw [TreeState.Linked, (shrinks.same other).1] at otherLinked
    exact shrinks.lookup otherLinked
  · rw [TreeState.Linked] at linked
    rw [TreeState.step, linked]
    exact projected

theorem trims_removeBadSubblocks {vBad : List Uint256} (sound : tree.toTreeState.Sound)
    (removed : tree.removeBadSubblocks rounds vBad = some next) : tree.Trims next := by
  refine foldlM_option_inv _ (fun {left hash _} _ trims removed => ?_) (.refl sound) removed
  cases found : left.dag.lookup hash with
  | none =>
    rw [found] at removed
    exact some.inj removed ▸ trims
  | some node =>
    rw [found] at removed
    exact trims.trans (trims_removeFromGrove trims.sound (trims.sound.linked_of_lookup found) removed)

theorem removeFromGrove_of_childless (childless : (tree.heap node).setDescendants = ∅)
    (removed : removeFromGrove rounds tree node = some next) :
    next = { tree.expunge node with toTreeState := (tree.expunge node).toTreeState.unlinkNode node } := by
  cases rounds with
  | zero => cases removed
  | succ rounds =>
    have alone : ((tree.expunge node).heap node).setDescendants = ∅ := childless
    rw [removeFromGrove] at removed
    rw [alone, Finset.sort_empty] at removed
    exact (some.inj removed).symm

end Nexa.TailstormTree
