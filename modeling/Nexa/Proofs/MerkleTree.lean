import Nexa.Proofs.MerkleCommands

/-! # Multiproofs of a tree

A binary tree with empty leaves, some of whose other leaves are selected, and the proof that
`op_merkleroot.md` gives for the selected ones. Its evaluation climbs through the whole tree: it ends
with the root and has made the climbs of one run after the other.
-/

namespace Nexa

open List

/-- The bytes of a hash. -/
abbrev Digest (hashSize : ℕ) := { hash : Bytes // hash.length = hashSize }

/-- A hasher of a defined algorithm. -/
def hasherOf {hashSize : ℕ} (digest : Bytes → Digest hashSize) (message : Bytes) : Option Bytes :=
  some (digest message).val

inductive MerkleTree (hashSize : ℕ) where
  | empty
  | leaf (selected : Bool) (hash : Digest hashSize)
  | node (left right : MerkleTree hashSize)
deriving DecidableEq, Repr

namespace MerkleTree

variable {hashSize : ℕ}

/-- A tree without any leaf that is not empty. -/
def isEmpty : MerkleTree hashSize → Bool
  | empty => true
  | leaf _ _ => false
  | node left right => left.isEmpty && right.isEmpty

/-- The selected leaves from left to right. -/
def selected : MerkleTree hashSize → List (Digest hashSize)
  | empty => []
  | leaf selected hash => if selected then [hash] else []
  | node left right => left.selected ++ right.selected

/-- For each selected leaf the way to the root: on each level whether it comes from the right. -/
def paths : MerkleTree hashSize → List (List Bool)
  | empty => []
  | leaf selected _ => if selected then [[]] else []
  | node left right => left.paths.map (· ++ [false]) ++ right.paths.map (· ++ [true])

def height : MerkleTree hashSize → ℕ
  | empty | leaf _ _ => 0
  | node left right => max left.height right.height + 1

/-- How a node with nothing selected is passed on the way up: `empty` if it is, its hash otherwise. -/
def siblingClimb (sibling : MerkleTree hashSize) (isEmpty hasHash : Climb) : Climb :=
  if sibling.isEmpty then isEmpty else hasHash

/-- The runs of the selected leaves: those that are closed by a push and the last one, which arrives
at the root of the tree. -/
structure Climbs where
  closed : List Run := []
  current : Run := []

def climbs : MerkleTree hashSize → Climbs
  | empty | leaf _ _ => {}
  | node left right =>
    if left.selected = [] then
      { right.climbs with
        current := right.climbs.current ++ [left.siblingClimb .leftIsEmpty .leftSibling] }
    else if right.selected = [] then
      { left.climbs with
        current := left.climbs.current ++ [right.siblingClimb .rightIsEmpty .rightSibling] }
    else
      { closed := left.climbs.closed ++ (left.climbs.current ++ [.push]) :: right.climbs.closed
        current := right.climbs.current ++ [.pop] }

/-- One run for each selected leaf. -/
def runs (tree : MerkleTree hashSize) : List Run := tree.climbs.closed ++ [tree.climbs.current]

variable (digest : Bytes → Digest hashSize)

/-- The hash of a node is taken over its two children; two empty ones make an empty node. -/
def root : MerkleTree hashSize → Bytes
  | empty => emptyNode
  | leaf _ hash => hash.val
  | node left right => if left.isEmpty && right.isEmpty then emptyNode else (digest (left.root ++ right.root)).val

/-- The command that passes a sibling with nothing selected. -/
def siblingCommand (sibling : MerkleTree hashSize) (isEmpty hasHash : Climb) : ProofCommand :=
  if sibling.isEmpty then .plain isEmpty else .sibling hasHash (sibling.root digest)

/-- The proof for the selected leaves, as documented: the next element is proven within the sibling
subtree between a push and a pop; other siblings are passed. -/
def proof : MerkleTree hashSize → List ProofCommand
  | empty | leaf _ _ => []
  | node left right =>
    if left.selected = [] then right.proof ++ [left.siblingCommand digest .leftIsEmpty .leftSibling]
    else if right.selected = [] then left.proof ++ [right.siblingCommand digest .rightIsEmpty .rightSibling]
    else left.proof ++ .plain .push :: right.proof ++ [.plain .pop]

def proofBytes (tree : MerkleTree hashSize) : Bytes := (tree.proof digest).flatMap ProofCommand.bytes

variable {digest}

variable {tree : MerkleTree hashSize}

theorem root_of_isEmpty (none : tree.isEmpty = true) : tree.root digest = emptyNode := by
  cases tree with
  | empty => rfl
  | leaf _ _ => cases none
  | node left right =>
    rw [isEmpty] at none
    rw [root, if_pos none]

theorem length_root (some : tree.isEmpty = false) : (tree.root digest).length = hashSize := by
  cases tree with
  | empty => cases some
  | leaf _ hash => exact hash.property
  | node left right =>
    rw [isEmpty] at some
    rw [root, if_neg (by simp [some])]
    exact (digest _).property

theorem isEmpty_eq_false_of_selected (some : tree.selected ≠ []) : tree.isEmpty = false := by
  induction tree with
  | empty => exact absurd rfl some
  | leaf _ _ => rfl
  | node left right ihLeft ihRight =>
    rw [selected, ne_eq, append_eq_nil_iff, not_and_or] at some
    obtain some | some := some
    · simp [isEmpty, ihLeft some]
    · simp [isEmpty, ihRight some]

/-- The node of a child and its sibling; the bit tells whether the child is on the right. -/
def join (bit : Bool) (child sibling : MerkleTree hashSize) : MerkleTree hashSize :=
  bif bit then node sibling child else node child sibling

/-- How a sibling with nothing selected is passed. -/
def passing (bit : Bool) (sibling : MerkleTree hashSize) : Climb :=
  bif bit then sibling.siblingClimb .leftIsEmpty .leftSibling else sibling.siblingClimb .rightIsEmpty .rightSibling

/-- Induction over the trees with selected leaves, by the children that hold them. -/
theorem selected_induction {motive : (tree : MerkleTree hashSize) → tree.selected ≠ [] → Prop}
    (leaf : ∀ hash some, motive (leaf true hash) some)
    (pass : ∀ bit child sibling (someChild : child.selected ≠ []) (_ : sibling.selected = []) some,
      motive child someChild → motive (join bit child sibling) some)
    (both : ∀ left right (someLeft : left.selected ≠ []) (someRight : right.selected ≠ []) some,
      motive left someLeft → motive right someRight → motive (node left right) some)
    (tree : MerkleTree hashSize) (some : tree.selected ≠ []) : motive tree some := by
  induction tree with
  | empty => exact absurd rfl some
  | leaf selected hash =>
    cases selected with
    | false => exact absurd rfl some
    | true => exact leaf hash some
  | node left right ihLeft ihRight =>
    by_cases noLeft : left.selected = []
    · by_cases noRight : right.selected = []
      · exact absurd (by rw [selected, noLeft, noRight, nil_append]) some
      · exact pass true right left noRight noLeft some (ihRight noRight)
    · by_cases noRight : right.selected = []
      · exact pass false left right noLeft noRight some (ihLeft noLeft)
      · exact both left right noLeft noRight some (ihLeft noLeft) (ihRight noRight)

variable {left right child sibling : MerkleTree hashSize} {bit : Bool}

theorem bit_passing : (passing bit sibling).bit = bit := by
  unfold passing siblingClimb
  cases bit <;> cases sibling.isEmpty <;> rfl

theorem selected_join (none : sibling.selected = []) : (join bit child sibling).selected = child.selected := by
  cases bit <;> simp [join, selected, none]

theorem climbs_join (some : child.selected ≠ []) (none : sibling.selected = []) : (join bit child sibling).climbs =
    { child.climbs with current := child.climbs.current ++ [passing bit sibling] } := by
  cases bit <;> simp [join, passing, climbs, some, none]

theorem climbs_node_of_both (someLeft : left.selected ≠ []) (someRight : right.selected ≠ []) :
    (node left right).climbs =
      { closed := left.climbs.closed ++ (left.climbs.current ++ [.push]) :: right.climbs.closed
        current := right.climbs.current ++ [.pop] } := by
  rw [climbs, if_neg someLeft, if_neg someRight]

theorem runs_node_of_both (someLeft : left.selected ≠ []) (someRight : right.selected ≠ []) :
    (node left right).runs = (left.climbs.closed ++ [left.climbs.current ++ [.push]]) ++
      (right.climbs.closed ++ [right.climbs.current ++ [.pop]]) := by
  simp [runs, climbs_node_of_both someLeft someRight]

/-- The closed runs are those of all selected leaves but the last. -/
theorem length_closed (some : tree.selected ≠ []) : tree.climbs.closed.length + 1 = tree.selected.length := by
  induction tree, some using selected_induction with
  | leaf hash => rfl
  | pass bit child sibling someChild none _ ih => rw [climbs_join someChild none, selected_join none, ih]
  | both left right someLeft someRight _ ihLeft ihRight =>
    rw [climbs_node_of_both someLeft someRight, selected]
    simp only [length_append, length_cons]
    omega

/-! ## The evaluation -/

/-- The state at the first selected leaf of a subtree. -/
def loaded (pos : ℕ) (first : Digest hashSize) (evalStack : List Bytes) (infos : List ElementInfo) : MultiproofState :=
  { elementPos := pos, cur := first.val, depth := 0, evalStack, infos }

/-- The state at the root of a subtree after its climbs. -/
def Climbs.arrived (climbs : Climbs) (pos : ℕ) (cur : Bytes) (evalStack : List Bytes) (infos : List ElementInfo) :
    MultiproofState :=
  { elementPos := pos + climbs.closed.length, cur, depth := climbs.current.length, evalStack
    infos := applyRun (pos + climbs.closed.length) 0 climbs.current (applyRuns pos climbs.closed infos) }

theorem Climbs.climb_arrived (climbs : Climbs) (pos : ℕ) (cur next : Bytes) (evalStack : List Bytes)
    (infos : List ElementInfo) (step : Climb) :
    (climbs.arrived pos cur evalStack infos).climb next step.bit.toNat step.adjacencyMask =
      Climbs.arrived { climbs with current := climbs.current ++ [step] } pos next evalStack infos := by
  simp [Climbs.arrived, MultiproofState.climb, applyRun_append, applyRun]

theorem ne_nil_of_isEmptyNode {node : Bytes} (some : isEmptyNode node = false) : node ≠ [] := by
  rintro rfl
  exact absurd some (by decide)

theorem isEmptyNode_root (wide : 2 ≤ hashSize) (some : tree.selected ≠ []) :
    isEmptyNode (tree.root digest) = false := by
  have length : (tree.root digest).length = hashSize := length_root (isEmpty_eq_false_of_selected some)
  have notNil : tree.root digest ≠ [] := fun none => by
    rw [none, length_nil] at length
    omega
  have notEmpty : tree.root digest ≠ emptyNode := fun none => by
    rw [none, emptyNode, length_singleton] at length
    omega
  simp [isEmptyNode, notNil, notEmpty]

theorem complete_siblingCommand {isEmpty hasHash : Climb} (plain : isEmpty.hasHash = false)
    (hash : hasHash.hasHash = true) : (sibling.siblingCommand digest isEmpty hasHash).Complete hashSize := by
  unfold siblingCommand
  cases none : sibling.isEmpty with
  | true => exact plain
  | false => exact ⟨hash, length_root none⟩

theorem complete_proof (tree : MerkleTree hashSize) : ∀ command ∈ tree.proof digest, command.Complete hashSize := by
  induction tree with
  | empty => simp [proof]
  | leaf _ _ => simp [proof]
  | node left right ihLeft ihRight =>
    rw [proof]
    split_ifs
    · exact forall_mem_append.mpr ⟨ihRight, forall_mem_singleton.mpr (complete_siblingCommand rfl rfl)⟩
    · exact forall_mem_append.mpr ⟨ihLeft, forall_mem_singleton.mpr (complete_siblingCommand rfl rfl)⟩
    · exact forall_mem_append.mpr ⟨forall_mem_append.mpr ⟨ihLeft, forall_mem_cons.mpr ⟨rfl, ihRight⟩⟩,
        forall_mem_singleton.mpr rfl⟩

variable {elements : List Bytes} {state : MultiproofState}

/-- The last two nodes in the order of the tree. -/
def children (bit : Bool) (child sibling : Bytes) : Bytes := bif bit then sibling ++ child else child ++ sibling

theorem root_join (some : child.selected ≠ []) : (join bit child sibling).root digest =
    (digest (children bit (child.root digest) (sibling.root digest))).val := by
  cases bit <;> simp [join, root, children, isEmpty_eq_false_of_selected some]

/-- A sibling with nothing selected is passed on either side, be it empty or not. -/
theorem step_join (some : child.selected ≠ []) (none : sibling.selected = []) :
    ∃ command, (join bit child sibling).proof digest = child.proof digest ++ [command] ∧
      ∀ state : MultiproofState, isEmptyNode state.cur = false →
        command.step (hasherOf digest) elements state = Option.some (state.climb
          (digest (children bit state.cur (sibling.root digest))).val (passing bit sibling).bit.toNat
          (passing bit sibling).adjacencyMask) := by
  refine ⟨bif bit then sibling.siblingCommand digest .leftIsEmpty .leftSibling
    else sibling.siblingCommand digest .rightIsEmpty .rightSibling, ?_, fun state present => ?_⟩
  · cases bit <;> simp [join, proof, some, none]
  · unfold passing siblingCommand siblingClimb
    cases nothing : sibling.isEmpty with
    | true =>
      rw [root_of_isEmpty nothing]
      cases bit <;> simp [ProofCommand.step, climbStep, hashNodes, hasherOf, children, present,
        ne_nil_of_isEmptyNode present, Climb.bit,
        Climb.adjacencyMask]
    | false => cases bit <;> rfl

/-- The evaluation of a subtree's proof climbs from its first selected leaf to its root. -/
def Evaluates (digest : Bytes → Digest hashSize) (elements : List Bytes) (tree : MerkleTree hashSize) : Prop :=
  ∀ (pos : ℕ) (first : Digest hashSize) (others : List (Digest hashSize)) (later evalStack : List Bytes)
    (infos : List ElementInfo),
    tree.selected = first :: others → elements.drop pos = tree.selected.map Subtype.val ++ later →
      evalCommands (hasherOf digest) elements (tree.proof digest) (loaded pos first evalStack infos) =
        some (tree.climbs.arrived pos (tree.root digest) evalStack infos)

theorem Evaluates.join (wide : 2 ≤ hashSize) (evaluates : child.Evaluates digest elements)
    (some : child.selected ≠ []) (none : sibling.selected = []) :
    (join bit child sibling).Evaluates digest elements := by
  intro pos first others later evalStack infos selection position
  rw [selected_join none] at selection position
  obtain ⟨command, shape, step⟩ := @step_join _ digest child sibling bit elements some none
  rw [shape, evalCommands_append, evaluates _ _ _ _ _ _ selection position, Option.bind_some, evalCommands_cons,
    step _ (isEmptyNode_root wide some), Climbs.climb_arrived, climbs_join some none, root_join some]
  rfl

/-- Where both children hold selected leaves, the left root waits on the stack for the right one. -/
theorem Evaluates.node_of_both (wide : 2 ≤ hashSize) (evalLeft : left.Evaluates digest elements)
    (evalRight : right.Evaluates digest elements) (someLeft : left.selected ≠ [])
    (someRight : right.selected ≠ []) : (node left right).Evaluates digest elements := by
  intro pos first others later evalStack infos selection position
  obtain ⟨head, tail, selectionLeft⟩ := exists_cons_of_ne_nil someLeft
  obtain ⟨next, tailRight, selectionRight⟩ := exists_cons_of_ne_nil someRight
  obtain rfl : head = first := by
    rw [selected, selectionLeft] at selection
    exact (List.cons.inj selection).1
  rw [selected, map_append, append_assoc] at position
  -- The runs that are closed when the next element is loaded.
  set closedLeft := left.climbs.closed ++ [left.climbs.current ++ [Climb.push]] with closedLeftDef
  have lengthLeft : closedLeft.length = left.climbs.closed.length + 1 := by simp [closedLeftDef]
  have lengthSelected : (left.selected.map Subtype.val).length = closedLeft.length := by
    rw [length_map, lengthLeft, length_closed someLeft]
  have positionRight : elements.drop (pos + closedLeft.length) = right.selected.map Subtype.val ++ later := by
    rw [← drop_drop, position, drop_left' lengthSelected]
  have loadedNext : elements[pos + (left.climbs.closed.length + 1)]? = some next.val := by
    have first := congrArg head? positionRight
    rwa [head?_drop, selectionRight, lengthLeft] at first
  -- a push at the root of a subtree closes its last run
  have pushed : (ProofCommand.plain .push).step (hasherOf digest) elements
      (left.climbs.arrived pos (left.root digest) evalStack infos) = some (loaded (pos + closedLeft.length) next
        (left.root digest :: evalStack) (applyRuns pos closedLeft infos)) := by
    simp [ProofCommand.step, climbStep, loadedNext, closedLeftDef, Climbs.arrived, loaded, applyRuns_append, applyRuns,
      applyRun_append, applyRun, Climb.bit, Climb.adjacencyMask, Nat.add_assoc]
  -- the climbs of the right subtree follow runs that are closed already
  have popped : (ProofCommand.plain .pop).step (hasherOf digest) elements
      (right.climbs.arrived (pos + closedLeft.length)
      (right.root digest) (left.root digest :: evalStack) (applyRuns pos closedLeft infos)) =
        some ((node left right).climbs.arrived pos ((node left right).root digest) evalStack infos) := by
    have hashed : hashNodes (hasherOf digest) (left.root digest) (right.root digest) =
        some ((node left right).root digest) := by
      have some : isEmptyNode (left.root digest) = false := isEmptyNode_root wide someLeft
      simp [hashNodes, some, ne_nil_of_isEmptyNode some, ne_nil_of_isEmptyNode (isEmptyNode_root wide someRight),
        hasherOf, root, isEmpty_eq_false_of_selected someLeft]
    simp [ProofCommand.step, climbStep, Climbs.arrived, MultiproofState.climb, hashed,
      climbs_node_of_both someLeft someRight, closedLeftDef, applyRuns_append, applyRuns, applyRun_append, applyRun,
      Climb.bit, Climb.adjacencyMask, Nat.add_assoc, Nat.add_comm 1]
  rw [proof, if_neg someLeft, if_neg someRight, evalCommands_append, evalCommands_append,
    evalLeft _ _ _ _ _ _ selectionLeft position, Option.bind_some, evalCommands_cons, pushed, Option.bind_some,
    evalRight _ _ _ _ _ _ selectionRight positionRight, Option.bind_some, evalCommands_cons, popped]
  rfl

theorem evaluates (wide : 2 ≤ hashSize) (some : tree.selected ≠ []) : tree.Evaluates digest elements := by
  induction tree, some using selected_induction with
  | leaf hash =>
    intro pos first others later evalStack infos selection _
    cases selection
    rfl
  | pass bit child sibling someChild none _ ih => exact ih.join wide someChild none
  | both left right someLeft someRight _ ihLeft ihRight => exact ihLeft.node_of_both wide ihRight someLeft someRight

end MerkleTree

end Nexa
