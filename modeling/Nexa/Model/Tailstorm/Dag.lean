import Mathlib.Data.Finset.Sort
import Mathlib.Data.Finset.Union
import Nexa.Model.Coins.CoinsView

/-! # The dag of subblocks

Nodes are known by their addresses, and most containers of `dag.cpp` are sorted by them. `GetDagScores`
credits a subblock with its ancestors and its descendants. `OrderDag` places parents before children
and prefers high scores.

The loops over links between nodes need not end. They take a number of rounds and return `none` when
these do not suffice.
-/

namespace Nexa

/-- A `CTreeNodeRef`: the address of a node. -/
abbrev CTreeNodeRef := ℕ

/-! ## Ancestors and scores -/

section

variable (parents : CTreeNodeRef → Finset CTreeNodeRef)

/-- The loop of `CalculateAncestors`. -/
def ancestorsLoop : ℕ → Finset CTreeNodeRef → Finset CTreeNodeRef → Option (Finset CTreeNodeRef)
  | 0, _, _ => none
  | rounds + 1, setAncestors, setLastAncestors =>
    if setLastAncestors = ∅ then some setAncestors
    else
      let setNextAncestors := setLastAncestors.biUnion parents
      ancestorsLoop rounds (setAncestors ∪ setNextAncestors) setNextAncestors

def calculateAncestors (rounds : ℕ) (node : CTreeNodeRef) : Option (Finset CTreeNodeRef) :=
  ancestorsLoop parents rounds (parents node) (parents node)

end

abbrev DagScores := AList fun _ : CTreeNodeRef => UInt32

/-- `mapBestDagScores.emplace(node, initial)` and then `mapBestDagScores[node] += score`. -/
def DagScores.credit (initial : UInt32) (scores : DagScores) (node : CTreeNodeRef) (score : UInt32) : DagScores :=
  scores.insert node ((scores.lookup node).getD initial + score)

def defaultUncleScoreAdjustment : ℕ := 4

section

variable (isUncle : CTreeNodeRef → Bool) (ancestors : CTreeNodeRef → Finset CTreeNodeRef)

/-- The loop of `GetDagScores` over the nodes of the dag. -/
def scoreNodes (nUncleScore nUncles : UInt32) : List CTreeNodeRef → DagScores → DagScores
  | [], scores => scores
  | node :: rest, scores =>
    if isUncle node then
      scoreNodes nUncleScore nUncles rest (if node ∈ scores then scores else scores.insert node nUncleScore)
    else
      let setAllAncestors := ancestors node
      let scores := scores.credit nUncles node (UInt32.ofNat (setAllAncestors.card + 1))
      scoreNodes nUncleScore nUncles rest
        ((setAllAncestors.sort (· ≤ ·)).foldl (fun scores ancestor => scores.credit nUncles ancestor 1) scores)

/-- `GetDagScores`, once the ancestors of the nodes are known. -/
def scoresOf (dagNodes : List CTreeNodeRef) : DagScores :=
  let nUncleScore :=
    if defaultUncleScoreAdjustment < dagNodes.length then UInt32.ofNat (dagNodes.length - defaultUncleScoreAdjustment)
    else 1
  let nUncles := UInt32.ofNat (dagNodes.countP isUncle)
  scoreNodes isUncle ancestors nUncleScore nUncles dagNodes ∅

end

/-! ## Nodes -/

/-- What is read of a subblock: `GetHash()`, `GetPrevHashes(GetBlockHeader())`, the summary block it builds on
and its transactions. -/
structure DagSubblock where
  hash : Uint256
  prevHashes : Finset Uint256
  hashPrevBlock : Uint256 := 0
  vtx : List CTransaction := []

/-- The fields of `CTreeNode` that say what a node is and how it is linked. -/
structure DagNode where
  hash : Uint256 := 0
  fUncle : Bool := false
  subblock : Option DagSubblock := none
  setAncestors : Finset CTreeNodeRef := ∅
  setDescendants : Finset CTreeNodeRef := ∅

/-- The nodes in memory. -/
abbrev DagHeap := CTreeNodeRef → DagNode

namespace DagHeap

variable (heap : DagHeap) (rounds : ℕ) (node : CTreeNodeRef)

def parents : Finset CTreeNodeRef := (heap node).setAncestors

def isUncle : Bool := (heap node).fUncle

/-- `GetDagScores`, which asks for the ancestors of all nodes but the uncles. -/
def getDagScores (dagNodes : List CTreeNodeRef) : Option DagScores :=
  if ∀ node ∈ dagNodes, heap.isUncle node ∨ (calculateAncestors heap.parents rounds node).isSome then
    some (scoresOf heap.isUncle (fun node => (calculateAncestors heap.parents rounds node).getD ∅) dagNodes)
  else none

/-! ## Dag order -/

/-- `mapChildren[node]`: the passed nodes with the given parent. -/
def children (nodes : List CTreeNodeRef) (node : CTreeNodeRef) : List CTreeNodeRef :=
  if node ∈ nodes then nodes.filter fun child => node ∈ heap.parents child else []

end DagHeap

section

variable (children : CTreeNodeRef → List CTreeNodeRef)

/-- The loop over `toVisit`, a stack whose top is the head here; the descendants in the order of their visit. -/
def descendantsLoop : ℕ → List CTreeNodeRef → Finset CTreeNodeRef → List CTreeNodeRef → Option (List CTreeNodeRef)
  | 0, _, _, _ => none
  | _ + 1, [], _, found => some found
  | rounds + 1, descendant :: toVisit, seen, found =>
    if descendant ∈ seen then descendantsLoop rounds toVisit seen found
    else
      descendantsLoop rounds ((children descendant).reverse ++ toVisit) (insert descendant seen)
        (found ++ [descendant])

/-- `mapReachScores[node]`: the scores of a node and of its descendants, highest first. -/
def reachScores (score : CTreeNodeRef → UInt32) (rounds : ℕ) (node : CTreeNodeRef) : Option (List UInt32) :=
  (descendantsLoop children rounds (children node).reverse ∅ []).map fun found =>
    (score node :: found.map score).insertionSort (· ≥ ·)

/-- The comparison `placedLater` of the queue. -/
def placedLater (reach : CTreeNodeRef → List UInt32) (hash : CTreeNodeRef → Uint256) (a b : CTreeNodeRef) : Bool :=
  if reach a ≠ reach b then reach a < reach b else hash b < hash a

/-- `ready.top()`: an element with none above it. -/
def topOf (later : CTreeNodeRef → CTreeNodeRef → Bool) : List CTreeNodeRef → Option CTreeNodeRef
  | [] => none
  | node :: ready => some (ready.foldl (fun top other => if later top other then other else top) node)

/-- `--mapUnplacedParents[child]` and a push when it comes to 0. -/
def release (state : List CTreeNodeRef × (CTreeNodeRef → ℕ)) (child : CTreeNodeRef) :
    List CTreeNodeRef × (CTreeNodeRef → ℕ) :=
  let left := state.2 child - 1
  (if left = 0 then child :: state.1 else state.1, Function.update state.2 child left)

def placeLoop (later : CTreeNodeRef → CTreeNodeRef → Bool) :
    ℕ → List CTreeNodeRef → (CTreeNodeRef → ℕ) → List CTreeNodeRef → Option (List CTreeNodeRef)
  | 0, _, _, _ => none
  | rounds + 1, ready, unplacedParents, ordered =>
    match topOf later ready with
    | none => some ordered
    | some node =>
      let (ready, unplacedParents) := (children node).foldl release (ready.erase node, unplacedParents)
      placeLoop later rounds ready unplacedParents (ordered ++ [node])

end

def DagHeap.orderDag (heap : DagHeap) (rounds : ℕ) (nodes : List CTreeNodeRef) : Option (List CTreeNodeRef) := do
  let scores ← heap.getDagScores rounds nodes
  let children := heap.children nodes
  let reach := reachScores children (fun node => (scores.lookup node).getD 0) rounds
  if ∀ node ∈ nodes, (reach node).isSome then
    let unplacedParents := fun node => (heap.parents node ∩ nodes.toFinset).card
    let ready := (nodes.dedup.insertionSort (· ≤ ·)).filter fun node => unplacedParents node = 0
    placeLoop children (placedLater (fun node => (reach node).getD []) fun node => (heap node).hash) rounds ready
      unplacedParents []
  else none

end Nexa
