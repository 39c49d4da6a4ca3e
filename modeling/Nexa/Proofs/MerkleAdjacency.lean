import Nexa.Proofs.MerkleRoot

/-! # The adjacency that OP_MERKLEROOT returns

Two elements are adjacent if no leaf lies in the gap between them. The common node of the two splits
the gap: a leaf on the left part clears bit 1 of the left element, a leaf on the right part is a left
sibling and clears bit 0 of the element it is charged to. Nothing clears both bits at once.
-/

namespace Nexa

open List

/-- For a list of leaves, the selected ones of which are marked, whether other leaves lie before the
first selected one, between two of them and after the last. -/
def gaps : List Bool → List Bool
  | [] => [false]
  | true :: leaves => false :: gaps leaves
  | false :: leaves => true :: (gaps leaves).tail

/-- The gaps of two lists behind each other, whose middle gap is one. -/
def joinGaps : List Bool → List Bool → List Bool
  | [], others => others
  | [_], [] => []
  | [last], first :: others => (last || first) :: others
  | gap :: next :: more, others => gap :: joinGaps (next :: more) others

/-- The adjacency of each selected leaf, from the gaps on its sides. -/
def adjacencies : List Bool → List UInt8
  | before :: after :: more => adjacencyBits (!before) (!after) :: adjacencies (after :: more)
  | _ => []

theorem adjacencyBits_not_inj {a b c d : Bool} : adjacencyBits (!a) (!b) = adjacencyBits (!c) (!d) ↔ a = c ∧ b = d := by
  revert a b c d
  decide

theorem exists_gaps_eq_cons (leaves : List Bool) : ∃ gap more, gaps leaves = gap :: more := by
  cases leaves with
  | nil => exact ⟨_, _, rfl⟩
  | cons leaf leaves => cases leaf <;> exact ⟨_, _, rfl⟩

theorem joinGaps_cons (gap : Bool) {gaps : List Bool} (some : gaps ≠ []) (others : List Bool) :
    joinGaps (gap :: gaps) others = gap :: joinGaps gaps others := by
  obtain ⟨next, more, rfl⟩ := exists_cons_of_ne_nil some
  rfl

theorem gaps_append (leaves others : List Bool) : gaps (leaves ++ others) = joinGaps (gaps leaves) (gaps others) := by
  induction leaves with
  | nil =>
    obtain ⟨first, more, all⟩ := exists_gaps_eq_cons others
    rw [nil_append, gaps, all, joinGaps, Bool.false_or]
  | cons leaf leaves ih =>
    obtain ⟨gap, more, all⟩ := exists_gaps_eq_cons leaves
    obtain ⟨first, rest, allOthers⟩ := exists_gaps_eq_cons others
    cases leaf with
    | true => rw [cons_append, gaps, gaps, ih, joinGaps_cons _ (by simp [all])]
    | false =>
      rw [cons_append, gaps, gaps, ih, all, allOthers]
      cases more <;> simp [joinGaps]

/-- Whether other leaves lie next to a selected leaf: before it, from the common node with the
selected leaf before it on, and after it, up to the common node with the next one. -/
structure Side where
  before : Bool := false
  after : Bool := false
deriving DecidableEq, Repr

namespace Side

/-- The gaps that the sides make, the first of which starts with `leading`. -/
def gaps : Bool → List Side → List Bool
  | leading, [] => [leading]
  | leading, side :: sides => (leading || side.before) :: gaps side.after sides

/-- Leaves in front of the first selected one. -/
def lead (more : Bool) : List Side → List Side
  | [] => []
  | side :: sides => { side with before := more || side.before } :: sides

/-- Leaves behind the last selected one. -/
def trail (more : Bool) : List Side → List Side
  | [] => []
  | [side] => [{ side with after := side.after || more }]
  | side :: next :: sides => side :: trail more (next :: sides)

theorem gaps_ne_nil (leading : Bool) (sides : List Side) : gaps leading sides ≠ [] := by
  cases sides <;> simp [gaps]

theorem gaps_append (leading : Bool) (sides others : List Side) :
    gaps leading (sides ++ others) = joinGaps (gaps leading sides) (gaps false others) := by
  induction sides generalizing leading with
  | nil => cases others <;> simp [gaps, joinGaps]
  | cons side sides ih => rw [cons_append, gaps, ih, gaps, joinGaps_cons _ (gaps_ne_nil _ _)]

variable {more : Bool} {sides : List Side}

theorem gaps_lead (some : sides ≠ []) : gaps false (lead more sides) = joinGaps [more] (gaps false sides) := by
  obtain ⟨side, rest, rfl⟩ := exists_cons_of_ne_nil some
  simp [lead, gaps, joinGaps]

theorem gaps_trail (some : sides ≠ []) (leading : Bool) :
    gaps leading (trail more sides) = joinGaps (gaps leading sides) [more] := by
  induction sides generalizing leading with
  | nil => exact absurd rfl some
  | cons side sides ih =>
    cases sides with
    | nil => rfl
    | cons next sides =>
      rw [trail, gaps, ih (by simp)]
      rfl

theorem after_lead (more : Bool) (sides : List Side) : (lead more sides).map after = sides.map after := by
  cases sides <;> rfl

theorem after_trail (more : Bool) {afters : List Bool} {last : Bool} (all : sides.map after = afters ++ [last]) :
    (trail more sides).map after = afters ++ [last || more] := by
  induction sides generalizing afters with
  | nil => simp at all
  | cons side sides ih =>
    cases sides with
    | nil =>
      obtain ⟨rfl, rfl⟩ : afters = [] ∧ side.after = last := by
        cases afters <;> simp_all
      rfl
    | cons next sides =>
      cases afters with
      | nil => simp at all
      | cons first afters =>
        obtain ⟨rfl, others⟩ := List.cons.inj all
        exact congrArg _ (ih others)

theorem adjacencies_iff (leading : Bool) (side : Side) (sides : List Side) {charged : List Bool}
    (length : charged.length = sides.length + 1) :
    zipWith (fun charge side => adjacencyBits (!charge) (!side.after)) charged (side :: sides) =
        adjacencies (gaps leading (side :: sides)) ↔
      (side :: sides).IsChain (fun side next => next.before → side.after) ∧
        charged = (leading || side.before) :: (side :: sides).dropLast.map after := by
  obtain ⟨charge, charges, rfl⟩ : ∃ charge charges, charged = charge :: charges :=
    exists_cons_of_length_eq_add_one length
  induction sides generalizing leading side charge charges with
  | nil =>
    obtain rfl : charges = [] := by simpa using length
    simp only [zipWith_cons_cons, zipWith_nil_left, gaps, adjacencies, List.cons.injEq, and_true,
      adjacencyBits_not_inj, dropLast_singleton, map_nil]
    exact ⟨fun first => ⟨.singleton side, first⟩, And.right⟩
  | cons next sides ih =>
    obtain ⟨nextCharge, charges, rfl⟩ : ∃ charge more, charges = charge :: more :=
      exists_cons_of_length_eq_add_one (Nat.succ.inj length)
    have rest := ih side.after next nextCharge charges (Nat.succ.inj length)
    rw [zipWith_cons_cons, gaps, gaps, adjacencies, List.cons.injEq, adjacencyBits_not_inj, ← gaps, rest,
      isChain_cons_cons, dropLast_cons_cons, map_cons]
    constructor
    · rintro ⟨⟨first, both⟩, chain, others⟩
      refine ⟨⟨fun before => by simpa [before] using both, chain⟩, ?_⟩
      rw [first, others, ← both]
    · rintro ⟨⟨both, chain⟩, all⟩
      obtain ⟨first, others⟩ := List.cons.inj all
      have gap : side.after = (side.after || next.before) := by
        cases before : next.before with
        | false => rw [Bool.or_false]
        | true => rw [Bool.or_true, both before]
      refine ⟨⟨first, gap⟩, chain, ?_⟩
      rw [others, ← gap]

end Side

/-- For each element whether a left sibling is charged to it; `upper` is the length of the run before. -/
def chargedLefts : ℕ∞ → List Run → List Bool
  | _, [] => []
  | upper, run :: runs => chargedLeft upper 0 (run :: runs) :: chargedLefts run.length runs

theorem length_chargedLefts (upper : ℕ∞) (runs : List Run) : (chargedLefts upper runs).length = runs.length := by
  induction runs generalizing upper with
  | nil => rfl
  | cons run runs ih => rw [chargedLefts, length_cons, ih, length_cons]

theorem Run.hasLeftSibling_eq_true_iff {run : Run} {lower : ℕ} {upper : ℕ∞} : run.hasLeftSibling lower upper = true ↔
      ∃ depth, run[depth]? = some .leftSibling ∧ lower ≤ depth ∧ (depth : ℕ∞) < upper := by
  simp [hasLeftSibling, mem_zipIdx_iff_getElem?]

theorem chargedLeft_eq_true_iff {runs : List Run} {lower : ℕ} {upper : ℕ∞} : chargedLeft upper lower runs = true ↔
      ∃ later depth, (runs.getD later [])[depth]? = some .leftSibling ∧ lower ≤ depth ∧ (depth : ℕ∞) < upper ∧
        ∀ between < later, (runs.getD between []).length ≤ depth := by
  induction runs generalizing lower with
  | nil => simp [chargedLeft]
  | cons run runs ih =>
    rw [chargedLeft, Bool.or_eq_true, Run.hasLeftSibling_eq_true_iff, ih]
    constructor
    · rintro (⟨depth, here, above, below⟩ | ⟨later, depth, there, above, below, reached⟩)
      · exact ⟨0, depth, here, above, below, by simp⟩
      · refine ⟨later + 1, depth, there, (le_max_left ..).trans above, below, fun between before => ?_⟩
        cases between with
        | zero => exact (le_max_right ..).trans above
        | succ between => exact reached between (Nat.lt_of_succ_lt_succ before)
    · rintro ⟨later, depth, there, above, below, reached⟩
      cases later with
      | zero => exact .inl ⟨depth, there, above, below⟩
      | succ later =>
        exact .inr ⟨later, depth, there, max_le above (reached 0 (Nat.succ_pos _)), below,
          fun between before => reached (between + 1) (Nat.succ_lt_succ before)⟩

/-- A left sibling in the run of the element or a later one is above the runs from the element up to it, and not
above the run before the element. -/
def LeftCharged (runs : List Run) (element : ℕ) : Prop :=
  ∃ later depth, (runs.getD (element + later) [])[depth]? = some .leftSibling ∧
    (∀ between < later, (runs.getD (element + between) []).length ≤ depth) ∧
    ∀ before, element = before + 1 → depth < (runs.getD before []).length

theorem chargedLefts_getElem? {upper : ℕ∞} {runs : List Run} {element : ℕ} (listed : element < runs.length) :
    (chargedLefts upper runs)[element]? = some (chargedLeft
      (match element with | 0 => upper | before + 1 => (runs.getD before []).length) 0 (runs.drop element)) := by
  induction runs generalizing upper element with
  | nil => cases listed
  | cons run runs ih =>
    cases element with
    | zero => rfl
    | succ element =>
      rw [chargedLefts, getElem?_cons_succ, ih (Nat.lt_of_succ_lt_succ listed), drop_succ_cons]
      cases element <;> rfl

theorem chargedLefts_iff {runs : List Run} {element : ℕ} (listed : element < runs.length) :
    (chargedLefts ⊤ runs)[element]? = some true ↔ LeftCharged runs element := by
  rw [chargedLefts_getElem? listed, Option.some_inj, chargedLeft_eq_true_iff]
  refine exists_congr fun later => exists_congr fun depth => ?_
  simp only [getD_eq_getElem?_getD, getElem?_drop]
  cases element with
  | zero => simp
  | succ before => simp [and_comm]

theorem Mark.adjacency_ofRuns (upper : ℕ∞) (runs : List Run) :
    (ofRuns upper runs).map (fun mark => mark.info.adjacency) =
      zipWith (fun charge after => adjacencyBits (!charge) (!after)) (chargedLefts upper runs)
        (runs.map fun run => decide (Climb.rightSibling ∈ run)) := by
  induction runs generalizing upper with
  | nil => rfl
  | cons run runs ih => rw [ofRuns, map_cons, ih, chargedLefts, map_cons, zipWith_cons_cons, info]

namespace MerkleTree

variable {hashSize : ℕ} {tree left right : MerkleTree hashSize}

/-- The leaves that are not empty, from left to right, and whether they are selected. -/
def leaves : MerkleTree hashSize → List Bool
  | empty => []
  | leaf selected _ => [selected]
  | node left right => left.leaves ++ right.leaves

/-- What lies next to the selected leaves on either side of their common nodes. -/
def sides : MerkleTree hashSize → List Side
  | empty => []
  | leaf selected _ => if selected then [{}] else []
  | node left right =>
    if left.selected = [] then Side.lead (!left.isEmpty) right.sides
    else if right.selected = [] then Side.trail (!right.isEmpty) left.sides
    else left.sides ++ right.sides

theorem gaps_leaves_of_none (none : tree.selected = []) : gaps tree.leaves = [!tree.isEmpty] := by
  induction tree with
  | empty => rfl
  | leaf selected hash =>
    cases selected with
    | false => rfl
    | true => cases none
  | node left right ihLeft ihRight =>
    obtain ⟨noLeft, noRight⟩ := append_eq_nil_iff.mp none
    rw [leaves, gaps_append, ihLeft noLeft, ihRight noRight, isEmpty, Bool.not_and, joinGaps]

theorem sides_node_of_both (someLeft : left.selected ≠ []) (someRight : right.selected ≠ []) :
    (node left right).sides = left.sides ++ right.sides := by
  rw [sides, if_neg someLeft, if_neg someRight]

theorem sides_join {child sibling : MerkleTree hashSize} {bit : Bool} (some : child.selected ≠ [])
    (none : sibling.selected = []) : (join bit child sibling).sides =
      bif bit then Side.lead (!sibling.isEmpty) child.sides else Side.trail (!sibling.isEmpty) child.sides := by
  cases bit <;> simp [join, sides, some, none]

theorem after_sides (some : tree.selected ≠ []) :
    tree.sides.map Side.after = tree.runs.map fun run => decide (Climb.rightSibling ∈ run) := by
  induction tree, some using selected_induction with
  | leaf hash => rfl
  | pass bit child sibling someChild none _ ih =>
    rw [runs, map_append] at ih
    rw [sides_join someChild none, runs, climbs_join someChild none]
    cases bit with
    | false => cases nothing : sibling.isEmpty <;> simp [Side.after_trail _ ih, passing, siblingClimb, nothing]
    | true => cases nothing : sibling.isEmpty <;> simp [Side.after_lead, ih, passing, siblingClimb, nothing]
  | both left right someLeft someRight _ ihLeft ihRight =>
    rw [sides_node_of_both someLeft someRight, map_append, ihLeft, ihRight, runs_node_of_both someLeft someRight]
    simp [runs]

theorem sides_ne_nil (some : tree.selected ≠ []) : tree.sides ≠ [] := by
  intro none
  have afters := after_sides some
  rw [none, runs] at afters
  simp at afters

theorem gaps_leaves (some : tree.selected ≠ []) : gaps tree.leaves = Side.gaps false tree.sides := by
  induction tree, some using selected_induction with
  | leaf hash => rfl
  | pass bit child sibling someChild none _ ih =>
    rw [sides_join someChild none]
    cases bit with
    | false => simp [join, leaves, gaps_append, ih, gaps_leaves_of_none none, Side.gaps_trail (sides_ne_nil someChild)]
    | true => simp [join, leaves, gaps_append, ih, gaps_leaves_of_none none, Side.gaps_lead (sides_ne_nil someChild)]
  | both left right someLeft someRight _ ihLeft ihRight =>
    rw [leaves, gaps_append, ihLeft, ihRight, sides_node_of_both someLeft someRight, Side.gaps_append]

/-- Whether leaves lie in front of the first element, or on the left part of the gap before another. -/
def leavesBefore (tree : MerkleTree hashSize) : ℕ → Bool
  | 0 => tree.sides.head?.any Side.before
  | before + 1 => tree.sides[before]?.any Side.after

/-- Every gap with leaves on its right part has leaves on its left part, and exactly the elements with
leaves on that part get a left sibling charged, or for the first element with leaves in front of it. -/
def ChargesGaps (tree : MerkleTree hashSize) : Prop := tree.sides.IsChain (fun side next => next.before → side.after) ∧
    ∀ element < tree.runs.length, LeftCharged tree.runs element ↔ tree.leavesBefore element = true

theorem adjacency_infos_iff (some : tree.selected ≠ []) :
    tree.infos.map ElementInfo.adjacency = adjacencies (gaps tree.leaves) ↔ tree.ChargesGaps := by
  obtain ⟨side, sides, all⟩ := exists_cons_of_ne_nil (sides_ne_nil some)
  have afters := after_sides some
  have length : (chargedLefts ⊤ tree.runs).length = sides.length + 1 := by
    have lengths := congrArg List.length afters
    rw [length_map, length_map, all, length_cons] at lengths
    rw [length_chargedLefts, ← lengths]
  have found : tree.infos.map ElementInfo.adjacency =
      zipWith (fun charge side => adjacencyBits (!charge) (!side.after)) (chargedLefts ⊤ tree.runs)
        tree.sides := by
    rw [infos, map_map]
    refine (Mark.adjacency_ofRuns ⊤ tree.runs).trans ?_
    rw [← afters, zipWith_map_right]
  rw [found, gaps_leaves some, ChargesGaps, all, Side.adjacencies_iff false side sides length, ← length_chargedLefts ⊤,
    length, List.ext_getElem?_iff]
  have due {element : ℕ} (listed : element < sides.length + 1) :
      (side.before :: (side :: sides).dropLast.map Side.after)[element]? = Option.some (tree.leavesBefore element) := by
    cases element with
    | zero => simp [leavesBefore, all]
    | succ before =>
      have place : before < (side :: sides).length - 1 := by simpa using listed
      have inside : before < (side :: sides).length := by omega
      rw [getElem?_cons_succ, getElem?_map, getElem?_dropLast, if_pos place, leavesBefore, all,
        getElem?_eq_getElem inside]
      rfl
  refine and_congr_right fun _ => ⟨fun same element listed => ?_, fun same element => ?_⟩
  · rw [← chargedLefts_iff (by rwa [← length_chargedLefts ⊤, length]), same element, Bool.false_or, due listed,
      Option.some_inj]
  · rw [Bool.false_or]
    by_cases listed : element < sides.length + 1
    · have here := (chargedLefts_iff (by rwa [← length_chargedLefts ⊤, length])).trans (same element listed)
      rw [getElem?_eq_getElem (length ▸ listed), Option.some_inj] at here
      rw [due listed, getElem?_eq_getElem (length ▸ listed), Bool.eq_iff_iff.mpr here]
    · rw [getElem?_eq_none (by omega), getElem?_eq_none (by simp; omega)]

end MerkleTree

namespace TreeCall

variable {ripemd160 : Ripemd160} (beyond : ℕ → UInt8) (call : TreeCall ripemd160)

/-- The evaluation succeeds and returns for each element on which sides it is adjacent. -/
def ReturnsAdjacencies : Prop := ∃ infos, opMerkleRoot ripemd160 beyond (call.stack call.proof) =
      .ok (merkleRootResults call.opt call.root infos ++ call.remaining) ∧
    call.compute beyond call.proof = some (call.root, infos) ∧
    infos.map ElementInfo.adjacency = adjacencies (gaps call.tree.leaves)

theorem returnsAdjacencies_iff : call.ReturnsAdjacencies beyond ↔ call.tree.ChargesGaps := by
  rw [← MerkleTree.adjacency_infos_iff call.selected_ne_nil]
  constructor
  · rintro ⟨infos, -, computed, adjacency⟩
    rw [compute_proof] at computed
    cases computed
    exact adjacency
  · intro adjacency
    exact ⟨_, call.opMerkleRoot_proof beyond, call.compute_proof beyond, adjacency⟩

/-- The first leaf is returned as adjacent on both sides, though another one lies before the next. -/
theorem separated_adjacencies : adjacencies (gaps separated.tree.leaves) = [1, 2] ∧
      opMerkleRoot .unused cleared (separated.stack separated.proof) =
        .ok [.vch separated.root, .ofUint64 2, .ofUint64 3] ∧
      ¬separated.ReturnsAdjacencies cleared := by
  have found : separated.tree.infos = [{ index := 0, depth := 2 }, { index := 3, depth := 2, adjacency := 2 }] := by
    decide
  refine ⟨rfl, ?_, ?_⟩
  · have index : Nat.testBit 0x80303 returnIndexBit = false := by decide
    have depth : Nat.testBit 0x80303 returnDepthBit = false := by decide
    have adjacency : Nat.testBit 0x80303 returnAdjacencyBit = true := by decide
    have option : separated.opt = 0x80303 := rfl
    have remaining : separated.remaining = [] := rfl
    simp [opMerkleRoot_proof, found, merkleRootResults, option, remaining, index, depth, adjacency]
  · rintro ⟨infos, -, computed, adjacency⟩
    rw [compute_proof] at computed
    cases computed
    cases adjacency

end TreeCall

end Nexa
