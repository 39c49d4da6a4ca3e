import Nexa.Model.Script.MerkleProof
import Nexa.ToMathlib.Overlay

/-! # What the evaluation of a multiproof learns about the elements

Each element starts one run of climbs, which ends where the element is pushed or at the root.
`updateIndex` extends every element that has no more levels than the current run: an element ends up
with its own run, laid over the runs of the elements behind it. A left sibling on level `d` is charged
to the first element with at most `d` levels, a right sibling to the element of the run.
-/

namespace Nexa

open List Nat

/-- One level of a climb, named by the command. -/
inductive Climb where
  | leftSibling
  | rightSibling
  | leftIsEmpty
  | rightIsEmpty
  | pop
  | push
deriving DecidableEq, Repr

namespace Climb

/-- Whether the climbing node is the right child. -/
def bit : Climb → Bool
  | leftSibling | leftIsEmpty | pop => true
  | rightSibling | rightIsEmpty | push => false

def adjacencyMask : Climb → UInt8
  | leftSibling => 0xFE
  | rightSibling => 0xFD
  | _ => 0xFF

end Climb

abbrev Run := List Climb

/-- The effect of a run on what is known about the elements, from level `depth` on. -/
def applyRun (elementPos : ℕ) : ℕ → Run → List ElementInfo → List ElementInfo
  | _, [], infos => infos
  | depth, climb :: run, infos =>
    applyRun elementPos (depth + 1) run (updateIndex infos elementPos depth climb.bit.toNat climb.adjacencyMask)

/-- The effect of the runs of the elements from `elementPos` on. -/
def applyRuns : ℕ → List Run → List ElementInfo → List ElementInfo
  | _, [], infos => infos
  | elementPos, run :: runs, infos => applyRuns (elementPos + 1) runs (applyRun elementPos 0 run infos)

theorem applyRun_append (elementPos depth : ℕ) (run next : Run) (infos : List ElementInfo) :
    applyRun elementPos depth (run ++ next) infos =
      applyRun elementPos (depth + run.length) next (applyRun elementPos depth run infos) := by
  induction run generalizing depth infos with
  | nil => rfl
  | cons climb run ih =>
    rw [cons_append, applyRun, applyRun, ih, length_cons, add_right_comm, add_assoc]

theorem applyRuns_append (elementPos : ℕ) (runs next : List Run) (infos : List ElementInfo) :
    applyRuns elementPos (runs ++ next) infos =
      applyRuns (elementPos + runs.length) next (applyRuns elementPos runs infos) := by
  induction runs generalizing elementPos infos with
  | nil => rfl
  | cons run runs ih =>
    rw [cons_append, applyRuns, applyRuns, ih, length_cons, add_right_comm, add_assoc]

/-- The index that the bits of a path give, the lowest level first. -/
def pathIndex : List Bool → ℕ
  | [] => 0
  | bit :: path => bit.toNat + 2 * pathIndex path

variable (path : List Bool)

theorem pathIndex_append (bit : Bool) : pathIndex (path ++ [bit]) = pathIndex path + bit.toNat * 2 ^ path.length := by
  induction path with
  | nil => simp [pathIndex]
  | cons head path ih =>
    rw [cons_append, pathIndex, pathIndex, ih, length_cons]
    ring

theorem pathIndex_lt : pathIndex path < 2 ^ path.length := by
  induction path with
  | nil => exact one_pos
  | cons head path ih =>
    have bit : head.toNat ≤ 1 := Bool.toNat_le head
    rw [pathIndex, length_cons]
    omega

theorem pathIndex_or (bit : Bool) (short : path.length < 64) :
    pathIndex path ||| bit.toNat * 2 ^ path.length % 2 ^ 64 = pathIndex (path ++ [bit]) := by
  have bound := pathIndex_lt path
  have word : 2 ^ path.length < 2 ^ 64 := Nat.pow_lt_pow_right (by omega) short
  rw [pathIndex_append]
  cases bit with
  | false => simp
  | true =>
    have disjoint := two_pow_add_eq_or_of_lt bound 1
    rw [mul_one] at disjoint
    rw [Bool.toNat_true, Nat.one_mul, Nat.mod_eq_of_lt word, Nat.add_comm, Nat.or_comm, disjoint]

/-- Bit 0 for the left side and bit 1 for the right side. -/
def adjacencyBits (left right : Bool) : UInt8 := (if left then 1 else 0) ||| (if right then 2 else 0)

theorem leftSet_climb (step : Climb) (leftSet : Bool) :
    (leftSet || decide (step.adjacencyMask &&& 1 = 0 ∧ leftSet = false)) =
      (leftSet || decide (step = .leftSibling)) := by
  revert leftSet
  cases step <;> decide

/-- What is known about an element: the levels it has and the sides on which no sibling was charged to it. -/
structure Mark where
  run : Run := []
  left : Bool := true
  right : Bool := true
deriving DecidableEq, Repr

namespace Mark

def info (mark : Mark) : ElementInfo where
  index := pathIndex (mark.run.map Climb.bit)
  depth := mark.run.length
  adjacency := adjacencyBits mark.left mark.right

/-- The marks after one more climb on level `depth`; the last mark is the one of the climbing element. -/
def climb (depth : ℕ) (step : Climb) : Bool → List Mark → List Mark
  | _, [] => []
  | leftSet, mark :: marks =>
    if mark.run.length ≤ depth then
      { run := mark.run ++ [step]
        left := mark.left && !(decide (step = .leftSibling) && !leftSet)
        right := mark.right && !(decide (step = .rightSibling) && marks.isEmpty) } ::
        climb depth step (leftSet || decide (step = .leftSibling)) marks
    else mark :: climb depth step leftSet marks

theorem updateIndexFrom_eq {elementPos depth : ℕ} (step : Climb) {marks : List Mark} (later : List ElementInfo)
    (deep : ∀ mark ∈ marks, depth ≤ mark.run.length) (short : depth < 64) (i : ℕ) (leftSet : Bool)
    (position : elementPos + 1 = i + marks.length) :
    updateIndexFrom elementPos depth step.bit.toNat step.adjacencyMask i leftSet (marks.map info ++ later) =
      (climb depth step leftSet marks).map info ++ later := by
  induction marks generalizing i leftSet with
  | nil =>
    have behind : elementPos < i := by
      rw [length_nil] at position
      omega
    cases later with
    | nil => rfl
    | cons info later => simp [updateIndexFrom, behind, climb]
  | cons mark marks ih =>
    rw [length_cons] at position
    rw [forall_mem_cons] at deep
    have inside : ¬elementPos < i := by omega
    have rest := fun set => ih deep.2 (i + 1) set (by omega)
    rw [map_cons, cons_append, updateIndexFrom, climb, if_neg inside]
    by_cases reached : mark.run.length ≤ depth
    · have level := le_antisymm reached deep.1
      have last : i = elementPos ↔ marks.isEmpty = true := by
        rw [isEmpty_iff_length_eq_zero]
        omega
      have index : mark.info.index ||| step.bit.toNat * 2 ^ depth % 2 ^ 64 =
          pathIndex ((mark.run ++ [step]).map Climb.bit) := by
        have bits := pathIndex_or (mark.run.map Climb.bit) step.bit (by rw [length_map]; omega)
        rw [length_map, level] at bits
        rw [map_append]
        exact bits
      have reachedInfo : mark.info.depth ≤ depth := reached
      rw [if_pos reachedInfo, if_pos reached]
      simp only [last, leftSet_climb, rest]
      congr 2
      · simp [level]
      · -- the left bit of the first element it extends is cleared, and the right bit of its own
        rw [show mark.info.adjacency = adjacencyBits mark.left mark.right from rfl]
        dsimp only
        generalize marks.isEmpty = isLast, mark.left = left, mark.right = right
        revert leftSet isLast left right
        cases step <;> decide
    · have later : ¬mark.info.depth ≤ depth := reached
      rw [if_neg later, if_neg reached, rest]
      rfl

end Mark

variable (run : Run)

/-- Whether the run has a left sibling on a level from `lower` on and below `upper`. -/
def Run.hasLeftSibling (lower : ℕ) (upper : ℕ∞) : Bool :=
  run.zipIdx.any fun (step, depth) => step = .leftSibling ∧ lower ≤ depth ∧ (depth : ℕ∞) < upper

variable (step : Climb)

theorem Run.hasLeftSibling_append (lower : ℕ) (upper : ℕ∞) : hasLeftSibling (run ++ [step]) lower upper =
      (hasLeftSibling run lower upper ||
        decide (step = .leftSibling ∧ lower ≤ run.length ∧ (run.length : ℕ∞) < upper)) := by
  simp [hasLeftSibling, zipIdx_append]

theorem Run.hasLeftSibling_max {lower level : ℕ} (upper : ℕ∞) (below : level ≤ lower) :
    hasLeftSibling run lower (max upper level) = hasLeftSibling run lower upper := by
  unfold hasLeftSibling
  congr 1
  funext ⟨step, depth⟩
  rw [decide_eq_decide]
  refine and_congr_right fun _ => and_congr_right fun high => ?_
  have notBelow : ¬(depth : ℕ∞) < level := by
    rw [cast_lt]
    omega
  rw [lt_max_iff, or_iff_left notBelow]

namespace Mark

/-- The mark of an element that is loaded. -/
def fresh : Mark := {}

/-- The marks after the beginning of a run of a new element, whose mark is the last one: `upper` is
the least number of levels of an element before. -/
noncomputable def afterRun (run : Run) : ℕ∞ → List Mark → List Mark
  | _, [] => []
  | upper, mark :: marks =>
    { run := mark.run.overlay run
      left := mark.left && !run.hasLeftSibling mark.run.length upper
      right := mark.right && !(marks.isEmpty && decide (Climb.rightSibling ∈ run)) } ::
      afterRun run (min upper mark.run.length) marks

variable (upper : ℕ∞) (marks : List Mark)

theorem afterRun_nil : afterRun [] upper marks = marks := by
  induction marks generalizing upper with
  | nil => rfl
  | cons mark marks ih => simp [afterRun, ih, Run.hasLeftSibling]

@[simp] theorem isEmpty_afterRun : (afterRun run upper marks).isEmpty = marks.isEmpty := by
  cases marks <;> rfl

theorem length_afterRun : (afterRun run upper marks).length = marks.length := by
  induction marks generalizing upper with
  | nil => rfl
  | cons mark marks ih => rw [afterRun, length_cons, ih, length_cons]

theorem le_length_of_mem_afterRun {run : Run} {upper : ℕ∞} {marks : List Mark} {mark : Mark}
    (member : mark ∈ afterRun run upper marks) : run.length ≤ mark.run.length := by
  induction marks generalizing upper with
  | nil => cases member
  | cons first marks ih =>
    rw [afterRun, mem_cons] at member
    obtain rfl | member := member
    · rw [length_overlay]
      exact le_max_right ..
    · exact ih member

theorem left_climb {lower : ℕ} (upper : ℕ∞) (left : Bool) (reached : lower ≤ run.length) :
    (left && !run.hasLeftSibling lower upper &&
        !(decide (step = .leftSibling) && !decide (step = .leftSibling ∧ upper ≤ run.length))) =
      (left && !Run.hasLeftSibling (run ++ [step]) lower upper) := by
  rw [Run.hasLeftSibling_append]
  by_cases sibling : step = .leftSibling
  · by_cases charged : upper ≤ run.length
    · simp [charged, not_lt.mpr]
    · simp [sibling, reached, not_le.mp charged]
  · simp [sibling]

theorem right_climb (right isLast : Bool) :
    (right && !(isLast && decide (Climb.rightSibling ∈ run)) && !(decide (step = .rightSibling) && isLast)) =
      (right && !(isLast && decide (Climb.rightSibling ∈ run ++ [step]))) := by
  by_cases sibling : step = .rightSibling
  · cases isLast <;> simp [sibling]
  · have other : ¬Climb.rightSibling = step := fun same => sibling same.symm
    simp [sibling, other]

theorem climb_afterRun (front : List Mark) :
    climb run.length step (decide (step = .leftSibling ∧ upper ≤ run.length)) (afterRun run upper (front ++ [fresh])) =
      afterRun (run ++ [step]) upper (front ++ [fresh]) := by
  induction front generalizing upper with
  | nil =>
    have left := left_climb run step upper true (zero_le run.length)
    have right := right_climb run step true true
    simp only [nil_append, afterRun, fresh, climb, nil_overlay, le_refl, if_true, length_nil, left, isEmpty_nil, right]
  | cons mark front ih =>
    rw [cons_append, afterRun, afterRun, climb, overlay_append_singleton]
    by_cases reached : mark.run.length ≤ run.length
    · have level : (mark.run.overlay run).length ≤ run.length := by
        rw [length_overlay]
        omega
      have set : (decide (step = .leftSibling ∧ upper ≤ run.length) || decide (step = .leftSibling)) =
          decide (step = .leftSibling ∧ min upper mark.run.length ≤ run.length) := by
        have low : min upper mark.run.length ≤ run.length := (min_le_right ..).trans (cast_le.mpr reached)
        by_cases sibling : step = .leftSibling <;> simp [sibling, low]
      rw [if_pos level, if_pos reached, left_climb run step upper mark.left reached, isEmpty_afterRun, right_climb, set,
        ih]
    · have level : ¬(mark.run.overlay run).length ≤ run.length := by
        rw [length_overlay]
        omega
      have set : decide (step = .leftSibling ∧ upper ≤ run.length) =
          decide (step = .leftSibling ∧ min upper mark.run.length ≤ run.length) := by
        have high : ¬(mark.run.length : ℕ∞) ≤ run.length := by rwa [cast_le]
        simp [high]
      have left : Run.hasLeftSibling (run ++ [step]) mark.run.length upper =
          run.hasLeftSibling mark.run.length upper := by
        simp [Run.hasLeftSibling_append, reached]
      have more : (front ++ [fresh]).isEmpty = false := by simp
      simp only [if_neg level, if_neg reached, left, set, ih, more, Bool.false_and]

theorem applyRun_eq (front : List Mark) (later : List ElementInfo) (before run : Run)
    (short : before.length + run.length ≤ 64) :
    applyRun front.length before.length run ((afterRun before ⊤ (front ++ [fresh])).map info ++ later) =
      (afterRun (before ++ run) ⊤ (front ++ [fresh])).map info ++ later := by
  induction run generalizing before with
  | nil => rw [append_nil, applyRun]
  | cons step run ih =>
    rw [length_cons] at short
    have climbed := climb_afterRun before step ⊤ front
    have unset : decide (step = .leftSibling ∧ (⊤ : ℕ∞) ≤ before.length) = false := by simp
    have longer : before.length + 1 = (before ++ [step]).length := by simp
    have position : front.length + 1 = 0 + (afterRun before ⊤ (front ++ [fresh])).length := by
      rw [length_afterRun]
      simp
    rw [unset] at climbed
    rw [applyRun, updateIndex, updateIndexFrom_eq step later (fun _ => le_length_of_mem_afterRun) (by omega) 0 false
      position, climbed, longer, ih _ (by rw [← longer]; omega), append_assoc, singleton_append]

/-- The marks after the runs of further elements. -/
noncomputable def afterRuns : List Mark → List Run → List Mark
  | marks, [] => marks
  | marks, run :: runs => afterRuns (afterRun run ⊤ (marks ++ [fresh])) runs

theorem applyRuns_eq (runs : List Run) (short : ∀ run ∈ runs, run.length ≤ 64) :
    applyRuns marks.length runs (marks.map info ++ runs.map fun _ => fresh.info) = (afterRuns marks runs).map info := by
  induction runs generalizing marks with
  | nil => rw [map_nil, append_nil, applyRuns, afterRuns]
  | cons run runs ih =>
    rw [forall_mem_cons] at short
    have start : marks.map info ++ (run :: runs).map (fun _ => fresh.info) =
        (afterRun [] ⊤ (marks ++ [fresh])).map info ++ runs.map fun _ => fresh.info := by
      simp [afterRun_nil]
    have length : marks.length + 1 = (afterRun run ⊤ (marks ++ [fresh])).length := by
      rw [length_afterRun]
      simp
    have ran := applyRun_eq marks (runs.map fun _ => fresh.info) [] run (by simpa using short.1)
    rw [length_nil, nil_append] at ran
    rw [applyRuns, start, ran, length, ih _ short.2, afterRuns]

end Mark

/-- The runs laid over each other, the first on top. -/
def overlayRuns : List Run → Run
  | [] => []
  | run :: runs => run.overlay (overlayRuns runs)

/-- Whether one of the runs has a left sibling on a level below `upper` that neither `lower` nor a
run before it reaches: it is charged to the element the runs start with. -/
def chargedLeft (upper : ℕ∞) : ℕ → List Run → Bool
  | _, [] => false
  | lower, run :: runs => run.hasLeftSibling lower upper || chargedLeft upper (max lower run.length) runs

theorem chargedLeft_max (upper : ℕ∞) {lower level : ℕ} (runs : List Run) (below : level ≤ lower) :
    chargedLeft (max upper level) lower runs = chargedLeft upper lower runs := by
  induction runs generalizing lower with
  | nil => rfl
  | cons run runs ih =>
    rw [chargedLeft, chargedLeft, Run.hasLeftSibling_max run upper below, ih (below.trans (le_max_left ..))]

namespace Mark

/-- The marks of elements that are loaded already, after the runs of further elements. -/
noncomputable def settle (runs : List Run) : ℕ∞ → List Mark → List Mark
  | _, [] => []
  | upper, mark :: marks =>
    { mark with
      run := mark.run.overlay (overlayRuns runs)
      left := mark.left && !chargedLeft upper mark.run.length runs } :: settle runs (min upper mark.run.length) marks

/-- The marks of elements with the given runs; `upper` is the length of the run before. -/
def ofRuns : ℕ∞ → List Run → List Mark
  | _, [] => []
  | upper, run :: runs =>
    { run := overlayRuns (run :: runs)
      left := !chargedLeft upper 0 (run :: runs)
      right := !decide (Climb.rightSibling ∈ run) } :: ofRuns run.length runs

/-- The least number of levels of the marks and of `upper`. -/
noncomputable def leastLength : ℕ∞ → List Mark → ℕ∞
  | upper, [] => upper
  | upper, mark :: marks => leastLength (min upper mark.run.length) marks

theorem settle_nil (upper : ℕ∞) (marks : List Mark) : settle [] upper marks = marks := by
  induction marks generalizing upper with
  | nil => rfl
  | cons mark marks ih => simp [settle, ih, overlayRuns, chargedLeft]

theorem min_max_cast (upper : ℕ∞) (a b : ℕ) : min (max upper b) ((max a b : ℕ) : ℕ∞) = max (min upper a) b := by
  rw [mono_cast.map_max, max_min_distrib_right]

theorem settle_afterRun (runs : List Run) (upper : ℕ∞) (front : List Mark) :
    settle runs (max upper run.length) (afterRun run upper (front ++ [fresh])) = settle (run :: runs) upper front ++
        [{ run := overlayRuns (run :: runs)
           left := !chargedLeft (leastLength upper front) 0 (run :: runs)
           right := !decide (Climb.rightSibling ∈ run) }] := by
  induction front generalizing upper with
  | nil =>
    have charged := chargedLeft_max upper runs (le_refl run.length)
    simp [afterRun, fresh, settle, overlayRuns, chargedLeft, leastLength, charged]
  | cons mark front ih =>
    have charged := chargedLeft_max upper runs (le_max_right mark.run.length run.length)
    rw [cons_append, afterRun, settle, length_overlay, min_max_cast, ih, settle, charged, overlay_assoc, overlayRuns,
      leastLength]
    simp [chargedLeft, Bool.and_assoc]

theorem leastLength_afterRun (upper bound : ℕ∞) (front : List Mark) :
    leastLength (max bound run.length) (afterRun run upper (front ++ [fresh])) = run.length := by
  induction front generalizing upper bound with
  | nil => simp [afterRun, fresh, leastLength]
  | cons mark front ih =>
    rw [cons_append, afterRun, leastLength, length_overlay, min_max_cast, ih]

theorem afterRuns_eq (marks : List Mark) (runs : List Run) :
    afterRuns marks runs = settle runs ⊤ marks ++ ofRuns (leastLength ⊤ marks) runs := by
  induction runs generalizing marks with
  | nil => rw [afterRuns, settle_nil, ofRuns, append_nil]
  | cons run runs ih =>
    have top : max (⊤ : ℕ∞) run.length = ⊤ := max_eq_left le_top
    have settled := settle_afterRun run runs ⊤ marks
    have least := leastLength_afterRun run ⊤ ⊤ marks
    rw [top] at settled least
    rw [afterRuns, ih, settled, least, ofRuns, append_assoc, singleton_append]

end Mark

theorem applyRuns_infos (runs : List Run) (short : ∀ run ∈ runs, run.length ≤ 64) :
    applyRuns 0 runs (runs.map fun _ => Mark.fresh.info) = (Mark.ofRuns ⊤ runs).map Mark.info := by
  have applied := Mark.applyRuns_eq [] runs short
  rwa [Mark.afterRuns_eq] at applied

end Nexa
