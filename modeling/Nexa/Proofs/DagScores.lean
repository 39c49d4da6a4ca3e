import Mathlib.Data.UInt
import Nexa.Model.Tailstorm.Dag

/-! # The scores of a dag

Every node of the list gets a score. A node that is no uncle has the number of uncles, one for itself,
one for each ancestor and one for each descendant that is no uncle. An uncle has the fixed score of
uncles, unless a node that is no uncle descends from it: then its score depends on which of the two is
listed first.
-/

namespace Nexa

open AList List

/-! ## Nodes with a score -/

section

variable {isUncle : CTreeNodeRef → Bool} {ancestors : CTreeNodeRef → Finset CTreeNodeRef}

variable {initial : UInt32} {scores : DagScores} {node : CTreeNodeRef} {refs : List CTreeNodeRef}
  {nUncleScore nUncles : UInt32} {nodes : List CTreeNodeRef} {others : CTreeNodeRef → Finset CTreeNodeRef}
  {target : CTreeNodeRef}

theorem DagScores.mem_credit {score : UInt32} {other : CTreeNodeRef} :
    other ∈ scores.credit initial node score ↔ other = node ∨ other ∈ scores := mem_insert scores

theorem DagScores.mem_foldl_credit (scored : node ∈ scores) :
    node ∈ refs.foldl (fun scores ref => scores.credit initial ref 1) scores := by
  induction refs generalizing scores with
  | nil => exact scored
  | cons ref refs ih => exact ih (mem_credit.mpr (.inr scored))

theorem mem_scoreNodes (listed : node ∈ scores ∨ node ∈ nodes) :
    node ∈ scoreNodes isUncle ancestors nUncleScore nUncles nodes scores := by
  induction nodes generalizing scores with
  | nil => exact listed.resolve_right not_mem_nil
  | cons first rest ih =>
    rw [mem_cons] at listed
    rw [scoreNodes]
    split_ifs with uncle known
    · apply ih
      rcases listed with scored | rfl | later
      · exact .inl scored
      · exact .inl known
      · exact .inr later
    · apply ih
      rw [mem_insert]
      tauto
    · apply ih
      rcases listed with scored | rfl | later
      · exact .inl (DagScores.mem_foldl_credit (DagScores.mem_credit.mpr (.inr scored)))
      · exact .inl (DagScores.mem_foldl_credit (DagScores.mem_credit.mpr (.inl rfl)))
      · exact .inr later

theorem mem_scoresOf (listed : node ∈ nodes) : node ∈ scoresOf isUncle ancestors nodes := mem_scoreNodes (.inr listed)

theorem DagScores.mem_of_mem_foldl_credit
    (scored : node ∈ refs.foldl (fun scores ref => scores.credit initial ref 1) scores) :
    node ∈ refs ∨ node ∈ scores := by
  induction refs generalizing scores with
  | nil => exact .inr scored
  | cons ref refs ih =>
    rcases ih scored with later | scored
    · exact .inl (mem_cons_of_mem ref later)
    · rcases mem_credit.mp scored with rfl | scored
      · exact .inl mem_cons_self
      · exact .inr scored

theorem mem_of_mem_scoreNodes (scored : node ∈ scoreNodes isUncle ancestors nUncleScore nUncles nodes scores) :
    node ∈ scores ∨ node ∈ nodes ∨ ∃ other ∈ nodes, ¬ isUncle other ∧ node ∈ ancestors other := by
  induction nodes generalizing scores with
  | nil => exact .inl scored
  | cons first rest ih =>
    rw [scoreNodes] at scored
    rw [mem_cons, exists_mem_cons_iff]
    split_ifs at scored with uncle known
    · have := ih scored
      tauto
    · have := ih scored
      rw [mem_insert] at this
      tauto
    · rcases ih scored with scored | later
      · rcases DagScores.mem_of_mem_foldl_credit scored with ancestor | scored
        · exact .inr (.inr (.inl ⟨uncle, (Finset.mem_sort _).mp ancestor⟩))
        · have := DagScores.mem_credit.mp scored
          tauto
      · tauto

theorem mem_of_mem_scoresOf (closed : ∀ node ∈ nodes, ¬ isUncle node → ∀ ancestor ∈ ancestors node, ancestor ∈ nodes)
    (scored : node ∈ scoresOf isUncle ancestors nodes) : node ∈ nodes := by
  rcases mem_of_mem_scoreNodes scored with none | listed | ⟨other, listed, regular, found⟩
  · exact absurd none (notMem_empty node)
  · exact listed
  · exact closed other listed regular node found

section

variable (same : ∀ node ∈ nodes, ¬ isUncle node → ancestors node = others node)
include same

theorem scoreNodes_congr (scores : DagScores) : scoreNodes isUncle ancestors nUncleScore nUncles nodes scores =
      scoreNodes isUncle others nUncleScore nUncles nodes scores := by
  induction nodes generalizing scores with
  | nil => rfl
  | cons node rest ih =>
    obtain ⟨first, rest⟩ := forall_mem_cons.mp same
    rw [scoreNodes, scoreNodes]
    by_cases uncle : isUncle node
    · rw [if_pos uncle, if_pos uncle]
      exact ih rest _
    · rw [if_neg uncle, if_neg uncle, first uncle]
      exact ih rest _

theorem scoresOf_congr : scoresOf isUncle ancestors nodes = scoresOf isUncle others nodes := scoreNodes_congr same ∅

end

/-! ## The score of a node -/

theorem DagScores.lookup_credit (initial score : UInt32) (scores : DagScores) (node other : CTreeNodeRef) :
    (scores.credit initial node score).lookup other =
      if other = node then some ((scores.lookup node).getD initial + score) else scores.lookup other := by
  rw [credit]
  split_ifs with same
  · rw [same, lookup_insert]
  · rw [lookup_insert_ne same]

theorem DagScores.getD_lookup_credit (initial score : UInt32) (scores : DagScores) (node other : CTreeNodeRef) :
    ((scores.credit initial node score).lookup other).getD initial =
      (scores.lookup other).getD initial + if other = node then score else 0 := by
  rw [lookup_credit]
  split_ifs with same
  · rw [same, Option.getD_some]
  · rw [add_zero]

theorem DagScores.getD_lookup_foldl_credit (distinct : refs.Nodup) (scores : DagScores) (node : CTreeNodeRef) :
    ((refs.foldl (fun scores ref => scores.credit initial ref 1) scores).lookup node).getD initial =
      (scores.lookup node).getD initial + if node ∈ refs then 1 else 0 := by
  induction refs generalizing scores with
  | nil => simp
  | cons ref refs ih =>
    obtain ⟨fresh, distinct⟩ := nodup_cons.mp distinct
    rw [foldl_cons, ih distinct, getD_lookup_credit]
    by_cases same : node = ref
    · rw [if_pos same, if_neg (same ▸ fresh), if_pos (mem_cons.mpr (.inl same)), add_zero]
    · simp [same]

theorem DagScores.lookup_foldl_credit_of_notMem (absent : node ∉ refs) (scores : DagScores) :
    (refs.foldl (fun scores ref => scores.credit initial ref 1) scores).lookup node = scores.lookup node := by
  induction refs generalizing scores with
  | nil => rfl
  | cons ref refs ih =>
    obtain ⟨different, absent⟩ := not_or.mp (mt mem_cons.mpr absent)
    rw [foldl_cons, ih absent, lookup_credit, if_neg different]

variable (isUncle ancestors) in
/-- What the visit of `node` adds to the score of `target`. -/
def contribution (target node : CTreeNodeRef) : UInt32 := if isUncle node then 0
  else (if target = node then UInt32.ofNat ((ancestors node).card + 1) else 0) +
    if target ∈ ancestors node then 1 else 0

theorem getD_lookup_scoreNodes (regular : ¬ isUncle target) (nodes : List CTreeNodeRef) (scores : DagScores) :
    ((scoreNodes isUncle ancestors nUncleScore nUncles nodes scores).lookup target).getD nUncles =
      (scores.lookup target).getD nUncles + (nodes.map (contribution isUncle ancestors target)).sum := by
  induction nodes generalizing scores with
  | nil => simp [scoreNodes]
  | cons node rest ih =>
    rw [scoreNodes, map_cons, sum_cons]
    by_cases uncle : isUncle node
    · have different : target ≠ node := fun same => regular (same ▸ uncle)
      rw [if_pos uncle, ih, contribution, if_pos uncle, zero_add]
      split_ifs with known
      · rfl
      · rw [lookup_insert_ne different]
    · rw [if_neg uncle, ih, contribution, if_neg uncle, DagScores.getD_lookup_foldl_credit (Finset.sort_nodup _ _),
        DagScores.getD_lookup_credit]
      simp [add_assoc]

theorem lookup_scoreNodes_of_isUncle (uncle : isUncle target) (nodes : List CTreeNodeRef)
    (last : ∀ node ∈ nodes, ¬ isUncle node → target ∉ ancestors node) (scores : DagScores) :
    (scoreNodes isUncle ancestors nUncleScore nUncles nodes scores).lookup target =
      if target ∈ nodes then some ((scores.lookup target).getD nUncleScore) else scores.lookup target := by
  induction nodes generalizing scores with
  | nil => simp [scoreNodes]
  | cons node rest ih =>
    obtain ⟨lastFirst, lastRest⟩ := forall_mem_cons.mp last
    rw [scoreNodes]
    by_cases uncleNode : isUncle node
    · rw [if_pos uncleNode, ih lastRest]
      by_cases same : target = node
      · subst same
        by_cases known : target ∈ scores
        · obtain ⟨score, found⟩ := Option.isSome_iff_exists.mp (lookup_isSome.mpr known)
          simp [known, found]
        · simp [known, lookup_eq_none.mpr]
      · have kept : (if node ∈ scores then scores else scores.insert node nUncleScore).lookup target =
            scores.lookup target := by
          split_ifs
          · rfl
          · rw [lookup_insert_ne same]
        simp [kept, same]
    · have different : target ≠ node := fun same => uncleNode (same ▸ uncle)
      have unlinked : target ∉ (ancestors node).sort (· ≤ ·) := by
        rw [Finset.mem_sort]
        exact lastFirst uncleNode
      rw [if_neg uncleNode, ih lastRest, DagScores.lookup_foldl_credit_of_notMem unlinked, DagScores.lookup_credit]
      simp [different]

theorem sum_contribution (regular : ¬ isUncle target) (distinct : nodes.Nodup) :
    (nodes.map (contribution isUncle ancestors target)).sum =
      (if target ∈ nodes then UInt32.ofNat ((ancestors target).card + 1) else 0) +
        UInt32.ofNat (nodes.countP fun node => ¬ isUncle node ∧ target ∈ ancestors node) := by
  induction nodes with
  | nil => rfl
  | cons node rest ih =>
    obtain ⟨fresh, distinct⟩ := nodup_cons.mp distinct
    have visit : contribution isUncle ancestors target node =
        (if target = node then UInt32.ofNat ((ancestors target).card + 1) else 0) +
          if ¬ isUncle node ∧ target ∈ ancestors node then 1 else 0 := by
      rw [contribution]
      aesop
    rw [map_cons, sum_cons, ih distinct, visit, countP_cons, add_add_add_comm]
    congr 1
    · aesop
    · rw [add_comm, UInt32.ofNat_add]
      simp only [decide_eq_true_eq]
      split_ifs <;> rfl

variable (isUncle ancestors) in
/-- The score of a node, in terms that do not depend on the order of the list. -/
def finalScore (nodes : List CTreeNodeRef) (target : CTreeNodeRef) : UInt32 := if isUncle target then
    if defaultUncleScoreAdjustment < nodes.length then UInt32.ofNat (nodes.length - defaultUncleScoreAdjustment) else 1
  else UInt32.ofNat (nodes.countP isUncle) + (nodes.map (contribution isUncle ancestors target)).sum

theorem lookup_scoresOf (listed : target ∈ nodes)
    (last : isUncle target → ∀ node ∈ nodes, ¬ isUncle node → target ∉ ancestors node) :
    (scoresOf isUncle ancestors nodes).lookup target = some (finalScore isUncle ancestors nodes target) := by
  by_cases uncle : isUncle target
  · rw [scoresOf, lookup_scoreNodes_of_isUncle uncle nodes (last uncle), if_pos listed, finalScore, if_pos uncle]
    rfl
  · have scored : target ∈ scoresOf isUncle ancestors nodes := mem_scoresOf listed
    obtain ⟨score, found⟩ := Option.isSome_iff_exists.mp (lookup_isSome.mpr scored)
    have total : score = UInt32.ofNat (nodes.countP isUncle) +
        (nodes.map (contribution isUncle ancestors target)).sum :=
      calc score = ((scoresOf isUncle ancestors nodes).lookup target).getD (UInt32.ofNat (nodes.countP isUncle)) := by
            rw [found, Option.getD_some]
        _ = _ := by
            rw [scoresOf, getD_lookup_scoreNodes uncle]
            rfl
    rw [found, finalScore, if_neg uncle, total]

end

end Nexa
