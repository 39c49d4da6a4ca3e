import Nexa.Model.Chain.BlockCandidates

/-! # The candidate with the most work

`FindMostWorkChain` returns the best of the candidates that can be reached from the active chain. It
takes others out of the set, among them those that would reorganise more blocks than configured.
-/

namespace Nexa

open List

/-- The block is linked, has not failed and its data is there. -/
def BlockStatus.ready (status : BlockStatus) : Bool := status.linked && !status.failed && status.haveData

namespace CandidateState

variable {ι : Type} [DecidableEq ι] {state : CandidateState ι} {maxReorg : ℤ} {block pindex pindexTest : List ι}
  {fFailedChain fMissingData : Bool}

/-- The block at which the way down from a candidate joins the active chain. -/
structure IsFork (state : CandidateState ι) (pindex fork : List ι) : Prop where
  below : fork <:+ pindex
  joins : state.Joins fork
  last : ∀ block, block <:+ pindex → state.Joins block → block <:+ fork

/-- All blocks on the way down to the active chain are ready, and it joins the chain within the configured range. -/
structure Usable (state : CandidateState ι) (maxReorg : ℤ) (pindex : List ι) : Prop where
  ready : ∀ block, block <:+ pindex → ¬state.Joins block → (state.nStatus block).ready = true
  near : ∀ fork, state.IsFork pindex fork → state.isReorgInRange maxReorg fork = true

theorem walk_cases (state : CandidateState ι) (pindex : List ι) :
    (∃ fork, state.walk pindex = (fork, false, false) ∧ state.IsFork pindex fork ∧
      ∀ block, block <:+ pindex → ¬state.Joins block → (state.nStatus block).ready = true) ∨
    ∃ bad fFailedChain fMissingData, state.walk pindex = (bad, fFailedChain, fMissingData) ∧
      (fFailedChain || fMissingData) = true ∧ bad <:+ pindex ∧ ¬state.Joins bad ∧
      (state.nStatus bad).ready = false := by
  have ends {pindex : List ι} (joins : state.Joins pindex) (walked : state.walk pindex = (pindex, false, false)) :
      ∃ fork, state.walk pindex = (fork, false, false) ∧ state.IsFork pindex fork ∧
        ∀ block, block <:+ pindex → ¬state.Joins block → (state.nStatus block).ready = true := by
    refine ⟨_, walked, ⟨suffix_rfl, joins, fun _ below _ => below⟩, fun block below outside => ?_⟩
    exact absurd (joins.imp below.trans below.length_le.trans) outside
  induction pindex with
  | nil => exact .inl (ends (.inr (Nat.zero_le 1)) rfl)
  | cons index pprev ih =>
    by_cases joins : state.Joins (index :: pprev)
    · exact .inl (ends joins (if_pos joins))
    · rw [walk]
      split_ifs with unlinked bad
      · simp_all [BlockStatus.ready]
      · refine .inr ⟨_, _, _, rfl, bad, suffix_rfl, joins, ?_⟩
        rcases Bool.or_eq_true_iff.mp bad with failed | missing
        · simp [BlockStatus.ready, failed]
        · simp_all [BlockStatus.ready]
      · rcases ih with ⟨fork, walked, ⟨below, joined, last⟩, ready⟩ | ⟨block, _, _, walked, stopped, below, found⟩
        · refine .inl ⟨fork, walked, ⟨below.trans (suffix_cons ..), joined, fun block lower here => ?_⟩,
            fun block lower outside => ?_⟩
          · rcases suffix_cons_iff.mp lower with rfl | lower
            · exact absurd here joins
            · exact last block lower here
          · rcases suffix_cons_iff.mp lower with rfl | lower
            · simp_all [BlockStatus.ready]
            · exact ready block lower outside
        · exact .inr ⟨block, _, _, walked, stopped, below.trans (suffix_cons ..), found⟩

theorem BlockStatus.ready_abandon (status : BlockStatus) (fFailedChain fMissingData : Bool) :
    (status.abandon fFailedChain fMissingData).ready = (status.ready && !fFailedChain) := by
  cases fFailedChain <;> cases fMissingData <;> simp [BlockStatus.abandon, BlockStatus.ready, BlockStatus.failed]

theorem usable_rejectChain_iff
    (blocked : fFailedChain = true → ¬state.Joins pindexTest ∧ (state.nStatus pindexTest).ready = false) :
    (state.rejectChain pindex pindexTest fFailedChain fMissingData).Usable maxReorg block ↔
      state.Usable maxReorg block := by
  have same (lower : List ι) : ((state.rejectChain pindex pindexTest fFailedChain fMissingData).nStatus lower).ready =
        ((state.nStatus lower).ready && !(decide (lower <:+ pindex ∧ pindexTest <:+ lower ∧ lower ≠ pindexTest) &&
          fFailedChain)) := by
    simp only [rejectChain]
    split_ifs with between
    · simp [BlockStatus.ready_abandon, between]
    · simp [between]
  constructor
  · rintro ⟨ready, near⟩
    refine ⟨fun lower below outside => ?_, fun fork ⟨below, joins, last⟩ => near fork ⟨below, joins, last⟩⟩
    have after := ready lower below outside
    rw [same, Bool.and_eq_true] at after
    exact after.1
  · rintro ⟨ready, near⟩
    refine ⟨fun lower below outside => ?_, fun fork ⟨below, joins, last⟩ => near fork ⟨below, joins, last⟩⟩
    rw [same, ready lower below outside, Bool.true_and, Bool.not_eq_true', Bool.and_eq_false_iff,
      decide_eq_false_iff_not]
    by_contra! failed
    obtain ⟨⟨-, above, -⟩, failed⟩ := failed
    obtain ⟨apart, bad⟩ := blocked (Bool.not_eq_false _ ▸ failed)
    cases bad.symm.trans (ready pindexTest (above.trans below) apart)

/-- A result that is right for the candidates: the best usable one if there is any, and none of them is taken out. -/
structure Finds (maxReorg : ℤ) (state : CandidateState ι) (result : Option (List ι)) (next : CandidateState ι) :
    Prop where
  best : ∀ pindex, result = some pindex → pindex ∈ state.setBlockIndexCandidates ∧ state.Usable maxReorg pindex ∧
    ∀ other ∈ state.setBlockIndexCandidates, state.Usable maxReorg other → state.chainWork other ≤
      state.chainWork pindex
  none : result = none → ∀ other ∈ state.setBlockIndexCandidates, ¬state.Usable maxReorg other
  kept : next.setBlockIndexCandidates ⊆ state.setBlockIndexCandidates
  removed : ∀ other ∈ state.setBlockIndexCandidates, other ∉ next.setBlockIndexCandidates → ¬state.Usable maxReorg other

theorem Finds.of_rejectChain {next : CandidateState ι} {result : Option (List ι)}
    (blocked : fFailedChain = true → ¬state.Joins pindexTest ∧ (state.nStatus pindexTest).ready = false)
    (unusable : ∀ block, block <:+ pindex → pindexTest <:+ block → ¬state.Usable maxReorg block)
    (finds : Finds maxReorg (state.rejectChain pindex pindexTest fFailedChain fMissingData) result next) :
    Finds maxReorg state result next := by
  have kept (block : List ι) :
      block ∈ (state.rejectChain pindex pindexTest fFailedChain fMissingData).setBlockIndexCandidates ↔
        block ∈ state.setBlockIndexCandidates ∧ ¬(block <:+ pindex ∧ pindexTest <:+ block) := by
    rw [rejectChain, mem_filter, decide_eq_true_eq]
  have stays {block : List ι} (listed : block ∈ state.setBlockIndexCandidates) (usable : state.Usable maxReorg block) :=
    (kept block).mpr ⟨listed, fun between => unusable block between.1 between.2 usable⟩
  obtain ⟨best, none, subset, removed⟩ := finds
  simp only [usable_rejectChain_iff blocked] at best none removed
  refine ⟨fun pindex found => ?_, fun nothing other listed usable => none nothing other (stays listed usable) usable,
    fun block member => ((kept block).mp (subset member)).1, fun other listed gone usable =>
    removed other (stays listed usable) gone usable⟩
  obtain ⟨listed, usable, most⟩ := best pindex found
  exact ⟨((kept pindex).mp listed).1, usable, fun other listed usable => most other (stays listed usable) usable⟩

/-- `FindMostWorkChain` comes to an end with such a result. -/
theorem findMostWorkChain_finds (maxReorg : ℤ) (state : CandidateState ι) : ∃ enough, ∀ rounds ≥ enough, ∃ result next,
      findMostWorkChain maxReorg rounds state = some (result, next) ∧ Finds maxReorg state result next := by
  refine ⟨state.setBlockIndexCandidates.length + 1, fun rounds enough => ?_⟩
  induction rounds generalizing state with
  | zero => cases enough
  | succ rounds ih =>
    rw [findMostWorkChain]
    cases best : state.setBlockIndexCandidates.argmax state.workOrder with
    | none =>
      rw [argmax_eq_none] at best
      exact ⟨_, _, rfl, nofun, by simp [best], Subset.refl _, fun _ listed gone => absurd listed gone⟩
    | some pindexNew =>
      have listed := argmax_mem best
      -- the candidate itself goes, so that fewer are left
      have fewer {bad : List ι} (below : bad <:+ pindexNew) (fFailedChain fMissingData : Bool) :
          (state.rejectChain pindexNew bad fFailedChain fMissingData).setBlockIndexCandidates.length < rounds := by
        refine (length_filter_lt_length_iff_exists.mpr ⟨pindexNew, listed, ?_⟩).trans_le ?_
        · simp [below]
        · omega
      rcases walk_cases state pindexNew with ⟨fork, walked, isFork, ready⟩ | ⟨bad, _, _, walked, stopped, below, found⟩
      · simp only [walked, Bool.false_or, Bool.not_eq_true']
        split_ifs with far
        · obtain ⟨result, next, ended, finds⟩ := ih _ (fewer isFork.below false false)
          refine ⟨result, next, ended, finds.of_rejectChain (fun failed => ?_) fun block below above usable => ?_⟩
          · cases failed
          · have last lower (under : lower <:+ block) := isFork.last lower (under.trans below)
            cases far.symm.trans (usable.near fork ⟨above, isFork.joins, last⟩)
        · refine ⟨_, _, rfl, ?_, nofun, Subset.refl _, fun _ listed gone => absurd listed gone⟩
          rintro _ ⟨⟩
          refine ⟨listed, ⟨ready, fun other isOther => ?_⟩, fun other known _ => ?_⟩
          · have same := (isFork.last other isOther.below isOther.joins).eq_of_length_le
              (isOther.last fork isFork.below isFork.joins).length_le
            exact same ▸ Bool.not_eq_false _ ▸ far
          · exact Prod.Lex.monotone_fst _ _ (le_of_mem_argmax known best)
      · obtain ⟨outside, worse⟩ := found
        obtain ⟨result, next, ended, finds⟩ := ih _ (fewer below _ _)
        refine ⟨result, next, by simpa only [walked, stopped, Bool.true_or, if_true] using ended, ?_⟩
        refine finds.of_rejectChain (fun _ => ⟨outside, worse⟩) fun block _ above usable => ?_
        cases worse.symm.trans (usable.ready bad above outside)

def sampleCandidates : CandidateState ℕ where
  chainWork := List.sum
  nSequenceId _ := 1
  address := List.sum
  txCount _ := 1
  nStatus _ := { haveData := true, linked := true }
  chainActive := [2, 1, 0]
  setBlockIndexCandidates := [[2, 1, 0], [5, 4, 0]]

theorem findMostWorkChain_skips_deep_fork :
    (findMostWorkChain 1 3 sampleCandidates).map (fun found => (found.1, found.2.setBlockIndexCandidates)) =
      some (some [2, 1, 0], [[2, 1, 0]]) ∧
    (∀ block, (sampleCandidates.nStatus block).ready = true) ∧
      sampleCandidates.chainWork [2, 1, 0] < sampleCandidates.chainWork [5, 4, 0] :=
  ⟨by decide, fun _ => rfl, by decide⟩

end CandidateState

end Nexa
