import Nexa.Model.Chain.BlockCandidates

/-! # Linked blocks

`ReceivedBlockTransactions` links a block when its last ancestor arrives. A block that arrives on a
failed block that is not linked yet is lost sight of.
-/

namespace Nexa.CandidateState

open List

variable {ι : Type} [DecidableEq ι] {start state : CandidateState ι} {block pindex pindexNew : List ι}
  {queue : List (List ι)} {vtxSize : ℕ}

/-- What holds while the blocks of a queue are linked. -/
structure Linking (state : CandidateState ι) (queue : List (List ι)) : Prop where
  null : state.received [] = false
  tip : state.chainActive = [] ∨ state.received state.chainActive
  queued : ∀ block ∈ queue, state.received block ∧ state.nSequenceId block ≠ 0 ∧
    (block.tail = [] ∨ state.isLinked block.tail)
  linked : ∀ block, state.isLinked block → state.received block ∧ (block.tail = [] ∨ state.isLinked block.tail)
  unlinked : ∀ block, state.received block → state.isLinked block = false → block ∉ queue →
    state.nSequenceId block ≠ 0 ∧ block.tail ≠ [] ∧ state.isLinked block.tail = false
  waiting : ∀ pprev block, (pprev, block) ∈ state.mapBlocksUnlinked ↔ state.received block ∧
    state.isLinked block = false ∧ block ∉ queue ∧ pprev = block.tail
  candidates : ∀ block, state.isLinked block → state.AsGood block → block ∈ state.setBlockIndexCandidates

theorem Linking.link (linking : state.Linking (pindex :: queue)) :
    (state.link pindex).Linking (queue ++ (state.mapBlocksUnlinked.filter (·.1 = pindex)).map Prod.snd) := by
  have data (block : List ι) : (state.link pindex).received block = state.received block := by
    by_cases same : block = pindex <;> simp [CandidateState.link, received, same]
  have linked (block : List ι) : (state.link pindex).isLinked block ↔ block = pindex ∨ state.isLinked block := by
    by_cases same : block = pindex <;> simp [CandidateState.link, isLinked, same]
  have children (block : List ι) : block ∈ (state.mapBlocksUnlinked.filter (·.1 = pindex)).map Prod.snd ↔
      (pindex, block) ∈ state.mapBlocksUnlinked := by simp
  have map (pprev block : List ι) : (pprev, block) ∈ (state.link pindex).mapBlocksUnlinked ↔
      (pprev, block) ∈ state.mapBlocksUnlinked ∧ pprev ≠ pindex := by simp [CandidateState.link]
  have ids : (state.link pindex).nSequenceId = state.nSequenceId := rfl
  obtain ⟨null, tip, queued, linkedBefore, unlinkedBefore, waiting, candidates⟩ := linking
  constructor
  case null => exact (data []).trans null
  case tip => exact tip.imp_right (data _).trans
  case candidates =>
    intro block isLinked (good : state.AsGood block)
    change block ∈ if state.AsGood pindex then _ else _
    rcases (linked block).mp isLinked with rfl | before
    · rw [if_pos good]
      exact mem_insert_self
    · split_ifs
      · exact mem_insert_of_mem (candidates block before good)
      · exact candidates block before good
  all_goals grind

theorem Linking.linkQueue {rounds : ℕ} (linking : state.Linking queue)
    (enough : queue.length + state.mapBlocksUnlinked.length ≤ rounds) : (linkQueue rounds queue state).Linking [] := by
  induction rounds generalizing queue state with
  | zero =>
    obtain rfl := eq_nil_of_length_eq_zero (Nat.eq_zero_of_add_eq_zero_right (Nat.le_zero.mp enough))
    exact linking
  | succ rounds ih =>
    cases queue with
    | nil => exact linking
    | cons pindex queue =>
      have sequenced : state.sequenced pindex = state := if_pos (linking.queued pindex mem_cons_self).2.1
      rw [CandidateState.linkQueue, sequenced]
      refine ih linking.link ?_
      have parts := length_eq_length_filter_add (l := state.mapBlocksUnlinked) fun entry => entry.1 = pindex
      simp only [CandidateState.link, length_append, length_map, length_cons, decide_not] at enough ⊢
      omega

/-- A block arrives that was not there yet. If its parent is not linked then the parent has not failed. -/
structure Arrives (state : CandidateState ι) (pindexNew : List ι) : Prop where
  some : pindexNew ≠ []
  new : state.received pindexNew = false
  valid : pindexNew.tail = [] ∨ state.isLinked pindexNew.tail ∨
    (state.nStatus pindexNew.tail).isValid BlockStatus.VALID_TREE = true

theorem Linking.receive (linking : state.Linking []) (arrives : state.Arrives pindexNew) (vtxSize : ℕ) :
    (state.receivedBlockTransactions vtxSize pindexNew).Linking [] := by
  set next := state.withData vtxSize pindexNew with made
  have data (block : List ι) : next.received block ↔ block = pindexNew ∨ state.received block := by
    by_cases same : block = pindexNew
    · simp only [made, received, withData, same, BlockStatus.raiseValidity]
      split_ifs <;> simp
    · simp [made, received, withData, same]
  have linked (block : List ι) : next.isLinked block = state.isLinked block := by
    by_cases same : block = pindexNew
    · simp only [made, isLinked, withData, same, Function.update_self, BlockStatus.raiseValidity]
      split_ifs <;> rfl
    · simp [made, isLinked, withData, same]
  have ids (block : List ι) : next.nSequenceId block ≠ 0 ↔ block = pindexNew ∨ state.nSequenceId block ≠ 0 := by
    by_cases same : block = pindexNew <;> simp [made, withData, same]
  have unlinked : state.isLinked pindexNew = false := by
    by_contra isLinked
    cases arrives.new.symm.trans (linking.linked pindexNew (Bool.not_eq_false _ ▸ isLinked)).1
  have order {block : List ι} (received : state.received block) : next.workOrder block = state.workOrder block := by
    have other : block ≠ pindexNew := by
      rintro rfl
      cases arrives.new.symm.trans received
    simp [made, workOrder, withData, other]
  have candidates (block : List ι) (isLinked : next.isLinked block)
      (good : next.AsGood block) : block ∈ state.setBlockIndexCandidates := by
    rw [linked] at isLinked
    refine linking.candidates block isLinked ?_
    rcases good with none | better
    · exact .inl none
    · rcases linking.tip with none | received
      · exact .inl none
      · refine .inr ?_
        rw [← order received, ← order (linking.linked block isLinked).1]
        exact better
  have nullData : next.received [] = false := by
    rw [Bool.eq_false_iff, ne_eq, data, not_or, linking.null]
    exact ⟨arrives.some.symm, Bool.false_ne_true⟩
  have sameMap : next.mapBlocksUnlinked = state.mapBlocksUnlinked := rfl
  have parentStatus : next.nStatus pindexNew.tail = state.nStatus pindexNew.tail := by
    refine Function.update_of_ne (fun same => arrives.some (eq_nil_of_length_eq_zero ?_)) _ _
    have length := congrArg length same
    rw [length_tail] at length
    omega
  obtain ⟨-, tip, -, linkedBefore, unlinkedBefore, waiting, -⟩ := linking
  obtain ⟨some, new, valid⟩ := arrives
  rw [receivedBlockTransactions]
  split_ifs with above parent
  · refine Linking.linkQueue ⟨nullData, tip.imp_right fun received => (data _).mpr (.inr received), ?_, ?_, ?_, ?_,
      candidates⟩ (by simp [Nat.add_comm])
    all_goals grind
  · have kept : Function.update next.nStatus pindexNew
        { next.nStatus pindexNew with linked := false } = next.nStatus := by
      rw [Function.update_eq_self_iff, ← unlinked, ← linked]
    rw [kept]
    refine ⟨nullData, tip.imp_right fun received => (data _).mpr (.inr received), nofun, ?_, ?_, ?_, candidates⟩
    all_goals grind
  · rw [linked] at above
    rw [parentStatus] at parent
    tauto

omit [DecidableEq ι] in
theorem Linking.linked_iff (linking : state.Linking []) : state.isLinked block ↔
    block ≠ [] ∧ ∀ ancestor, ancestor <:+ block → ancestor ≠ [] → state.received ancestor := by
  induction block with
  | nil =>
    refine iff_of_false (fun isLinked => ?_) fun none => none.1 rfl
    cases linking.null.symm.trans (linking.linked [] isLinked).1
  | cons index pprev ih =>
    simp only [suffix_cons_iff]
    constructor
    · intro isLinked
      obtain ⟨data, above⟩ := linking.linked _ isLinked
      refine ⟨cons_ne_nil _ _, ?_⟩
      rintro ancestor (rfl | lower) some
      · exact data
      · rcases above with none | above
        · exact absurd (suffix_nil.mp (none ▸ lower)) some
        · exact (ih.mp above).2 ancestor lower some
    · rintro ⟨-, received⟩
      by_contra isUnlinked
      obtain ⟨-, some, bad⟩ := linking.unlinked _ (received _ (.inl rfl) (cons_ne_nil _ _))
        (Bool.not_eq_true _ ▸ isUnlinked) not_mem_nil
      have above := ih.mpr ⟨some, fun ancestor lower => received ancestor (.inr lower)⟩
      cases bad.symm.trans above

/-- Exactly the blocks of the active chain are there, and they are linked. -/
structure Starts (state : CandidateState ι) : Prop where
  received : ∀ block, state.received block ↔ block ≠ [] ∧ block <:+ state.chainActive
  linked : ∀ block, state.isLinked block = state.received block
  waiting : state.mapBlocksUnlinked = []
  candidates : ∀ block, state.isLinked block → state.AsGood block → block ∈ state.setBlockIndexCandidates

/-- The states after blocks have arrived in some order. -/
inductive Receives (start : CandidateState ι) : CandidateState ι → Prop
  | start : Receives start start
  | receive {state : CandidateState ι} {pindexNew : List ι} (before : Receives start state)
      (arrives : state.Arrives pindexNew) (vtxSize : ℕ) :
      Receives start (state.receivedBlockTransactions vtxSize pindexNew)

omit [DecidableEq ι] in
theorem Starts.linking (starts : start.Starts) : start.Linking [] := by
  obtain ⟨received, linked, waiting, candidates⟩ := starts
  constructor
  case candidates => exact candidates
  case null => simp [Bool.eq_false_iff, received]
  case tip => simpa [received] using em (start.chainActive = [])
  case linked =>
    intro block isLinked
    refine ⟨linked block ▸ isLinked, or_iff_not_imp_left.mpr fun some => ?_⟩
    rw [linked, received] at isLinked ⊢
    exact ⟨some, (tail_suffix block).trans isLinked.2⟩
  all_goals simp_all

/-- Blocks that arrive in any order are linked when they and all their ancestors have arrived. The others wait under
their parents, and linked blocks that are as good as the tip are candidates. -/
theorem Receives.linked_waiting_candidates (run : Receives start state) (starts : start.Starts) :
    (∀ block, state.isLinked block ↔
      block ≠ [] ∧ ∀ ancestor, ancestor <:+ block → ancestor ≠ [] → state.received ancestor) ∧
    (∀ pprev block, (pprev, block) ∈ state.mapBlocksUnlinked ↔ state.received block ∧
      state.isLinked block = false ∧ pprev = block.tail) ∧
    ∀ block, state.isLinked block → state.AsGood block → block ∈ state.setBlockIndexCandidates := by
  have linking : state.Linking [] := by
    induction run with
    | start => exact starts.linking
    | receive before arrives vtxSize ih => exact ih.receive arrives vtxSize
  refine ⟨fun block => linking.linked_iff, fun pprev block => ?_, linking.candidates⟩
  rw [linking.waiting]
  simp

def sampleChain (chainActive : List ℕ) : CandidateState ℕ where
  chainWork := length
  nSequenceId _ := 0
  address := sum
  txCount _ := 1
  nStatus block := if block ≠ [] ∧ block <:+ chainActive then { validity := 3, haveData := true, linked := true }
    else { validity := 2 }
  chainActive
  setBlockIndexCandidates := [chainActive]

theorem starts_sampleChain (chainActive : List ℕ) : (sampleChain chainActive).Starts := by
  have received (block : List ℕ) : (sampleChain chainActive).received block ↔ block ≠ [] ∧ block <:+ chainActive := by
    by_cases active : block ≠ [] ∧ block <:+ chainActive <;> simp [CandidateState.received, sampleChain, active]
  have linked (block : List ℕ) : (sampleChain chainActive).isLinked block =
      (sampleChain chainActive).received block := by
    by_cases active : block ≠ [] ∧ block <:+ chainActive <;>
      simp [CandidateState.received, isLinked, sampleChain, active]
  refine ⟨received, linked, rfl, fun block isLinked good => mem_singleton.mpr ?_⟩
  rw [linked, received] at isLinked
  rcases good with none | notLess
  · exact absurd (suffix_nil.mp (none ▸ isLinked.2)) isLinked.1
  · refine isLinked.2.eq_of_length_le (not_lt.mp fun shorter => notLess ?_)
    exact Prod.Lex.toLex_lt_toLex.mpr (.inl shorter)

theorem arrives_sampleChain : (sampleChain [0]).Arrives [2, 1, 0] := ⟨by decide, by decide, by decide⟩

theorem Receives.linked_waiting_candidates_sampleChain :
    ([1, 0], [2, 1, 0]) ∈ ((sampleChain [0]).receivedBlockTransactions 1 [2, 1, 0]).mapBlocksUnlinked := by
  have facts := Receives.linked_waiting_candidates (.receive .start arrives_sampleChain 1) (starts_sampleChain [0])
  exact (facts.2.1 _ _).mpr (by decide)

/-- A later block with the work of the tip is no candidate. A block on a failed block that is not linked yet is not
linked when all of them have arrived. -/
theorem receivedBlockTransactions_exceptions : (sampleChain [1, 0]).Starts ∧ (sampleChain [0]).Starts ∧
    (let equal := (sampleChain [1, 0]).receivedBlockTransactions 1 [2, 0];
      equal.isLinked [2, 0] ∧ (equal.nStatus [2, 0]).failed = false ∧
        equal.chainWork [2, 0] = equal.chainWork equal.chainActive ∧ [2, 0] ∉ equal.setBlockIndexCandidates) ∧
    let lost := (((sampleChain [0]).receivedBlockTransactions 9 [2, 1, 0]).receivedBlockTransactions 1
      [3, 2, 1, 0]).receivedBlockTransactions 1 [1, 0];
    (∀ block ∈ [[0], [1, 0], [2, 1, 0], [3, 2, 1, 0]], lost.received block) ∧
      lost.isLinked [3, 2, 1, 0] = false ∧ lost.mapBlocksUnlinked = [] :=
  ⟨starts_sampleChain _, starts_sampleChain _, by decide, by decide⟩

end Nexa.CandidateState
