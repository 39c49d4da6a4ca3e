import Nexa.Model.Chain.AdaptiveBlockSize

/-! # The adaptive block size does not depend on the calls before

The cached sizes are those of the last blocks of the branch. They have to be sorted when a median is taken,
and the code sorts them when it collects them anew and once when a window is first filled step by step. A
window that is filled step by step again is not sorted.
-/

namespace Nexa

open List

/-! ## The median of a branch -/

variable (count : ℕ)

/-- The sizes of the last blocks, newest first. -/
def branchSizes (pindex : BlockIndexRef) : List ℕ := (pindex.take count).map CBlockIndex.getBlockSize

variable (sizes : List ℕ)

def medianOf : ℕ := (sortSizes sizes).getD ((sizes.length - 1) / 2) 0

/-- The median of the last `nWindow + 1` sizes, if there are as many blocks. -/
def branchMedian (nWindow : ℕ) (pindex : BlockIndexRef) : Option ℕ :=
  if nWindow < pindex.length then some (medianOf (branchSizes (nWindow + 1) pindex)) else none

theorem branchSizes_cons (index : CBlockIndex) (pprev : BlockIndexRef) :
    branchSizes (count + 1) (index :: pprev) = index.getBlockSize :: branchSizes count pprev := rfl

theorem length_branchSizes (pindex : BlockIndexRef) :
    (branchSizes count pindex).length = min count pindex.length := by simp [branchSizes]

theorem perm_sortSizes : (sortSizes sizes).Perm sizes := perm_insertionSort _ _

theorem sorted_sortSizes : (sortSizes sizes).Pairwise (· ≤ ·) := pairwise_insertionSort _ _

theorem calculateMedian_eq {vSizes sizes : List ℕ} (sorted : vSizes.Pairwise (· ≤ ·)) (perm : vSizes.Perm sizes)
    (odd : sizes.length % 2 = 1) : calculateMedian vSizes = some (medianOf sizes) := by
  have same := (perm.trans (perm_sortSizes sizes).symm).eq_of_pairwise' sorted (sorted_sortSizes sizes)
  have length := perm.length_eq
  have inside : (sizes.length - 1) / 2 < vSizes.length := by omega
  rw [calculateMedian, if_neg (by omega), length, medianOf, ← same, getD_eq_getElem?_getD,
    getElem?_eq_getElem inside, Option.getD_some]

/-! ## One call -/

namespace MedianWindow

variable {nWindow : ℕ} {window : MedianWindow} {index : CBlockIndex} {pprev : BlockIndexRef}

/-- The cached sizes are those of the last blocks up to the tip, and sorted once the code relies on it. -/
structure Follows (nWindow : ℕ) (window : MedianWindow) : Prop where
  sizes : window.vSizesUnsorted = (branchSizes nWindow window.pindexTip).reverse
  perm : window.vSizes.Perm window.vSizesUnsorted
  sorted : window.fRunOnce = false → window.vSizes.Pairwise (· ≤ ·)

/-- The sizes with that of the new block, before the oldest one is removed. -/
structure Sized (nWindow : ℕ) (pindex : BlockIndexRef) (window : MedianWindow) : Prop where
  sizes : window.vSizesUnsorted = (branchSizes (nWindow + 1) pindex).reverse
  perm : window.vSizes.Perm window.vSizesUnsorted
  sorted : window.fRunOnce = false ∨ nWindow < window.vSizes.length → window.vSizes.Pairwise (· ≤ ·)

/-- The block is not added to an incomplete window after the sizes were sorted once. -/
def Orderly (nWindow : ℕ) (window : MedianWindow) (pprev : BlockIndexRef) : Prop :=
  pprev = window.pindexTip → window.vSizes.length < nWindow → window.fRunOnce = true

instance (nWindow : ℕ) (window : MedianWindow) (pprev : BlockIndexRef) : Decidable (Orderly nWindow window pprev) :=
  inferInstanceAs (Decidable (_ → _ → _))

theorem Follows.extend_sized (follows : Follows nWindow window) (orderly : Orderly nWindow window pprev)
    (tip : pprev = window.pindexTip) (index : CBlockIndex) :
    ∃ sized, window.extend nWindow index.getBlockSize = .ok sized ∧ Sized nWindow (index :: pprev) sized := by
  have sizes : window.vSizesUnsorted ++ [index.getBlockSize] =
      (branchSizes (nWindow + 1) (index :: pprev)).reverse := by
    rw [follows.sizes, branchSizes_cons, reverse_cons, tip]
  have length : window.vSizes.length ≤ nWindow := by
    rw [follows.perm.length_eq, follows.sizes, length_reverse, length_branchSizes]
    exact Nat.min_le_left ..
  have inserted (vSizes : List ℕ) (perm : vSizes.Perm window.vSizesUnsorted) :
      (vSizes.insertAtLowerBound index.getBlockSize).Perm (window.vSizesUnsorted ++ [index.getBlockSize]) :=
    (vSizes.insertAtLowerBound_perm _).trans ((perm.cons _).trans (perm_append_singleton _ _).symm)
  rw [extend]
  split_ifs with incomplete runOnce
  · refine ⟨_, rfl, sizes, follows.perm.append_right _, fun reliant => ?_⟩
    have flag := orderly tip incomplete
    rcases reliant with cleared | full
    · exact absurd cleared (by simp [flag])
    · simp only [length_append, length_singleton] at full
      omega
  · have full : assertThat (window.vSizes.length = nWindow) = .ok () := assertThat_eq_ok_iff.mpr (by omega)
    rw [full]
    exact ⟨_, rfl, sizes, inserted _ ((perm_sortSizes _).trans follows.perm), fun _ =>
      insertAtLowerBound_sorted (sorted_sortSizes _) _⟩
  · exact ⟨_, rfl, sizes, inserted _ follows.perm, fun _ =>
      insertAtLowerBound_sorted (follows.sorted (by simpa using runOnce)) _⟩

variable {pindex : BlockIndexRef}

theorem branchSizes_of_le (short : pindex.length ≤ nWindow) :
    branchSizes (nWindow + 1) pindex = branchSizes nWindow pindex := by
  rw [branchSizes, branchSizes, take_of_length_le short, take_of_length_le (by omega)]

theorem exists_oldest (complete : nWindow < pindex.length) :
    ∃ oldest, (branchSizes (nWindow + 1) pindex).reverse = oldest :: (branchSizes nWindow pindex).reverse := by
  refine ⟨(pindex.get ⟨nWindow, complete⟩).getBlockSize, ?_⟩
  rw [branchSizes, take_succ_eq_append_getElem, map_append, reverse_append]
  rfl

theorem Sized.takeMedian (sized : Sized nWindow pindex window) (even : nWindow % 2 = 0)
    (tip : window.pindexTip = pindex) :
    ∃ next, window.takeMedian nWindow = .ok (branchMedian nWindow pindex, next) ∧ Follows nWindow next ∧
      next.pindexTip = pindex := by
  have length : window.vSizes.length = min (nWindow + 1) pindex.length := by
    rw [sized.perm.length_eq, sized.sizes, length_reverse, length_branchSizes]
  have lengths : assertThat (window.vSizesUnsorted.length = window.vSizes.length) = .ok () :=
    assertThat_eq_ok_iff.mpr sized.perm.length_eq.symm
  have within : assertThat (window.vSizes.length ≤ nWindow + 1) = .ok () := assertThat_eq_ok_iff.mpr (by omega)
  rw [MedianWindow.takeMedian, lengths]
  rw [within]
  by_cases complete : nWindow < pindex.length
  · obtain ⟨oldest, split⟩ := exists_oldest complete
    have unsorted := sized.sizes.trans split
    have sorted := sized.sorted (.inr (by omega))
    have found : oldest ∈ window.vSizes := sized.perm.symm.subset (by simp [unsorted])
    have erased : (window.vSizes.erase oldest).Perm (branchSizes nWindow pindex).reverse := by
      have perm := sized.perm.erase oldest
      rwa [unsorted, erase_cons_head] at perm
    have median : calculateMedian window.vSizes = some (medianOf (branchSizes (nWindow + 1) pindex)) := by
      refine calculateMedian_eq sorted (sized.perm.trans ?_) ?_
      · rw [sized.sizes]
        exact reverse_perm _
      · rw [length_branchSizes]
        omega
    refine ⟨{ window with
      vSizes := window.vSizes.erase oldest, vSizesUnsorted := (branchSizes nWindow pindex).reverse }, ?_, ?_, tip⟩
    · have full : window.vSizes.length = nWindow + 1 := by omega
      have lengthErased : (window.vSizes.erase oldest).length = nWindow := by
        rw [length_erase_of_mem found, full]
        rfl
      have lengthRest : (branchSizes nWindow pindex).reverse.length = nWindow := erased.length_eq ▸ lengthErased
      refine (if_pos full).trans ?_
      simp only [unsorted, Validation.bind_eq_ok_iff, assertThat_eq_ok_iff]
      refine ⟨(), found, (), lengthErased, (), lengthRest, ?_⟩
      rw [median, branchMedian, if_pos complete]
      rfl
    · exact ⟨by rw [tip], erased, fun _ => sorted.sublist (erase_sublist ..)⟩
  · have same := branchSizes_of_le (not_lt.mp complete)
    refine ⟨window, ?_, ⟨by rw [sized.sizes, same, tip], sized.perm, fun cleared => sized.sorted (.inl cleared)⟩, tip⟩
    rw [branchMedian, if_neg complete]
    exact if_neg (by omega)

theorem Follows.calculateMedianSize (follows : Follows nWindow window) (even : nWindow % 2 = 0)
    (orderly : Orderly nWindow window pprev) (index : CBlockIndex) :
    ∃ next, window.calculateMedianSize nWindow index pprev index.getBlockSize =
        .ok (branchMedian nWindow (index :: pprev), next) ∧ Follows nWindow next := by
  have taken (sized : MedianWindow) (facts : Sized nWindow (index :: pprev) sized) :=
    Sized.takeMedian (⟨facts.sizes, facts.perm, facts.sorted⟩ :
      Sized nWindow (index :: pprev) { sized with pindexTip := index :: pprev }) even rfl
  by_cases tip : pprev = window.pindexTip
  · obtain ⟨sized, computed, facts⟩ := follows.extend_sized orderly tip index
    obtain ⟨next, median, nextFollows, -⟩ := taken sized facts
    refine ⟨next, ?_, nextFollows⟩
    simp only [MedianWindow.calculateMedianSize, if_neg (not_not.mpr tip), computed]
    exact median
  · obtain ⟨next, median, nextFollows, -⟩ := taken (window.rebuild nWindow index.getBlockSize pprev)
      ⟨rfl, (perm_sortSizes _).trans (reverse_perm _).symm, fun _ => sorted_sortSizes _⟩
    refine ⟨next, ?_, nextFollows⟩
    simp only [MedianWindow.calculateMedianSize, if_pos tip]
    exact median

end MedianWindow

/-! ## Runs -/

/-- The next maximum block size as the two medians of the branch give it. -/
def nextMaxOfBranch (node : NodeContext) (sizeParams : BlockSizeParams) (pindex : BlockIndexRef) : ℕ :=
  let medians := (branchMedian sizeParams.nShortBlockWindow pindex).toList ++
    (branchMedian sizeParams.nLongBlockWindow pindex).toList
  let candidate := match medians.max? with
    | some median => median * sizeParams.nBlockSizeMultiplier
    | none => node.params.nNextMaxBlockSize.toNat
  min (max candidate (nextMaxBlockSizeFloor node pindex)) defaultLargestBlockSizePossible

/-- A call of `CalculateNextMaxBlockSize` for a block. -/
structure SizeCall where
  index : CBlockIndex
  pprev : BlockIndexRef
  nBlockSize : ℕ

def SizeCall.pindex (call : SizeCall) : BlockIndexRef := call.index :: call.pprev

section

variable (node : NodeContext) (sizeParams : BlockSizeParams)

/-- The results of one call after the other. -/
def runCalls : BlockSizeCache → List SizeCall → Validation (List ℕ)
  | _, [] => pure []
  | cache, call :: rest => do
    let (nNextMaxBlockSize, cache) ← calculateNextMaxBlockSize node sizeParams call.pindex call.nBlockSize cache
    let results ← runCalls cache rest
    pure (nNextMaxBlockSize :: results)

/-- What is asked of a call: it passes the size of its block, it does not add to an incomplete window after the
sizes were sorted once, and no size of the branch overflows when it is multiplied. -/
structure OrderlyCall (cache : BlockSizeCache) (call : SizeCall) : Prop where
  own : call.nBlockSize = call.index.getBlockSize
  shortWindow : cache.shortWindow.Orderly sizeParams.nShortBlockWindow call.pprev
  longWindow : cache.longWindow.Orderly sizeParams.nLongBlockWindow call.pprev
  fits : ∀ index ∈ call.pindex, index.getBlockSize * sizeParams.nBlockSizeMultiplier < 2 ^ 64

instance (cache : BlockSizeCache) (call : SizeCall) : Decidable (OrderlyCall sizeParams cache call) :=
  decidable_of_iff (call.nBlockSize = call.index.getBlockSize ∧
    cache.shortWindow.Orderly sizeParams.nShortBlockWindow call.pprev ∧
    cache.longWindow.Orderly sizeParams.nLongBlockWindow call.pprev ∧
    ∀ index ∈ call.pindex, index.getBlockSize * sizeParams.nBlockSizeMultiplier < 2 ^ 64)
    ⟨fun ⟨own, short, long, fits⟩ => ⟨own, short, long, fits⟩, fun ⟨own, short, long, fits⟩ => ⟨own, short, long, fits⟩⟩

/-- All calls of a run are orderly in the states in which they are made. -/
def OrderlyRun : BlockSizeCache → List SizeCall → Prop
  | _, [] => True
  | cache, call :: rest =>
    OrderlyCall sizeParams cache call ∧
      match calculateNextMaxBlockSize node sizeParams call.pindex call.nBlockSize cache with
      | .ok (_, next) => OrderlyRun next rest
      | .error _ => True

instance decidableOrderlyRun : ∀ cache calls, Decidable (OrderlyRun node sizeParams cache calls)
  | _, [] => .isTrue trivial
  | cache, call :: rest =>
    have : Decidable (match calculateNextMaxBlockSize node sizeParams call.pindex call.nBlockSize cache with
        | .ok (_, next) => OrderlyRun node sizeParams next rest
        | .error _ => True) :=
      match calculateNextMaxBlockSize node sizeParams call.pindex call.nBlockSize cache with
      | .ok (_, next) => decidableOrderlyRun next rest
      | .error _ => .isTrue trivial
    inferInstanceAs (Decidable (_ ∧ _))

end

/-- Windows of even lengths, the short one not longer than the long one. -/
structure BlockSizeParams.Proper (sizeParams : BlockSizeParams) : Prop where
  evenShort : sizeParams.nShortBlockWindow % 2 = 0
  evenLong : sizeParams.nLongBlockWindow % 2 = 0
  short_le_long : sizeParams.nShortBlockWindow ≤ sizeParams.nLongBlockWindow

structure BlockSizeCache.Follows (sizeParams : BlockSizeParams) (cache : BlockSizeCache) : Prop where
  shortWindow : cache.shortWindow.Follows sizeParams.nShortBlockWindow
  longWindow : cache.longWindow.Follows sizeParams.nLongBlockWindow

theorem medianOf_mem {sizes : List ℕ} (some : sizes ≠ []) : medianOf sizes ∈ sizes := by
  have length := (perm_sortSizes sizes).length_eq
  have positive := length_pos_of_ne_nil some
  have inside : (sizes.length - 1) / 2 < (sortSizes sizes).length := by omega
  rw [medianOf, getD_eq_getElem?_getD, getElem?_eq_getElem inside]
  exact (perm_sortSizes sizes).subset (getElem_mem inside)

variable {node : NodeContext} {sizeParams : BlockSizeParams} {cache : BlockSizeCache}

theorem BlockSizeCache.Follows.step (follows : cache.Follows sizeParams) (proper : sizeParams.Proper) {call : SizeCall}
    (orderly : OrderlyCall sizeParams cache call) :
    ∃ next, calculateNextMaxBlockSize node sizeParams call.pindex call.nBlockSize cache =
      .ok (nextMaxOfBranch node sizeParams call.pindex, next) ∧ next.Follows sizeParams := by
  obtain ⟨shortWindow, shortTaken, shortFollows⟩ := follows.shortWindow.calculateMedianSize proper.evenShort
    orderly.shortWindow call.index
  obtain ⟨longWindow, longTaken, longFollows⟩ := follows.longWindow.calculateMedianSize proper.evenLong
    orderly.longWindow call.index
  refine ⟨⟨shortWindow, longWindow⟩, ?_, ⟨shortFollows, longFollows⟩⟩
  have product {nWindow median : ℕ} (complete : branchMedian nWindow call.pindex = some median) :
      median * sizeParams.nBlockSizeMultiplier < 2 ^ 64 := by
    -- a median is the size of a block of the branch
    rw [branchMedian] at complete
    split_ifs at complete with long
    have some : branchSizes (nWindow + 1) call.pindex ≠ [] := by
      rw [← length_pos_iff, length_branchSizes]
      omega
    have member := medianOf_mem some
    rw [Option.some.inj complete] at member
    obtain ⟨index, taken, rfl⟩ := mem_map.mp member
    exact orderly.fits index (mem_of_mem_take taken)
  have nested : (branchMedian sizeParams.nLongBlockWindow call.pindex).isSome →
      (branchMedian sizeParams.nShortBlockWindow call.pindex).isSome := by
    have shorter := proper.short_le_long
    simp only [branchMedian]
    split_ifs with long short
    · exact fun _ => rfl
    · omega
    · exact nofun
    · exact nofun
  rw [orderly.own]
  refine Validation.bind_eq_ok_iff.mpr ⟨_, shortTaken, Validation.bind_eq_ok_iff.mpr ⟨_, longTaken, ?_⟩⟩
  -- a complete long window comes with a complete short one
  refine congrArg (fun candidate => pure (min (max candidate _) _, _)) ?_
  rw [← SizeCall.pindex]
  cases short : branchMedian sizeParams.nShortBlockWindow call.pindex with
  | none =>
    cases long : branchMedian sizeParams.nLongBlockWindow call.pindex with
    | none => rfl
    | some median => simp [short, long] at nested
  | some median =>
    cases long : branchMedian sizeParams.nLongBlockWindow call.pindex with
    | none => exact Nat.mod_eq_of_lt (product short)
    | some longMedian =>
      refine Nat.mod_eq_of_lt ?_
      rcases max_choice median longMedian with larger | larger
      · rw [larger]
        exact product short
      · rw [larger]
        exact product long

theorem OrderlyRun.results {calls : List SizeCall} (orderly : OrderlyRun node sizeParams cache calls)
    (proper : sizeParams.Proper) (follows : cache.Follows sizeParams) :
    runCalls node sizeParams cache calls = .ok (calls.map fun call => nextMaxOfBranch node sizeParams call.pindex) := by
  induction calls generalizing cache with
  | nil => rfl
  | cons call rest ih =>
    obtain ⟨next, computed, nextFollows⟩ := follows.step proper orderly.1
    have later : OrderlyRun node sizeParams next rest := by
      have run := orderly.2
      rwa [computed] at run
    have later := ih later nextFollows
    exact Validation.bind_eq_ok_iff.mpr ⟨_, computed, Validation.bind_eq_ok_iff.mpr ⟨_, later, rfl⟩⟩

theorem follows_initial (sizeParams : BlockSizeParams) : BlockSizeCache.Follows sizeParams {} :=
  ⟨⟨by simp [branchSizes], .rfl, fun _ => .nil⟩, ⟨by simp [branchSizes], .rfl, fun _ => .nil⟩⟩

/-- In a run of orderly calls, on the blocks of any tree and in any order, no assertion fails and every call
returns what the medians of its own branch give. -/
theorem nextMaxBlockSize_of_orderly {calls : List SizeCall} (proper : sizeParams.Proper)
    (orderly : OrderlyRun node sizeParams {} calls) :
    runCalls node sizeParams {} calls = .ok (calls.map fun call => nextMaxOfBranch node sizeParams call.pindex) :=
  orderly.results proper (follows_initial sizeParams)

/-- Blocks of the given sizes on top of others, the newest first; `branch` tells them from other branches. -/
def sizedBlocks (branch : UInt8) (sizes : List UInt64) (pprev : BlockIndexRef) : BlockIndexRef :=
  sizes.foldl (fun pprev size =>
    { header := { height := UInt32.ofNat pprev.length, size, nonce := [branch] } } :: pprev) pprev

/-- A call for each of the last blocks, the oldest first. -/
def callsFor : ℕ → BlockIndexRef → List SizeCall
  | count + 1, index :: pprev => callsFor count pprev ++ [⟨index, pprev, index.getBlockSize⟩]
  | _, _ => []

def sizesNode : NodeContext where
  crypto := ⟨fun _ _ => none⟩
  params := { nNextMaxBlockSize := 100000 }
  miningForkTime := 2000000000

/-- Five blocks of 20000 bytes, and a branch from the first one that has two smaller blocks and a large one. -/
def sizesTrunk : BlockIndexRef := sizedBlocks 0 [20000] []
def sizesFirst : BlockIndexRef := sizedBlocks 1 [20000, 20000, 20000, 20000] sizesTrunk
def sizesSecond : BlockIndexRef := sizedBlocks 2 [20000, 10000, 10000, 90000] sizesTrunk

/-- The second branch before the first, whose last block completes the window. -/
theorem nextMaxBlockSize_of_orderly_sample : runCalls sizesNode { nShortBlockWindow := 4, nLongBlockWindow := 6 } {}
        (callsFor 5 sizesSecond ++ callsFor 1 sizesFirst) =
      .ok [100000, 100000, 100000, 100000, 200000, 200000] := by
  have orderly : OrderlyRun sizesNode { nShortBlockWindow := 4, nLongBlockWindow := 6 } {}
      (callsFor 5 sizesSecond ++ callsFor 1 sizesFirst) := by
    decide
  rw [nextMaxBlockSize_of_orderly ⟨rfl, rfl, by decide⟩ orderly]
  decide

/-- After the first branch has filled the window, the second one fills it without being sorted: the median of
20000, 20000, 10000, 10000 and 90000 is taken to be 10000. -/
theorem nextMaxBlockSize_unsorted : runCalls sizesNode { nShortBlockWindow := 4, nLongBlockWindow := 6 } {}
        (callsFor 5 sizesFirst ++ callsFor 4 sizesSecond) =
      .ok [100000, 100000, 100000, 100000, 200000, 100000, 100000, 100000, 100000] ∧
    nextMaxOfBranch sizesNode { nShortBlockWindow := 4, nLongBlockWindow := 6 } sizesSecond = 200000 := by
  decide

end Nexa
