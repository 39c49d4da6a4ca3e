import Mathlib.Data.List.Infix
import Nexa.Model.Chain.Daa
import Nexa.Model.Chain.SkipList
import Nexa.ToMathlib.OptionFold

/-! # Walks along skip pointers

The ancestors of a block are the suffixes of its list. All skip pointers lead to ancestors, so that
`GetAncestor`, `LastCommonAncestor` and `GetASERTAnchorBlock` find what walks along `pprev` would find.
-/

namespace Nexa.SkipTree

open List

variable {ι : Type} (tree : SkipTree ι) {pindex pa pb : List ι} {ansHeight nASERTAnchorAt : ℕ}

/-- The result is the block at a height on the way from a block to the genesis block. -/
def Finds (pindex : List ι) (ansHeight : ℕ) (result : Option (List ι)) : Prop :=
  ∃ ancestor ∈ tree.blocks, result = some ancestor ∧ ancestor <:+ pindex ∧ height ancestor = ansHeight

variable {tree}

theorem Finds.of_suffix {result : Option (List ι)} (finds : tree.Finds pa ansHeight result) (suffix : pa <:+ pb) :
    tree.Finds pb ansHeight result := by
  obtain ⟨ancestor, listed, found, below, reached⟩ := finds
  exact ⟨ancestor, listed, found, below.trans suffix, reached⟩

section Walks

variable (listed : pindex ∈ tree.blocks)

include listed

theorem finds_self : tree.Finds pindex (height pindex) (some pindex) := ⟨pindex, listed, rfl, suffix_rfl, rfl⟩

theorem length_eq : pindex.length = height pindex + 1 := (Nat.sub_add_cancel (tree.rooted pindex listed).length_le).symm

theorem tail_mem (pos : 0 < height pindex) :
    pindex.tail ≠ [] ∧ pindex.tail ∈ tree.blocks ∧ height pindex.tail = height pindex - 1 := by
  have pprev : pindex.tail ≠ [] := ne_nil_of_length_pos (length_tail ▸ pos)
  exact ⟨pprev, tree.closed pindex listed pprev, congrArg (· - 1) length_tail⟩

theorem pskip_mem (pprev : pindex.tail ≠ []) (finds : tree.Finds pindex.tail (getSkipHeight (height pindex))
      (getAncestor tree.pskip pindex.tail (getSkipHeight (height pindex)))) :
    tree.pskip pindex ∈ tree.blocks ∧ tree.pskip pindex <:+ pindex ∧
      height (tree.pskip pindex) = getSkipHeight (height pindex) := by
  obtain ⟨skip, skipListed, found, suffix, reached⟩ := finds
  have built := tree.built pindex listed
  rw [buildSkip, if_neg pprev, found] at built
  cases built
  exact ⟨skipListed, suffix.trans (tail_suffix pindex), reached⟩

omit listed in
theorem getAncestor_of_le {pskip : List ι → List ι} (low : ansHeight ≤ height pindex) :
    getAncestor pskip pindex ansHeight = ancestorWalk pskip ansHeight (height pindex) pindex :=
  if_neg (by omega)

theorem finds_getAncestor (low : ansHeight ≤ height pindex) :
    tree.Finds pindex ansHeight (getAncestor tree.pskip pindex ansHeight) := by
  induction size : height pindex using Nat.strong_induction_on generalizing pindex ansHeight with
  | _ _ ih =>
    subst size
    rw [getAncestor_of_le low, ancestorWalk]
    by_cases above : ansHeight < height pindex
    · obtain ⟨pprev, tailListed, tailHeight⟩ := tail_mem listed (Nat.zero_lt_of_lt above)
      have lower := getSkipHeight_lt (Nat.zero_lt_of_lt above)
      obtain ⟨skipListed, suffix, reached⟩ := pskip_mem listed pprev
        (ih _ (by omega) tailListed (tailHeight ▸ Nat.le_sub_one_of_lt lower) rfl)
      rw [if_pos above]
      dsimp only
      split_ifs with better
      · rw [← reached] at better lower ⊢
        rw [← getAncestor_of_le (by omega)]
        exact (ih _ lower skipListed (by omega) rfl).of_suffix suffix
      · rw [← tailHeight, ← getAncestor_of_le (by omega)]
        exact (ih _ (by omega) tailListed (by omega) rfl).of_suffix (tail_suffix pindex)
    · rw [if_neg above, le_antisymm low (not_lt.mp above)]
      exact finds_self listed

theorem finds_anchorWalk {rounds : ℕ} (low : nASERTAnchorAt ≤ height pindex) (enough : height pindex < rounds) :
    tree.Finds pindex nASERTAnchorAt (anchorWalk tree.pskip nASERTAnchorAt rounds pindex) := by
  induction rounds generalizing pindex with
  | zero => omega
  | succ rounds ih =>
    rw [anchorWalk]
    rcases Nat.eq_zero_or_pos (height pindex) with zero | pos
    · have last : pindex.tail = [] := length_eq_zero_iff.mp (length_tail.trans zero)
      rw [if_pos last, show nASERTAnchorAt = height pindex by omega]
      exact finds_self listed
    · obtain ⟨pprev, tailListed, tailHeight⟩ := tail_mem listed pos
      have lower := getSkipHeight_lt pos
      obtain ⟨skipListed, suffix, reached⟩ := pskip_mem listed pprev (finds_getAncestor tailListed (by omega))
      rw [if_neg pprev]
      split_ifs with above here
      · exact (ih skipListed above.2 (by omega)).of_suffix suffix
      · rw [← here.2]
        exact finds_self listed
      · exact (ih tailListed (by omega) (by omega)).of_suffix (tail_suffix pindex)

end Walks

variable [DecidableEq ι]

/-! ## The cached anchor -/

theorem finds_getASERTAnchorBlock {cachedAnchor : List ι} (listed : pindex ∈ tree.blocks)
    (cached : cachedAnchor ≠ [] → height cachedAnchor = nASERTAnchorAt) :
    let call := getASERTAnchorBlock tree.pskip nASERTAnchorAt cachedAnchor pindex
    (∃ next, call.map Prod.snd = some next ∧ (next ≠ [] → height next = nASERTAnchorAt)) ∧
      (nASERTAnchorAt ≤ height pindex → tree.Finds pindex nASERTAnchorAt (call.map Prod.fst)) := by
  rw [getASERTAnchorBlock]
  by_cases below : height pindex < nASERTAnchorAt
  · rw [if_pos below]
    exact ⟨⟨cachedAnchor, rfl, cached⟩, fun low => absurd below (not_lt.mpr low)⟩
  · obtain ⟨anchor, anchorListed, walked, suffix, reached⟩ :=
      finds_anchorWalk listed (not_lt.mp below) (Nat.lt_of_succ_le (length_eq listed).ge)
    obtain ⟨ancestor, ancestorListed, found, above, level⟩ := finds_getAncestor listed (not_lt.mp below)
    rw [if_neg below, walked]
    split_ifs with empty
    · exact ⟨⟨anchor, rfl, fun _ => reached⟩, fun _ => ⟨anchor, anchorListed, rfl, suffix, reached⟩⟩
    · rw [cached empty, found, Option.bind_eq_bind, Option.bind_some]
      split_ifs with same
      · rw [← same]
        exact ⟨⟨ancestor, rfl, fun _ => level⟩, fun _ => ⟨ancestor, ancestorListed, rfl, above, level⟩⟩
      · exact ⟨⟨anchor, rfl, fun _ => reached⟩, fun _ => ⟨anchor, anchorListed, rfl, suffix, reached⟩⟩

/-- After any calls, on any branches, a call returns the ancestor at the anchor height. -/
theorem anchors_found (nASERTAnchorAt : ℕ) (calls : List tree.blocks) : ∃ cachedAnchor,
    calls.foldlM (fun cached pindex =>
      (getASERTAnchorBlock tree.pskip nASERTAnchorAt cached pindex.1).map Prod.snd) [] =
      some cachedAnchor ∧
    ∀ pindex ∈ tree.blocks, nASERTAnchorAt ≤ height pindex → tree.Finds pindex nASERTAnchorAt
      ((getASERTAnchorBlock tree.pskip nASERTAnchorAt cachedAnchor pindex).map Prod.fst) := by
  have run := exists_foldlM_eq_some (fun cached => cached ≠ [] → height cached = nASERTAnchorAt)
    (fun {_ pindex} (_ : pindex ∈ calls) filled => (finds_getASERTAnchorBlock pindex.2 filled).1) (absurd rfl)
  obtain ⟨cachedAnchor, ran, cached⟩ := run
  exact ⟨cachedAnchor, ran, fun pindex listed low => (finds_getASERTAnchorBlock listed cached).2 low⟩

section

variable {tree : SkipTree CBlockIndex} {params : Params}

theorem length_walkToAnchor {index : CBlockIndex} {pprev : BlockIndexRef}
    (numbered : ∀ earlier rest, earlier :: rest <:+ index :: pprev → earlier.height = rest.length)
    (low : params.nASERTAnchorAt ≤ height (index :: pprev)) :
    walkToAnchor params (index :: pprev) <:+ index :: pprev ∧
      (walkToAnchor params (index :: pprev)).length = params.nASERTAnchorAt + 1 := by
  induction pprev generalizing index with
  | nil => exact ⟨suffix_rfl, by simpa [walkToAnchor, height, eq_comm] using low⟩
  | cons earlier rest ih =>
    have level := numbered index _ suffix_rfl
    rw [walkToAnchor]
    split_ifs with here
    · exact ⟨suffix_rfl, by rw [← here.2, level, length_cons]⟩
    · have lower : params.nASERTAnchorAt ≤ height (earlier :: rest) := by
        simp only [height, length_cons] at low level ⊢
        omega
      obtain ⟨suffix, length⟩ := ih (fun index pprev below => numbered index pprev (below.trans (suffix_cons ..))) lower
      exact ⟨suffix.trans (suffix_cons ..), length⟩

theorem mem_of_suffix {index : CBlockIndex} {pprev pindex : BlockIndexRef} (suffix : index :: pprev <:+ pindex)
    (listed : pindex ∈ tree.blocks) : index :: pprev ∈ tree.blocks := by
  induction pindex with
  | nil => cases suffix_nil.mp suffix
  | cons first rest ih =>
    rcases suffix_cons_iff.mp suffix with same | below
    · exact same ▸ listed
    · exact ih below (tree.closed _ listed (ne_nil_of_length_pos (Nat.zero_lt_of_lt below.length_le)))

theorem getASERTAnchorBlock_eq {pindex cachedAnchor : BlockIndexRef} (listed : pindex ∈ tree.blocks)
    (numbered : ∀ index pprev, index :: pprev ∈ tree.blocks → index.height = pprev.length)
    (cached : cachedAnchor ≠ [] → height cachedAnchor = params.nASERTAnchorAt) :
    (getASERTAnchorBlock tree.pskip params.nASERTAnchorAt cachedAnchor pindex).map Prod.fst =
      some (Nexa.getASERTAnchorBlock params pindex) := by
  obtain ⟨index, pprev, rfl⟩ := exists_cons_of_ne_nil (ne_nil_of_length_eq_add_one (length_eq listed))
  have level : index.height = height (index :: pprev) := numbered index pprev listed
  rw [Nexa.getASERTAnchorBlock, level]
  split_ifs with below
  · rw [getASERTAnchorBlock, if_pos below]
    rfl
  · obtain ⟨anchor, anchorListed, found, suffix, reached⟩ :=
      (finds_getASERTAnchorBlock listed cached).2 (not_lt.mp below)
    obtain ⟨walked, length⟩ := length_walkToAnchor
      (fun index pprev suffix => numbered index pprev (mem_of_suffix suffix listed)) (not_lt.mp below)
    have same : anchor.length = (walkToAnchor params (index :: pprev)).length := by
      rw [length, length_eq anchorListed, reached]
    rw [found, (suffix_of_suffix_length_le suffix walked same.le).eq_of_length same]

end

/-! ## `LastCommonAncestor` -/

theorem exists_commonLoop {genesis : ι} (rootedA : [genesis] <:+ pa) (rootedB : [genesis] <:+ pb)
    (level : pa.length = pb.length) : ∃ common, commonLoop pa pb = some common ∧ common ≠ [] ∧
      ∀ pindex, pindex <:+ common ↔ pindex <:+ pa ∧ pindex <:+ pb := by
  induction pa generalizing pb with
  | nil => cases suffix_nil.mp rootedA
  | cons a pa ih =>
    obtain ⟨b, pb, rfl⟩ := exists_cons_of_length_eq_add_one level.symm
    rw [commonLoop]
    split_ifs with same
    · rw [← same]
      exact ⟨_, rfl, cons_ne_nil a pa, fun _ => and_self_iff.symm⟩
    · have shared : ∀ pindex, pindex <:+ a :: pa ∧ pindex <:+ b :: pb ↔ pindex <:+ pa ∧ pindex <:+ pb := by
        refine fun pindex => ⟨fun ⟨inA, inB⟩ => ⟨?_, ?_⟩, fun ⟨inA, inB⟩ => ?_⟩
        · refine (suffix_cons_iff.mp inA).resolve_left fun whole => ?_
          exact same ((whole ▸ inB).eq_of_length level)
        · refine (suffix_cons_iff.mp inB).resolve_left fun whole => ?_
          exact same ((whole ▸ inA).eq_of_length level.symm).symm
        · exact ⟨inA.trans (suffix_cons a pa), inB.trans (suffix_cons b pb)⟩
      simp only [shared]
      obtain ⟨rootedA, rootedB⟩ := (shared _).mp ⟨rootedA, rootedB⟩
      exact ih rootedA rootedB (Nat.succ_injective level)

variable (tree) in
/-- The ancestors of what `LastCommonAncestor` finds are the common ancestors of the two blocks. -/
theorem ancestors_found : (∀ pindex ∈ tree.blocks, ∀ ansHeight ≤ height pindex,
      tree.Finds pindex ansHeight (getAncestor tree.pskip pindex ansHeight)) ∧
    ∀ pa ∈ tree.blocks, ∀ pb ∈ tree.blocks, ∃ common, lastCommonAncestor tree.pskip pa pb = some common ∧ common ≠ [] ∧
        ∀ pindex, pindex <:+ common ↔ pindex <:+ pa ∧ pindex <:+ pb := by
  refine ⟨fun pindex listed ansHeight low => finds_getAncestor listed low, fun pa listedA pb listedB => ?_⟩
  -- the ancestor of the higher block has the same ancestors up to the height of the lower one
  have lowered : ∀ {high low ancestor : List ι}, ancestor <:+ high → ancestor.length = low.length →
      ∀ pindex, pindex <:+ low → (pindex <:+ high ↔ pindex <:+ ancestor) := by
    intro high low ancestor suffix level pindex inLow
    refine ⟨fun inHigh => ?_, fun inAncestor => inAncestor.trans suffix⟩
    exact suffix_of_suffix_length_le inHigh suffix (level ▸ inLow.length_le)
  have sizeA := length_eq listedA
  have sizeB := length_eq listedB
  rw [lastCommonAncestor]
  split_ifs with higherA higherB
  · obtain ⟨ancestor, listed, found, suffix, reached⟩ := finds_getAncestor listedA higherA.le
    have level : ancestor.length = pb.length := by rw [length_eq listed, reached, sizeB]
    rw [found, Option.bind_some]
    simp only [and_congr_left (lowered suffix level _)]
    exact exists_commonLoop (tree.rooted ancestor listed) (tree.rooted pb listedB) level
  · obtain ⟨ancestor, listed, found, suffix, reached⟩ := finds_getAncestor listedB higherB.le
    have level : ancestor.length = pa.length := by rw [length_eq listed, reached, sizeA]
    rw [found, Option.bind_some]
    simp only [and_congr_right (lowered suffix level _)]
    exact exists_commonLoop (tree.rooted pa listedA) (tree.rooted ancestor listed) level.symm
  · exact exists_commonLoop (tree.rooted pa listedA) (tree.rooted pb listedB) (by omega)

end Nexa.SkipTree
