import Nexa.Model.Primitives.Block
import Nexa.ToMathlib.PairTree

/-! # The Merkle root of a block

An odd level is padded with its last hash, so two lists of leaves can have one root: a list and the
same list with its end repeated. The flag of `ComputeMerkleRoot` tells them apart. Two lists that do
not raise it and have trees of one height are equal if their roots are, as long as no two of the
pairs that were hashed collide.
-/

namespace Nexa

open List

/-- The hash of a node with two children, as `SHA256D64` computes it. -/
def nodeHash (children : Uint256 × Uint256) : Uint256 := hash256 (children.1.toBytes ++ children.2.toBytes)

theorem merkleLevel_eq_map_pairUp (hashes : List Uint256) : merkleLevel hashes = hashes.pairUp.map nodeHash := by
  fun_induction merkleLevel hashes with
  | case1 => rfl
  | case2 last => rfl
  | case3 left right rest ih => rw [ih, pairUp, map_cons, nodeHash]

theorem repeatsInPair_iff (hashes : List Uint256) : repeatsInPair hashes = true ↔ hashes.HasTwins := by
  fun_induction repeatsInPair hashes with
  | case1 left right rest ih => simp [HasTwins, ih]
  | case2 hashes short =>
    rcases hashes with _ | ⟨left, _ | ⟨right, rest⟩⟩
    · simp [HasTwins]
    · simp [HasTwins]
    · exact absurd rfl (short left right rest)

/-- The pairs of children hashed on the levels of the loop. -/
def hashedPairs : ℕ → List Uint256 → List (Uint256 × Uint256)
  | 0, _ => []
  | rounds + 1, hashes =>
    if 1 < hashes.length then hashes.pairUp ++ hashedPairs rounds (merkleLevel hashes) else []

/-- All pairs that `ComputeMerkleRoot` hashes on the way to the root. -/
def merklePairs (leaves : List Uint256) : List (Uint256 × Uint256) := hashedPairs leaves.length leaves

/-- The number of levels above the leaves. -/
def treeHeight (leaves : List Uint256) : ℕ := Nat.clog 2 leaves.length

variable {hashes : List Uint256} {rounds : ℕ} {mutation : Bool}

theorem treeHeight_merkleLevel (several : 1 < hashes.length) :
    treeHeight hashes = treeHeight (merkleLevel hashes) + 1 := by
  rw [treeHeight, treeHeight, length_merkleLevel, Nat.clog_of_two_le Nat.one_lt_two several]
  rfl

theorem treeHeight_eq_zero_iff (hashes : List Uint256) : treeHeight hashes = 0 ↔ hashes.length ≤ 1 := by
  constructor
  · intro flat
    by_contra several
    have positive := Nat.clog_pos Nat.one_lt_two (Nat.lt_of_not_le several)
    rw [treeHeight] at flat
    omega
  · intro short
    exact Nat.clog_of_right_le_one short 2

theorem merkleLoop_mutation (unmutated : (merkleLoop rounds hashes mutation).2 = false) : mutation = false := by
  induction rounds generalizing hashes mutation with
  | zero => exact unmutated
  | succ rounds ih =>
    rw [merkleLoop] at unmutated
    split_ifs at unmutated with several
    · exact (Bool.or_eq_false_iff.mp (ih unmutated)).1
    · exact unmutated

theorem merkleLevel_ne_nil (nonempty : hashes ≠ []) : merkleLevel hashes ≠ [] := by
  have positive := length_pos_iff.mpr nonempty
  rw [← length_pos_iff, length_merkleLevel]
  omega

theorem eq_of_merkleLoop_eq {rounds' : ℕ} {hashes' : List Uint256} {mutation' : Bool}
    (enough : hashes.length ≤ rounds) (enough' : hashes'.length ≤ rounds') (nonempty : hashes ≠ [])
    (nonempty' : hashes' ≠ []) (sameHeight : treeHeight hashes = treeHeight hashes')
    (injective : Set.InjOn nodeHash {pair | pair ∈ hashedPairs rounds hashes ∨ pair ∈ hashedPairs rounds' hashes'})
    (unmutated : (merkleLoop rounds hashes mutation).2 = false)
    (unmutated' : (merkleLoop rounds' hashes' mutation').2 = false)
    (sameRoot : (merkleLoop rounds hashes mutation).1 = (merkleLoop rounds' hashes' mutation').1) :
    hashes = hashes' := by
  induction rounds generalizing rounds' hashes hashes' mutation mutation' with
  | zero => exact absurd (length_eq_zero_iff.mp (Nat.le_zero.mp enough)) nonempty
  | succ rounds ih =>
    have positive := length_pos_iff.mpr nonempty
    have positive' := length_pos_iff.mpr nonempty'
    obtain _ | rounds' := rounds'
    · omega
    by_cases several : 1 < hashes.length
    · have several' : 1 < hashes'.length := by
        by_contra short
        rw [treeHeight_merkleLevel several, (treeHeight_eq_zero_iff hashes').mpr (Nat.le_of_not_lt short)] at sameHeight
        omega
      rw [treeHeight_merkleLevel several, treeHeight_merkleLevel several', Nat.add_right_cancel_iff] at sameHeight
      rw [merkleLoop, if_pos several] at unmutated sameRoot
      rw [merkleLoop, if_pos several'] at unmutated' sameRoot
      rw [hashedPairs, if_pos several, hashedPairs, if_pos several'] at injective
      have distinct := (Bool.or_eq_false_iff.mp (merkleLoop_mutation unmutated)).2
      have distinct' := (Bool.or_eq_false_iff.mp (merkleLoop_mutation unmutated')).2
      rw [← Bool.not_eq_true, repeatsInPair_iff] at distinct distinct'
      -- the lists are equal if the levels above them are
      refine eq_of_pairUp_eq distinct distinct' (eq_of_map_eq_of_injOn (injective.mono fun pair hashed =>
        hashed.imp (mem_append_left _) (mem_append_left _)) ?_)
      · rw [← merkleLevel_eq_map_pairUp, ← merkleLevel_eq_map_pairUp]
        refine ih ?_ ?_ (merkleLevel_ne_nil nonempty) (merkleLevel_ne_nil nonempty') sameHeight ?_ unmutated unmutated'
          sameRoot
        · rw [length_merkleLevel]
          omega
        · rw [length_merkleLevel]
          omega
        · apply injective.mono
          intro pair hashed
          exact hashed.imp (mem_append_right _) (mem_append_right _)
    · -- a tree without levels is its root
      have flat := (treeHeight_eq_zero_iff hashes).mpr (Nat.le_of_not_lt several)
      rw [flat] at sameHeight
      have short' := (treeHeight_eq_zero_iff hashes').mp sameHeight.symm
      obtain ⟨leaf, rfl⟩ := length_eq_one_iff.mp (le_antisymm (Nat.le_of_not_lt several) positive)
      obtain ⟨leaf', rfl⟩ := length_eq_one_iff.mp (le_antisymm short' positive')
      simpa [merkleLoop] using sameRoot

/-- Two lists of leaves with trees of one height and one root that are not reported as mutated are
equal, unless two of the pairs of children that were hashed collide. -/
theorem eq_of_computeMerkleRoot_eq {leaves leaves' : List Uint256} (nonempty : leaves ≠ []) (nonempty' : leaves' ≠ [])
    (sameHeight : treeHeight leaves = treeHeight leaves')
    (injective : Set.InjOn nodeHash {pair | pair ∈ merklePairs leaves ∨ pair ∈ merklePairs leaves'})
    (unmutated : (computeMerkleRoot leaves).2 = false) (unmutated' : (computeMerkleRoot leaves').2 = false)
    (sameRoot : (computeMerkleRoot leaves).1 = (computeMerkleRoot leaves').1) : leaves = leaves' :=
  eq_of_merkleLoop_eq le_rfl le_rfl nonempty nonempty' sameHeight injective unmutated unmutated' sameRoot

theorem eq_of_computeMerkleRoot_eq_sample :
    (∀ pair ∈ merklePairs [1, 2, 3], ∀ pair' ∈ merklePairs [1, 2, 3], nodeHash pair = nodeHash pair' → pair = pair') ∧
    (computeMerkleRoot [1, 2, 3]).2 = false ∧ ([1, 2, 3] : List Uint256) = [1, 2, 3] := by
  have unmutated : (computeMerkleRoot [1, 2, 3]).2 = false := by decide +kernel
  have compared : (merklePairs [1, 2, 3]).all (fun pair => (merklePairs [1, 2, 3]).all fun pair' =>
      decide (nodeHash pair = nodeHash pair' → pair = pair')) = true := by decide +kernel
  have injective : ∀ pair ∈ merklePairs [1, 2, 3], ∀ pair' ∈ merklePairs [1, 2, 3],
      nodeHash pair = nodeHash pair' → pair = pair' := by
    intro pair mem pair' mem'
    exact of_decide_eq_true (all_eq_true.mp (all_eq_true.mp compared pair mem) pair' mem')
  refine ⟨injective, unmutated, eq_of_computeMerkleRoot_eq (by simp) (by simp) rfl ?_ unmutated unmutated rfl⟩
  intro pair hashed pair' hashed' same
  exact injective pair (or_self_iff.mp hashed) pair' (or_self_iff.mp hashed') same

/-- Without the flag the root does not settle the leaves. -/
example : (computeMerkleRoot [1, 2, 3]).1 = (computeMerkleRoot [1, 2, 3, 3]).1 ∧
    (computeMerkleRoot [1, 2, 3, 3]).2 = true := by decide +kernel

end Nexa
