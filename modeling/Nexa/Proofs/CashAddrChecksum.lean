import Nexa.Proofs.ConvertBits
import Mathlib.Data.Nat.Bitwise

/-! # The checksum of an address

A step of `PolyMod` is linear over exclusive or. From the zero state eight values are packed into the
state unchanged, so that for every text before them exactly one choice of eight values passes.
-/

namespace Nexa.CashAddr

open List Nat

/-- A constant that is added when bit `i` is set. -/
def bitTerm (c i constant : ℕ) : ℕ := if c.testBit i then constant else 0

variable (c : ℕ)

/-- What the bits shifted out of the state put into the next one. -/
def feedback : ℕ := bitTerm c 35 0x98f2bc8e61 ^^^ bitTerm c 36 0x79b76d99e2 ^^^ bitTerm c 37 0xf33e5fb3c4 ^^^
    bitTerm c 38 0xae2eabe2a8 ^^^ bitTerm c 39 0x1e4f43e470

theorem bitTerm_xor (c e i constant : ℕ) :
    bitTerm (c ^^^ e) i constant = bitTerm c i constant ^^^ bitTerm e i constant := by
  simp only [bitTerm, testBit_xor]
  cases c.testBit i <;> cases e.testBit i <;> simp

theorem feedback_xor (c e : ℕ) : feedback (c ^^^ e) = feedback c ^^^ feedback e := by
  simp only [feedback, bitTerm_xor]
  ac_rfl

theorem and_two_pow_ne_zero_iff {c bit : ℕ} (narrow : bit < 8) :
    (c >>> 35) % 2 ^ 8 &&& 2 ^ bit ≠ 0 ↔ c.testBit (35 + bit) := by
  rw [and_two_pow, testBit_mod_two_pow, testBit_shiftRight]
  cases c.testBit (35 + bit) <;> simp [narrow]

theorem ite_xor_eq_bitTerm (mask bit : ℕ) {c state constant : ℕ} (power : mask = 2 ^ bit) (narrow : bit < 8) :
    (if (c >>> 35) % 2 ^ 8 &&& mask ≠ 0 then state ^^^ constant else state) =
      state ^^^ bitTerm c (35 + bit) constant := by
  subst power
  simp only [and_two_pow_ne_zero_iff narrow, bitTerm]
  split_ifs <;> simp

theorem polyModStep_eq (d : UInt8) : polyModStep c d = ((c &&& 0x07ffffffff) <<< 5) ^^^ d.toNat ^^^ feedback c := by
  simp only [polyModStep, feedback]
  rw [ite_xor_eq_bitTerm 0x01 0 rfl (by norm_num), ite_xor_eq_bitTerm 0x02 1 rfl (by norm_num),
    ite_xor_eq_bitTerm 0x04 2 rfl (by norm_num), ite_xor_eq_bitTerm 0x08 3 rfl (by norm_num),
    ite_xor_eq_bitTerm 0x10 4 rfl (by norm_num)]
  simp [Nat.xor_assoc]

theorem polyModStep_xor (c e : ℕ) (d f : UInt8) :
    polyModStep (c ^^^ e) (d ^^^ f) = polyModStep c d ^^^ polyModStep e f := by
  simp only [polyModStep_eq, feedback_xor, UInt8.toNat_xor, and_xor_distrib_right, shiftLeft_xor_distrib]
  ac_rfl

theorem bitTerm_lt {constant : ℕ} (small : constant < 2 ^ 40) (c i : ℕ) : bitTerm c i constant < 2 ^ 40 := by
  unfold bitTerm
  split_ifs
  · exact small
  · norm_num

theorem polyModStep_lt (d : UInt8) : polyModStep c d < 2 ^ 40 := by
  have shifted : (c &&& 0x07ffffffff) <<< 5 < 2 ^ 40 := by
    have masked : c &&& 0x07ffffffff ≤ 0x07ffffffff := and_le_right
    omega
  have value : d.toNat < 2 ^ 40 := d.toNat_lt.trans (by norm_num)
  rw [polyModStep_eq]
  refine xor_lt_two_pow (xor_lt_two_pow shifted value) ?_
  iterate 4 refine xor_lt_two_pow ?_ (bitTerm_lt (by norm_num) c _)
  exact bitTerm_lt (by norm_num) c _

theorem foldl_polyModStep_lt {c : ℕ} (small : c < 2 ^ 40) (v : Bytes) : v.foldl polyModStep c < 2 ^ 40 := by
  induction v generalizing c with
  | nil => exact small
  | cons d v ih => exact ih (polyModStep_lt c d)

theorem polyModStep_of_lt {c : ℕ} (small : c < 2 ^ 35) {d : UInt8} (bound : d.toNat < 2 ^ 5) :
    polyModStep c d = c * 2 ^ 5 + d.toNat := by
  have masked : c &&& 0x07ffffffff = c := by
    rw [show (0x07ffffffff : ℕ) = 2 ^ 35 - 1 from rfl, and_two_pow_sub_one_eq_mod, mod_eq_of_lt small]
  have silent : feedback c = 0 := by
    have clear : ∀ i, 35 ≤ i → c.testBit i = false := fun i high =>
      Nat.testBit_lt_two_pow (small.trans_le (Nat.pow_le_pow_right (by norm_num) high))
    simp [feedback, bitTerm, clear]
  rw [polyModStep_eq, masked, silent, xor_zero, ← shiftLeft_eq, shiftLeft_add_eq_or_of_lt bound]
  -- the value lies below the shifted state, so that no bit is set in both
  apply eq_of_testBit_eq
  intro i
  rw [testBit_xor, testBit_or]
  by_cases low : i < 5
  · simp [low.not_ge]
  · rw [Nat.testBit_lt_two_pow (bound.trans_le (Nat.pow_le_pow_right (by norm_num) (not_lt.mp low)))]
    simp

theorem foldl_polyModStep_xor (c e : ℕ) {v w : Bytes} (length : v.length = w.length) :
    (zipWith (· ^^^ ·) v w).foldl polyModStep (c ^^^ e) = v.foldl polyModStep c ^^^ w.foldl polyModStep e := by
  induction v generalizing w c e with
  | nil =>
    obtain rfl := length_eq_zero_iff.mp length.symm
    rfl
  | cons d v ih =>
    obtain ⟨f, w, rfl⟩ := exists_cons_of_length_eq_add_one length.symm
    simp only [zipWith_cons_cons, foldl_cons, polyModStep_xor]
    exact ih _ _ (by simpa using length)

theorem foldl_polyModStep_zero {v : Bytes} (short : v.length ≤ 8) (bound : ∀ d ∈ v, d.toNat < 2 ^ 5) :
    v.foldl polyModStep 0 = bitsValue 5 v := by
  induction v using reverseRecOn with
  | nil => simp
  | append_singleton v d ih =>
    have boundFront : ∀ a ∈ v, a.toNat < 2 ^ 5 := fun a mem => bound a (mem_append_left [d] mem)
    have shortFront : v.length ≤ 7 := by
      rw [length_append, length_singleton] at short
      omega
    have small : bitsValue 5 v < 2 ^ 35 := by
      have digits := @ofDigitsBE_lt_base_pow_length (2 ^ 5) (by norm_num) (v.map UInt8.toNat)
        (by simpa using boundFront)
      rw [length_map, ← pow_mul] at digits
      exact digits.trans_le (Nat.pow_le_pow_right (by norm_num) (by omega))
    rw [foldl_append, ih (by omega) boundFront, foldl_cons, foldl_nil,
      polyModStep_of_lt small (bound d (by simp)), bitsValue_concat]

variable (addrPrefix values : Bytes)

theorem length_createChecksum : (createChecksum addrPrefix values).length = 8 := by
  simp [createChecksum]

theorem createChecksum_lt : ∀ d ∈ createChecksum addrPrefix values, d.toNat < 2 ^ 5 := by
  intro d mem
  obtain ⟨i, -, rfl⟩ := mem_map.mp mem
  rw [show (0x1f : ℕ) = 2 ^ 5 - 1 from rfl, toNat_masked (by norm_num)]
  exact mod_lt _ (by norm_num)

theorem bitsValue_createChecksum : bitsValue 5 (createChecksum addrPrefix values) =
      polyMod (expandPrefix addrPrefix ++ values ++ replicate 8 0) ^^^ 1 := by
  have small : polyMod (expandPrefix addrPrefix ++ values ++ replicate 8 0) ^^^ 1 < 2 ^ 40 :=
    xor_lt_two_pow (foldl_polyModStep_lt (by norm_num) _) (by norm_num)
  simp only [createChecksum, range_succ, range_zero, nil_append, map_cons, map_nil, cons_append, bitsValue_cons,
    bitsValue_nil, show (0x1f : ℕ) = 2 ^ 5 - 1 from rfl, toNat_masked (show 5 ≤ 8 by norm_num), length_cons, length_nil]
  omega

theorem zipWith_zeros (v : Bytes) : zipWith (· ^^^ ·) (replicate v.length 0) v = v := by
  induction v with
  | nil => rfl
  | cons d v ih => rw [length_cons, replicate_succ, zipWith_cons_cons, ih, UInt8.zero_xor]

theorem foldl_polyModStep_eq {run : Bytes} (short : run.length ≤ 8) (bound : ∀ d ∈ run, d.toNat < 2 ^ 5) :
    run.foldl polyModStep c = (replicate run.length 0).foldl polyModStep c ^^^ bitsValue 5 run := by
  have sum := foldl_polyModStep_xor c 0 (show (replicate run.length 0).length = run.length by rw [length_replicate])
  rwa [zipWith_zeros, xor_zero, foldl_polyModStep_zero short bound] at sum

theorem testBit_feedback {i : ℕ} (low : i < 5) : (feedback c).testBit i = c.testBit (35 + i) := by
  unfold feedback bitTerm
  interval_cases i <;> cases c.testBit 35 <;> cases c.testBit 36 <;> cases c.testBit 37 <;> cases c.testBit 38 <;>
    cases c.testBit 39 <;> rfl

theorem polyModStep_injOn {c e : ℕ} (smallC : c < 2 ^ 40) (smallE : e < 2 ^ 40) {d : UInt8}
    (same : polyModStep c d = polyModStep e d) : c = e := by
  have zero : polyModStep (c ^^^ e) 0 = 0 := by
    have sum := polyModStep_xor c e d d
    rwa [UInt8.xor_self, same, Nat.xor_self] at sum
  have small : c ^^^ e < 2 ^ 40 := xor_lt_two_pow smallC smallE
  refine Nat.xor_eq_zero_iff.mp ?_
  generalize c ^^^ e = x at zero small
  have low : x < 2 ^ 35 := by
    refine lt_pow_two_of_testBit x fun i high => ?_
    by_cases top : i < 40
    · have bit := congrArg (testBit · (i - 35)) zero
      simpa [polyModStep_eq, testBit_feedback x (show i - 35 < 5 by omega), Nat.add_sub_cancel' high,
        show ¬5 ≤ i - 35 by omega] using bit
    · exact Nat.testBit_lt_two_pow (small.trans_le (Nat.pow_le_pow_right (by norm_num) (not_lt.mp top)))
  rw [polyModStep_of_lt low (by decide)] at zero
  simpa using zero

theorem foldl_polyModStep_injOn {c e : ℕ} (smallC : c < 2 ^ 40) (smallE : e < 2 ^ 40) {v : Bytes}
    (same : v.foldl polyModStep c = v.foldl polyModStep e) : c = e := by
  induction v generalizing c e with
  | nil => exact same
  | cons d v ih => exact polyModStep_injOn smallC smallE (ih (polyModStep_lt c d) (polyModStep_lt e d) same)

theorem eq_of_verifyChecksum {addrPrefix front run others back : Bytes} (length : others.length = run.length)
    (short : run.length ≤ 8) (bound : ∀ d ∈ run, d.toNat < 2 ^ 5) (boundOthers : ∀ d ∈ others, d.toNat < 2 ^ 5)
    (passes : verifyChecksum addrPrefix (front ++ run ++ back) = true)
    (others_pass : verifyChecksum addrPrefix (front ++ others ++ back) = true) : others = run := by
  simp only [verifyChecksum, beq_iff_eq, polyMod, foldl_append] at passes others_pass
  have small (v : Bytes) :
      v.foldl polyModStep (front.foldl polyModStep ((expandPrefix addrPrefix).foldl polyModStep 1)) < 2 ^ 40 :=
    foldl_polyModStep_lt (foldl_polyModStep_lt (foldl_polyModStep_lt (by norm_num) _) _) v
  have same := foldl_polyModStep_injOn (small others) (small run) (others_pass.trans passes.symm)
  rw [foldl_polyModStep_eq _ short bound, foldl_polyModStep_eq _ (length.le.trans short) boundOthers, length] at same
  exact eq_of_bitsValue_eq (by norm_num) length boundOthers bound (Nat.xor_right_injective same)

theorem verifyChecksum_append_iff {addrPrefix values check : Bytes} (length : check.length = 8)
    (bound : ∀ d ∈ check, d.toNat < 2 ^ 5) :
    verifyChecksum addrPrefix (values ++ check) = true ↔ check = createChecksum addrPrefix values := by
  have value := bitsValue_createChecksum addrPrefix values
  rw [verifyChecksum, beq_iff_eq, ← append_assoc, polyMod, foldl_append, foldl_polyModStep_eq _ length.le bound, length,
    ← foldl_append, ← polyMod]
  constructor
  · intro passes
    refine eq_of_bitsValue_eq (by norm_num) (by rw [length, length_createChecksum]) bound
      (createChecksum_lt addrPrefix values) ?_
    rw [value, ← passes, ← Nat.xor_assoc, Nat.xor_self, Nat.zero_xor]
  · rintro rfl
    rw [value, ← Nat.xor_assoc, Nat.xor_self, Nat.zero_xor]

end Nexa.CashAddr
