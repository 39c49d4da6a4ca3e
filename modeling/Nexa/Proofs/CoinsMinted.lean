import Mathlib
import Nexa.Model.Chain.CoinsMinted

/-! # The coins minted are the sum of the subsidies

Before the round `k` the loop of `GetCoinsMinted` has the total of the first `k` eras. What is still
to come is at most twice the subsidies of an era at the present rate, so that the total keeps below the
bound at which the supply starts.
-/

namespace Nexa

open Nat Finset

variable (initial interval height : ℕ)

/-- The subsidy of the block at a height. -/
def subsidyAt : ℕ := initial / 2 ^ (height / interval)

/-- The subsidies of all blocks below a height. -/
def mintedBelow : ℕ := ∑ i ∈ range height, subsidyAt initial interval i

section

variable {initial interval : ℕ} (era : ℕ)

theorem mintedBelow_add {blocks : ℕ} (positive : 0 < interval) (within : blocks ≤ interval) :
    mintedBelow initial interval (era * interval + blocks) =
      mintedBelow initial interval (era * interval) + initial / 2 ^ era * blocks := by
  have same : ∀ i ∈ range blocks, subsidyAt initial interval (era * interval + i) = initial / 2 ^ era := by
    intro i mem
    have below : i < interval := (mem_range.mp mem).trans_le within
    have eraOf : (era * interval + i) / interval = era := by
      rw [mul_comm, mul_add_div positive, div_eq_of_lt below, add_zero]
    rw [subsidyAt, eraOf]
  rw [mintedBelow, mintedBelow, sum_range_add, sum_const_nat same, card_range, mul_comm blocks]

theorem two_mul_div_two_pow_le : 2 * (initial / 2 ^ (era + 1)) ≤ initial / 2 ^ era := by
  rw [pow_succ, ← Nat.div_div_eq_div_mul]
  omega

theorem mintedBelow_add_le (positive : 0 < interval) :
    mintedBelow initial interval (era * interval) + 2 * (initial / 2 ^ era * interval) ≤ 2 * (initial * interval) := by
  induction era with
  | zero => simp [mintedBelow]
  | succ era ih =>
    have next := @mintedBelow_add initial interval era interval positive le_rfl
    have halved := mul_le_mul_right interval (@two_mul_div_two_pow_le initial era)
    rw [add_mul, one_mul]
    rw [mul_assoc] at halved
    omega

end

/-! ## The loop -/

theorem toInt_shiftRight_one (amount : CAmount) : (amount >>> 1).toInt = amount.toInt / 2 := by
  rw [← Int64.toInt_toBitVec, Int64.toBitVec_shiftRight, BitVec.sshiftRight', BitVec.toInt_sshiftRight,
    Int.shiftRight_eq_div_pow]
  rfl

theorem toNat_toUInt64 {amount : CAmount} {number : ℕ} (is : amount.toInt = number) :
    amount.toUInt64.toNat = number := by
  have whole := amount.toUInt64.toNat_lt
  have sign : amount.toInt = if 2 * amount.toUInt64.toNat < 2 ^ 64 then (amount.toUInt64.toNat : ℤ)
      else amount.toUInt64.toNat - 2 ^ 64 := BitVec.toInt_eq_toNat_cond _
  split_ifs at sign <;> omega

variable {params : Params} {initial interval height era : ℕ}

/-- The parameters of a chain: no era mints half of what an amount can hold. -/
structure MintParams (params : Params) (initial interval : ℕ) : Prop where
  initial_eq : params.initialSubsidy = initial
  interval_eq : params.nSubsidyHalvingInterval = interval
  positive : 0 < interval
  bound : 2 * initial * interval < 2 ^ 63

/-- The variables of the loop before the round `era`. -/
structure MintedEras (initial interval height era : ℕ) (state : MintState) : Prop where
  total : state.totalMinted.toNat = mintedBelow initial interval (era * interval)
  subsidy : state.nSubsidy.toInt = (initial / 2 ^ era : ℕ)
  tracked : state.trackedHeight = height - (era * interval : ℕ)

variable {state : MintState} {left : ℕ}

section

variable (mint : MintParams params initial interval)

include mint

theorem MintedEras.add (eras : MintedEras initial interval height era state) {blocks : ℕ} (within : blocks ≤ interval) :
    ∃ minted, CAmount.ofResult (state.nSubsidy.toInt * blocks) = .ok minted ∧
      (state.totalMinted + minted.toUInt64).toNat = mintedBelow initial interval (era * interval + blocks) := by
  have room := @mintedBelow_add_le initial interval era mint.positive
  have sum := @mintedBelow_add initial interval era blocks mint.positive within
  have part : initial / 2 ^ era * blocks ≤ initial / 2 ^ era * interval := mul_le_mul_left _ within
  have bound := mint.bound
  rw [mul_assoc] at bound
  have product : state.nSubsidy.toInt * blocks = (initial / 2 ^ era * blocks : ℕ) := by
    rw [eras.subsidy]
    rfl
  have fits : -2 ^ 63 ≤ state.nSubsidy.toInt * blocks ∧ state.nSubsidy.toInt * blocks < 2 ^ 63 := by
    omega
  refine ⟨Int64.ofInt _, by rw [CAmount.ofResult, if_pos fits]; rfl, ?_⟩
  have minted := toNat_toUInt64 ((Int64.toInt_ofInt_of_le fits.1 fits.2).trans product)
  rw [UInt64.toNat_add, minted, eras.total, sum]
  exact mod_eq_of_lt (by omega)

theorem MintedEras.mintRound (eras : MintedEras initial interval height era state)
    (whole : (era + 1) * interval ≤ height) :
    ∃ next, Nexa.mintRound params state = .ok next ∧ MintedEras initial interval height (era + 1) next := by
  obtain ⟨minted, product, total⟩ := eras.add mint le_rfl
  have left : (params.nSubsidyHalvingInterval : ℤ) ≤ state.trackedHeight := by
    rw [eras.tracked, mint.interval_eq]
    rw [add_mul] at whole
    omega
  rw [Nexa.mintRound, if_pos left, mint.interval_eq, product]
  refine ⟨_, rfl, ?_, ?_, ?_⟩
  · rw [total, add_mul, one_mul]
  · rw [toInt_shiftRight_one, eras.subsidy, pow_succ, ← Nat.div_div_eq_div_mul]
    rfl
  · rw [eras.tracked, add_mul]
    push_cast
    omega

theorem MintedEras.mintRound_last (eras : MintedEras initial interval height (height / interval) state) :
    ∃ next, Nexa.mintRound params state = .ok next ∧ next.totalMinted.toNat = mintedBelow initial interval height := by
  have split := div_add_mod' height interval
  have short := mod_lt height mint.positive
  obtain ⟨minted, product, total⟩ := eras.add mint short.le
  have tracked : state.trackedHeight = (height % interval : ℕ) := by
    rw [eras.tracked]
    omega
  have few : ¬(params.nSubsidyHalvingInterval : ℤ) ≤ state.trackedHeight := by
    rw [mint.interval_eq]
    omega
  rw [Nexa.mintRound, if_neg few, tracked, product]
  exact ⟨_, rfl, by rw [total, split]⟩

end

section

variable {halvings i : ℤ} {next : MintState}

theorem mintLoop_succ (fuel : ℕ) (goes : i ≤ halvings) (inRange : i + 1 < 2 ^ 31)
    (round : mintRound params state = .ok next) :
    mintLoop params halvings (fuel + 1) i state = mintLoop params halvings fuel (i + 1) next := by
  have counts : assertThat (i + 1 < 2 ^ 31) = .ok () := assertThat_eq_ok_iff.mpr inRange
  rw [mintLoop, if_pos goes, round]
  rw [counts]
  rfl

theorem mintLoop_overflow (fuel : ℕ) (goes : i ≤ halvings) (overflow : ¬i + 1 < 2 ^ 31)
    (round : mintRound params state = .ok next) : mintLoop params halvings (fuel + 1) i state = crash := by
  have counts : assertThat (i + 1 < 2 ^ 31) = crash := if_neg overflow
  rw [mintLoop, if_pos goes, round]
  rw [counts]
  rfl

end

section

variable (mint : MintParams params initial interval)

include mint

theorem MintedEras.mintLoop {state : MintState} (eras : MintedEras initial interval height era state) {left : ℕ}
    (halvings : height / interval = era + left) :
    ∃ final, final.totalMinted.toNat = mintedBelow initial interval height ∧
      Nexa.mintLoop params (height / interval : ℕ) (left + 2) era state =
        if ((height / interval : ℕ) : ℤ) + 1 < 2 ^ 31 then .ok final else crash := by
  induction left generalizing era state with
  | zero =>
    subst halvings
    obtain ⟨next, round, total⟩ := eras.mintRound_last mint
    refine ⟨next, total, ?_⟩
    split_ifs with inRange
    · rw [mintLoop_succ _ le_rfl inRange round, Nexa.mintLoop, if_neg (by omega)]
      rfl
    · exact mintLoop_overflow _ le_rfl inRange round
  | succ left ih =>
    have whole : (era + 1) * interval ≤ height := (le_div_iff_mul_le mint.positive).mp (by omega)
    obtain ⟨next, round, erasNext⟩ := eras.mintRound mint whole
    obtain ⟨final, total, run⟩ := ih erasNext (by omega)
    refine ⟨final, total, ?_⟩
    by_cases inRange : (era : ℤ) + 1 < 2 ^ 31
    · rw [mintLoop_succ _ (by omega) inRange round]
      exact run
    · rw [if_neg (by omega)]
      exact mintLoop_overflow _ (by omega) inRange round

/-! ## The subsidies -/

theorem MintParams.ofResult {value : ℕ} (small : value ≤ initial) :
    CAmount.ofResult value = .ok (Int64.ofInt value) ∧ (Int64.ofInt value).toInt = value := by
  have large : initial ≤ initial * interval := Nat.le_mul_of_pos_right _ mint.positive
  have bound := mint.bound
  rw [mul_assoc] at bound
  have fits : -2 ^ 63 ≤ (value : ℤ) ∧ (value : ℤ) < 2 ^ 63 := by omega
  rw [CAmount.ofResult, if_pos fits]
  exact ⟨rfl, Int64.toInt_ofInt_of_le fits.1 fits.2⟩

variable (height : ℕ)

theorem MintParams.halvings : assertThat (params.nSubsidyHalvingInterval ≠ 0) = .ok () ∧
      (height : ℤ).tdiv params.nSubsidyHalvingInterval = (height / interval : ℕ) := by
  rw [mint.interval_eq]
  exact ⟨assertThat_eq_ok_iff.mpr mint.positive.ne', rfl⟩

theorem MintParams.getBlockSubsidy :
    ∃ subsidy, Nexa.getBlockSubsidy params height = .ok subsidy ∧ subsidy.toInt =
      subsidyAt initial interval height := by
  obtain ⟨nonzero, halvings⟩ := mint.halvings height
  rw [Nexa.getBlockSubsidy, nonzero]
  change ∃ subsidy, (if 64 ≤ (height : ℤ).tdiv params.nSubsidyHalvingInterval then pure 0 else _) = _ ∧ _
  rw [halvings]
  split_ifs with late
  · refine ⟨0, rfl, ?_⟩
    have initially := (mint.ofResult le_rfl).2 ▸ Int64.toInt_lt (Int64.ofInt initial)
    have vanished : initial < 2 ^ (height / interval) :=
      lt_of_lt_of_le (show initial < 2 ^ 64 by omega) (Nat.pow_le_pow_right Nat.two_pos (by exact_mod_cast late))
    rw [subsidyAt, div_eq_of_lt vanished]
    rfl
  · have value : params.initialSubsidy / 2 ^ ((height / interval : ℕ) : ℤ).toNat =
        (subsidyAt initial interval height : ℕ) := by
      rw [mint.initial_eq]
      rfl
    refine ⟨_, ?_, (mint.ofResult (div_le_self _ _)).2⟩
    change CAmount.ofResult (params.initialSubsidy / 2 ^ ((height / interval : ℕ) : ℤ).toNat) = _
    rw [value]
    exact (mint.ofResult (div_le_self _ _)).1

theorem MintParams.getCoinsMinted_eq :
    ∃ minted, minted.toNat = mintedBelow initial interval height ∧ getCoinsMinted params height =
      if ((height / interval : ℕ) : ℤ) + 1 < 2 ^ 31 then .ok minted else crash := by
  obtain ⟨nonzero, halvings⟩ := mint.halvings height
  obtain ⟨initially, initially_toInt⟩ := mint.ofResult le_rfl
  have eras : MintedEras initial interval height 0 { nSubsidy := Int64.ofInt initial, trackedHeight := height } :=
    ⟨by simp [mintedBelow], by rw [initially_toInt, pow_zero, Nat.div_one], by simp⟩
  obtain ⟨final, total, run⟩ := eras.mintLoop mint (zero_add _).symm
  refine ⟨final.totalMinted, total, ?_⟩
  rw [getCoinsMinted, nonzero]
  rw [mint.initial_eq, initially, halvings]
  change mintLoop params (height / interval : ℕ) (height / interval + 2) (0 : ℕ) _ >>= _ = _
  rw [run]
  split_ifs <;> rfl

end

/-- The coins minted are the sum of the subsidies, unless the loop has a round for every `int`. -/
theorem getCoinsMinted_sum_iff {nHeight : ℤ} (start : 0 ≤ nHeight) (isInt : nHeight < 2 ^ 31)
    (positive : 0 < params.nSubsidyHalvingInterval) (nonneg : 0 ≤ params.initialSubsidy)
    (bound : 2 * params.initialSubsidy * params.nSubsidyHalvingInterval < 2 ^ 63) :
    (∃ minted, getCoinsMinted params nHeight = .ok minted ∧ ∃ subsidy : ℕ → CAmount,
      (∀ i : ℕ, (i : ℤ) < nHeight → getBlockSubsidy params i = .ok (subsidy i)) ∧
        (minted.toNat : ℤ) = ∑ i ∈ range nHeight.toNat, (subsidy i).toInt) ↔
      ¬(params.nSubsidyHalvingInterval = 1 ∧ nHeight = 2 ^ 31 - 1) := by
  obtain ⟨height, rfl⟩ := Int.eq_ofNat_of_zero_le start
  obtain ⟨initial, initial_eq⟩ := Int.eq_ofNat_of_zero_le nonneg
  have mint : MintParams params initial params.nSubsidyHalvingInterval := by
    refine ⟨initial_eq, rfl, positive, ?_⟩
    rw [initial_eq] at bound
    exact_mod_cast bound
  obtain ⟨minted, total, minted_eq⟩ := mint.getCoinsMinted_eq height
  by_cases inRange : ((height / params.nSubsidyHalvingInterval : ℕ) : ℤ) + 1 < 2 ^ 31
  · choose subsidy subsidies values using mint.getBlockSubsidy
    refine iff_of_true ⟨minted, ?_, subsidy, fun i _ => subsidies i, ?_⟩ ?_
    · rw [minted_eq, if_pos inRange]
    · rw [total, mintedBelow, cast_sum]
      exact sum_congr rfl fun i _ => (values i).symm
    · rintro ⟨one, last⟩
      rw [one, Nat.div_one, last] at inRange
      exact absurd inRange (by decide)
  · refine iff_of_false ?_ (not_not.mpr ?_)
    · rintro ⟨minted, computed, -⟩
      rw [minted_eq, if_neg inRange] at computed
      exact crash_ne_ok computed
    · -- two blocks in an era would halve the number of rounds
      have one : params.nSubsidyHalvingInterval = 1 := by
        by_contra other
        have half : height / params.nSubsidyHalvingInterval ≤ height / 2 := Nat.div_le_div_left (by omega) Nat.two_pos
        omega
      rw [one] at inRange
      exact ⟨one, by omega⟩

theorem getCoinsMinted_sum_iff_sample :
    getCoinsMinted { initialSubsidy := 5, nSubsidyHalvingInterval := 2 } 5 = .ok 15 ∧
    ∃ subsidy : ℕ → CAmount, (15 : ℤ) = ∑ i ∈ range 5, (subsidy i).toInt := by
  have minted : getCoinsMinted { initialSubsidy := 5, nSubsidyHalvingInterval := 2 } 5 = .ok 15 := by decide
  obtain ⟨other, same, subsidy, -, sum⟩ := (@getCoinsMinted_sum_iff
    { initialSubsidy := 5, nSubsidyHalvingInterval := 2 } 5 (by decide) (by decide) (by decide) (by decide)
    (by decide)).mpr (by decide)
  cases minted.symm.trans same
  exact ⟨minted, subsidy, sum⟩

/-- With an interval of one block and the largest height the counter of the rounds overflows. -/
theorem getCoinsMinted_overflow :
    getCoinsMinted { initialSubsidy := 1, nSubsidyHalvingInterval := 1 } (2 ^ 31 - 1) = crash := by
  have mint : MintParams { initialSubsidy := 1, nSubsidyHalvingInterval := 1 } 1 1 := ⟨rfl, rfl, by decide, by decide⟩
  obtain ⟨minted, -, crashes⟩ := mint.getCoinsMinted_eq 2147483647
  exact crashes.trans (if_neg (by decide))

end Nexa
