import Mathlib
import Nexa.Model.Consensus.GroupTokens

/-! # What the balances of `CheckGroupTokens` stand for

The passes of `CheckGroupTokens` accumulate, for each group, the total of its non-authority outputs and
of its consumed non-authority inputs, and the combined flags of its authority outputs and of its
activated input authorities. This module states these totals over the transaction itself and shows
that the balances an accepted transaction ends with are exactly these.
-/

namespace Nexa

open GroupAuthorityFlags CGroupTokenID Validation BitVec CGroupTokenInfo

/-! ## Flags -/

namespace GroupAuthorityFlags

/-- The flags that some element of the list carries. -/
def combined (flags : List GroupAuthorityFlags) : GroupAuthorityFlags := flags.foldr (· ||| ·) NONE

theorem hasCapability_or (x y capability : GroupAuthorityFlags) :
    hasCapability (x ||| y) capability = (hasCapability x capability || hasCapability y capability) := by
  have split : (x ||| y) &&& capability = 0 ↔ x &&& capability = 0 ∧ y &&& capability = 0 := by
    rw [and_or_distrib_right]
    exact or_eq_zero_iff
  rw [hasCapability, hasCapability, hasCapability, ← Bool.decide_or]
  exact decide_eq_decide.mpr (by rw [Ne, split, not_and_or])

theorem combined_append (flags others : List GroupAuthorityFlags) :
    combined (flags ++ others) = combined flags ||| combined others := by
  induction flags with
  | nil => simp [combined, NONE]
  | cons x rest ih =>
    change x ||| combined (rest ++ others) = x ||| combined rest ||| combined others
    rw [ih, BitVec.or_assoc]

theorem hasCapability_of_and {x mask capability : GroupAuthorityFlags}
    (capable : hasCapability (x &&& mask) capability = true) : hasCapability x capability = true := by
  rw [hasCapability, decide_eq_true_eq] at capable ⊢
  intro zero
  apply capable
  rw [BitVec.and_assoc, BitVec.and_comm mask, ← BitVec.and_assoc, zero]
  exact zero_and

theorem hasCapability_combined {flags : List GroupAuthorityFlags} {capability : GroupAuthorityFlags} :
    hasCapability (combined flags) capability = true ↔ ∃ x ∈ flags, hasCapability x capability = true := by
  induction flags with
  | nil => simp [combined, hasCapability, NONE]
  | cons x rest ih =>
    have step : combined (x :: rest) = x ||| combined rest := rfl
    rw [step, hasCapability_or, Bool.or_eq_true, ih, List.exists_mem_cons_iff]

theorem hasCapability_twoPow (x : GroupAuthorityFlags) {i : ℕ} (bound : i < 64) :
    hasCapability x (twoPow 64 i) = x.getLsbD i := by
  rw [hasCapability, and_twoPow]
  cases bit : x.getLsbD i with
  | false => simp
  | true =>
    have nonzero : twoPow 64 i ≠ 0 := by
      intro zero
      have atBit := congrArg (fun flags => getLsbD flags i) zero
      simp [bound] at atBit
    simpa using nonzero

end GroupAuthorityFlags

/-! ## The data of an output -/

namespace CGroupTokenInfo

variable (info : CGroupTokenInfo)

/-- Scripts without a group carry no tokens and no flags; the flags of a group are the bits of a negative
quantity. -/
def WellFormed : Prop := (info.associatedGroup = NoGroup ∧ info.quantity = 0 ∧ info.controllingGroupFlags = NONE) ∨
    (PARENT_GROUP_ID_SIZE ≤ info.associatedGroup.length ∧ info.invalid = false ∧
      info.controllingGroupFlags = if info.quantity.toInt < 0 then info.quantity.toUInt64.toBitVec else NONE)

theorem isScriptGrouped_wellFormed (script : CScript) (type : ScriptType) :
    (isScriptGrouped script type).1.WellFormed := by
  fun_cases isScriptGrouped script type
  case case9 short _ _ _ _ => exact .inr ⟨Nat.le_of_not_lt short, rfl, rfl⟩
  all_goals exact .inl ⟨rfl, rfl, rfl⟩

theorem ofTxOut_wellFormed (output : CTxOut) : (ofTxOut output).WellFormed :=
  isScriptGrouped_wellFormed output.scriptPubKey output.scriptType

theorem isAuthority_eq : info.isAuthority = info.controllingGroupFlags.getLsbD 63 := by
  have single : AUTHORITY = twoPow 64 63 := by decide
  rw [isAuthority, single, and_twoPow]
  cases info.controllingGroupFlags.getLsbD 63 with
  | true => simp
  | false => decide

theorem isAuthority_iff (output : CTxOut) :
    ((ofTxOut output).isAuthority = true ↔ (ofTxOut output).controllingGroupFlags ≠ NONE) ∧
      ((ofTxOut output).isAuthority = true ↔ (ofTxOut output).quantity.toInt < 0) := by
  rw [isAuthority_eq]
  obtain ⟨-, zero, flags⟩ | ⟨-, -, flags⟩ := ofTxOut_wellFormed output
  · rw [flags, zero]
    decide
  · by_cases negative : (ofTxOut output).quantity.toInt < 0
    · rw [if_pos negative] at flags
      have sign : (ofTxOut output).controllingGroupFlags.getLsbD 63 = true := by
        have msb : (ofTxOut output).quantity.toBitVec.msb = true := by
          rw [msb_eq_toInt]
          exact decide_eq_true negative
        rw [flags, ← msb]
        rfl
      refine ⟨iff_of_true sign ?_, iff_of_true sign negative⟩
      intro none
      rw [none] at sign
      exact absurd sign (by decide)
    · rw [if_neg negative] at flags
      rw [flags]
      exact ⟨iff_of_false (by decide) (by simp), iff_of_false (by decide) negative⟩

variable {output : CTxOut}

theorem flags_eq_none (plain : (ofTxOut output).isAuthority = false) :
    (ofTxOut output).controllingGroupFlags = NONE := by
  by_contra flagged
  rw [(isAuthority_iff output).1.mpr flagged] at plain
  cases plain

theorem allowsRenew_eq : info.allowsRenew = (info.isAuthority && hasCapability info.controllingGroupFlags BATON) := by
  have baton : BATON = twoPow 64 60 := by decide
  have both : AUTHORITY ||| BATON = twoPow 64 63 ||| twoPow 64 60 := by decide
  rw [isAuthority_eq, allowsRenew, both, baton, hasCapability_twoPow _ (by decide), and_or_distrib_left,
    and_twoPow, and_twoPow]
  cases info.controllingGroupFlags.getLsbD 63 <;> cases info.controllingGroupFlags.getLsbD 60 <;> decide

theorem tokenAmount_nonneg (plain : (ofTxOut output).isAuthority = false) (nonneg : 0 ≤ output.nValue.toInt) :
    0 ≤ (tokenAmount output).toInt := by
  rw [tokenAmount]
  split_ifs with fenced
  · exact nonneg
  · by_contra negative
    rw [(isAuthority_iff output).2.mpr (not_le.mp negative)] at plain
    cases plain

theorem tokenAmount_eq_zero (native : (ofTxOut output).associatedGroup = NoGroup) : (tokenAmount output).toInt = 0 := by
  obtain ⟨-, zero, -⟩ | ⟨long, -⟩ := ofTxOut_wellFormed output
  · rw [tokenAmount, native, zero]
    rfl
  · rw [native] at long
    cases long

theorem ne_noGroup_of_isAuthority (authority : (ofTxOut output).isAuthority = true) :
    (ofTxOut output).associatedGroup ≠ NoGroup := by
  intro native
  obtain ⟨-, -, flags⟩ | ⟨long, -⟩ := ofTxOut_wellFormed output
  · exact (isAuthority_iff output).1.mp authority flags
  · rw [native] at long
    cases long

theorem native_of_invalid (invalid : (ofTxOut output).invalid = true) :
    (ofTxOut output).associatedGroup = NoGroup ∧ (ofTxOut output).isAuthority = false := by
  obtain ⟨native, -, flags⟩ | ⟨-, valid, -⟩ := ofTxOut_wellFormed output
  · refine ⟨native, ?_⟩
    rw [isAuthority_eq, flags]
    decide
  · rw [invalid] at valid
    cases valid

end CGroupTokenInfo

/-! ## Totals over a transaction -/

variable (vout : List CTxOut) (group : CGroupTokenID)

/-- The authority outputs of a group. -/
def authorityOutputs : List CTxOut :=
  vout.filter fun outp => (ofTxOut outp).associatedGroup = group ∧ (ofTxOut outp).isAuthority

/-- The number of outputs of a group. -/
def outputCount : ℕ := (vout.filter fun outp => (ofTxOut outp).associatedGroup = group).length

/-- The combined flags of the authority outputs of a group. -/
def outputPerms : GroupAuthorityFlags :=
  combined ((authorityOutputs vout group).map fun outp => (ofTxOut outp).controllingGroupFlags)

/-- The total amount of the non-authority outputs of a group. -/
def outputTotal : ℤ :=
  ((vout.filter fun outp => (ofTxOut outp).associatedGroup = group ∧ !(ofTxOut outp).isAuthority).map
    fun outp => (tokenAmount outp).toInt).sum

section

variable (view readonlyCoins : COutPoint → Coin)

/-- The token data of the coin that an input refers to. -/
def inputInfo (inp : CTxIn) : CGroupTokenInfo := ofTxOut (inputCoin view readonlyCoins inp).out

/-- An input authority is activated when it is consumed, or is read-only with `BATON` and signed. -/
def isActivated (inp : CTxIn) : Bool := (inputInfo view readonlyCoins inp).isAuthority && (!inp.isReadOnly ||
      (hasCapability (inputInfo view readonlyCoins inp).controllingGroupFlags BATON && inp.scriptSig.length ≠ 0))

/-- The flags of the activated input authorities of a group. -/
def activatedAuthorities (vin : List CTxIn) (group : CGroupTokenID) : List GroupAuthorityFlags :=
  (vin.filter fun inp => (inputInfo view readonlyCoins inp).associatedGroup = group ∧
    isActivated view readonlyCoins inp).map fun inp => (inputInfo view readonlyCoins inp).controllingGroupFlags

/-- The total amount of the consumed non-authority inputs of a group. -/
def inputTotal (vin : List CTxIn) (group : CGroupTokenID) : ℤ :=
  ((vin.filter fun inp => (inputInfo view readonlyCoins inp).associatedGroup = group ∧ !inp.isReadOnly ∧
    !(inputInfo view readonlyCoins inp).isAuthority).map
      fun inp => (tokenAmount (inputCoin view readonlyCoins inp).out).toInt).sum

end

/-! ## The pass over the outputs -/

theorem addTokens_eq_ok {total amount sum : CAmount} (added : addTokens total amount = .ok sum) :
    sum.toInt = total.toInt + amount.toInt := by
  obtain ⟨room, -, added⟩ := bind_eq_ok_iff.mp added
  obtain ⟨-, added⟩ := seq_eq_ok_iff.mp added
  exact CAmount.add_eq_ok_iff.mp added

@[simp] theorem GroupBalanceMap.balance_modify_self (gBalance : GroupBalanceMap) (group : CGroupTokenID)
    (f : GroupBalance → GroupBalance) : (gBalance.modify group f).balance group = f (gBalance.balance group) :=
  Function.update_self ..

variable {gBalance : GroupBalanceMap} {out : CTxOut}

theorem GroupBalanceMap.balance_modify_of_ne {group other : CGroupTokenID} (apart : other ≠ group)
    (f : GroupBalance → GroupBalance) :
    (gBalance.modify other f).balance group = gBalance.balance group :=
  Function.update_of_ne apart.symm ..

variable (bal : GroupBalance)

/-- A balance after further outputs: their number and flags, and the total they have led to. -/
def GroupBalance.withOutputs (count : ℕ) (perms : GroupAuthorityFlags) (output : CAmount) :
    GroupBalance :=
  { bal with numOutputs := bal.numOutputs + count, ctrlOutputPerms := bal.ctrlOutputPerms ||| perms, output }

theorem tallyOutput_eq_ok {outp : CTxOut} {bal result : GroupBalance} (tallied : tallyOutput outp bal = .ok result) :
    ∃ output, result = bal.withOutputs 1 (ofTxOut outp).controllingGroupFlags output ∧
      (((ofTxOut outp).isAuthority = false → 0 ≤ (tokenAmount outp).toInt) →
        output.toInt = bal.output.toInt + if (ofTxOut outp).isAuthority then 0 else (tokenAmount outp).toInt) := by
  obtain ⟨-, tallied⟩ := seq_eq_ok_iff.mp tallied
  dsimp only at tallied
  split_ifs at tallied with authority positive
  · cases tallied
    exact ⟨bal.output, rfl, fun _ => by rw [if_pos authority, Int.add_zero]⟩
  all_goals rw [flags_eq_none (Bool.eq_false_iff.mpr authority), if_neg authority]
  · obtain ⟨output, added, ⟨⟩⟩ := bind_eq_ok_iff.mp tallied
    refine ⟨output, ?_, fun _ => addTokens_eq_ok added⟩
    simp [GroupBalance.withOutputs, NONE]
  · obtain ⟨nonzero, ⟨⟩⟩ := seq_eq_ok_iff.mp tallied
    refine ⟨bal.output, by simp [GroupBalance.withOutputs, NONE], ?_⟩
    intro nonneg
    have := nonneg (Bool.eq_false_iff.mpr authority)
    omega

variable {outp : CTxOut} {group : CGroupTokenID}

theorem totals_cons_of_ne (other : (ofTxOut outp).associatedGroup ≠ group) (rest : List CTxOut) :
    outputCount (outp :: rest) group = outputCount rest group ∧
      outputPerms (outp :: rest) group = outputPerms rest group ∧
      outputTotal (outp :: rest) group = outputTotal rest group := by
  simp [outputCount, outputPerms, authorityOutputs, outputTotal, other]

theorem totals_cons_self (same : (ofTxOut outp).associatedGroup = group) (rest : List CTxOut) :
    outputCount (outp :: rest) group = 1 + outputCount rest group ∧
      outputPerms (outp :: rest) group = (ofTxOut outp).controllingGroupFlags ||| outputPerms rest group ∧
      outputTotal (outp :: rest) group =
        (if (ofTxOut outp).isAuthority then 0 else (tokenAmount outp).toInt) + outputTotal rest group := by
  cases authority : (ofTxOut outp).isAuthority with
  | true =>
    simp [outputCount, outputPerms, authorityOutputs, outputTotal, same, authority, combined, Nat.add_comm]
  | false =>
    have noFlags := flags_eq_none authority
    simp [outputCount, outputPerms, authorityOutputs, outputTotal, same, authority, noFlags, NONE, Nat.add_comm]

theorem tallyOutputs_eq_ok {vout : List CTxOut} {result : GroupBalanceMap} {group : CGroupTokenID}
    (tallied : tallyOutputs vout gBalance = .ok result) (isGroup : group ≠ NoGroup) :
    ∃ output, result.balance group =
        (gBalance.balance group).withOutputs (outputCount vout group) (outputPerms vout group) output ∧
      ((∀ outp ∈ vout, (ofTxOut outp).associatedGroup = group →
          (ofTxOut outp).isAuthority = false → 0 ≤ (tokenAmount outp).toInt) →
        output.toInt = (gBalance.balance group).output.toInt + outputTotal vout group) := by
  induction vout generalizing gBalance with
  | nil =>
    cases tallied
    refine ⟨(result.balance group).output, ?_, ?_⟩
    · simp [GroupBalance.withOutputs, outputCount, outputPerms, authorityOutputs, combined, NONE]
    · simp [outputTotal]
  | cons outp rest ih =>
    simp only [List.forall_mem_cons]
    obtain ⟨-, tallied⟩ := seq_eq_ok_iff.mp tallied
    split_ifs at tallied with native
    · obtain ⟨count, perms, total⟩ := totals_cons_of_ne (native ▸ isGroup.symm) rest
      rw [count, perms, total]
      obtain ⟨output, final, sum⟩ := ih tallied
      exact ⟨output, final, fun nonneg => sum nonneg.2⟩
    · obtain ⟨bal, one, tallied⟩ := bind_eq_ok_iff.mp tallied
      obtain ⟨output, final, sum⟩ := ih tallied
      by_cases same : (ofTxOut outp).associatedGroup = group
      · obtain ⟨count, perms, total⟩ := totals_cons_self same rest
        obtain ⟨outputOne, rfl, sumOne⟩ := tallyOutput_eq_ok one
        rw [same, GroupBalanceMap.balance_modify_self] at final sum
        rw [same] at sumOne
        rw [count, perms, total]
        refine ⟨output, by simp [final, GroupBalance.withOutputs, Nat.add_assoc, BitVec.or_assoc], ?_⟩
        intro nonneg
        rw [sum nonneg.2, ← Int.add_assoc, ← sumOne (nonneg.1 same)]
        rfl
      · obtain ⟨count, perms, total⟩ := totals_cons_of_ne same rest
        rw [GroupBalanceMap.balance_modify_of_ne same] at final sum
        rw [count, perms, total]
        exact ⟨output, final, fun nonneg => sum nonneg.2⟩

/-! ## The pass over the inputs -/

/-- What inputs with the given authorities and a total amount make of a balance. -/
structure GroupBalance.InputsAdded (bal result : GroupBalance) (flags : List GroupAuthorityFlags) (total : ℤ) :
    Prop where
  input : result.input.toInt = bal.input.toInt + total
  ctrlPerms : result.ctrlPerms = bal.ctrlPerms ||| combined flags
  allowedCtrlOutputPerms : result.allowedCtrlOutputPerms =
    bal.allowedCtrlOutputPerms ||| combined (flags.filter fun x => hasCapability x BATON)
  allowedSubgroupCtrlOutputPerms : result.allowedSubgroupCtrlOutputPerms = bal.allowedSubgroupCtrlOutputPerms |||
      combined (flags.filter fun x => hasCapability x BATON && hasCapability x SUBGROUP)
  ctrlOutputPerms : result.ctrlOutputPerms = bal.ctrlOutputPerms
  output : result.output = bal.output
  numOutputs : result.numOutputs = bal.numOutputs

namespace GroupBalance.InputsAdded

theorem refl : InputsAdded bal bal [] 0 := by
  constructor <;> simp [combined, NONE]

theorem trans {first second third : GroupBalance} {flags others : List GroupAuthorityFlags} {total further : ℤ}
    (one : InputsAdded first second flags total) (two : InputsAdded second third others further) :
    InputsAdded first third (flags ++ others) (total + further) where
  input := by rw [two.input, one.input, Int.add_assoc]
  ctrlPerms := by rw [two.ctrlPerms, one.ctrlPerms, combined_append, BitVec.or_assoc]
  allowedCtrlOutputPerms := by
    rw [two.allowedCtrlOutputPerms, one.allowedCtrlOutputPerms, List.filter_append, combined_append, BitVec.or_assoc]
  allowedSubgroupCtrlOutputPerms := by
    rw [two.allowedSubgroupCtrlOutputPerms, one.allowedSubgroupCtrlOutputPerms, List.filter_append, combined_append,
      BitVec.or_assoc]
  ctrlOutputPerms := two.ctrlOutputPerms.trans one.ctrlOutputPerms
  output := two.output.trans one.output
  numOutputs := two.numOutputs.trans one.numOutputs

end GroupBalance.InputsAdded

theorem addAuthority_spec (out : CTxOut) : bal.InputsAdded (addAuthority (ofTxOut out).controllingGroupFlags bal)
      (if (ofTxOut out).isAuthority then [(ofTxOut out).controllingGroupFlags] else [])
      0 := by
  cases authority : (ofTxOut out).isAuthority with
  | false =>
    rw [flags_eq_none authority]
    exact .refl bal
  | true =>
    have flagged := (isAuthority_iff out).1.mp authority
    rw [addAuthority, if_neg flagged]
    constructor
    case allowedCtrlOutputPerms =>
      by_cases baton : hasCapability (ofTxOut out).controllingGroupFlags BATON <;> simp [baton, combined, NONE]
    case allowedSubgroupCtrlOutputPerms =>
      by_cases delegates : hasCapability (ofTxOut out).controllingGroupFlags BATON ∧
          hasCapability (ofTxOut out).controllingGroupFlags SUBGROUP <;>
        simp [delegates, combined, NONE]
    all_goals simp [combined, NONE]

variable {bal result : GroupBalance}

theorem findCovenant_spec (found : findCovenant out bal = .ok result) : bal.InputsAdded result [] 0 := by
  rw [findCovenant] at found
  split_ifs at found with wanted
  · split at found
    · cases found
    · cases found
      exact .refl bal
    · cases found
      constructor <;> simp [combined, NONE]
  · cases found
    exact .refl bal

theorem addInput_spec (added : addInput out bal = .ok result) :
    bal.InputsAdded result [] (if (ofTxOut out).isAuthority then 0 else (tokenAmount out).toInt) := by
  rw [addInput] at added
  split_ifs at added with plain
  · obtain ⟨input, sum, ⟨⟩⟩ := bind_eq_ok_iff.mp added
    have notAuthority : ¬(ofTxOut out).isAuthority = true := by simpa using plain.2
    rw [if_neg notAuthority]
    constructor
    case input => exact addTokens_eq_ok sum
    all_goals simp [combined, NONE]
  · cases added
    have nothing : (if (ofTxOut out).isAuthority then 0 else (tokenAmount out).toInt) = 0 := by
      split_ifs with authority
      · rfl
      · apply tokenAmount_eq_zero
        by_contra isGroup
        exact plain ⟨isGroup, by simpa using authority⟩
    rw [nothing]
    exact .refl bal

theorem tallyInput_spec (tallied : tallyInput out bal = .ok result) : bal.InputsAdded result
      (if (ofTxOut out).isAuthority then [(ofTxOut out).controllingGroupFlags] else [])
      (if (ofTxOut out).isAuthority then 0 else (tokenAmount out).toInt) := by
  obtain ⟨covenanted, found, tallied⟩ := bind_eq_ok_iff.mp tallied
  obtain ⟨counted, added, ⟨⟩⟩ := bind_eq_ok_iff.mp tallied
  have whole := ((addAuthority_spec bal out).trans (findCovenant_spec found)).trans (addInput_spec added)
  rw [List.append_nil, List.append_nil, Int.add_zero, Int.zero_add] at whole
  -- counting the input is not part of what the balance stands for
  exact { whole with }

variable {view readonlyCoins : COutPoint → Coin} {inp : CTxIn}

theorem isActivated_of_countsInput : (countsInput inp (inputInfo view readonlyCoins inp) = true →
      isActivated view readonlyCoins inp = (inputInfo view readonlyCoins inp).isAuthority ∧
        ((inputInfo view readonlyCoins inp).isAuthority = false → inp.isReadOnly = false)) ∧
    (countsInput inp (inputInfo view readonlyCoins inp) = false → (inputInfo view readonlyCoins inp).invalid = false →
      isActivated view readonlyCoins inp = false ∧ inp.isReadOnly = true) := by
  rw [countsInput, allowsRenew_eq, isActivated]
  generalize (inputInfo view readonlyCoins inp).isAuthority = authority
  generalize hasCapability (inputInfo view readonlyCoins inp).controllingGroupFlags BATON = baton
  generalize decide (inp.scriptSig.length ≠ 0) = signed
  generalize inp.isReadOnly = readOnly
  cases readOnly <;> cases authority <;> cases baton <;> cases signed <;> simp_all

theorem not_activated_of_not_counts (skipped : countsInput inp (inputInfo view readonlyCoins inp) = false) :
    isActivated view readonlyCoins inp = false ∧
      (inp.isReadOnly = false → (tokenAmount (inputCoin view readonlyCoins inp).out).toInt = 0) := by
  cases invalid : (inputInfo view readonlyCoins inp).invalid with
  | true =>
    obtain ⟨native, plain⟩ := native_of_invalid invalid
    refine ⟨?_, fun _ => tokenAmount_eq_zero native⟩
    rw [isActivated, inputInfo, plain, Bool.false_and]
  | false =>
    obtain ⟨inactive, readOnly⟩ := isActivated_of_countsInput.2 skipped invalid
    exact ⟨inactive, fun consumed => absurd (readOnly.symm.trans consumed) (by decide)⟩

theorem activatedAuthorities_cons (rest : List CTxIn) (group : CGroupTokenID) :
    activatedAuthorities view readonlyCoins (inp :: rest) group =
      (if (inputInfo view readonlyCoins inp).associatedGroup = group ∧ isActivated view readonlyCoins inp then
        [(inputInfo view readonlyCoins inp).controllingGroupFlags] else []) ++
        activatedAuthorities view readonlyCoins rest group := by
  split_ifs <;> simp_all [activatedAuthorities]

theorem inputTotal_cons (rest : List CTxIn) (group : CGroupTokenID) :
    inputTotal view readonlyCoins (inp :: rest) group =
      (if (inputInfo view readonlyCoins inp).associatedGroup = group ∧ !inp.isReadOnly ∧
          !(inputInfo view readonlyCoins inp).isAuthority then
        (tokenAmount (inputCoin view readonlyCoins inp).out).toInt else 0) +
        inputTotal view readonlyCoins rest group := by
  split_ifs <;> simp_all [inputTotal]

theorem tallyInputs_spec {vin : List CTxIn} {result : GroupBalanceMap}
    (tallied : tallyInputs view readonlyCoins vin gBalance = .ok result) (group : CGroupTokenID) :
    (gBalance.balance group).InputsAdded (result.balance group)
      (activatedAuthorities view readonlyCoins vin group) (inputTotal view readonlyCoins vin group) := by
  induction vin generalizing gBalance with
  | nil =>
    cases tallied
    exact .refl _
  | cons inp rest ih =>
    obtain ⟨-, tallied⟩ := seq_eq_ok_iff.mp tallied
    change (if countsInput inp (inputInfo view readonlyCoins inp) then _ else _) = _ at tallied
    rw [activatedAuthorities_cons, inputTotal_cons]
    split_ifs at tallied with counts
    · obtain ⟨activated, consumed⟩ := isActivated_of_countsInput.1 counts
      obtain ⟨bal, one, tallied⟩ := bind_eq_ok_iff.mp tallied
      refine .trans ?_ (ih tallied)
      have added := tallyInput_spec one
      rw [← inputInfo] at added ⊢
      by_cases same : (inputInfo view readonlyCoins inp).associatedGroup = group
      · rw [same] at added ⊢
        cases authority : (inputInfo view readonlyCoins inp).isAuthority with
        | true => simpa [activated, authority] using added
        | false => simpa [activated, authority, consumed] using added
      · rw [GroupBalanceMap.balance_modify_of_ne same]
        simpa [same] using .refl _
    · obtain ⟨notActivated, nothing⟩ := not_activated_of_not_counts (Bool.eq_false_iff.mpr counts)
      refine .trans ?_ (ih tallied)
      have amount : (if (inputInfo view readonlyCoins inp).associatedGroup = group ∧ !inp.isReadOnly ∧
          !(inputInfo view readonlyCoins inp).isAuthority then
          (tokenAmount (inputCoin view readonlyCoins inp).out).toInt else 0) = 0 := by
        split_ifs with wanted
        · exact nothing (by simpa using wanted.2.1)
        · rfl
      rw [amount]
      simpa [notActivated] using .refl _

end Nexa
