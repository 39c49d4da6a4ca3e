import Mathlib.Data.List.ProdSigma
import Nexa.Model.Mempool.DoubleSpendProof
import Nexa.Model.Script.TxState

/-! # What double spend proofs depend on

The order of the transactions decides which common outpoint is found, and the order of spenders whose outputs and
prevouts are the same. The search does not tell inputs that are only read from those that are consumed.
-/

namespace Nexa.DoubleSpendProof

open List

variable {ctx : DspContext} {t1 t2 : CTransaction}

/-- What `create` needs of the inputs it finds. -/
structure Supported (ctx : DspContext) (in1 in2 : CTxIn) : Prop where
  coin : ∃ coin, ctx.getCoin in1.prevout = some coin ∧ ctx.isValidType coin.out.scriptPubKey = true
  signature1 : getSignature in1.scriptSig ≠ []
  signature2 : getSignature in2.scriptSig ≠ []
  notNull : in1.prevout.hash ≠ 0

theorem unsorted_eq_ok_iff {answer : DoubleSpendProof} : unsorted ctx t1 t2 = .ok answer ↔ t1.getId ≠ t2.getId ∧
      ∃ in1 in2, findConflict t1 t2 = some (in1, in2) ∧ Supported ctx in1.1 in2.1 ∧
        answer = ⟨in1.1.prevout, spenderOf t1 in1, spenderOf t2 in2⟩ := by
  unfold unsorted
  constructor
  · intro made
    split_ifs at made with same
    split at made
    · cases made
    next in1 in2 found =>
      split at made
      · cases made
      next coin known =>
        split_ifs at made with type signatures null
        cases made
        rw [not_or] at signatures
        exact ⟨same, in1, in2, found, ⟨⟨coin, known, by simpa using type⟩, signatures.1, signatures.2, null⟩, rfl⟩
  · rintro ⟨different, in1, in2, found, ⟨⟨coin, known, type⟩, signature1, signature2, notNull⟩, rfl⟩
    simp [different, found, known, type, signature1, signature2]
    exact notNull

/-! ## The order of the transactions -/

/-- Both attempts fail or give the same proof. -/
def SameProof : Except DspError DoubleSpendProof → Except DspError DoubleSpendProof → Prop
  | .ok proof, .ok other => proof = other
  | .error _, .error _ => True
  | _, _ => False

/-- The same spenders, swapped only if the hashes they are sorted by tell them apart or nothing does. -/
def SortedAlike (answer other : DoubleSpendProof) : Prop :=
  answer = other ∨ other = ⟨answer.prevOutpoint, answer.spender2, answer.spender1⟩ ∧
    (answer.spender1.hashOutputs = answer.spender2.hashOutputs →
      answer.spender1.hashPrevOutputs = answer.spender2.hashPrevOutputs → answer.spender1 = answer.spender2)

theorem sortSpenders_eq_iff {answer other : DoubleSpendProof} :
    sortSpenders answer = sortSpenders other ↔ SortedAlike answer other := by
  unfold sortSpenders SortedAlike
  obtain ⟨outpoint, s1, s2⟩ := answer
  constructor
  · intro same
    obtain ⟨outpoint', s1', s2'⟩ := other
    split_ifs at same <;> grind
  · rintro (rfl | ⟨rfl, told⟩)
    · rfl
    · split_ifs <;> grind

theorem findConflict_eq_none_iff : findConflict t1 t2 = none ↔
    ∀ in1 ∈ t1.vin.zipIdx, ∀ in2 ∈ t2.vin.zipIdx, in1.1.prevout ≠ in2.1.prevout := by
  simp only [findConflict, find?_eq_none, mem_product, Prod.forall, decide_eq_true_eq, and_imp]
  exact ⟨fun apart in1 k1 first in2 k2 => apart in1 k1 in2 k2 first,
    fun apart in1 k1 in2 k2 first => apart in1 k1 first in2 k2⟩

theorem findConflict_symm (nothing : findConflict t1 t2 = none) : findConflict t2 t1 = none :=
  findConflict_eq_none_iff.mpr fun in2 second in1 first =>
    (findConflict_eq_none_iff.mp nothing in1 first in2 second).symm

theorem create_eq_error (failed : ∀ answer, unsorted ctx t1 t2 ≠ .ok answer) :
    ∃ error, create ctx t1 t2 = .error error := by
  rw [create]
  cases ran : unsorted ctx t1 t2 with
  | error error => exact ⟨error, rfl⟩
  | ok answer => exact absurd ran (failed answer)

/-- What is made of the inputs that are found. -/
theorem create_of_findConflict {in1 in2 : CTxIn × ℕ} (different : t1.getId ≠ t2.getId)
    (found : findConflict t1 t2 = some (in1, in2)) :
    Supported ctx in1.1 in2.1 ∧
        create ctx t1 t2 = .ok (sortSpenders ⟨in1.1.prevout, spenderOf t1 in1, spenderOf t2 in2⟩) ∨
      ¬Supported ctx in1.1 in2.1 ∧ ∃ error, create ctx t1 t2 = .error error := by
  by_cases supported : Supported ctx in1.1 in2.1
  · have ran := unsorted_eq_ok_iff.mpr ⟨different, in1, in2, found, supported, rfl⟩
    exact .inl ⟨supported, by rw [create, ran]; rfl⟩
  · refine .inr ⟨supported, create_eq_error fun answer ran => ?_⟩
    obtain ⟨-, in1', in2', found', supported', -⟩ := unsorted_eq_ok_iff.mp ran
    cases found.symm.trans found'
    exact supported supported'

/-- The order of the transactions does not matter exactly if both orders lead to inputs that are supported, or both do
not, and supported ones give spenders that are sorted alike. -/
theorem create_symm_iff : SameProof (create ctx t1 t2) (create ctx t2 t1) ↔ t1.getId = t2.getId ∨
      ∀ in1 in2 out2 out1, findConflict t1 t2 = some (in1, in2) → findConflict t2 t1 = some (out2, out1) →
        (Supported ctx in1.1 in2.1 ↔ Supported ctx out2.1 out1.1) ∧
        (Supported ctx in1.1 in2.1 → SortedAlike ⟨in1.1.prevout, spenderOf t1 in1, spenderOf t2 in2⟩
          ⟨out2.1.prevout, spenderOf t2 out2, spenderOf t1 out1⟩) := by
  have fails {t1 t2} (nothing : t1.getId = t2.getId ∨ findConflict t1 t2 = none) :
      ∃ error, create ctx t1 t2 = .error error := by
    refine create_eq_error fun answer ran => ?_
    obtain ⟨different, _, _, found, -⟩ := unsorted_eq_ok_iff.mp ran
    exact nothing.elim different (by simp [found])
  have alike (nothing : t1.getId = t2.getId ∨ findConflict t1 t2 = none) :
      SameProof (create ctx t1 t2) (create ctx t2 t1) := by
    obtain ⟨error, failed⟩ := fails nothing
    obtain ⟨error', failed'⟩ := fails (nothing.imp Eq.symm findConflict_symm)
    rw [failed, failed']
    trivial
  by_cases same : t1.getId = t2.getId
  · exact iff_of_true (alike (.inl same)) (.inl same)
  cases found : findConflict t1 t2 with
  | none => exact iff_of_true (alike (.inr found)) (.inr (by simp))
  | some inputs =>
    obtain ⟨in1, in2⟩ := inputs
    obtain ⟨⟨out2, out1⟩, back⟩ := Option.ne_none_iff_exists'.mp fun nothing : findConflict t2 t1 = none => by
      simp [findConflict_symm nothing] at found
    rw [or_iff_right same]
    constructor
    · intro alike in1' in2' out2' out1' found' back'
      cases found'
      cases back.symm.trans back'
      obtain ⟨supported, made⟩ | ⟨unsupported, error, made⟩ := create_of_findConflict same found <;>
      obtain ⟨supported', made'⟩ | ⟨unsupported', error', made'⟩ := create_of_findConflict (Ne.symm same) back <;>
      rw [made, made'] at alike
      · exact ⟨iff_of_true supported supported', fun _ => sortSpenders_eq_iff.mp alike⟩
      · cases alike
      · cases alike
      · exact ⟨iff_of_false unsupported unsupported', fun supported => absurd supported unsupported⟩
    · intro alike
      obtain ⟨supports, sorted⟩ := alike in1 in2 out2 out1 rfl back
      obtain ⟨supported, made⟩ | ⟨unsupported, error, made⟩ := create_of_findConflict same found
      · obtain ⟨_, made'⟩ | ⟨unsupported', _⟩ := create_of_findConflict (Ne.symm same) back
        · rw [made, made']
          exact sortSpenders_eq_iff.mpr (sorted supported)
        · exact absurd (supports.mp supported) unsupported'
      · obtain ⟨supported', _⟩ | ⟨_, error', made'⟩ := create_of_findConflict (Ne.symm same) back
        · exact absurd (supports.mpr supported') unsupported
        · rw [made, made']
          trivial

/-- An input with a signature for all of its transaction, and one that only reads. -/
def signedInput : CTxIn := { prevout := ⟨1⟩, scriptSig := 64 :: replicate 64 0 }
def readInput : CTxIn := { type := CTxIn.READONLY, prevout := ⟨2⟩ }

def signedSpend (nLockTime : UInt32) : CTransaction := { vin := [signedInput], vout := [{}], nLockTime }
def readingSpend (nLockTime : UInt32) : CTransaction := { vin := [readInput, signedInput], vout := [{}], nLockTime }

/-- Every coin is locked by the template `P2PKT_ID` and the hash of its arguments. -/
def p2pktCoin : Coin := { out := { type := CTxOut.TEMPLATE, scriptPubKey := 0 :: 0x51 :: 20 :: replicate 20 7 } }

def sampleContext : DspContext where
  getCoin _ := some p2pktCoin
  isValidType script := match getScriptTemplate script .template with
    | .ok templateHash _ _ => templateHash = p2pktId
    | _ => false

theorem supported_signedInput : Supported sampleContext signedInput signedInput :=
  ⟨⟨p2pktCoin, rfl, by decide⟩, by decide, by decide, by decide⟩

/-- Neither hash commits to the lock time. -/
theorem create_lockTimes : (signedSpend 0).getId ≠ (signedSpend 1).getId ∧
      ¬SameProof (create sampleContext (signedSpend 0) (signedSpend 1))
        (create sampleContext (signedSpend 1) (signedSpend 0)) := by
  have different : (signedSpend 0).getId ≠ (signedSpend 1).getId := by decide +kernel
  refine ⟨different, ?_⟩
  have made := unsorted_eq_ok_iff.mpr ⟨different, _, _, rfl, supported_signedInput, rfl⟩
  have back := unsorted_eq_ok_iff.mpr ⟨different.symm, _, _, rfl, supported_signedInput, rfl⟩
  rw [create, create, made, back]
  intro same
  rcases sortSpenders_eq_iff.mp same with equal | ⟨-, told⟩
  · have lockTimes := congrArg (·.spender1.lockTime) equal
    exact absurd lockTimes (by decide)
  · have lockTimes := congrArg Spender.lockTime (told rfl rfl)
    exact absurd lockTimes (by decide)

/-! ## Inputs that are only read -/

/-- Both transactions consume a common outpoint that `create` supports. -/
def Provable (ctx : DspContext) (t1 t2 : CTransaction) : Prop :=
  ∃ in1 ∈ t1.vin, ∃ in2 ∈ t2.vin, in1.prevout = in2.prevout ∧ in1.isReadOnly = false ∧ in2.isReadOnly = false ∧
    Supported ctx in1 in2

theorem sortSpenders_prevOutpoint (answer : DoubleSpendProof) :
    (sortSpenders answer).prevOutpoint = answer.prevOutpoint := by
  unfold sortSpenders
  split_ifs <;> rfl

theorem create_eq_ok_iff {outpoint : COutPoint} (different : t1.getId ≠ t2.getId) :
    (∃ proof, create ctx t1 t2 = .ok proof ∧ proof.prevOutpoint = outpoint) ↔
      ∃ in1 in2, findConflict t1 t2 = some (in1, in2) ∧ Supported ctx in1.1 in2.1 ∧ in1.1.prevout = outpoint := by
  constructor
  · rintro ⟨proof, made, rfl⟩
    rw [create] at made
    cases ran : unsorted ctx t1 t2 with
    | error error =>
      rw [ran] at made
      cases made
    | ok answer =>
      rw [ran] at made
      cases made
      obtain ⟨-, in1, in2, found, supported, rfl⟩ := unsorted_eq_ok_iff.mp ran
      exact ⟨in1, in2, found, supported, by rw [sortSpenders_prevOutpoint]⟩
  · rintro ⟨in1, in2, found, supported, rfl⟩
    have ran := unsorted_eq_ok_iff.mpr ⟨different, in1, in2, found, supported, rfl⟩
    refine ⟨_, by rw [create, ran]; rfl, sortSpenders_prevOutpoint _⟩

theorem mem_consumedBy_of_mem_zipIdx {vin : List CTxIn} {input : CTxIn × ℕ} (listed : input ∈ vin.zipIdx)
    (consumes : input.1.isReadOnly = false) : input.1.prevout ∈ consumedBy vin :=
  mem_map_of_mem (mem_filter.mpr ⟨fst_mem_of_mem_zipIdx listed, by simp [consumes]⟩)

/-- A proof is about an outpoint that both consume, and inputs that are only read do not get in its way. -/
def ProvesConsumed (ctx : DspContext) (t1 t2 : CTransaction) : Prop := (∀ proof, create ctx t1 t2 = .ok proof →
    proof.prevOutpoint ∈ consumedBy t1.vin ∧ proof.prevOutpoint ∈ consumedBy t2.vin) ∧
  (Provable ctx t1 t2 → ∀ error, create ctx t1 t2 = .error error →
    ∀ in1 in2, findConflict t1 t2 = some (in1, in2) → in1.1.isReadOnly = false ∧ in2.1.isReadOnly = false)

/-- Where the first common outpoint is only read, it has to be consumed elsewhere, or nothing else be provable. -/
theorem provesConsumed_iff (different : t1.getId ≠ t2.getId) :
    ProvesConsumed ctx t1 t2 ↔ ∀ in1 in2, findConflict t1 t2 = some (in1, in2) →
      in1.1.isReadOnly = true ∨ in2.1.isReadOnly = true →
      (Supported ctx in1.1 in2.1 → in1.1.prevout ∈ consumedBy t1.vin ∧ in1.1.prevout ∈ consumedBy t2.vin) ∧
        (¬Supported ctx in1.1 in2.1 → ¬Provable ctx t1 t2) := by
  constructor
  · rintro ⟨consumed, unhindered⟩ in1 in2 found read
    constructor
    · intro supported
      obtain ⟨proof, made, outpoint⟩ := (create_eq_ok_iff different).mpr ⟨in1, in2, found, supported, rfl⟩
      exact outpoint ▸ consumed proof made
    · intro unsupported provable
      cases ran : create ctx t1 t2 with
      | ok proof =>
        obtain ⟨in1', in2', found', supported, -⟩ := (create_eq_ok_iff different).mp ⟨proof, ran, rfl⟩
        cases found.symm.trans found'
        exact unsupported supported
      | error error =>
        have kinds := unhindered provable error ran in1 in2 found
        simp [kinds] at read
  · intro condition
    constructor
    · intro proof made
      obtain ⟨in1, in2, found, supported, outpoint⟩ := (create_eq_ok_iff different).mp ⟨proof, made, rfl⟩
      rw [← outpoint]
      by_cases read : in1.1.isReadOnly = true ∨ in2.1.isReadOnly = true
      · exact (condition in1 in2 found read).1 supported
      · have listed := mem_product.mp (mem_of_find?_eq_some found)
        have common : in1.1.prevout = in2.1.prevout := by simpa using find?_some found
        simp only [not_or, Bool.not_eq_true] at read
        exact ⟨mem_consumedBy_of_mem_zipIdx listed.1 read.1, common ▸ mem_consumedBy_of_mem_zipIdx listed.2 read.2⟩
    · intro provable error failed in1 in2 found
      by_contra read
      have unsupported : ¬Supported ctx in1.1 in2.1 := by
        intro supported
        obtain ⟨proof, made, -⟩ := (create_eq_ok_iff different).mpr ⟨in1, in2, found, supported, rfl⟩
        simp [failed] at made
      exact (condition in1 in2 found (by grind)).2 unsupported provable

theorem provesConsumed_signed : ProvesConsumed sampleContext (signedSpend 0) (signedSpend 1) := by
  refine (provesConsumed_iff (by decide +kernel)).mpr ?_
  intro in1 in2 found read
  cases found
  simp [signedInput, CTxIn.isReadOnly, CTxIn.READONLY] at read

/-- A common input that is only read comes first. -/
theorem create_read_first : (readingSpend 0).getId ≠ (readingSpend 1).getId ∧
      create sampleContext (readingSpend 0) (readingSpend 1) = .error .noSignature ∧
      ¬ProvesConsumed sampleContext (readingSpend 0) (readingSpend 1) := by
  have failed : create sampleContext (readingSpend 0) (readingSpend 1) = .error .noSignature := by decide +kernel
  refine ⟨by decide +kernel, failed, ?_⟩
  rintro ⟨-, unhindered⟩
  have provable : Provable sampleContext (readingSpend 0) (readingSpend 1) :=
    ⟨signedInput, by simp [readingSpend], signedInput, by simp [readingSpend], rfl, rfl, rfl, supported_signedInput⟩
  exact absurd (unhindered provable _ failed _ _ rfl).1 (by decide)

end Nexa.DoubleSpendProof
