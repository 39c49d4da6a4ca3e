import Nexa.Model.Script.SigHash
import Nexa.Proofs.Serialize
import Nexa.ToMathlib.PrefixFree

/-! # What a signature hash commits to

The parts of the message have fixed lengths or carry their own, so the message determines them; a
message without script and type is shorter than any message with them. What each part hashes is a
list of records that can be told apart one after the other.
-/

namespace Nexa

open Option CTransaction List

open List (PrefixFree)

/-- A vector in memory: its size is a 64-bit number. -/
def FitsMemory (bytes : Bytes) : Prop := bytes.length < 2 ^ 64

theorem writeVector_prefixFree : PrefixFree FitsMemory writeVector := by
  intro a b rest rest' fits fits' same
  have limit {bytes : Bytes} (small : FitsMemory bytes) : bytes.length ≤ 2 ^ 64 := Nat.le_of_lt small
  rw [writeVector, writeVector, append_assoc, append_assoc] at same
  obtain ⟨lengths, same⟩ := (reads_readCompactSizeWithLimit (limit fits) fits).append_inj
    (reads_readCompactSizeWithLimit (limit fits') fits') same
  exact append_inj same lengths

theorem vector_inj_unless (ranged : Bool) {a b rest rest' : Bytes} (fits : FitsMemory a) (fits' : FitsMemory b)
    (same : (if ranged then [] else writeVector a) ++ rest = (if ranged then [] else writeVector b) ++ rest') :
    (ranged = false → a = b) ∧ rest = rest' := by
  cases ranged with
  | true => exact ⟨nofun, same⟩
  | false =>
    obtain ⟨vectors, rests⟩ := writeVector_prefixFree a b rest rest' fits fits' same
    exact ⟨fun _ => vectors, rests⟩

theorem length_writeVector_pos (bytes : Bytes) : 0 < (writeVector bytes).length := by
  unfold writeVector writeCompactSize
  split_ifs <;> simp

theorem amountBytes_injective : Function.Injective amountBytes := by
  intro a b same
  have words : a.toUInt64.toNat = b.toUInt64.toNat := bytesLE_inj a.toUInt64.toNat_lt b.toUInt64.toNat_lt same
  have back := congrArg UInt64.toInt64 (UInt64.toNat_inj.mp words)
  rwa [Int64.toInt64_toUInt64] at back

theorem serializeTxOut_prefixFree : PrefixFree (fun txout => FitsMemory txout.scriptPubKey) serializeTxOut := by
  rintro ⟨type, nValue, script⟩ ⟨type', nValue', script'⟩ rest rest' fits fits' same
  simp only [serializeTxOut, cons_append, append_assoc, cons.injEq] at same
  obtain ⟨rfl, same⟩ := same
  obtain ⟨values, same⟩ := append_inj same (by simp [amountBytes])
  obtain ⟨rfl, rfl⟩ := writeVector_prefixFree script script' rest rest' fits fits' same
  rw [amountBytes_injective values]
  exact ⟨rfl, rfl⟩

namespace SigHashType

theorem reads_readInput (inp : SigHashInput) : Reads (readInput (inpCode inp)) (inpData inp) inp := by
  cases inp with
  | all | thisIn => exact Reads.of_pure _
  | firstN n => exact (reads_readUInt8 n).map SigHashInput.firstN

theorem reads_readOutput (out : SigHashOutput) : Reads (readOutput (outCode out)) (outData out) out := by
  cases out with
  | all => exact Reads.of_pure _
  | firstN n => exact (reads_readUInt8 n).map SigHashOutput.firstN
  | two a b => exact (reads_readUInt8 a).bind ((reads_readUInt8 b).bind_pure rfl)
  | retargetableRange start count => exact (reads_readUInt8 start).bind ((reads_readUInt8 count).bind_pure rfl)

theorem codes_of_byte (inp : SigHashInput) (out : SigHashOutput) :
    (inpCode inp <<< 4 ||| outCode out) >>> 4 = inpCode inp ∧
      (inpCode inp <<< 4 ||| outCode out) &&& 0xf = outCode out := by
  cases inp <;> cases out <;> simp only [inpCode, outCode] <;> decide

theorem fromBytes_appendToSig (type : SigHashType) : fromBytes type.appendToSig = some type := by
  obtain ⟨inp, out⟩ := type
  unfold appendToSig
  split_ifs with all
  · obtain ⟨rfl, rfl⟩ : inp = .all ∧ out = .all := by simpa [hasAll] using all
    rfl
  · obtain ⟨high, low⟩ := codes_of_byte inp out
    have readOut := reads_readOutput out []
    rw [append_nil] at readOut
    rw [fromBytes, high, low, reads_readInput, bind_eq_bind]
    simp only [readOut, bind_some]
    rfl

theorem appendToSig_injective : Function.Injective appendToSig := by
  intro type type' same
  have back := congrArg fromBytes same
  rwa [fromBytes_appendToSig, fromBytes_appendToSig, Option.some.injEq] at back

theorem fitsMemory_appendToSig (type : SigHashType) : FitsMemory type.appendToSig := by
  obtain ⟨inp, out⟩ := type
  unfold appendToSig
  split_ifs
  · exact Nat.two_pow_pos 64
  · cases inp <;> cases out <;> simp [inpData, outData, FitsMemory]

end SigHashType

variable (txTo : CTransaction)

/-- The inputs that the type's input part covers. -/
def coveredInputs (nIn : ℕ) : SigHashInput → List CTxIn
  | .all => txTo.vin
  | .firstN n => txTo.vin.take n.toNat
  | .thisIn => txTo.vin[nIn]?.toList

/-- The outputs that the type's output part covers. -/
def coveredOutputs : SigHashOutput → List CTxOut
  | .all => txTo.vout
  | .firstN n => txTo.vout.take n.toNat
  | .two a b => txTo.vout[a.toNat]?.toList ++ txTo.vout[b.toNat]?.toList
  | .retargetableRange start count => (txTo.vout.drop start.toNat).take (count.toNat + 1)

theorem sigHashInputs_eq_some {txTo : CTransaction} {nIn : ℕ} {inp : SigHashInput} {inputs : SigHashInputs}
    (computed : sigHashInputs txTo nIn inp = some inputs) :
    inputs = ⟨hashInputs prevoutPart (coveredInputs txTo nIn inp), hashInputs sequencePart (coveredInputs txTo nIn inp),
      hashInputs amountPart (coveredInputs txTo nIn inp)⟩ := by
  cases inp with
  | all =>
    cases computed
    simp [coveredInputs, getPrevoutHash, getSequenceHash, getInputAmountHash]
  | firstN n =>
    simp only [sigHashInputs] at computed
    split_ifs at computed
    cases computed
    rfl
  | thisIn =>
    cases computed
    rfl

theorem sigHashOutputs_eq_some {txTo : CTransaction} {out : SigHashOutput} {outputs : Uint256}
    (computed : sigHashOutputs txTo out = some outputs) : outputs = hashOutputs (coveredOutputs txTo out) := by
  cases out with
  | all =>
    cases computed
    simp [coveredOutputs, getOutputsHash]
  | firstN n | two a b =>
    simp only [sigHashOutputs] at computed
    split_ifs at computed
    cases computed
    rfl
  | retargetableRange start count =>
    simp only [sigHashOutputs] at computed
    split_ifs at computed with beyond above
    cases computed
    have size : start.toNat + count.toNat + 1 - start.toNat = count.toNat + 1 := by omega
    rw [getOutputsHashRange, size, coveredOutputs]

/-- The arguments of `SignatureHashNexa`; the scripts it serializes are vectors in memory. -/
structure SignatureCall where
  scriptCode : CScript
  txTo : CTransaction
  nIn : ℕ
  sigHashType : SigHashType
  scriptCode_fits : FitsMemory scriptCode
  scriptPubKey_fits : ∀ txout ∈ txTo.vout, FitsMemory txout.scriptPubKey

namespace SignatureCall

variable (call : SignatureCall)

def signatureHash : Option Uint256 := signatureHashNexa call.scriptCode call.txTo call.nIn call.sigHashType

def inputs : List CTxIn := coveredInputs call.txTo call.nIn call.sigHashType.inp

def outputs : List CTxOut := coveredOutputs call.txTo call.sigHashType.out

/-- The message of the last hash. -/
def message : Bytes := sigHashMessage call.scriptCode call.txTo.nVersion call.txTo.nLockTime call.sigHashType
    ⟨hashInputs prevoutPart call.inputs, hashInputs sequencePart call.inputs, hashInputs amountPart call.inputs⟩
    (hashOutputs call.outputs)

theorem signatureHash_eq_some {call : SignatureCall} {result : Uint256} (signed : call.signatureHash = some result) :
    result = hash256 call.message := by
  unfold signatureHash signatureHashNexa at signed
  split_ifs at signed
  obtain ⟨inputs, inputsEq, signed⟩ := bind_eq_some_iff.mp signed
  obtain ⟨outputs, outputsEq, ⟨⟩⟩ := bind_eq_some_iff.mp signed
  rw [sigHashInputs_eq_some inputsEq, sigHashOutputs_eq_some outputsEq]
  rfl

/-- The hash tells the messages of the two calls apart: those of the parts and the last one. -/
structure HashesApart (call other : SignatureCall) : Prop where
  prevouts : Set.InjOn hash256 {call.inputs.flatMap prevoutPart, other.inputs.flatMap prevoutPart}
  sequence : Set.InjOn hash256 {call.inputs.flatMap sequencePart, other.inputs.flatMap sequencePart}
  amounts : Set.InjOn hash256 {call.inputs.flatMap amountPart, other.inputs.flatMap amountPart}
  outputs : Set.InjOn hash256 {call.outputs.flatMap serializeTxOut, other.outputs.flatMap serializeTxOut}
  message : Set.InjOn hash256 {call.message, other.message}

variable {call other : SignatureCall}

theorem message_eq : call.message = call.txTo.nVersion :: ((hashInputs prevoutPart call.inputs).toBytes ++
      ((hashInputs amountPart call.inputs).toBytes ++ ((hashInputs sequencePart call.inputs).toBytes ++
        ((if call.sigHashType.hasRangedOutputs then [] else writeVector call.scriptCode) ++
          ((hashOutputs call.outputs).toBytes ++ (bytesLE 4 call.txTo.nLockTime.toNat ++
            (if call.sigHashType.hasRangedOutputs then [] else writeVector call.sigHashType.appendToSig))))))) := by
  simp [message, sigHashMessage]

theorem length_message_eq_iff : call.message.length = 133 ↔ call.sigHashType.hasRangedOutputs = true := by
  rw [message_eq]
  simp only [length_cons, length_append, length_toBytes, length_bytesLE]
  cases call.sigHashType.hasRangedOutputs
  · have script := length_writeVector_pos call.scriptCode
    simp only [Bool.false_eq_true, if_false, iff_false]
    omega
  · simp

theorem hasRangedOutputs_eq_of_message_eq (same : call.message = other.message) :
    call.sigHashType.hasRangedOutputs = other.sigHashType.hasRangedOutputs := by
  rw [Bool.eq_iff_iff, ← length_message_eq_iff, ← length_message_eq_iff, same]

theorem scriptPubKey_fits_of_covered : ∀ txout ∈ call.outputs, FitsMemory txout.scriptPubKey := by
  intro txout member
  apply call.scriptPubKey_fits
  unfold outputs coveredOutputs at member
  split at member
  · exact member
  · exact mem_of_mem_take member
  · obtain first | second := mem_append.mp member
    · exact mem_of_getElem? (mem_toList.mp first)
    · exact mem_of_getElem? (mem_toList.mp second)
  · exact mem_of_mem_drop (mem_of_mem_take member)

theorem map_eq_of_flatMap_eq {α : Type} (field : CTxIn → α) (write : α → Bytes) (width : ℕ)
    (sameWidth : ∀ a, (write a).length = width + 1) (injective : Function.Injective write)
    {inputs others : List CTxIn}
    (same : inputs.flatMap (fun txin => write (field txin)) = others.flatMap fun txin => write (field txin)) :
    inputs.map field = others.map field := by
  have streams : (inputs.map field).flatMap write = (others.map field).flatMap write := by
    rw [flatMap_map, flatMap_map]
    exact same
  have free : PrefixFree (fun _ => True) write := prefixFree_of_length (width + 1) sameWidth injective _
  apply free.eq_of_flatMap_eq _ (fun _ _ => trivial) (fun _ _ => trivial) streams
  intro a none
  have length := sameWidth a
  rw [none] at length
  cases length

variable {inputs others : List CTxIn}

theorem prevouts_eq (same : inputs.flatMap prevoutPart = others.flatMap prevoutPart) :
    inputs.map CTxIn.type = others.map CTxIn.type ∧ inputs.map CTxIn.prevout = others.map CTxIn.prevout := by
  have injective : Function.Injective fun part : UInt8 × COutPoint => part.1 :: part.2.hash.toBytes := by
    rintro ⟨type, ⟨hash⟩⟩ ⟨type', ⟨hash'⟩⟩ same
    obtain ⟨rfl, hashes⟩ := cons.inj same
    cases Uint256.toBytes_injective hashes
    rfl
  have pairs := map_eq_of_flatMap_eq (fun txin => (txin.type, txin.prevout)) _ 32
    (fun part => by simp only [length_cons, length_toBytes]) injective same
  have types := congrArg (map Prod.fst) pairs
  have prevouts := congrArg (map Prod.snd) pairs
  rw [List.map_map, List.map_map] at types prevouts
  exact ⟨types, prevouts⟩

theorem amounts_eq (same : inputs.flatMap amountPart = others.flatMap amountPart) :
    inputs.map CTxIn.amount = others.map CTxIn.amount :=
  map_eq_of_flatMap_eq CTxIn.amount _ 7 (fun _ => length_bytesLE 8 _) amountBytes_injective same

theorem sequences_eq (same : inputs.flatMap sequencePart = others.flatMap sequencePart) :
    inputs.map CTxIn.nSequence = others.map CTxIn.nSequence := by
  refine map_eq_of_flatMap_eq CTxIn.nSequence (fun word => bytesLE 4 word.toNat) 3 (fun _ => length_bytesLE 4 _) ?_ same
  intro a b same
  exact UInt32.toNat_inj.mp (bytesLE_inj a.toNat_lt b.toNat_lt same)

/-- Equal signature hashes come from types that both have or both lack a retargetable range. They
commit to the version, the lock time and the covered inputs and outputs, and without a range also to
the script and the type. -/
theorem signatureHash_commits {result : Uint256} (signed : call.signatureHash = some result)
    (otherSigned : other.signatureHash = some result) (apart : HashesApart call other) :
    call.sigHashType.hasRangedOutputs = other.sigHashType.hasRangedOutputs ∧
      call.txTo.nVersion = other.txTo.nVersion ∧ call.txTo.nLockTime = other.txTo.nLockTime ∧
      (call.inputs.map CTxIn.type = other.inputs.map CTxIn.type ∧
        call.inputs.map CTxIn.prevout = other.inputs.map CTxIn.prevout ∧
        call.inputs.map CTxIn.amount = other.inputs.map CTxIn.amount ∧
        call.inputs.map CTxIn.nSequence = other.inputs.map CTxIn.nSequence) ∧
      call.outputs = other.outputs ∧
      (call.sigHashType.hasRangedOutputs = false →
        call.scriptCode = other.scriptCode ∧ call.sigHashType = other.sigHashType) := by
  have hashes : hash256 call.message = hash256 other.message := by
    rw [← signatureHash_eq_some signed, ← signatureHash_eq_some otherSigned]
  have messages := eq_of_hash256_eq apart.message hashes
  have ranged := hasRangedOutputs_eq_of_message_eq messages
  -- the parts of the message that every type writes, and those that only some do
  rw [message_eq, message_eq, ← ranged] at messages
  obtain ⟨version, same⟩ := cons.inj messages
  obtain ⟨prevouts, same⟩ := append_inj same (by simp only [length_toBytes])
  obtain ⟨amounts, same⟩ := append_inj same (by simp only [length_toBytes])
  obtain ⟨sequences, same⟩ := append_inj same (by simp only [length_toBytes])
  obtain ⟨scripts, same⟩ := vector_inj_unless _ call.scriptCode_fits other.scriptCode_fits same
  obtain ⟨outputs, same⟩ := append_inj same (by simp only [length_toBytes])
  obtain ⟨lockTimes, same⟩ := append_inj same (by simp only [length_bytesLE])
  obtain ⟨codes, -⟩ := vector_inj_unless _ call.sigHashType.fitsMemory_appendToSig
    other.sigHashType.fitsMemory_appendToSig (congrArg (· ++ []) same)
  have lockTime : call.txTo.nLockTime = other.txTo.nLockTime :=
    UInt32.toNat_inj.mp (bytesLE_inj (UInt32.toNat_lt _) (UInt32.toNat_lt _) lockTimes)
  obtain ⟨types, outpoints⟩ := prevouts_eq (eq_of_hash256_eq apart.prevouts (Uint256.toBytes_injective prevouts))
  refine ⟨ranged, version, lockTime, ⟨types, outpoints, ?_, ?_⟩, ?_,
    fun plain => ⟨scripts plain, SigHashType.appendToSig_injective (codes plain)⟩⟩
  · exact amounts_eq (eq_of_hash256_eq apart.amounts (Uint256.toBytes_injective amounts))
  · exact sequences_eq (eq_of_hash256_eq apart.sequence (Uint256.toBytes_injective sequences))
  · exact serializeTxOut_prefixFree.eq_of_flatMap_eq (fun _ => cons_ne_nil _ _) call.scriptPubKey_fits_of_covered
      other.scriptPubKey_fits_of_covered (eq_of_hash256_eq apart.outputs (Uint256.toBytes_injective outputs))

def sampleCall (second : COutPoint) : SignatureCall where
  scriptCode := [0x51]
  txTo := { vin := [{ prevout := ⟨1⟩, amount := 600 }, { prevout := second, amount := 500 }]
            vout := [{ nValue := 1000, scriptPubKey := [0x51] }] }
  nIn := 0
  sigHashType := { inp := .firstN 1, out := .firstN 1 }
  scriptCode_fits := by simp [FitsMemory]
  scriptPubKey_fits := by simp [FitsMemory]

theorem hashesApart_sampleCall (second third : COutPoint) : HashesApart (sampleCall second) (sampleCall third) := by
  have inputs : (sampleCall third).inputs = (sampleCall second).inputs := rfl
  have outputs : (sampleCall third).outputs = (sampleCall second).outputs := rfl
  have message : (sampleCall third).message = (sampleCall second).message := rfl
  constructor
  · simp [inputs]
  · simp [inputs]
  · simp [inputs]
  · simp [outputs]
  · simp [message]

theorem signatureHash_commits_sample : (sampleCall ⟨2⟩).txTo ≠ (sampleCall ⟨3⟩).txTo ∧
      ∃ result, (sampleCall ⟨2⟩).signatureHash = some result ∧ (sampleCall ⟨3⟩).signatureHash = some result ∧
        (sampleCall ⟨2⟩).inputs.map CTxIn.prevout = (sampleCall ⟨3⟩).inputs.map CTxIn.prevout := by
  have differ : (sampleCall ⟨2⟩).txTo ≠ (sampleCall ⟨3⟩).txTo := by decide
  obtain ⟨result, signed⟩ := isSome_iff_exists.mp (show (sampleCall ⟨2⟩).signatureHash.isSome = true from rfl)
  obtain ⟨result', signed'⟩ := isSome_iff_exists.mp (show (sampleCall ⟨3⟩).signatureHash.isSome = true from rfl)
  have same : result' = result := by
    rw [signatureHash_eq_some signed, signatureHash_eq_some signed']
    rfl
  have apart : HashesApart (sampleCall ⟨2⟩) (sampleCall ⟨3⟩) := hashesApart_sampleCall ⟨2⟩ ⟨3⟩
  rw [same] at signed'
  exact ⟨differ, result, signed, signed', (signatureHash_commits signed signed' apart).2.2.2.1.2.1⟩

end SignatureCall

/-! ## Ranges of outputs -/

theorem sigHashOutputs_range (start count : UInt8) : sigHashOutputs txTo (.retargetableRange start count) =
      if start.toNat + count.toNat < txTo.vout.length then
        some (hashOutputs (coveredOutputs txTo (.retargetableRange start count))) else none := by
  split_ifs with inside
  · have computed : (sigHashOutputs txTo (.retargetableRange start count)).isSome = true := by
      rw [sigHashOutputs, if_neg (by omega), if_neg (by omega), isSome_some]
    obtain ⟨outputs, found⟩ := isSome_iff_exists.mp computed
    rw [found, sigHashOutputs_eq_some found]
  · rw [sigHashOutputs]
    split_ifs with beyond
    · rfl
    · exact if_pos (not_lt.mp inside)

/-- With a range of outputs the signature hash depends on no other outputs and not on where the range starts,
and it fails if the range does not lie inside the outputs. -/
theorem signatureHashNexa_range (scriptCode : CScript) (txTo : CTransaction) (nIn : ℕ) (inp : SigHashInput)
    (start count : UInt8) :
    (start.toNat + count.toNat < txTo.vout.length → ∀ (vout : List CTxOut) (moved : UInt8),
      moved.toNat + count.toNat < vout.length →
      (vout.drop moved.toNat).take (count.toNat + 1) = (txTo.vout.drop start.toNat).take (count.toNat + 1) →
      signatureHashNexa scriptCode { txTo with vout } nIn ⟨inp, .retargetableRange moved count⟩ =
        signatureHashNexa scriptCode txTo nIn ⟨inp, .retargetableRange start count⟩) ∧
    (signatureHashNexa scriptCode txTo nIn ⟨inp, .retargetableRange start count⟩ = none ↔
      txTo.vin.length ≤ nIn ∨ sigHashInputs txTo nIn inp = none ∨ txTo.vout.length ≤ start.toNat + count.toNat) := by
  constructor
  · intro inside vout moved insideMoved same
    simp only [signatureHashNexa, sigHashOutputs_range, coveredOutputs, if_pos inside, if_pos insideMoved, same]
    rfl
  · rw [signatureHashNexa, sigHashOutputs_range]
    split_ifs with missing inside
    · exact iff_of_true rfl (.inl missing)
    · cases sigHashInputs txTo nIn inp <;> simp [missing, inside]
    · cases sigHashInputs txTo nIn inp <;> simp [not_lt.mp inside]

end Nexa
