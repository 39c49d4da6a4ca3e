import Nexa.Proofs.Serialize
import Nexa.ToMathlib.Separated

/-! # What a transaction id commits to

`GetTxId` hashes the satisfier scripts as one stream, each closed with an invalid opcode and not
preceded by its length. With at least two inputs, the byte `0xff` inside a script (in a pushed
signature, say) can trade places with the closing one: another transaction with other bytes has the
same idem and the same id. Without that byte the id determines every byte of the transaction.
-/

namespace Nexa.CTransaction

open List

variable (tx : CTransaction)

def scriptSigs : List CScript := tx.vin.map CTxIn.scriptSig

/-- The byte that closes each satisfier in the stream of `GetTxId`. -/
def satisfierEnd : UInt8 := UInt8.ofNat OP_INVALIDOPCODE

/-- What `GetTxId` writes to the hash of the satisfiers. -/
def satisfierBytes : Bytes := bytesLE 4 tx.vin.length ++ separated satisfierEnd tx.scriptSigs

/-- What `GetTxId` writes to its last hash. -/
def idBytes : Bytes := tx.getIdem.toBytes ++ tx.satisfierScriptHash.toBytes

theorem satisfierScriptHash_eq : tx.satisfierScriptHash = hash256 tx.satisfierBytes := by
  rw [satisfierBytes, scriptSigs, separated, flatMap_map]
  rfl

/-- The hash tells the messages of the two transactions apart: the idem streams, the satisfier
streams and the id messages. -/
structure HashesApart (tx other : CTransaction) : Prop where
  idem : Set.InjOn hash256 {tx.serialize true, other.serialize true}
  satisfier : Set.InjOn hash256 {tx.satisfierBytes, other.satisfierBytes}
  id : Set.InjOn hash256 {tx.idBytes, other.idBytes}

/-- Every deserializable transaction with the idem and the id of `tx` has its bytes. -/
def IdDeterminesBytes : Prop :=
  ∀ other : CTransaction, other.Deserializable → HashesApart tx other → other.getIdem = tx.getIdem →
    other.getId = tx.getId → other.serialize false = tx.serialize false ∧ other.scriptSigs = tx.scriptSigs

section

variable {tx other : CTransaction}

theorem satisfierBytes_eq_of_getId_eq (apart : HashesApart tx other) (same : other.getId = tx.getId) :
    other.satisfierBytes = tx.satisfierBytes := by
  have messages := (eq_of_hash256_eq apart.id same.symm).symm
  have halves := append_inj messages (by simp [Uint256.toBytes])
  have hashes := Uint256.toBytes_injective halves.2
  rw [satisfierScriptHash_eq, satisfierScriptHash_eq] at hashes
  exact (eq_of_hash256_eq apart.satisfier hashes.symm).symm

end

/-- The transaction with other satisfiers. -/
def withScriptSigs (scripts : List CScript) : CTransaction :=
  { tx with vin := (tx.vin.zip scripts).map fun (txin, script) => { txin with scriptSig := script } }

theorem withScriptSigs_streamed : (tx.streamed true).withScriptSigs tx.scriptSigs = tx := by
  have inputs : ((tx.vin.map (streamedInput true)).zip (tx.vin.map CTxIn.scriptSig)).map
      (fun (txin, script) => { txin with scriptSig := script }) = tx.vin := by
    rw [zip_map', map_map]
    exact map_id tx.vin
  rw [withScriptSigs, streamed, scriptSigs, inputs]

section

variable {tx : CTransaction} {scripts : List CScript} (sameLength : scripts.length = tx.vin.length)
include sameLength

theorem scriptSigs_withScriptSigs : (tx.withScriptSigs scripts).scriptSigs = scripts := by
  rw [scriptSigs, withScriptSigs, map_map]
  exact map_snd_zip sameLength.le

theorem length_vin_withScriptSigs : (tx.withScriptSigs scripts).vin.length = tx.vin.length := by
  simp [withScriptSigs, sameLength]

theorem serialize_withScriptSigs : (tx.withScriptSigs scripts).serialize true = tx.serialize true := by
  have inputs : (tx.withScriptSigs scripts).vin.flatMap (serializeTxIn true) = tx.vin.flatMap (serializeTxIn true) :=
    calc (tx.withScriptSigs scripts).vin.flatMap (serializeTxIn true)
        = (tx.vin.zip scripts).flatMap fun pair => serializeTxIn true pair.1 := flatMap_map ..
      _ = ((tx.vin.zip scripts).map Prod.fst).flatMap (serializeTxIn true) := (flatMap_map ..).symm
      _ = tx.vin.flatMap (serializeTxIn true) := by rw [map_fst_zip sameLength.ge]
  rw [serialize, inputs, length_vin_withScriptSigs sameLength]
  rfl

theorem withinMaxSize_withScriptSigs (sizes : tx.WithinMaxSize) (small : ∀ script ∈ scripts, script.length ≤ maxSize) :
    (tx.withScriptSigs scripts).WithinMaxSize where
  vin := (length_vin_withScriptSigs sameLength).trans_le sizes.vin
  vout := sizes.vout
  scriptSig := by
    rw [← scriptSigs_withScriptSigs sameLength, scriptSigs, forall_mem_map] at small
    exact small
  scriptPubKey := sizes.scriptPubKey

theorem getId_withScriptSigs (sameStream : separated satisfierEnd scripts = separated satisfierEnd tx.scriptSigs) :
    HashesApart tx (tx.withScriptSigs scripts) ∧ (tx.withScriptSigs scripts).getIdem = tx.getIdem ∧
      (tx.withScriptSigs scripts).getId = tx.getId := by
  have idemStream := serialize_withScriptSigs sameLength
  have satisfiers : (tx.withScriptSigs scripts).satisfierBytes = tx.satisfierBytes := by
    rw [satisfierBytes, scriptSigs_withScriptSigs sameLength, length_vin_withScriptSigs sameLength, sameStream]
    rfl
  have idem : (tx.withScriptSigs scripts).getIdem = tx.getIdem := congrArg hash256 idemStream
  have messages : (tx.withScriptSigs scripts).idBytes = tx.idBytes := by
    rw [idBytes, idBytes, idem, satisfierScriptHash_eq, satisfierScriptHash_eq, satisfiers]
  refine ⟨⟨?_, ?_, ?_⟩, idem, congrArg hash256 messages⟩
  · simp [idemStream]
  · simp [satisfiers]
  · simp [messages]

end

theorem length_separated_le_getTxSize : (separated satisfierEnd tx.scriptSigs).length ≤ tx.getTxSize := by
  have inputs (vin : List CTxIn) : (separated satisfierEnd (vin.map CTxIn.scriptSig)).length ≤
      (vin.flatMap (serializeTxIn false)).length := by
    induction vin with
    | nil => exact Nat.le_refl 0
    | cons txin vin ih =>
      rw [map_cons, separated_cons, flatMap_cons]
      simp only [length_append, length_cons, serializeTxIn, writeVector, Bool.false_eq_true, if_false]
      omega
  have whole : (tx.vin.flatMap (serializeTxIn false)).length ≤ tx.getTxSize := by
    rw [getTxSize, serialize]
    simp only [length_append]
    omega
  exact (inputs tx.vin).trans whole

theorem idDeterminesBytes_of_notMem {tx : CTransaction} (readable : tx.Deserializable)
    (unique : tx.vin.length ≤ 1 ∨ ∀ txin ∈ tx.vin, satisfierEnd ∉ txin.scriptSig) : tx.IdDeterminesBytes := by
  intro other otherReadable apart sameIdem sameId
  rw [deserializable_iff] at readable otherReadable
  -- there are as many inputs, and one stream is cut into their scripts
  obtain ⟨counts, streams⟩ := append_inj (satisfierBytes_eq_of_getId_eq apart sameId) (by simp)
  have lengths : other.scriptSigs.length = tx.scriptSigs.length := by
    rw [scriptSigs, scriptSigs, length_map, length_map]
    have fits : maxSize < 256 ^ 4 := by decide
    exact bytesLE_inj (otherReadable.vin.trans_lt fits) (readable.vin.trans_lt fits) counts
  have cut : tx.scriptSigs.length ≤ 1 ∨ ∀ script ∈ tx.scriptSigs, satisfierEnd ∉ script := by
    rw [scriptSigs, length_map, forall_mem_map]
    exact unique
  have scripts : other.scriptSigs = tx.scriptSigs := separated_inj_iff.mpr cut _ lengths streams
  have idemStreams := (eq_of_hash256_eq apart.idem sameIdem.symm).symm
  -- the idem stream determines the transaction up to its satisfiers
  have streamed : other.streamed true = tx.streamed true :=
    (idemStreams ▸ reads_read true otherReadable).unique (reads_read true readable)
  have same : other = tx := by
    rw [← withScriptSigs_streamed other, ← withScriptSigs_streamed tx, scripts, streamed]
  rw [same]
  exact ⟨rfl, rfl⟩

/-- The id determines the bytes of a transaction of at most `MAX_SIZE` bytes exactly when it has one
input or no satisfier contains the closing byte: otherwise a deserializable transaction with other
satisfiers has the same idem and the same id. -/
theorem idDeterminesBytes_iff {tx : CTransaction} (readable : tx.Deserializable) (size : tx.getTxSize ≤ maxSize) :
    tx.IdDeterminesBytes ↔ tx.vin.length ≤ 1 ∨ ∀ txin ∈ tx.vin, satisfierEnd ∉ txin.scriptSig := by
  refine ⟨fun determines => ?_, idDeterminesBytes_of_notMem readable⟩
  have cut : tx.scriptSigs.length ≤ 1 ∨ ∀ script ∈ tx.scriptSigs, satisfierEnd ∉ script := by
    refine separated_inj_iff.mp fun scripts sameLength sameStream => ?_
    have asMany : scripts.length = tx.vin.length := sameLength.trans (length_map _)
    have small : ∀ script ∈ scripts, script.length ≤ maxSize := by
      intro script member
      have bound : script.length ≤ (separated satisfierEnd scripts).length := length_le_length_separated member
      rw [sameStream] at bound
      exact (bound.trans (length_separated_le_getTxSize tx)).trans size
    have otherReadable :=
      deserializable_iff.mpr (withinMaxSize_withScriptSigs asMany (deserializable_iff.mp readable) small)
    obtain ⟨apart, idem, id⟩ := getId_withScriptSigs asMany sameStream
    have same := (determines _ otherReadable apart idem id).2
    rwa [scriptSigs_withScriptSigs asMany] at same
  rwa [scriptSigs, length_map, forall_mem_map] at cut

def samplePayment (first second : CScript) : CTransaction :=
  { vin := [{ prevout := ⟨1⟩, scriptSig := first, amount := 600 },
    { prevout := ⟨2⟩, scriptSig := second, amount := 500 }]
    vout := [{ nValue := 1000, scriptPubKey := [0x51] }] }

theorem idDeterminesBytes_samplePayment :
    (samplePayment [1, 7] [0x51]).Deserializable ∧ (samplePayment [1, 7] [0x51]).getTxSize ≤ maxSize ∧
      (samplePayment [1, 7] [0x51]).IdDeterminesBytes := by
  have readable : (samplePayment [1, 7] [0x51]).Deserializable :=
    deserializable_iff.mpr ⟨by decide, by decide, by decide, by decide⟩
  have size : (samplePayment [1, 7] [0x51]).getTxSize ≤ maxSize := by decide
  exact ⟨readable, size, (idDeterminesBytes_iff readable size).mpr (Or.inr (by decide))⟩

/-- The first input pushes the byte `0xff`; moved behind the closing byte, the script loses the pushed
byte to the second input. Both transactions have one idem and one id. -/
theorem getId_eq_of_moved_satisfierEnd :
    (samplePayment [1, 0xff] [0x51]).Deserializable ∧ (samplePayment [1] [0xff, 0x51]).Deserializable ∧
      HashesApart (samplePayment [1, 0xff] [0x51]) (samplePayment [1] [0xff, 0x51]) ∧
      (samplePayment [1] [0xff, 0x51]).getIdem = (samplePayment [1, 0xff] [0x51]).getIdem ∧
      (samplePayment [1] [0xff, 0x51]).getId = (samplePayment [1, 0xff] [0x51]).getId ∧
      (samplePayment [1] [0xff, 0x51]).serialize false ≠ (samplePayment [1, 0xff] [0x51]).serialize false ∧
      (samplePayment [1] [0xff, 0x51]).scriptSigs ≠ (samplePayment [1, 0xff] [0x51]).scriptSigs := by
  have moved := @getId_withScriptSigs (samplePayment [1, 0xff] [0x51]) [[1], [0xff, 0x51]] rfl (by decide)
  refine ⟨?_, ?_, moved.1, moved.2.1, moved.2.2, by decide, by decide⟩
  · exact deserializable_iff.mpr ⟨by decide, by decide, by decide, by decide⟩
  · exact deserializable_iff.mpr ⟨by decide, by decide, by decide, by decide⟩

end Nexa.CTransaction
