import Nexa.Model.Primitives.Transaction

/-! # Reading what was written

`Reads reader bytes value` says that the reader, given `bytes` followed by anything, returns `value`
and stops right behind them. It composes along the reader monad, so that each record's round trip
follows its fields. A reader of a vector never returns more than `MAX_SIZE` elements, and a
transaction is read from its one serialization only.
-/

namespace Nexa

open List

theorem length_toBytes (x : Uint256) : x.toBytes.length = 32 := length_bytesLE 32 x.toNat

theorem bytesLE_inj {width a b : ℕ} (smallA : a < 256 ^ width) (smallB : b < 256 ^ width)
    (same : bytesLE width a = bytesLE width b) : a = b := by
  have numbers := congrArg natLE same
  rwa [natLE_bytesLE, natLE_bytesLE, Nat.mod_eq_of_lt smallA, Nat.mod_eq_of_lt smallB] at numbers

theorem natLE_lt (bytes : Bytes) : natLE bytes < 256 ^ bytes.length := by
  induction bytes with
  | nil => simp [natLE]
  | cons byte bytes ih =>
    have small : byte.toNat < 256 := byte.toNat_lt
    simp only [natLE, length_cons]
    omega

theorem bytesLE_natLE (bytes : Bytes) : bytesLE bytes.length (natLE bytes) = bytes := by
  induction bytes with
  | nil => rfl
  | cons b rest ih =>
    have low : UInt8.ofNat (natLE (b :: rest)) = b := by
      rw [natLE, ← UInt8.toNat_inj, UInt8.toNat_ofNat', Nat.add_mul_mod_self_left]
      exact Nat.mod_eq_of_lt b.toNat_lt
    have high : natLE (b :: rest) / 256 = natLE rest := by
      have byte := b.toNat_lt
      rw [natLE]
      omega
    rw [length_cons, bytesLE, low, high, ih]

theorem eq_of_hash256_eq {x y : Bytes} (apart : Set.InjOn hash256 {x, y}) (same : hash256 x = hash256 y) : x = y :=
  apart (Set.mem_insert x {y}) (Set.mem_insert_of_mem x rfl) same

variable {α β : Type}

def Reads (reader : Reader α) (bytes : Bytes) (value : α) : Prop := ∀ rest, reader (bytes ++ rest) = some (value, rest)

theorem Reads.of_pure (value : α) : Reads (pure value) [] value := fun _ => rfl

variable {first : Reader α} {next : α → Reader β} {a : α} {b : β} {bytes : Bytes} {reader : Reader α} {rest : Bytes}
  {count limit size : ℕ} {element : Reader α} {write : α → Bytes} {values : List α} {stream : Bytes} {good : α → Prop}

theorem Reads.bind {head tail : Bytes} (readsFirst : Reads first head a) (readsNext : Reads (next a) tail b) :
    Reads (first >>= next) (head ++ tail) b := by
  intro rest
  have step : (first >>= next) (head ++ tail ++ rest) = (first (head ++ tail ++ rest)).bind fun p => next p.1 p.2 := rfl
  rw [step, append_assoc, readsFirst]
  exact readsNext rest

theorem Reads.bind_pure (reads : Reads first bytes a) (build : next a = pure b) : Reads (first >>= next) bytes b := by
  rw [← append_nil bytes]
  exact reads.bind (build ▸ Reads.of_pure b)

theorem Reads.map (f : α → β) (reads : Reads reader bytes a) : Reads (f <$> reader) bytes (f a) := by
  rw [map_eq_pure_bind]
  exact reads.bind_pure rfl

theorem Reads.unique {b : α} (readsA : Reads reader bytes a) (readsB : Reads reader bytes b) : a = b := by
  have same := (readsA []).symm.trans (readsB [])
  exact congrArg Prod.fst (Option.some.inj same)

theorem Reads.append_inj {bytes' rest' : Bytes} {b : α} (readsA : Reads reader bytes a)
    (readsB : Reads reader bytes' b) (same : bytes ++ rest = bytes' ++ rest') : a = b ∧ rest = rest' := by
  have read : some (a, rest) = some (b, rest') := by rw [← readsA, ← readsB, same]
  exact Prod.mk.inj (Option.some.inj read)

theorem reads_readBytes (size : bytes.length = count) : Reads (readBytes count) bytes bytes := by
  intro rest
  have enough : count ≤ (bytes ++ rest).length := by
    rw [length_append]
    omega
  rw [readBytes, if_pos enough, take_left' size, drop_left' size]

theorem reads_readLE {width value : ℕ} (bound : value < 256 ^ width) :
    Reads (readLE width) (bytesLE width value) value := by
  have reads := (reads_readBytes (length_bytesLE width value)).map natLE
  rwa [natLE_bytesLE, Nat.mod_eq_of_lt bound] at reads

theorem bytesLE_one (value : ℕ) : bytesLE 1 value = [UInt8.ofNat value] := rfl

theorem reads_readUInt8 (b : UInt8) : Reads readUInt8 [b] b := by
  have reads := (@reads_readLE 1 _ b.toNat_lt).map UInt8.ofNat
  rwa [bytesLE_one, UInt8.ofNat_toNat] at reads

theorem reads_readUInt32 (x : UInt32) : Reads readUInt32 (bytesLE 4 x.toNat) x := by
  have reads := (@reads_readLE 4 _ x.toNat_lt).map UInt32.ofNat
  rwa [UInt32.ofNat_toNat] at reads

theorem reads_readUint256 (x : Uint256) : Reads readUint256 x.toBytes x := by
  have reads := (reads_readBytes (length_bytesLE 32 x.toNat)).map Uint256.ofBytes
  rwa [← Uint256.toBytes, Uint256.ofBytes_toBytes] at reads

theorem reads_readCompactSizeWithLimit (bound : size ≤ limit) (word : size < 2 ^ 64) :
    Reads (readCompactSizeWithLimit limit) (writeCompactSize size) size := by
  have inLimit : ¬limit < size := by omega
  unfold writeCompactSize
  split_ifs with oneByte twoBytes fourBytes
  · have reads : Reads (readLE 1) [UInt8.ofNat size] size := reads_readLE (by omega)
    exact reads.bind_pure (by simp [oneByte, inLimit])
  · have marker : Reads (readLE 1) [253] 253 := @reads_readLE 1 253 (by omega)
    have reads : Reads (readLE 2) (bytesLE 2 size) size := reads_readLE (by omega)
    exact marker.bind (reads.bind_pure (by simp [oneByte, inLimit]))
  · have marker : Reads (readLE 1) [254] 254 := @reads_readLE 1 254 (by omega)
    have reads : Reads (readLE 4) (bytesLE 4 size) size := reads_readLE (by omega)
    have longForm : ¬size < 0x10000 := by omega
    exact marker.bind (reads.bind_pure (by simp [longForm, inLimit]))
  · have marker : Reads (readLE 1) [255] 255 := @reads_readLE 1 255 (by omega)
    have reads : Reads (readLE 8) (bytesLE 8 size) size := reads_readLE (by omega)
    have longForm : ¬size < 0x100000000 := by omega
    exact marker.bind (reads.bind_pure (by simp [longForm, inLimit]))

theorem reads_readCompactSize (bound : size ≤ maxSize) :
    Reads readCompactSize (writeCompactSize size) size :=
  reads_readCompactSizeWithLimit bound (bound.trans_lt (by decide))

theorem reads_readVector (bound : bytes.length ≤ maxSize) :
    Reads readVector (writeVector bytes) bytes :=
  (reads_readCompactSize bound).bind (reads_readBytes rfl)

theorem reads_readMany {value : α → α} (values : List α) (reads : ∀ a ∈ values, Reads element (write a) (value a)) :
    Reads (readMany element values.length) (values.flatMap write) (values.map value) := by
  induction values with
  | nil => exact Reads.of_pure []
  | cons head tail ih =>
    have first := reads head (mem_cons_self ..)
    have later := ih fun a member => reads a (mem_cons_of_mem head member)
    exact first.bind (later.bind_pure rfl)

theorem reads_readList {value : α → α} (bound : values.length ≤ maxSize)
    (reads : ∀ a ∈ values, Reads element (write a) (value a)) :
    Reads (readList element) (writeCompactSize values.length ++ values.flatMap write) (values.map value) :=
  (reads_readCompactSize bound).bind (reads_readMany values reads)

theorem Reader.bind_eq_some_iff :
    (first >>= next) stream = some (b, rest) ↔
      ∃ a between, first stream = some (a, between) ∧ next a between = some (b, rest) := by
  have step : (first >>= next) stream = (first stream).bind fun p => next p.1 p.2 := rfl
  rw [step, Option.bind_eq_some_iff, Prod.exists]

theorem le_of_checkLimit {first : Reader ℕ}
    (read : (first >>= fun size => if limit < size then failure else pure size) stream = some (size, rest)) :
    size ≤ limit := by
  obtain ⟨found, between, -, checked⟩ := Reader.bind_eq_some_iff.mp read
  split_ifs at checked with above
  · cases checked
  · cases checked
    exact Nat.le_of_not_lt above

theorem le_maxSize_of_readCompactSize (read : readCompactSize stream = some (size, rest)) : size ≤ maxSize := by
  obtain ⟨chSize, between, -, read⟩ := Reader.bind_eq_some_iff.mp read
  split_ifs at read
  · exact le_of_checkLimit read
  all_goals
    obtain ⟨long, behind, -, read⟩ := Reader.bind_eq_some_iff.mp read
    split_ifs at read <;> exact le_of_checkLimit read

theorem length_of_readBytes (read : readBytes count stream = some (bytes, rest)) : bytes.length = count := by
  unfold readBytes at read
  split_ifs at read with enough
  cases read
  rw [length_take, Nat.min_eq_left enough]

theorem length_le_of_readVector (read : readVector stream = some (bytes, rest)) : bytes.length ≤ maxSize := by
  obtain ⟨size, between, readSize, read⟩ := Reader.bind_eq_some_iff.mp read
  rw [length_of_readBytes read]
  exact le_maxSize_of_readCompactSize readSize

theorem append_of_readBytes (read : readBytes count stream = some (bytes, rest)) : stream = bytes ++ rest := by
  unfold readBytes at read
  split_ifs at read with enough
  cases read
  rw [take_append_drop]

theorem append_of_readLE {width value : ℕ} (read : readLE width stream = some (value, rest)) :
    stream = bytesLE width value ++ rest ∧ value < 256 ^ width := by
  change (readBytes width >>= fun bytes => pure (natLE bytes)) stream = some (value, rest) at read
  obtain ⟨bytes, between, readBytes, ⟨⟩⟩ := Reader.bind_eq_some_iff.mp read
  have length := length_of_readBytes readBytes
  refine ⟨?_, length ▸ natLE_lt bytes⟩
  rw [append_of_readBytes readBytes, ← length, bytesLE_natLE]

theorem eq_of_checkLimit {found : ℕ} {between : Bytes}
    (checked : (if limit < found then (failure : Reader ℕ) else pure found) between = some (size, rest)) :
    found = size ∧ between = rest := by
  split_ifs at checked
  · cases checked
  · cases checked
    exact ⟨rfl, rfl⟩

theorem append_of_readLong {width low : ℕ}
    (read : (readLE width >>= fun found =>
      if found < low then (failure : Reader ℕ) >>= fun size => if limit < size then failure else pure size
      else (pure found : Reader ℕ) >>= fun size => if limit < size then failure else pure size) stream =
        some (size, rest)) :
    stream = bytesLE width size ++ rest ∧ low ≤ size ∧ size < 256 ^ width := by
  obtain ⟨found, between, readFound, checked⟩ := Reader.bind_eq_some_iff.mp read
  obtain ⟨bytes, small⟩ := append_of_readLE readFound
  split_ifs at checked with tooShort
  · cases checked
  · obtain ⟨rfl, rfl⟩ := eq_of_checkLimit checked
    exact ⟨bytes, not_lt.mp tooShort, small⟩

theorem append_of_readCompactSize (read : readCompactSize stream = some (size, rest)) :
    stream = writeCompactSize size ++ rest := by
  obtain ⟨chSize, between, readFirst, read⟩ := Reader.bind_eq_some_iff.mp read
  obtain ⟨first, firstSmall⟩ := append_of_readLE readFirst
  rw [first]
  split_ifs at read with oneByte twoBytes fourBytes
  · obtain ⟨rfl, rfl⟩ := eq_of_checkLimit read
    rw [writeCompactSize, if_pos oneByte, bytesLE_one]
  · obtain ⟨rfl, low, small⟩ := append_of_readLong read
    rw [writeCompactSize, if_neg (by omega), if_pos (by omega), twoBytes]
    rfl
  · obtain ⟨rfl, low, small⟩ := append_of_readLong read
    rw [writeCompactSize, if_neg (by omega), if_neg (by omega), if_pos (by omega), fourBytes]
    rfl
  · obtain ⟨rfl, low, small⟩ := append_of_readLong read
    have marker : chSize = 255 := by omega
    rw [writeCompactSize, if_neg (by omega), if_neg (by omega), if_neg (by omega), marker]
    rfl

theorem append_of_readVector (read : readVector stream = some (bytes, rest)) : stream = writeVector bytes ++ rest := by
  obtain ⟨size, between, readSize, read⟩ := Reader.bind_eq_some_iff.mp read
  rw [append_of_readCompactSize readSize, append_of_readBytes read, writeVector, length_of_readBytes read, append_assoc]

theorem append_of_map_readLE {width : ℕ} {f : ℕ → α} (write : α → Bytes)
    (inverse : ∀ value < 256 ^ width, write (f value) = bytesLE width value)
    (read : (f <$> readLE width) stream = some (a, rest)) : stream = write a ++ rest := by
  change (readLE width >>= fun value => pure (f value)) stream = some (a, rest) at read
  obtain ⟨value, between, found, ⟨⟩⟩ := Reader.bind_eq_some_iff.mp read
  obtain ⟨bytes, small⟩ := append_of_readLE found
  rw [bytes, inverse value small]

theorem append_of_readUInt8 {byte : UInt8} (read : readUInt8 stream = some (byte, rest)) : stream = byte :: rest :=
  append_of_map_readLE (fun byte => [byte]) (fun _ _ => rfl) read

theorem append_of_readUInt32 {x : UInt32} (read : readUInt32 stream = some (x, rest)) :
    stream = bytesLE 4 x.toNat ++ rest :=
  append_of_map_readLE (fun x => bytesLE 4 x.toNat) (fun _ small => by rw [UInt32.toNat_ofNat_of_lt' small]) read

theorem append_of_readUint256 {x : Uint256} (read : readUint256 stream = some (x, rest)) :
    stream = x.toBytes ++ rest := by
  change (readBytes 32 >>= fun bytes => pure (Uint256.ofBytes bytes)) stream = some (x, rest) at read
  obtain ⟨bytes, between, found, ⟨⟩⟩ := Reader.bind_eq_some_iff.mp read
  have length := length_of_readBytes found
  have small := natLE_lt bytes
  rw [length] at small
  change natLE bytes < 2 ^ 256 at small
  rw [append_of_readBytes found, Uint256.toBytes, Uint256.ofBytes, take_of_length_le length.le, BitVec.toNat_ofNat,
    Nat.mod_eq_of_lt small]
  conv_rhs => rw [← length, bytesLE_natLE]

theorem forall_mem_of_readMany (sound : ∀ stream rest a, element stream = some (a, rest) → good a)
    (read : readMany element count stream = some (values, rest)) : values.length = count ∧ ∀ a ∈ values, good a := by
  induction count generalizing stream values with
  | zero =>
    cases read
    simp
  | succ count ih =>
    simp only [readMany, Reader.bind_eq_some_iff] at read
    obtain ⟨head, _, readHead, tail, _, readTail, ⟨⟩⟩ := read
    obtain ⟨size, tailGood⟩ := ih readTail
    exact ⟨by rw [length_cons, size], forall_mem_cons.mpr ⟨sound _ _ _ readHead, tailGood⟩⟩

theorem forall_mem_of_readList (sound : ∀ stream rest a, element stream = some (a, rest) → good a)
    (read : readList element stream = some (values, rest)) : values.length ≤ maxSize ∧ ∀ a ∈ values, good a := by
  obtain ⟨size, between, readSize, read⟩ := Reader.bind_eq_some_iff.mp read
  obtain ⟨length, allGood⟩ := forall_mem_of_readMany sound read
  exact ⟨length ▸ le_maxSize_of_readCompactSize readSize, allGood⟩

theorem append_of_readMany
    (sound : ∀ stream rest a, element stream = some (a, rest) → stream = write a ++ rest)
    (read : readMany element count stream = some (values, rest)) :
    stream = values.flatMap write ++ rest := by
  induction count generalizing stream values with
  | zero =>
    cases read
    rfl
  | succ count ih =>
    simp only [readMany, Reader.bind_eq_some_iff] at read
    obtain ⟨head, _, readHead, tail, _, readTail, ⟨⟩⟩ := read
    rw [sound _ _ _ readHead, ih readTail, flatMap_cons, append_assoc]

theorem append_of_readList
    (sound : ∀ stream rest a, element stream = some (a, rest) → stream = write a ++ rest)
    (read : readList element stream = some (values, rest)) :
    stream = writeCompactSize values.length ++ (values.flatMap write ++ rest) := by
  obtain ⟨size, between, readSize, read⟩ := Reader.bind_eq_some_iff.mp read
  obtain ⟨rfl, -⟩ := forall_mem_of_readMany (fun _ _ _ _ => trivial) read
  rw [append_of_readCompactSize readSize, append_of_readMany sound read]

namespace CTransaction

theorem reads_readAmount (amount : CAmount) : Reads readAmount (amountBytes amount) amount := by
  have reads := (@reads_readLE 8 _ amount.toUInt64.toNat_lt).map fun word => (UInt64.ofNat word).toInt64
  rwa [UInt64.ofNat_toNat] at reads

/-- The sizes a stream may announce: no vector of the transaction has more than `MAX_SIZE` elements. -/
structure WithinMaxSize (tx : CTransaction) : Prop where
  vin : tx.vin.length ≤ maxSize
  vout : tx.vout.length ≤ maxSize
  scriptSig : ∀ txin ∈ tx.vin, txin.scriptSig.length ≤ maxSize
  scriptPubKey : ∀ txout ∈ tx.vout, txout.scriptPubKey.length ≤ maxSize

variable (getIdem : Bool)

/-- The input as a stream carries it: without its satisfier when the idem is computed. -/
def streamedInput (txin : CTxIn) : CTxIn :=
  { txin with scriptSig := if getIdem then [] else txin.scriptSig }

variable (tx : CTransaction)

/-- What a stream with the given flag carries of the transaction. -/
def streamed : CTransaction :=
  { tx with vin := tx.vin.map (streamedInput getIdem) }

@[simp] theorem streamed_false : tx.streamed false = tx := by
  have identity : streamedInput false = id := rfl
  rw [streamed, identity, map_id]

theorem reads_readSatisfier {script : CScript} (bound : script.length ≤ maxSize) :
    Reads (readSatisfier getIdem) (if getIdem then [] else writeVector script) (if getIdem then [] else script) := by
  cases getIdem
  · exact reads_readVector bound
  · exact Reads.of_pure []

theorem reads_readTxIn {txin : CTxIn} (bound : txin.scriptSig.length ≤ maxSize) :
    Reads (readTxIn getIdem) (serializeTxIn getIdem txin) (streamedInput getIdem txin) := by
  have fields : serializeTxIn getIdem txin = [txin.type] ++ (txin.prevout.hash.toBytes ++
      ((if getIdem then [] else writeVector txin.scriptSig) ++
        (bytesLE 4 txin.nSequence.toNat ++ amountBytes txin.amount))) := by
    simp [serializeTxIn]
  rw [fields]
  refine (reads_readUInt8 _).bind ((reads_readUint256 _).bind ((reads_readSatisfier getIdem bound).bind ?_))
  exact (reads_readUInt32 _).bind ((reads_readAmount _).bind_pure rfl)

theorem reads_readTxOut {txout : CTxOut} (bound : txout.scriptPubKey.length ≤ maxSize) :
    Reads readTxOut (serializeTxOut txout) txout := by
  exact (reads_readUInt8 _).bind ((reads_readAmount _).bind ((reads_readVector bound).bind_pure rfl))

theorem reads_read {tx : CTransaction} (sizes : tx.WithinMaxSize) :
    Reads (read getIdem) (tx.serialize getIdem) (tx.streamed getIdem) := by
  have fields : tx.serialize getIdem = [tx.nVersion] ++
      ((writeCompactSize tx.vin.length ++ tx.vin.flatMap (serializeTxIn getIdem)) ++
        ((writeCompactSize tx.vout.length ++ tx.vout.flatMap serializeTxOut) ++ bytesLE 4 tx.nLockTime.toNat)) := by
    simp [serialize]
  have inputs := reads_readList sizes.vin fun txin member => reads_readTxIn getIdem (sizes.scriptSig txin member)
  have outputs := @reads_readList _ readTxOut _ _ id sizes.vout
    fun txout member => reads_readTxOut (sizes.scriptPubKey txout member)
  rw [map_id] at outputs
  rw [fields]
  exact (reads_readUInt8 _).bind (inputs.bind (outputs.bind ((reads_readUInt32 _).bind_pure rfl)))

theorem scriptSig_length_le_of_readTxIn (stream rest : Bytes) (txin : CTxIn)
    (readIn : readTxIn false stream = some (txin, rest)) : txin.scriptSig.length ≤ maxSize := by
  simp only [readTxIn, Reader.bind_eq_some_iff] at readIn
  obtain ⟨_, _, -, _, _, -, scriptSig, _, readScript, _, _, -, _, _, -, ⟨⟩⟩ := readIn
  exact length_le_of_readVector readScript

theorem scriptPubKey_length_le_of_readTxOut (stream rest : Bytes) (txout : CTxOut)
    (readOut : readTxOut stream = some (txout, rest)) : txout.scriptPubKey.length ≤ maxSize := by
  simp only [readTxOut, Reader.bind_eq_some_iff] at readOut
  obtain ⟨_, _, -, _, _, -, scriptPubKey, _, readScript, ⟨⟩⟩ := readOut
  exact length_le_of_readVector readScript

/-- Some stream is unserialized into the transaction. -/
def Deserializable : Prop := ∃ stream rest, read false stream = some (tx, rest)

theorem deserializable_iff {tx : CTransaction} : tx.Deserializable ↔ tx.WithinMaxSize := by
  constructor
  · rintro ⟨stream, rest, readTx⟩
    simp only [read, Reader.bind_eq_some_iff] at readTx
    obtain ⟨_, _, -, vin, _, readVin, vout, _, readVout, _, _, -, ⟨⟩⟩ := readTx
    obtain ⟨vinSize, scriptSigSize⟩ := forall_mem_of_readList scriptSig_length_le_of_readTxIn readVin
    obtain ⟨voutSize, scriptPubKeySize⟩ := forall_mem_of_readList scriptPubKey_length_le_of_readTxOut readVout
    exact ⟨vinSize, voutSize, scriptSigSize, scriptPubKeySize⟩
  · intro sizes
    refine ⟨tx.serialize false, [], ?_⟩
    simpa using reads_read false sizes []

theorem append_of_readAmount {amount : CAmount} (read : readAmount stream = some (amount, rest)) :
    stream = amountBytes amount ++ rest :=
  append_of_map_readLE amountBytes (fun value small => by
    change bytesLE 8 (UInt64.ofNat value).toNat = _
    rw [UInt64.toNat_ofNat_of_lt' small]) read

theorem append_of_readTxIn (stream rest : Bytes) (txin : CTxIn) (read : readTxIn false stream = some (txin, rest)) :
    stream = serializeTxIn false txin ++ rest := by
  simp only [readTxIn, Reader.bind_eq_some_iff] at read
  obtain ⟨_, _, type, _, _, hash, _, _, script, _, _, sequence, _, _, amount, ⟨⟩⟩ := read
  rw [append_of_readUInt8 type, append_of_readUint256 hash, append_of_readVector script, append_of_readUInt32 sequence,
    append_of_readAmount amount]
  simp [serializeTxIn]

theorem append_of_readTxOut (stream rest : Bytes) (txout : CTxOut) (read : readTxOut stream = some (txout, rest)) :
    stream = serializeTxOut txout ++ rest := by
  simp only [readTxOut, Reader.bind_eq_some_iff] at read
  obtain ⟨_, _, type, _, _, value, _, _, script, ⟨⟩⟩ := read
  rw [append_of_readUInt8 type, append_of_readAmount value, append_of_readVector script]
  simp [serializeTxOut]

/-- A transaction is read from a stream exactly if the stream starts with its one serialization. -/
theorem read_eq_some_iff {tx : CTransaction} :
    read false stream = some (tx, rest) ↔ stream = tx.serialize false ++ rest ∧ tx.WithinMaxSize := by
  constructor
  · intro found
    refine ⟨?_, deserializable_iff.mp ⟨stream, rest, found⟩⟩
    simp only [read, Reader.bind_eq_some_iff] at found
    obtain ⟨_, _, version, vin, _, inputs, vout, _, outputs, _, _, lockTime, ⟨⟩⟩ := found
    rw [append_of_readUInt8 version, append_of_readList append_of_readTxIn inputs,
      append_of_readList append_of_readTxOut outputs, append_of_readUInt32 lockTime]
    simp [serialize]
  · rintro ⟨rfl, sizes⟩
    rw [reads_read false sizes, streamed_false]

end CTransaction

end Nexa
