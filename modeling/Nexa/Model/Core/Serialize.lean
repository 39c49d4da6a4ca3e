import Nexa.Model.Core.Sha256

/-! # Serialization

Writers are functions into `Bytes`; readers consume a prefix of the stream and fail where the
source throws `std::ios_base::failure`. Integers are little-endian and counts use the compact size
of `serialize.h`. The 256-bit blobs are numbers here: `base_blob::Compare` orders them from the last
byte down, which is the order of the number with these bytes least significant first.
-/

namespace Nexa

abbrev Uint256 := BitVec 256

instance : LawfulBEq Uint256 := inferInstance

instance : LawfulBEq Bytes := inferInstance

/-- The low `width` bytes of `value`, least significant first. -/
def bytesLE : ℕ → ℕ → Bytes
  | 0, _ => []
  | width + 1, value => UInt8.ofNat value :: bytesLE width (value / 256)

def natLE : Bytes → ℕ
  | [] => 0
  | b :: rest => b.toNat + 256 * natLE rest

def Uint256.toBytes (x : Uint256) : Bytes := bytesLE 32 x.toNat

/-- `base_blob(const uint8_t *)`: the first 32 bytes. -/
def Uint256.ofBytes (bytes : Bytes) : Uint256 := BitVec.ofNat 256 (natLE (bytes.take 32))

/-- The digest of a `CSHA256Writer` that received `message`. -/
def sha256 (message : Bytes) : Uint256 := Uint256.ofBytes (Sha256.hash message)

/-- The digest of a `CHashWriter` that received `message`: SHA-256 applied twice. -/
def hash256 (message : Bytes) : Uint256 := Uint256.ofBytes (Sha256.hash (Sha256.hash message))

def writeCompactSize (size : ℕ) : Bytes :=
  if size < 253 then [UInt8.ofNat size]
  else if size ≤ 0xffff then 253 :: bytesLE 2 size
  else if size ≤ 0xffffffff then 254 :: bytesLE 4 size
  else 255 :: bytesLE 8 size

/-- Serialization of a `std::vector<unsigned char>`: its length and its bytes. -/
def writeVector (bytes : Bytes) : Bytes := writeCompactSize bytes.length ++ bytes

/-- A reader of a `CDataStream`; `none` stands for the exception of a failed read. -/
abbrev Reader := StateT Bytes Option

def readBytes (count : ℕ) : Reader Bytes := fun stream =>
  if count ≤ stream.length then some (stream.take count, stream.drop count) else none

def readLE (width : ℕ) : Reader ℕ := natLE <$> readBytes width

def readUInt8 : Reader UInt8 := UInt8.ofNat <$> readLE 1

def readUInt32 : Reader UInt32 := UInt32.ofNat <$> readLE 4

def readUint256 : Reader Uint256 := Uint256.ofBytes <$> readBytes 32

/-- `MAX_SIZE` of `serialize.h`. -/
def maxSize : ℕ := 0x02000000 * 8

/-- `ReadCompactSizeWithLimit`: longer forms must not encode a value a shorter one could. -/
def readCompactSizeWithLimit (limit : ℕ) : Reader ℕ := do
  let chSize ← readLE 1
  let size ←
    if chSize < 253 then pure chSize
    else if chSize = 253 then do
      let size ← readLE 2
      if size < 253 then failure else pure size
    else if chSize = 254 then do
      let size ← readLE 4
      if size < 0x10000 then failure else pure size
    else do
      let size ← readLE 8
      if size < 0x100000000 then failure else pure size
  if limit < size then failure else pure size

def readCompactSize : Reader ℕ := readCompactSizeWithLimit maxSize

def readMany {α : Type} (element : Reader α) : ℕ → Reader (List α)
  | 0 => pure []
  | count + 1 => do
    let head ← element
    let tail ← readMany element count
    pure (head :: tail)

/-- Unserialization of a `std::vector` with the given element reader. -/
def readList {α : Type} (element : Reader α) : Reader (List α) := do
  let size ← readCompactSize
  readMany element size

def readVector : Reader Bytes := do
  let size ← readCompactSize
  readBytes size

@[simp] theorem length_bytesLE (width value : ℕ) : (bytesLE width value).length = width := by
  induction width generalizing value with
  | zero => rfl
  | succ width ih => simp [bytesLE, ih]

theorem natLE_bytesLE (width value : ℕ) : natLE (bytesLE width value) = value % 256 ^ width := by
  induction width generalizing value with
  | zero => simp [bytesLE, natLE, Nat.mod_one]
  | succ width ih =>
    rw [bytesLE, natLE, ih, Nat.pow_succ', Nat.mod_mul]
    simp

@[simp] theorem Uint256.ofBytes_toBytes (x : Uint256) : Uint256.ofBytes x.toBytes = x := by
  have whole : x.toBytes.take 32 = x.toBytes := List.take_of_length_le (by simp [Uint256.toBytes])
  have bound : x.toNat < 256 ^ 32 := x.isLt
  rw [Uint256.ofBytes, whole, Uint256.toBytes, natLE_bytesLE, Nat.mod_eq_of_lt bound, BitVec.ofNat_toNat,
    BitVec.setWidth_eq]

theorem Uint256.toBytes_injective : Function.Injective Uint256.toBytes := by
  intro x y same
  rw [← Uint256.ofBytes_toBytes x, same, Uint256.ofBytes_toBytes]

end Nexa
