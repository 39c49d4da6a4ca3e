import Nexa.Model.Consensus.Validation
import Nexa.Model.Primitives.BlockHeader

/-! # Consensus parameters and proof of work

`CheckProofOfWork` first decodes the target and then applies the algorithm of the network. The Nexa
algorithm signs a digest with the mining hash as the private key; the signature code is the vendored
secp256k1 library, which the model takes as a parameter.
-/

namespace Nexa

/-- The part of `Consensus::Params` that the modelled functions read. -/
structure Params where
  powAlgorithm : ℕ := 1
  initialSubsidy : ℤ := 0
  coinbaseMaturity : ℤ := 0
  hashGenesisBlock : Uint256 := 0
  nSubsidyHalvingInterval : ℕ := 0
  powLimit : Uint256 := 0
  fPowAllowMinDifficultyBlocks : Bool := false
  fPowNoRetargeting : Bool := false
  nPowTargetSpacing : ℤ := 0
  nASERTHalfLife : ℤ := 0
  nASERTAnchorAt : ℕ := 0
  fork1Height : ℕ := 0
  tailstormK : UInt32 := 0
  nNextMaxBlockSize : UInt64 := 0
deriving DecidableEq, Repr

/-- The vendored signature code: `CKey::Set` and `CKey::SignSchnorr`, `none` when the key is not valid
or the signature cannot be made. -/
structure Crypto where
  signSchnorr : Uint256 → Uint256 → Option Bytes

/-- The digest that is signed or compared: it binds the mining hash to the epoch, if there is one. -/
def powDigest (hash prevhash : Uint256) : Uint256 :=
  if prevhash ≠ 0 then sha256 (sha256 (hash.toBytes ++ prevhash.toBytes)).toBytes else sha256 hash.toBytes

/-- `CheckProofOfWork` against a decoded target. -/
def checkProofOfWorkTarget (crypto : Crypto) (params : Params) (hash prevhash bnTarget : Uint256) : Validation Bool :=
  match params.powAlgorithm with
  | 0 => pure (decide (hash ≤ bnTarget))
  | 1 =>
    match crypto.signSchnorr hash (powDigest hash prevhash) with
    | none => pure false
    | some vchSig => pure (decide (sha256 vchSig ≤ bnTarget))
  | 2 => pure (decide (powDigest hash prevhash ≤ bnTarget))
  | _ => crash

/-- `CheckProofOfWork` against compact bits, which must encode a target from 1 to `powLimit`. -/
def checkProofOfWork (crypto : Crypto) (params : Params) (hash prevhash : Uint256) (nBits : UInt32) :
    Validation Bool :=
  let compact := setCompact nBits
  if compact.fNegative || compact.target = 0 || compact.fOverflow || params.powLimit < compact.target then pure false
  else checkProofOfWorkTarget crypto params hash prevhash compact.target

theorem work_pos_of_checkProofOfWork {crypto : Crypto} {params : Params} {hash prevhash : Uint256} {nBits : UInt32}
    (met : checkProofOfWork crypto params hash prevhash nBits = .ok true) :
    0 < (getWorkForDifficultyBits nBits).toNat := by
  simp only [checkProofOfWork] at met
  split_ifs at met with range
  · cases met
  · simp only [Bool.or_eq_true, not_or, decide_eq_true_eq, Bool.not_eq_true] at range
    exact getWorkForDifficultyBits_pos range.1.1.1 range.1.2 range.1.1.2

end Nexa
