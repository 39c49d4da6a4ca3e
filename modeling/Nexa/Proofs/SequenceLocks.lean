import Nexa.Model.Chain.ConnectBlock
import Nexa.Model.Mempool.TxAdmission

/-! # Relative lock times in the mempool and in a block

The mempool takes the height of every coin, a block only those of the consumed ones. This makes a
difference for a read-only input unless its sequence number is zero, as `CheckTransaction` demands.
-/

namespace Nexa

open List

/-- The coin was created by a block of the chain. -/
def Coin.Confirmed (coin : Coin) (chainTip : CBlockIndex) : Prop :=
  coin.nHeight.toNat ≤ chainTip.height ∧ coin.nHeight ≠ MEMPOOL_HEIGHT

/-- The mempool knows the coins that the inputs refer to, all of them from blocks of the chain, and for the
consumed ones it agrees with the view of the block. -/
structure ConfirmedInputs (viewMemPool roCoinsTip : COutPoint → Option Coin) (view : COutPoint → Coin)
    (chainTip : CBlockIndex) (vin : List CTxIn) : Prop where
  consumed : ∀ txin ∈ vin, txin.isReadOnly = false →
    viewMemPool txin.prevout = some (view txin.prevout) ∧ (view txin.prevout).Confirmed chainTip
  readOnly : ∀ txin ∈ vin, txin.isReadOnly = true → ∃ coin ∈ roCoinsTip txin.prevout, coin.Confirmed chainTip

variable {viewMemPool roCoinsTip : COutPoint → Option Coin} {view : COutPoint → Coin} {chainTip block : CBlockIndex}
  {pprev : BlockIndexRef}

theorem getAncestor_eq_of_extends {other : CBlockIndex} (onTip : block.height = chainTip.height + 1)
    (same : other.height = block.height) {ansHeight : ℤ} (below : ansHeight ≤ chainTip.height) :
    getAncestor (block :: chainTip :: pprev) ansHeight = getAncestor (other :: chainTip :: pprev) ansHeight := by
  simp only [getAncestor, same]
  split_ifs with outside
  · rfl
  · have bound : block.height < 2 ^ 32 := block.header.height.toNat_lt
    have walk : toInt32 block.height = block.height := by
      unfold toInt32 at outside ⊢
      rw [Int.bmod_def] at outside ⊢
      split_ifs at outside ⊢ <;> omega
    obtain ⟨down, steps⟩ : ∃ down, (toInt32 block.height - ansHeight).toNat = down + 1 :=
      Nat.exists_eq_succ_of_ne_zero (by omega)
    rw [steps, drop_succ_cons, drop_succ_cons]

theorem calculateSequenceLocks_of_nSequence_eq_zero {txin : CTxIn} (zero : txin.nSequence = 0) {nCoinHeight : ℤ}
    (narrow : nCoinHeight < 2 ^ 31) (block : BlockIndexRef) (rest : List (CTxIn × ℤ)) (locks : ℤ × ℤ) :
    calculateSequenceLocks block ((txin, nCoinHeight) :: rest) locks =
      calculateSequenceLocks block rest (max locks.1 (nCoinHeight - 1), locks.2) := by
  have value : txin.lockValue = 0 := by rw [CTxIn.lockValue, zero, UInt32.zero_and, UInt32.toNat_zero]
  rw [calculateSequenceLocks, zero, value, Nat.cast_zero, add_zero, assertThat, if_pos narrow]
  rfl

/-- Locks that differ in the height only, and there do not matter to a block of this height. -/
def SameLocks (height : ℕ) (locks others : ℤ × ℤ) : Prop := (locks.1 < height ↔ others.1 < height) ∧ locks.2 = others.2

theorem sequenceLocks_eq_of_walked {other : CBlockIndex} (onTip : block.height = chainTip.height + 1)
    (same : other.height = block.height) {vin : List CTxIn}
    (confirmed : ConfirmedInputs viewMemPool roCoinsTip view chainTip vin)
    (unlocked : ∀ txin ∈ vin, txin.isReadOnly = true → txin.nSequence = 0) {prevheights : List ℤ}
    {nFees total : CAmount}
    (walked : walkInputs view vin nFees = .ok (prevheights, total)) :
    ∃ heights, lockHeights viewMemPool roCoinsTip chainTip.height vin = some heights ∧
      ∀ {locks others}, SameLocks block.height locks others →
        (calculateSequenceLocks (other :: chainTip :: pprev) (vin.zip heights) locks >>=
            evaluateSequenceLocks (other :: chainTip :: pprev)) =
          (calculateSequenceLocks (block :: chainTip :: pprev) (vin.zip prevheights) others >>=
            evaluateSequenceLocks (block :: chainTip :: pprev)) := by
  induction vin generalizing prevheights nFees with
  | nil =>
    refine ⟨[], rfl, fun ⟨height, time⟩ => ?_⟩
    simp [calculateSequenceLocks, evaluateSequenceLocks, same, height, time]
  | cons txin vin ih =>
    have rest : ConfirmedInputs viewMemPool roCoinsTip view chainTip vin :=
      ⟨fun input listed => confirmed.consumed input (mem_cons_of_mem _ listed),
        fun input listed => confirmed.readOnly input (mem_cons_of_mem _ listed)⟩
    rw [forall_mem_cons] at unlocked
    rw [walkInputs] at walked
    split_ifs at walked with readOnly
    · -- without a sequence number the height of the coin does not lock the block out
      obtain ⟨⟨later, fees⟩, walkedLater, ⟨⟩⟩ := Validation.bind_eq_ok_iff.mp walked
      obtain ⟨coin, known, below, mined⟩ := confirmed.readOnly txin mem_cons_self readOnly
      obtain ⟨heights, found, result⟩ := ih rest unlocked.2 walkedLater
      refine ⟨_, by simp [lockHeights, readOnly, Option.mem_def.mp known, found, mined]; rfl, fun ⟨height, time⟩ => ?_⟩
      have narrow : (coin.nHeight.toNat : ℤ) < 2 ^ 31 := by exact_mod_cast coin.nHeight.isLt
      rw [zip_cons_cons, zip_cons_cons,
        calculateSequenceLocks_of_nSequence_eq_zero (unlocked.1 readOnly) narrow,
        calculateSequenceLocks_of_nSequence_eq_zero (unlocked.1 readOnly) (by decide)]
      exact result ⟨by omega, time⟩
    · obtain ⟨-, walked⟩ := Validation.seq_eq_ok_iff.mp walked
      obtain ⟨-, walked⟩ := Validation.seq_eq_ok_iff.mp walked
      obtain ⟨fees, -, walked⟩ := Validation.bind_eq_ok_iff.mp walked
      obtain ⟨⟨later, fees'⟩, walkedLater, ⟨⟩⟩ := Validation.bind_eq_ok_iff.mp walked
      obtain ⟨known, below, mined⟩ := confirmed.consumed txin mem_cons_self (Bool.not_eq_true _ ▸ readOnly)
      obtain ⟨heights, found, result⟩ := ih rest unlocked.2 walkedLater
      refine ⟨_, by simp [lockHeights, readOnly, known, found, mined]; rfl, fun sameLocks => ?_⟩
      have ancestor := @getAncestor_eq_of_extends chainTip block pprev other onTip same
        (max ((view txin.prevout).nHeight.toNat - 1) 0) (by omega)
      -- the same height enters both locks, whichever way the rest goes
      rw [zip_cons_cons, zip_cons_cons, calculateSequenceLocks, calculateSequenceLocks, ← ancestor]
      split_ifs with disabled timed
      · exact result sameLocks
      · rw [bind_assoc, bind_assoc]
        refine bind_congr fun pindex => ?_
        cases pindex with
        | nil => rfl
        | cons index pprev => exact result ⟨sameLocks.1, by rw [sameLocks.2]⟩
      · rw [bind_assoc, bind_assoc]
        refine bind_congr fun _ => result ⟨?_, sameLocks.2⟩
        rw [max_lt_iff, max_lt_iff, sameLocks.1]

/-- At the tip `CheckSequenceLocks` answers as the check that `CheckTxFinalAndInputs` makes for a block on the tip,
if the read-only inputs have no sequence number. -/
theorem checkSequenceLocks_eq_sequenceLocks (onTip : block.height = chainTip.height + 1) {tx : CTransaction}
    (confirmed : ConfirmedInputs viewMemPool roCoinsTip view chainTip tx.vin)
    (unlocked : ∀ txin ∈ tx.vin, txin.isReadOnly = true → txin.nSequence = 0) {prevheights : List ℤ}
    {nFees total : CAmount} (walked : walkInputs view tx.vin nFees = .ok (prevheights, total)) :
    checkSequenceLocks viewMemPool roCoinsTip tx (chainTip :: pprev) =
      sequenceLocks tx prevheights (block :: chainTip :: pprev) := by
  have same : (nextIndex chainTip).height = block.height := by
    have bound := block.header.height.toNat_lt
    rw [onTip, CBlockIndex.height, nextIndex, UInt32.toNat_ofNat', Nat.mod_eq_of_lt (onTip ▸ bound)]
  obtain ⟨heights, found, result⟩ := sequenceLocks_eq_of_walked onTip same confirmed unlocked walked
  rw [checkSequenceLocks, found]
  exact result ⟨.rfl, rfl⟩

def sampleBlockIndex (height : UInt32) : CBlockIndex := { header := { height } }
def sampleLockCoin : Coin := { out := { scriptPubKey := [0x51] }, nHeight := 1 }

def sampleReader (nSequence : UInt32) : CTransaction := { vin := [{ type := 1, nSequence }], vout := [] }

theorem confirmedInputs_sampleReader (nSequence : UInt32) :
    ConfirmedInputs (fun _ => none) (fun _ => some sampleLockCoin) (fun _ => {}) (sampleBlockIndex 1)
      (sampleReader nSequence).vin := by
  constructor
  · simp [sampleReader, CTxIn.isReadOnly, CTxIn.READONLY]
  · exact fun _ _ _ => ⟨sampleLockCoin, rfl, by decide, by decide⟩

theorem checkSequenceLocks_eq_sequenceLocks_sample :
    checkSequenceLocks (fun _ => none) (fun _ => some sampleLockCoin) (sampleReader 0) [sampleBlockIndex 1,
      sampleBlockIndex 0] =
      sequenceLocks (sampleReader 0) [0] [sampleBlockIndex 2, sampleBlockIndex 1, sampleBlockIndex 0] := by
  have walked : walkInputs (fun _ => {}) (sampleReader 0).vin 0 = .ok ([0], 0) := rfl
  exact checkSequenceLocks_eq_sequenceLocks rfl (confirmedInputs_sampleReader 0) (by simp [sampleReader]) walked

/-- With a sequence number the mempool counts from the height of the coin, the block from the genesis block. -/
theorem checkSequenceLocks_readOnly_lock :
    ConfirmedInputs (fun _ => none) (fun _ => some sampleLockCoin) (fun _ => {}) (sampleBlockIndex 1)
      (sampleReader 2).vin ∧
      walkInputs (fun _ => {}) (sampleReader 2).vin 0 = .ok ([0], 0) ∧
      checkSequenceLocks (fun _ => none) (fun _ => some sampleLockCoin) (sampleReader 2)
        [sampleBlockIndex 1, sampleBlockIndex 0] = .ok false ∧
      sequenceLocks (sampleReader 2) [0] [sampleBlockIndex 2, sampleBlockIndex 1, sampleBlockIndex 0] = .ok true :=
  ⟨confirmedInputs_sampleReader 2, rfl, rfl, rfl⟩

end Nexa
