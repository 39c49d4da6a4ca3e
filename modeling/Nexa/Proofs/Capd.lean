import Mathlib.Data.UInt
import Nexa.Model.Capd.Capd

/-! # The answer to a query of messages -/

namespace Nexa

open List

/-- What a query asks for: the matches from `start` on, as many as asked for and at most the limit. -/
def queryWindow (msgs : List CapdMsg) (start quantity : UInt32) (limit : ℕ) : List CapdMsg :=
  (msgs.drop start.toNat).take (min quantity.toNat limit)

theorem ptrVectorSpan_eq {α : Type} (v : List α) (start count : ℕ) :
    ptrVectorSpan v start count = (v.drop start).take count := by
  simp only [ptrVectorSpan]
  rw [take_eq_take_iff, length_drop]
  split_ifs <;> omega

theorem queryMsgs_iff (msgs : List CapdMsg) (start quantity : UInt32) :
    queryMsgs msgs start quantity = queryWindow msgs start quantity 200 ↔
      quantity.toNat < 2 ^ 31 ∨ msgs.length ≤ start.toNat + 200 := by
  have range := quantity.toNat_lt
  rw [queryMsgs, ptrVectorSpan_eq, queryWindow, take_eq_take_iff, length_drop, CAPD_QUERY_MAX_MSGS, toInt32,
    Int.bmod_def]
  split_ifs <;> omega

variable (msgs : List CapdMsg)

theorem pushHashes_ofNat (start rounds : ℕ) :
    pushHashes msgs start rounds = if rounds = 0 ∨ start + rounds ≤ msgs.length then
      some (((msgs.drop start).take rounds).map CapdMsg.getHash) else none := by
  induction rounds generalizing start with
  | zero => rfl
  | succ rounds ih =>
    have next := ih (start + 1)
    push_cast at next
    rw [pushHashes, next, if_pos (by omega), Int.toNat_natCast]
    by_cases fits : start + (rounds + 1) ≤ msgs.length
    · have inside : start < msgs.length := by omega
      rw [if_pos (.inr (by omega)), if_pos (.inr fits), getElem?_eq_getElem, drop_eq_getElem_cons inside]
      rfl
    · rw [if_neg (show ¬(rounds + 1 = 0 ∨ _) by omega)]
      by_cases last : rounds = 0
      · rw [getElem?_eq_none (by omega)]
        rfl
      · rw [if_neg (by omega)]
        cases msgs[start]? <;> rfl

variable (start quantity : UInt32)

/-- The end of the loop is right: no hash is due if it does not run, and it runs to the end of the window if it does. -/
def HashQtyRight (size : ℕ) : Prop :=
  if hashQty start quantity size ≤ toInt32 start.toNat then quantity.toNat = 0 ∨ size ≤ start.toNat
  else start.toNat < 2 ^ 31 ∧ hashQty start quantity size = min size (start.toNat + min quantity.toNat 2000)

theorem toInt32_natCast {value : ℕ} (range : value < 2 ^ 32) :
    toInt32 value = if value < 2 ^ 31 then (value : ℤ) else value - 2 ^ 32 := by
  rw [toInt32, Int.bmod_def]
  split_ifs <;> omega

theorem queryHashes_iff_hashQtyRight :
    queryHashes msgs start quantity = some ((queryWindow msgs start quantity 2000).map CapdMsg.getHash) ↔
      HashQtyRight start quantity msgs.length := by
  have range := start.toNat_lt
  have signed := toInt32_natCast range
  rw [queryHashes, queryWindow, HashQtyRight]
  generalize hashQty start quantity msgs.length = qty at *
  split_ifs with ended
  · rw [Int.toNat_of_nonpos (by omega), pushHashes, Option.some_inj, eq_comm, map_eq_nil_iff, take_eq_nil_iff,
      drop_eq_nil_iff]
    omega
  by_cases small : start.toNat < 2 ^ 31
  · rw [if_pos small] at signed
    rw [signed] at ended ⊢
    rw [pushHashes_ofNat]
    split_ifs with fits
    · rw [Option.some_inj]
      constructor
      · intro same
        have lengths := congrArg length same
        simp only [length_map, length_take, length_drop] at lengths
        omega
      · rintro ⟨-, bound⟩
        refine congrArg (map _) (take_eq_take_iff.mpr ?_)
        rw [length_drop]
        omega
    · simp
      omega
  · obtain ⟨rounds, some⟩ : ∃ rounds, (qty - toInt32 start.toNat).toNat = rounds + 1 :=
      Nat.exists_eq_add_one.mpr (by omega)
    rw [some, pushHashes, if_neg (by omega)]
    exact iff_of_false (by simp) fun due => small due.1

/-- When a query of hashes is answered rightly. Behind the end nothing is read if the end of the loop is negative
or has wrapped around, which also leaves out what is due. -/
def HashQueryRight (start quantity size : ℕ) : Prop := if start < 2 ^ 31 then
    quantity = 0 ∨ size = start ∨
      (start < size ∧ start + quantity < 2 ^ 32 ∧ (start = 0 ∨ 2 * start + min quantity 2000 ≤ size)) ∨
      (size < start ∧ (2 ^ 32 ≤ start + quantity ∨ 2 ^ 31 ≤ start + min quantity 2000))
  else
    start ≤ 2 ^ 31 + size ∧ start + 2000 < 2 ^ 32 ∧
      (quantity = 0 ∨ start + quantity < 2 ^ 32 ∧ 2 ^ 32 + size ≤ 2 * start ∨ 2 ^ 32 + 2 ^ 31 ≤ start + quantity)

theorem toNat_min (a b : UInt32) : (min a b).toNat = min a.toNat b.toNat := by
  change (if a ≤ b then a else b).toNat = _
  split_ifs with le <;> rw [UInt32.le_iff_toNat_le] at le <;> omega

theorem hashQty_eq {size : ℕ} (fits : size < 2 ^ 31) :
    hashQty start quantity size = toInt32 (min (min ((2000 + start.toNat) % 2 ^ 32)
      ((start.toNat + quantity.toNat) % 2 ^ 32)) ((2 ^ 32 - start.toNat + size) % 2 ^ 32) : ℕ) := by
  have size_eq : (UInt32.ofNat size).toNat = size := UInt32.toNat_ofNat_of_lt' (fits.trans (by decide))
  have limit : CAPD_QUERY_MAX_INVS.toNat = 2000 := rfl
  rw [hashQty, toNat_min, toNat_min, UInt32.toNat_add, UInt32.toNat_add, UInt32.toNat_sub, size_eq, limit]

theorem hashQtyRight_iff {size : ℕ} (fits : size < 2 ^ 31) :
    HashQtyRight start quantity size ↔ HashQueryRight start.toNat quantity.toNat size := by
  have startRange := start.toNat_lt
  have quantityRange := quantity.toNat_lt
  rw [HashQtyRight, HashQueryRight, hashQty_eq start quantity fits]
  rw [toInt32_natCast (by omega), toInt32_natCast startRange]
  obtain first | first := le_total ((2000 + start.toNat) % 2 ^ 32) ((start.toNat + quantity.toNat) % 2 ^ 32)
  · rw [min_eq_left first]
    split_ifs <;> omega
  · rw [min_eq_right first]
    split_ifs <;> omega

/-- When the reply to a query lists what is asked for and nothing else is read. -/
theorem queryReplies_iff : (queryMsgs msgs start quantity = queryWindow msgs start quantity 200 ↔
      quantity.toNat < 2 ^ 31 ∨ msgs.length ≤ start.toNat + 200) ∧
    (msgs.length < 2 ^ 31 →
      (queryHashes msgs start quantity = some ((queryWindow msgs start quantity 2000).map CapdMsg.getHash) ↔
        HashQueryRight start.toNat quantity.toNat msgs.length)) := by
  refine ⟨queryMsgs_iff .., fun fits => ?_⟩
  rw [queryHashes_iff_hashQtyRight, hashQtyRight_iff start quantity fits]

/-- A position after the end is read, a hash that is due is left out, and the limit is passed. -/
theorem queryReplies_wrong : queryHashes [] 1 1 = none ∧
    queryHashes [{}, {}] 1 1 = some [] ∧ queryWindow [{}, {}] 1 1 2000 = [{}] ∧
    queryMsgs (replicate 201 {}) 0 (2 ^ 31) ≠ queryWindow (replicate 201 {}) 0 (2 ^ 31) 200 := by
  refine ⟨by decide, by decide, by decide, ?_⟩
  rw [Ne, queryMsgs_iff, length_replicate]
  decide

end Nexa
