import Nexa.Model.Script.ScriptTemplate
import Nexa.Proofs.GetOp

/-! # Templates that are built and read

A locking script is read back as the parts it was built from. The parts are pushed one after the other, so the
parser meets them in the same order.
-/

namespace Nexa

open CGroupTokenID GroupAuthorityFlags List

/-! ## Quantities -/

variable (num : CAmount)

theorem length_serializeAmount :
    (serializeAmount num).length = 2 ∨ (serializeAmount num).length = 4 ∨ (serializeAmount num).length = 8 := by
  unfold serializeAmount
  split_ifs <;> simp

theorem natLE_serializeAmount : natLE (serializeAmount num) = num.toUInt64.toNat := by
  have whole := num.toUInt64.toNat_lt
  have sign : num.toInt = if 2 * num.toUInt64.toNat < 2 ^ 64 then (num.toUInt64.toNat : ℤ)
      else num.toUInt64.toNat - 2 ^ 64 := BitVec.toInt_eq_toNat_cond _
  unfold serializeAmount
  split_ifs with negative two four <;> rw [natLE_bytesLE] <;> split_ifs at sign <;> omega

theorem deserializeAmount_serializeAmount : deserializeAmount (serializeAmount num) = some num := by
  rw [deserializeAmount, if_pos (length_serializeAmount num), natLE_serializeAmount, UInt64.ofNat_toNat]
  rfl

/-! ## Groups -/

/-- The group data of a script that was built. -/
def CGroupTokenInfo.ofGroup (group : CGroupTokenID) (quantity : CAmount) : CGroupTokenInfo := if group = NoGroup then {}
  else
    { associatedGroup := group
      controllingGroupFlags := if quantity.toInt < 0 then quantity.toUInt64.toBitVec else NONE
      quantity }

/-- A group that can be pushed with its quantity. -/
def isTokenGroup (group : CGroupTokenID) (quantity : CAmount) : Prop := 32 ≤ group.length ∧ quantity ≠ -1

variable {group : CGroupTokenID} {quantity : CAmount} {templateHash argsHash : Bytes}

theorem isScriptGrouped_pushGroup (grouped : group = NoGroup ∨ isTokenGroup group quantity) {rest : CScript}
    (small : (pushGroup group quantity ++ rest).length < 2 ^ 31) :
    isScriptGrouped (pushGroup group quantity ++ rest) .template = (.ofGroup group quantity, some rest) := by
  have first : firstOp (pushGroup group quantity ++ rest) = getOp (pushGroup group quantity ++ rest) :=
    if_neg (not_le.mpr small)
  obtain rfl | ⟨long, valid⟩ := grouped
  · have read : getOp (UInt8.ofNat OP_0 :: rest) = some ((OP_0, []), rest) := reads_pushVector_nil rest
    rw [isScriptGrouped, first]
    simp [pushGroup, CGroupTokenInfo.ofGroup, read]
  · have some : group ≠ NoGroup := by
      rintro rfl
      simp [NoGroup] at long
    rw [pushGroup, if_pos some, if_pos valid, append_assoc] at first small ⊢
    have fits : group.length < 2 ^ 32 := by
      have := length_le_pushVector group
      simp only [length_append] at small
      omega
    have readGroup := @reads_pushVector group (by omega) fits (pushVector (serializeAmount quantity) ++ rest)
    have sizes := length_serializeAmount quantity
    have readQuantity := @reads_pushVector (serializeAmount quantity) (by omega) (by omega) rest
    have opcode : 0x20 ≤ pushOpcode group.length ∧ pushOpcode group.length ≤ OP_PUSHDATA4 := by
      unfold pushOpcode OP_PUSHDATA1 OP_PUSHDATA2 OP_PUSHDATA4
      split_ifs <;> omega
    have size : pushOpcode (serializeAmount quantity).length = (serializeAmount quantity).length :=
      if_pos (by unfold OP_PUSHDATA1; omega)
    have notZero : pushOpcode group.length ≠ OP_0 := by unfold OP_0; omega
    simp only [isScriptGrouped, first, readGroup, readQuantity, deserializeAmount_serializeAmount]
    rw [if_neg notZero, if_neg (by omega), if_neg (by omega), if_neg (by omega), CGroupTokenInfo.ofGroup, if_neg some]

/-! ## Templates -/

/-- Bytes from which the parser takes the hash of a template. -/
def PushesTemplate (bytes templateHash : Bytes) : Prop :=
  ∃ opcode data, Reads getOp bytes (opcode, data) ∧ isPushOpcode opcode = true ∧
    numericOpcodeToVector opcode data = templateHash

theorem pushesTemplate_hash (size : templateHash.length = 20 ∨ templateHash.length = 32) :
    PushesTemplate (pushVector templateHash) templateHash := by
  have opcode : pushOpcode templateHash.length = templateHash.length := if_pos (by unfold OP_PUSHDATA1; omega)
  refine ⟨_, _, reads_pushVector (by omega) (by omega), decide_eq_true ?_, if_neg ?_⟩
  · rw [OP_16]
    omega
  · rw [OP_1]
    omega

theorem pushesTemplate_wellKnown : PushesTemplate [UInt8.ofNat OP_1] p2pktId :=
  ⟨OP_1, [], @reads_operation 0x51 (by decide), rfl, rfl⟩

theorem pushesTemplate (isHash : isTemplateHash templateHash = true) :
    PushesTemplate (pushVector templateHash) templateHash := by
  obtain size | size | rfl := of_decide_eq_true isHash
  · exact pushesTemplate_hash (.inl size)
  · exact pushesTemplate_hash (.inr size)
  · exact pushesTemplate_wellKnown

theorem reads_argsHash (size : argsHash.length = 0 ∨ argsHash.length = 20 ∨ argsHash.length = 32) :
    ∃ opcode, Reads getOp (pushVector argsHash) (opcode, argsHash) ∧ isPushOpcode opcode = true := by
  obtain empty | size := size
  · rw [length_eq_zero_iff.mp empty]
    exact ⟨OP_0, reads_pushVector_nil, rfl⟩
  · have opcode : pushOpcode argsHash.length = argsHash.length := if_pos (by unfold OP_PUSHDATA1; omega)
    refine ⟨_, reads_pushVector (by omega) (by omega), decide_eq_true ?_⟩
    rw [OP_16]
    omega

/-- What is read from a locking script, and what is left when its group is taken away. -/
structure ReadsBack (lock : CScript) (group : CGroupTokenID) (quantity : CAmount)
    (templateHash argsHash visibleArgs : Bytes) (ungrouped : CScript) : Prop where
  group : (isScriptGrouped lock .template).1 = .ofGroup group quantity ∧
    (isScriptGrouped lock .template).2.isSome = true
  template : getScriptTemplate lock .template = .ok templateHash argsHash visibleArgs
  strip : ungroupedScriptTemplate lock .template = ungrouped

theorem readsBack_parts {template : Bytes} (grouped : group = NoGroup ∨ isTokenGroup group quantity)
    (isHash : isTemplateHash templateHash = true) (pushes : PushesTemplate template templateHash)
    (size : argsHash.length = 0 ∨ argsHash.length = 20 ∨ argsHash.length = 32) {visibleArgs : Bytes}
    (small : (pushGroup group quantity ++ template ++ pushVector argsHash ++ visibleArgs).length < 2 ^ 31) :
    ReadsBack (pushGroup group quantity ++ template ++ pushVector argsHash ++ visibleArgs) group quantity
      templateHash argsHash visibleArgs (scriptTemplateLock templateHash argsHash visibleArgs NoGroup (-1)) := by
  obtain ⟨opcode, data, reads, isPush, rfl⟩ := pushes
  obtain ⟨argsOpcode, readsArgs, argsPush⟩ := reads_argsHash size
  rw [append_assoc, append_assoc] at small
  have parts := isScriptGrouped_pushGroup grouped small
  have parsed : getScriptTemplate
      (pushGroup group quantity ++ template ++ pushVector argsHash ++ visibleArgs) .template =
      .ok (numericOpcodeToVector opcode data) argsHash visibleArgs := by
    simp only [append_assoc, getScriptTemplate, parts, reads (pushVector argsHash ++ visibleArgs),
      readsArgs visibleArgs, isPush, argsPush, isHash]
    rfl
  refine ⟨?_, parsed, ?_⟩
  · rw [append_assoc, append_assoc, parts]
    exact ⟨rfl, rfl⟩
  · rw [ungroupedScriptTemplate, parsed]

/-- Both ways to build a locking script are inverted by the parsers. -/
theorem templateLocks_readBack {argsHash visibleArgs : Bytes} {group : CGroupTokenID} {quantity : CAmount}
    (size : argsHash.length = 0 ∨ argsHash.length = 20 ∨ argsHash.length = 32)
    (grouped : group = NoGroup ∨ isTokenGroup group quantity) :
    (∀ templateHash : Bytes, templateHash.length = 20 ∨ templateHash.length = 32 ∨ templateHash = p2pktId →
      (scriptTemplateLock templateHash argsHash visibleArgs group quantity).length < 2 ^ 31 →
      ReadsBack (scriptTemplateLock templateHash argsHash visibleArgs group quantity) group quantity
        templateHash argsHash visibleArgs (scriptTemplateLock templateHash argsHash visibleArgs NoGroup (-1))) ∧
    ∀ wellKnownId lock, scriptWellKnownTemplateLock wellKnownId argsHash visibleArgs group quantity = some lock →
      lock.length < 2 ^ 31 → ∃ ungrouped,
        scriptWellKnownTemplateLock wellKnownId argsHash visibleArgs NoGroup (-1) = some ungrouped ∧
        ReadsBack lock group quantity [UInt8.ofNat wellKnownId.toNat] argsHash visibleArgs ungrouped := by
  constructor
  · intro templateHash isHash small
    exact readsBack_parts grouped (decide_eq_true isHash) (pushesTemplate (decide_eq_true isHash)) size small
  · intro wellKnownId lock built small
    unfold scriptWellKnownTemplateLock at built
    split_ifs at built with known
    cases built
    rw [known] at small ⊢
    exact ⟨_, rfl, readsBack_parts grouped rfl pushesTemplate_wellKnown size small⟩

theorem templateLocks_readBack_authority :
    ReadsBack (scriptTemplateLock (replicate 20 7) [] [0x51] (replicate 40 1) (-2)) (replicate 40 1) (-2)
      (replicate 20 7) [] [0x51] (scriptTemplateLock (replicate 20 7) [] [0x51] NoGroup (-1)) :=
  (templateLocks_readBack (.inl rfl) (.inr ⟨by decide, by decide⟩)).1 _ (.inl rfl) (by decide)

end Nexa
