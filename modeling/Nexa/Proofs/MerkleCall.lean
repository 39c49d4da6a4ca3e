import Nexa.Model.Script.MerkleProof
import Nexa.ToMathlib.StateProgram

/-! # Calls of OP_MERKLEROOT

A call is a stack that passes the checks of the arguments, up to the proof. Its outcome is that of
`computeMultiproofRoot`, and no other stack is accepted.
-/

namespace Nexa

theorem failIf_eq_ok_iff {bad : Prop} [Decidable bad] {error : ScriptError} : failIf bad error = .ok () ↔ ¬bad := by
  unfold failIf
  split_ifs with failed <;> simp [failed]

theorem ScriptError.length_mapM {α β : Type} {f : α → Except ScriptError β} {items : List α} {results : List β}
    (mapped : items.mapM f = .ok results) : results.length = items.length := by
  induction items generalizing results with
  | nil =>
    cases mapped
    rfl
  | cons item items ih =>
    rw [List.mapM_cons] at mapped
    obtain ⟨first, -, mapped⟩ := Except.bind_eq_ok_iff.mp mapped
    obtain ⟨rest, mappedRest, ⟨⟩⟩ := Except.bind_eq_ok_iff.mp mapped
    rw [List.length_cons, ih mappedRest, List.length_cons]

/-- A stand-in where the algorithm is not one of the two. -/
def Ripemd160.unused : Ripemd160 where
  hash _ := List.replicate 20 0
  length_hash _ := rfl

/-- Zeros behind the proof. -/
def cleared (_ : ℕ) : UInt8 := 0

/-- The arguments of the operation, all but the proof. -/
structure MerkleRootCall (ripemd160 : Ripemd160) where
  optionItem : StackItem
  countItem : StackItem
  items : List StackItem
  remaining : List StackItem
  opt : ℕ
  elements : List Bytes
  option_eq : optionItem.asUint64 false = .ok opt
  count_eq : countItem.asUint64 false = .ok items.length
  usedOnly : opt &&& usedBits = opt
  many : 1 ≤ items.length
  few : items.length ≤ 256
  sameSize : algSize (nodeAlg opt) = algSize (leafAlg opt)
  loads : items.mapM (loadElement ripemd160 opt) = .ok elements

namespace MerkleRootCall

variable {ripemd160 : Ripemd160} (beyond : ℕ → UInt8) (call : MerkleRootCall ripemd160) (proof : Bytes)

def stack : List StackItem := call.optionItem :: call.countItem :: (call.items ++ .vch proof :: call.remaining)

theorem length_elements : call.elements.length = call.items.length := ScriptError.length_mapM call.loads

/-- The evaluation of a proof for the elements. -/
def compute : Option (Bytes × List ElementInfo) :=
  computeMultiproofRoot (mpHash ripemd160 (nodeAlg call.opt)) (algSize (nodeAlg call.opt)) beyond call.elements proof

theorem opMerkleRoot_stack : opMerkleRoot ripemd160 beyond (call.stack proof) = match call.compute beyond proof with
      | none => .error .invalidParameter
      | some (root, infos) =>
        if root = [] then .error .invalidParameter
        else .ok (merkleRootResults call.opt root infos ++ call.remaining) := by
  have pass {bad : Prop} [Decidable bad] {error : ScriptError} (good : ¬bad) : failIf bad error = .ok () :=
    failIf_eq_ok_iff.mpr good
  have ok_bind {α β : Type} (value : α) (next : α → Except ScriptError β) : Except.ok value >>= next = next value := rfl
  have many := call.many
  have few := call.few
  have length : (call.stack proof).length = 3 + call.items.length + call.remaining.length := by
    simp [stack]
    omega
  have elements : (call.items ++ StackItem.vch proof :: call.remaining).take call.items.length = call.items :=
    List.take_left ..
  have rest : (call.items ++ StackItem.vch proof :: call.remaining).drop call.items.length =
      .vch proof :: call.remaining := List.drop_left ..
  rw [stack] at length ⊢
  unfold opMerkleRoot
  simp only [call.option_eq, call.count_eq, ok_bind]
  rw [pass (by omega), pass (not_not.mpr call.usedOnly), pass (by omega), pass (by omega), pass (by omega),
    pass (not_not.mpr call.sameSize)]
  simp only [ok_bind, elements, call.loads, rest, StackItem.data]
  rw [compute]
  cases computeMultiproofRoot (mpHash ripemd160 (nodeAlg call.opt)) (algSize (nodeAlg call.opt)) beyond call.elements
    proof with
  | none => rfl
  | some found =>
    simp only [failIf]
    split_ifs <;> rfl

end MerkleRootCall

end Nexa
