import Nexa.Proofs.Serialize

/-! # Reading instructions

`GetOp` takes an instruction from the front of a script and leaves a shorter script.
-/

namespace Nexa

variable {stream rest : Bytes}

/-! ## What is left -/

theorem readLE_eq_some {width value : ℕ} (read : readLE width stream = some (value, rest)) :
    ∃ bytes, bytes.length = width ∧ bytes ++ rest = stream ∧ natLE bytes = value := by
  change (readBytes width >>= fun bytes => pure (natLE bytes)) stream = _ at read
  obtain ⟨bytes, _, readBytes, ⟨⟩⟩ := Reader.bind_eq_some_iff.mp read
  exact ⟨bytes, length_of_readBytes readBytes, (append_of_readBytes readBytes).symm, rfl⟩

variable {opcode : ℕ} {instruction : ℕ × Bytes} {byte : UInt8} {b : Bytes}

theorem suffix_of_pushSize {size : ℕ} (read : pushSize opcode stream = some (size, rest)) : rest <:+ stream := by
  unfold pushSize at read
  split_ifs at read
  · cases read
    exact List.suffix_refl _
  all_goals
    obtain ⟨bytes, -, whole, -⟩ := readLE_eq_some read
    exact ⟨bytes, whole⟩

theorem getOp_eq_some {data : Bytes} (read : getOp stream = some ((opcode, data), rest)) :
    ∃ byte behind, stream = byte :: behind ∧ byte.toNat = opcode ∧ rest <:+ behind ∧
      (OP_PUSHDATA4 < opcode → data = [] ∧ rest = behind) := by
  obtain ⟨op, behind, readOp, read⟩ := Reader.bind_eq_some_iff.mp read
  obtain ⟨bytes, length, whole, value⟩ := readLE_eq_some readOp
  obtain ⟨byte, rfl⟩ := List.length_eq_one_iff.mp length
  have byteValue : byte.toNat = op := by simpa [natLE] using value
  refine ⟨byte, behind, whole.symm, ?_⟩
  split_ifs at read with pushes
  · simp only [Reader.bind_eq_some_iff] at read
    obtain ⟨size, between, readSize, bytes, _, readData, ⟨⟩⟩ := read
    have dataSuffix : rest <:+ between := ⟨_, (append_of_readBytes readData).symm⟩
    exact ⟨byteValue, dataSuffix.trans (suffix_of_pushSize readSize), fun above => absurd pushes (by omega)⟩
  · cases read
    exact ⟨byteValue, List.suffix_refl _, fun _ => ⟨rfl, rfl⟩⟩

theorem length_lt_of_getOp (read : getOp stream = some (instruction, rest)) : rest.length < stream.length := by
  obtain ⟨byte, behind, rfl, -, suffix, -⟩ := getOp_eq_some read
  have := suffix.length_le
  simp only [List.length_cons]
  omega

theorem drop_of_getOp {script behind : CScript} {pc : ℕ} (read : getOp (script.drop pc) = some (instruction, behind)) :
    script.drop (script.length - behind.length) = behind := by
  obtain ⟨byte, tail, shape, -, suffix, -⟩ := getOp_eq_some read
  have suffix' : behind <:+ script := by
    refine (suffix.trans ?_).trans (List.drop_suffix pc script)
    rw [shape]
    exact List.suffix_cons byte tail
  exact (List.suffix_iff_eq_drop.mp suffix').symm

/-! ## Instructions that were written -/

theorem reads_opcode (byte : UInt8) : Reads (readLE 1) [byte] byte.toNat := by
  have reads := @reads_readLE 1 _ byte.toNat_lt
  rwa [bytesLE_one, UInt8.ofNat_toNat] at reads

theorem reads_directPush {data : Bytes} (size : data.length = byte.toNat) (direct : byte.toNat < OP_PUSHDATA1) :
    Reads getOp (byte :: data) (byte.toNat, data) := by
  have pushes : byte.toNat ≤ OP_PUSHDATA4 := by
    unfold OP_PUSHDATA1 at direct
    unfold OP_PUSHDATA4
    omega
  refine (reads_opcode byte).bind ?_
  rw [if_pos pushes, pushSize, if_pos direct]
  exact (Reads.of_pure _).bind ((reads_readBytes size).bind_pure rfl)

theorem reads_operation (operation : OP_PUSHDATA4 < byte.toNat) : Reads getOp [byte] (byte.toNat, []) := by
  refine (reads_opcode byte).bind_pure ?_
  rw [if_neg (not_le.mpr operation)]

theorem reads_sizedPush {width : ℕ} {data : Bytes} (sized : pushSize byte.toNat = readLE width)
    (pushes : byte.toNat ≤ OP_PUSHDATA4) (fits : data.length < 256 ^ width) :
    Reads getOp (byte :: bytesLE width data.length ++ data) (byte.toNat, data) := by
  refine (reads_opcode byte).bind ?_
  rw [if_pos pushes, sized]
  exact (reads_readLE fits).bind ((reads_readBytes rfl).bind_pure rfl)

/-- The opcode that `serializeVector` writes. -/
def pushOpcode (size : ℕ) : ℕ :=
  if size < OP_PUSHDATA1 then size
  else if size ≤ 0xff then OP_PUSHDATA1
  else if size ≤ 0xffff then OP_PUSHDATA2
  else OP_PUSHDATA4

theorem pushOpcode_le (size : ℕ) : pushOpcode size ≤ OP_PUSHDATA4 := by
  unfold pushOpcode OP_PUSHDATA1 OP_PUSHDATA2 OP_PUSHDATA4
  split_ifs <;> omega

theorem reads_serializeVector (fits : b.length < 2 ^ 32) :
    Reads getOp (serializeVector b) (pushOpcode b.length, b) := by
  unfold serializeVector pushOpcode
  split_ifs with direct one two
  · have byte : (UInt8.ofNat b.length).toNat = b.length :=
      UInt8.toNat_ofNat_of_lt (direct.trans (by decide))
    have reads := @reads_directPush (UInt8.ofNat b.length) b byte.symm (by rwa [byte])
    rwa [byte] at reads
  · exact @reads_sizedPush _ 1 b rfl (by decide) (by omega)
  · exact @reads_sizedPush _ 2 b rfl (by decide) (by omega)
  · exact @reads_sizedPush _ 4 b rfl (by decide) (by omega)

theorem length_serializeVector_le (b : Bytes) : (serializeVector b).length ≤ b.length + 5 := by
  unfold serializeVector
  split_ifs <;> simp <;> omega

theorem reads_pushVector_nil : Reads getOp (pushVector []) (OP_0, []) := @reads_directPush 0 [] rfl (by decide)

theorem reads_pushVector (long : 2 ≤ b.length) (fits : b.length < 2 ^ 32) :
    Reads getOp (pushVector b) (pushOpcode b.length, b) := by
  match b with
  | [] => simp at long
  | [n] => simp at long
  | n :: m :: b => exact reads_serializeVector fits

theorem length_le_pushVector (b : Bytes) : b.length ≤ (pushVector b).length := by
  have sized : b.length ≤ (serializeVector b).length := by
    unfold serializeVector
    split_ifs <;> simp <;> omega
  unfold pushVector
  split
  next => exact Nat.zero_le _
  next => split_ifs <;> first | exact sized | exact le_rfl
  next => exact sized

end Nexa
