import Gml.Assembly
import Gml.Proofs.Outcome

/-!
# Writing code as bytes

What stands where in the bytes of a successful assembly. `Encoding.Supported` are the widths that
code can be written in, and `Code.Assembles` says what an assembly is made of: the bytes of the
instructions in a row, the tables, and the marks moved to bytes (`Code.assembles_of_assemble`).

An instruction takes at least one byte, so the starts of the instructions are strictly increasing
(`Encoding.starts_increase`).
-/

namespace Gml

namespace Encoding

variable {encoding : Encoding}

/-- The widths that code can be written in. -/
structure Supported (encoding : Encoding) : Prop where
  /-- An operation code has one or two bytes. -/
  opcode : encoding.opcodeWidth ∈ [1, 2]
  /-- An operand has one, two, four or eight bytes. -/
  operand : encoding.operandWidth ∈ [1, 2, 4, 8]

/-- An opcode takes space. -/
theorem Supported.opcodeWidth_pos (hs : encoding.Supported) : 0 < encoding.opcodeWidth := by
  have h := hs.opcode
  simp only [List.mem_cons, List.not_mem_nil, or_false] at h
  omega

/-- An operand takes space. -/
theorem Supported.operandWidth_pos (hs : encoding.Supported) : 0 < encoding.operandWidth := by
  have h := hs.operand
  simp only [List.mem_cons, List.not_mem_nil, or_false] at h
  omega

/-- An instruction takes space. -/
theorem Supported.width_pos (hs : encoding.Supported) (I : Instruction) :
    0 < encoding.width I := by
  have := hs.opcodeWidth_pos
  unfold width
  omega

/-! ### Where instructions start -/

/-- One start more than instructions. -/
theorem length_starts (start : Nat) (is : List Instruction) :
    (encoding.starts start is).length = is.length + 1 := by
  induction is generalizing start with
  | nil => rfl
  | cons I is ih => simp [starts, ih]

/-- Starts come after the first. -/
theorem le_of_mem_starts {start : Nat} {is : List Instruction} :
    ∀ s ∈ encoding.starts start is, start ≤ s := by
  induction is generalizing start with
  | nil => simp [starts]
  | cons I is ih =>
    intro s hs
    rcases List.mem_cons.1 hs with rfl | hs
    · exact Nat.le_refl _
    · exact Nat.le_trans (Nat.le_add_right _ _) (ih s hs)

/-- Each instruction starts after all those before it. -/
theorem starts_increase (hs : encoding.Supported) (start : Nat) (is : List Instruction) :
    (encoding.starts start is).Pairwise (· < ·) := by
  induction is generalizing start with
  | nil => exact List.pairwise_singleton _ _
  | cons I is ih =>
    refine List.pairwise_cons.2 ⟨fun s hmem => ?_, ih _⟩
    have := le_of_mem_starts s hmem
    have := hs.width_pos I
    omega

/-! ### The bytes of instructions -/

/-- A number is as long as it should be. -/
theorem length_integer (width : Nat) (value : Int) :
    (encoding.integer width value).length = width := by
  unfold integer Endianness.arrange
  cases encoding.endianness <;> simp [length_lowBytes]

variable {I : Instruction} {bytes : List UInt8} {table : Array Nat}

/-- So are operands. -/
theorem length_operandBytes {operands : List Int}
    (h : encoding.operandBytes I operands = .ok bytes) :
    bytes.length = encoding.operandWidth * operands.length := by
  induction operands generalizing bytes with
  | nil =>
    cases h
    rfl
  | cons operand operands ih =>
    unfold operandBytes at h
    split at h
    · obtain ⟨later, hlater, h⟩ := exists_ok_of_bind h
      cases h
      rw [List.length_append, length_integer, ih hlater, List.length_cons, Nat.mul_add, Nat.mul_one,
        Nat.add_comm]
    · cases h

/-- A branch has one operand, as it says. -/
theorem length_operands {index start : Nat} {operands : List Int}
    (h : Encoding.operands table index start I = .ok operands) :
    operands.length = I.operands.length := by
  unfold Encoding.operands at h
  split at h
  · cases h
    rfl
  · cases h
  next distance hjump =>
    dsimp only at h
    split at h
    · cases h
      cases I <;> cases hjump <;> rfl
    · cases h

/-- An instruction is as long as its width says. -/
theorem length_instruction {index start : Nat}
    (h : encoding.instruction table index start I = .ok bytes) :
    bytes.length = encoding.width I := by
  obtain ⟨operands, hoperands, h⟩ := exists_ok_of_bind h
  obtain ⟨written, hwritten, h⟩ := exists_ok_of_bind h
  cases h
  rw [List.length_append, length_integer, length_operandBytes hwritten, length_operands hoperands,
    width]

/-- Instructions are written one after another. -/
theorem instructions_cons {index start : Nat} {is : List Instruction}
    (h : encoding.instructions table index start (I :: is) = .ok bytes) :
    ∃ first later, encoding.instruction table index start I = .ok first ∧
      encoding.instructions table (index + 1) (start + encoding.width I) is = .ok later ∧
      bytes = first ++ later := by
  obtain ⟨first, hfirst, h⟩ := exists_ok_of_bind h
  obtain ⟨later, hlater, h⟩ := exists_ok_of_bind h
  cases h
  exact ⟨first, later, mapError_eq_ok hfirst, hlater, rfl⟩

end Encoding

/-! ### Assemblies -/

namespace Code

/-- The bytes at which the instructions start, and the end. -/
def starts (code : Code) (encoding : Encoding) : List Nat :=
  encoding.starts 0 code.instructions.toList

/-- What an assembly of the code is made of. -/
structure Assembles (code : Code) (encoding : Encoding) (assembly : Assembly) : Prop where
  /-- The widths are among those that code can be written in. -/
  supported : encoding.Supported
  /-- The bytes are those of the instructions. -/
  bytes : encoding.instructions (code.starts encoding).toArray 0 0 code.instructions.toList =
    .ok assembly.bytes
  /-- The strings are those of the code. -/
  strings : assembly.strings = code.strings
  /-- So are the constants. -/
  constants : assembly.constants = code.constants
  /-- So are the local variables. -/
  locals : assembly.locals = code.locals
  /-- The marks point to the bytes at which their instructions start. -/
  marks : assembly.marks = code.marks.map fun mark =>
    (((code.starts encoding).toArray[min mark.1 code.size]?).getD 0, mark.2)

/-- What assembling gives. -/
theorem assembles_of_assemble {code : Code} {encoding : Encoding} {assembly : Assembly}
    (h : code.assemble encoding = .ok assembly) : code.Assembles encoding assembly := by
  unfold assemble at h
  by_cases hopcode : encoding.opcodeWidth ∈ [1, 2]
  · rw [if_pos hopcode] at h
    by_cases hoperand : encoding.operandWidth ∈ [1, 2, 4, 8]
    · rw [if_pos hoperand] at h
      obtain ⟨bytes, hbytes, h⟩ := exists_ok_of_bind h
      cases h
      exact ⟨⟨hopcode, hoperand⟩, mapError_eq_ok hbytes, rfl, rfl, rfl, rfl⟩
    · rw [if_neg hoperand] at h
      cases h
  · rw [if_neg hopcode] at h
    cases h

/-- One start more than instructions. -/
theorem length_starts (code : Code) (encoding : Encoding) :
    (code.starts encoding).length = code.size + 1 := by
  simp [starts, Encoding.length_starts, size]

end Code

end Gml
