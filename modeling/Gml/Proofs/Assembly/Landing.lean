import Gml.Compile
import Gml.Proofs.Assembly.Decoding
import Gml.Proofs.Code.Landing
import Gml.Proofs.Tree.Resolved

/-!
# Where branches land

Generated code after assembly. A branch whose target is an instruction of the code, or the end of the
code, is written as the distance to the byte at which that instruction starts, or to the end of the
bytes (`Encoding.operands_of_leads`). So every branch of a script and every mark lands on the start
of an instruction or on the end (`Script.targets_of_generate`), and only then on the end if the
statements of the script end in an `exit` of their own: no other is written after it, although a
branch around it has nowhere else to go (`Script.branch_around_last_exit`).

A branch is no reason for assembly to fail, either (`Code.Within.stage_of_assemble`).
-/

namespace Gml

/-! ### Words -/

namespace Word.Written

variable {table : Array Nat} {index : Nat} {words : List Word} {is : List Instruction}

/-- As many words as instructions. -/
theorem length_eq (h : Written table index words is) : words.length = is.length := by
  induction h with
  | nil => rfl
  | cons _ _ ih => rw [List.length_cons, List.length_cons, ih]

/-- The word that is written for an instruction. -/
theorem exists_word (h : Written table index words is) {i : Nat} {I : Instruction}
    (hI : is[i]? = some I) :
    ∃ word, words[i]? = some word ∧ word.opcode = I.opcode ∧
      Encoding.operands table (index + i) word.start I = .ok word.operands := by
  induction h generalizing i with
  | nil => cases hI
  | @cons index start J operands words is hoperands _ ih =>
    cases i with
    | zero =>
      cases hI
      exact ⟨⟨start, I.opcode, operands⟩, rfl, rfl, hoperands⟩
    | succ i =>
      obtain ⟨word, hword, hopcode, hwritten⟩ := ih hI
      refine ⟨word, hword, hopcode, ?_⟩
      rwa [Nat.add_assoc, Nat.add_comm 1 i] at hwritten

end Word.Written

namespace Encoding

variable {encoding : Encoding} {table : Array Nat}

/-- A branch is written as the distance in bytes to its target. -/
theorem operands_of_leads {index start target byte : Nat} {I : Instruction} {jump : Jump}
    (hjump : I.jump? = some jump) (hleads : jump.Leads index target)
    (hbyte : table[target]? = some byte) :
    operands table index start I = .ok [(byte : Int) - start] := by
  obtain ⟨distance, rfl, htarget⟩ := hleads
  unfold operands
  rw [hjump]
  dsimp only
  rw [htarget, if_pos (Int.natCast_nonneg target), Int.toNat_natCast, hbyte]

/-! ### Failures -/

/-- An operand that does not fit is a matter of assembly. -/
theorem stage_of_operandBytes {I : Instruction} {operands : List Int} {fault : Fault}
    (h : encoding.operandBytes I operands = .error fault) : fault.stage = .assembly := by
  induction operands with
  | nil => cases h
  | cons operand operands ih =>
    unfold operandBytes at h
    by_cases hfits : encoding.fits operand
    · rw [if_pos hfits] at h
      rcases error_of_bind h with h | ⟨later, -, h⟩
      · exact ih h
      · cases h
    · rw [if_neg hfits] at h
      cases h
      rfl

/-- Writing instructions fails only if one of them cannot be written. -/
theorem exists_of_instructions_error {index start : Nat} {is : List Instruction}
    {failure : Fault × Nat} (h : encoding.instructions table index start is = .error failure) :
    ∃ i I s, is[i]? = some I ∧ encoding.instruction table (index + i) s I = .error failure.1 := by
  induction is generalizing index start with
  | nil => cases h
  | cons I is ih =>
    rcases error_of_bind h with h | ⟨first, -, h⟩
    · obtain ⟨fault, hfails, rfl⟩ := mapError_eq_error h
      exact ⟨0, I, start, rfl, hfails⟩
    rcases error_of_bind h with h | ⟨later, -, h⟩
    · obtain ⟨i, J, s, hJ, hfails⟩ := ih h
      refine ⟨i + 1, J, s, hJ, ?_⟩
      rwa [Nat.add_assoc, Nat.add_comm 1 i] at hfails
    · cases h

end Encoding

namespace Code

variable {code : Code} {encoding : Encoding} {bound : Nat}

/-- Targets have bytes. -/
theorem exists_start {target : Nat} (h : target ≤ code.size) (encoding : Encoding) :
    ∃ byte, (code.starts encoding)[target]? = some byte := by
  refine ⟨_, List.getElem?_eq_getElem ?_⟩
  rw [length_starts]
  omega

/-- What cannot be written of an instruction is an operand. -/
theorem Within.stage_of_instruction (h : code.Within bound) (hbound : bound ≤ code.size)
    {i start : Nat} {I : Instruction} (hI : code.Has i I) {fault : Fault}
    (herror : encoding.instruction (code.starts encoding).toArray i start I = .error fault) :
    fault.stage = .assembly := by
  rcases error_of_bind herror with herror | ⟨operands, -, herror⟩
  · -- The operands of a branch are known, as it has a target.
    cases hjump : I.jump? with
    | none =>
      rw [Encoding.operands, hjump] at herror
      cases herror
    | some jump =>
      obtain ⟨target, hle, hleads⟩ := h.branches i I jump hI hjump
      obtain ⟨byte, hbyte⟩ := exists_start (Nat.le_trans hle hbound) encoding
      rw [Encoding.operands_of_leads hjump hleads (by rwa [List.getElem?_toArray])] at herror
      cases herror
  · rcases error_of_bind herror with herror | ⟨bytes, -, herror⟩
    · exact Encoding.stage_of_operandBytes herror
    · cases herror

/-- If all targets are in the code or at its end then assembly fails only because an operand is too
large, or because of the encoding. -/
theorem Within.stage_of_assemble (h : code.Within bound) (hbound : bound ≤ code.size)
    {diagnostic : Diagnostic} (herror : code.assemble encoding = .error diagnostic) :
    diagnostic.stage = .assembly := by
  unfold assemble at herror
  by_cases hopcode : encoding.opcodeWidth ∈ [1, 2]
  · rw [if_pos hopcode] at herror
    by_cases hoperand : encoding.operandWidth ∈ [1, 2, 4, 8]
    · rw [if_pos hoperand] at herror
      rcases error_of_bind herror with herror | ⟨bytes, -, herror⟩
      · obtain ⟨⟨fault, index⟩, hwritten, rfl⟩ := mapError_eq_error herror
        obtain ⟨i, I, start, hI, hfails⟩ := Encoding.exists_of_instructions_error hwritten
        rw [Nat.zero_add] at hfails
        exact h.stage_of_instruction hbound (by rwa [Array.getElem?_toList] at hI) hfails
      · cases herror
    · rw [if_neg hoperand] at herror
      cases herror
      rfl
  · rw [if_neg hopcode] at herror
    cases herror
    rfl

/-! ### Bytes -/

/-- The byte that a target has in an assembly of which the words are known: the one at which its word
starts, or the end if it has none. -/
def Byte (words : List Word) (assembly : Assembly) (target byte : Nat) : Prop :=
  (words.map Word.start ++ [assembly.bytes.length])[target]? = some byte

/-- Everything in an assembly of the code lands where the code says: on one of the first instructions
or right after them. -/
structure Lands (code : Code) (bound : Nat) (words : List Word) (assembly : Assembly) : Prop where
  /-- There is a word for each instruction. -/
  length_eq : words.length = code.size
  /-- It starts before the end. -/
  before : ∀ target byte, Byte words assembly target byte → target < code.size →
    byte < assembly.bytes.length
  /-- The operand of a branch is the distance in bytes to its target. -/
  branches : ∀ i I jump, code.Has i I → I.jump? = some jump →
    ∃ word target byte, words[i]? = some word ∧ target ≤ bound ∧ jump.Leads i target ∧
      Byte words assembly target byte ∧ word.operands = [(byte : Int) - word.start]
  /-- A mark is at the byte of its instruction. -/
  marks : ∀ (k : Nat) (mark : Nat × Position), code.marks[k]? = some mark →
    ∃ byte, mark.1 ≤ bound ∧ Byte words assembly mark.1 byte ∧
      assembly.marks[k]? = some (byte, mark.2)

/-- Jumps within the code land. -/
theorem Within.lands (h : code.Within bound) (hbound : bound ≤ code.size) {assembly : Assembly}
    (hassemble : code.assemble encoding = .ok assembly) :
    ∃ words, encoding.words? 0 assembly.bytes = some words ∧ code.Lands bound words assembly := by
  have hassembles := assembles_of_assemble hassemble
  obtain ⟨words, hwords, hstarts, hwritten⟩ := Encoding.words?_of_assembles hassembles
  have hlength : words.length = code.size := by simpa [size] using hwritten.length_eq
  have hbyte {target : Nat} (hle : target ≤ bound) : ∃ byte, Byte words assembly target byte ∧
      (code.starts encoding).toArray[target]? = some byte := by
    obtain ⟨byte, hbyte⟩ := exists_start (Nat.le_trans hle hbound) encoding
    exact ⟨byte, by rwa [Byte, hstarts], by rwa [List.getElem?_toArray]⟩
  refine ⟨words, hwords, hlength, ?_, ?_, ?_⟩
  · intro target byte hbyte hlt
    have hincrease := Encoding.starts_increase hassembles.supported 0 code.instructions.toList
    have hword : byte ∈ words.map Word.start := by
      rw [Byte, List.getElem?_append_left (by rw [List.length_map]; omega)] at hbyte
      exact List.mem_of_getElem? hbyte
    change (code.starts encoding).Pairwise (· < ·) at hincrease
    rw [← hstarts] at hincrease
    exact (List.pairwise_append.1 hincrease).2.2 byte hword _ (List.mem_singleton.2 rfl)
  · intro i I jump hI hjump
    obtain ⟨target, hle, hleads⟩ := h.branches i I jump hI hjump
    obtain ⟨byte, hbyte, htable⟩ := hbyte hle
    obtain ⟨word, hword, -, hoperands⟩ :=
      hwritten.exists_word (by rwa [Array.getElem?_toList] : code.instructions.toList[i]? = some I)
    rw [Nat.zero_add, Encoding.operands_of_leads hjump hleads htable] at hoperands
    exact ⟨word, target, byte, hword, hle, hleads, hbyte, (Except.ok.inj hoperands).symm⟩
  · intro k mark hmark
    have hle := h.marks mark (Array.mem_of_getElem? hmark)
    obtain ⟨byte, hbyte, htable⟩ := hbyte hle
    refine ⟨byte, hle, hbyte, ?_⟩
    rw [hassembles.marks, Array.getElem?_map, hmark, Option.map_some,
      Nat.min_eq_left (Nat.le_trans hle hbound), htable]
    rfl

end Code

namespace Script

/-- Everything in generated code points to an instruction of the statements or right after them,
before and after assembly. Right after them there is an instruction that ends the script, unless the
statements themselves end in one. -/
theorem targets_of_generate {script : Script} {code : Code} (h : script.generate = .ok code) :
    (code.size = script.codeSize ∨ code.size = script.codeSize + 1) ∧
    code.instructions.back? = some .exit ∧ code.Within script.codeSize ∧
    ∀ (encoding : Encoding) (assembly : Assembly), code.assemble encoding = .ok assembly →
      ∃ words, encoding.words? 0 assembly.bytes = some words ∧
        code.Lands script.codeSize words assembly := by
  obtain ⟨hwithin, hexit, hsize⟩ := within_of_generate h
  refine ⟨hsize, hexit, hwithin, fun encoding assembly hassemble => ?_⟩
  exact hwithin.lands (by omega) hassemble

/-- Branches out of loops and to the end, which gets an instruction to land on. -/
theorem targets_of_generate_loops :
    let text := "while (a) { if (b) break; } repeat (3) { if (c) continue; if (d) exit; }"
    ∃ script code assembly words, Script.ofSource text {} = .ok script ∧
      script.generate = .ok code ∧ code.assemble {} = .ok assembly ∧
      code.size = script.codeSize + 1 ∧ Encoding.words? {} 0 assembly.bytes = some words ∧
      code.Lands script.codeSize words assembly := by
  intro text
  obtain ⟨code, h, hok⟩ := exists_ok_of_any (p := fun code => (code.assemble {}).isOk &&
    (Script.ofSource text {}).toOption.any fun script => code.size = script.codeSize + 1)
    (x := compileToCode text {}) (by decide +kernel)
  obtain ⟨script, hscript, hgenerate⟩ := compileToCode_eq_ok h
  rw [hscript, Bool.and_eq_true] at hok
  cases hassemble : code.assemble {} with
  | error diagnostic =>
    rw [hassemble] at hok
    cases hok.1
  | ok assembly =>
    obtain ⟨words, hwords, hlands⟩ := (targets_of_generate hgenerate).2.2.2 _ _ hassemble
    exact ⟨script, code, assembly, words, hscript, hgenerate, hassemble, of_decide_eq_true hok.2,
      hwords, hlands⟩

/-- The branch around an `exit` at the end leads to the end, where there is no instruction, and a
statement after it that has no code starts there. -/
theorem branch_around_last_exit :
    ∃ script code, Script.ofSource "if (1) exit; globalvar x;" {} = .ok script ∧
      script.generate = .ok code ∧
      (∃ i I jump, code.Has i I ∧ I.jump? = some jump ∧ jump.Leads i code.size) ∧
      ∃ mark ∈ code.marks, mark.1 = code.size := by
  obtain ⟨code, h, hok⟩ := exists_ok_of_any (p := fun code =>
    code.instructions = #[.pushInt 1, .branchFalse (.relative 2), .exit] ∧
      ∃ mark ∈ code.marks, mark.1 = 3)
    (x := compileToCode "if (1) exit; globalvar x;" {}) (by decide +kernel)
  obtain ⟨script, hscript, hgenerate⟩ := compileToCode_eq_ok h
  obtain ⟨hinstructions, hmark⟩ := of_decide_eq_true hok
  have hsize : code.size = 3 := by rw [Code.size, hinstructions]; rfl
  refine ⟨script, code, hscript, hgenerate, ?_, ?_⟩
  · rw [hsize]
    refine ⟨1, .branchFalse (.relative 2), .relative 2, ?_, rfl, 2, rfl, rfl⟩
    rw [Code.Has, hinstructions]
    rfl
  · rw [hsize]
    exact hmark

end Script

end Gml
