import Gml.Proofs.Assembly.Writing

/-!
# Reading code back from bytes

`Encoding.decode?` reads bytes as instructions: an operation code, as many operands as the code has,
and so on to the end of the bytes. An operand of a branch is then turned from a distance in bytes
into a distance in instructions, for which the starts of all instructions are needed.

Here it is shown that this undoes assembly (`decode?_bytes_of_assemble`), so that the bytes of code
determine its instructions. Each part of the format is read back by itself: the bytes of an integer
(`Encoding.signed_integer`), the operands of an instruction (`Encoding.readOperands_append`), the
instruction from its code and operands (`Instruction.ofParts?_operands`), and a branch from where it
leads (`Word.instruction?_eq`).
-/

namespace Gml

/-! ### Integers -/

/-- The number that bytes stand for, of which the lowest is given first. -/
def natOfBytes : List UInt8 → Nat
  | [] => 0
  | byte :: bytes => byte.toNat + 256 * natOfBytes bytes

/-- The lowest byte of a remainder, and the bytes above it. -/
theorem emod_256_mul (value : Int) {bound : Nat} (hbound : 0 < bound) :
    value % (256 * bound) = value % 256 + 256 * (value / 256 % bound) := by
  have hdiv := Int.emod_add_mul_ediv (value / 256) bound
  have hlt := Int.emod_lt_of_pos (value / 256) (Int.natCast_pos.2 hbound)
  have hnonneg := Int.emod_nonneg (value / 256) (Int.natCast_ne_zero.2 (Nat.ne_of_gt hbound))
  refine ((Int.ediv_emod_unique (q := value / 256 / bound) (by omega)).2 ⟨?_, ?_, ?_⟩).2
  · rw [Int.mul_assoc]
    omega
  · omega
  · omega

/-- The low bytes of a number. -/
theorem natOfBytes_lowBytes (width : Nat) (value : Int) :
    (natOfBytes (lowBytes width value) : Int) = value % (Nat.pow 256 width : Nat) := by
  induction width generalizing value with
  | zero =>
    show (0 : Int) = value % 1
    omega
  | succ width ih =>
    have hbyte : ((UInt8.ofNat (value % 256).toNat).toNat : Int) = value % 256 := by
      have hlt : (value % 256).toNat < 256 := by omega
      rw [UInt8.toNat_ofNat_of_lt' hlt]
      omega
    have hsucc : ((Nat.pow 256 (width + 1) : Nat) : Int) = 256 * (Nat.pow 256 width : Nat) := by
      rw [show Nat.pow 256 (width + 1) = Nat.pow 256 width * 256 from rfl, Int.natCast_mul]
      omega
    have hpos : 0 < Nat.pow 256 width := Nat.pow_pos (by decide)
    rw [lowBytes, natOfBytes, Int.natCast_add, Int.natCast_mul, ih, hbyte, hsucc,
      emod_256_mul value hpos]
    rfl

/-- Bytes arranged twice are as before. -/
theorem Endianness.arrange_arrange (endianness : Endianness) (bytes : List UInt8) :
    endianness.arrange (endianness.arrange bytes) = bytes := by
  cases endianness with
  | little => rfl
  | big => exact List.reverse_reverse bytes

namespace Encoding

variable {encoding : Encoding}

/-- The number that bytes stand for. -/
def unsigned (encoding : Encoding) (bytes : List UInt8) : Nat :=
  natOfBytes (encoding.endianness.arrange bytes)

/-- The number that bytes stand for in two's complement. -/
def signed (encoding : Encoding) (bytes : List UInt8) : Int :=
  Int.bmod (encoding.unsigned bytes) (Nat.pow 256 bytes.length)

/-- A number can be read back. -/
theorem unsigned_integer (width : Nat) (value : Int) :
    (encoding.unsigned (encoding.integer width value) : Int) =
      value % (Nat.pow 256 width : Nat) := by
  rw [unsigned, integer, Endianness.arrange_arrange, natOfBytes_lowBytes]

/-- A number below 256 is read back from its bytes. -/
theorem unsigned_integer_of_lt {width value : Nat} (hwidth : 0 < width) (hvalue : value < 256) :
    encoding.unsigned (encoding.integer width value) = value := by
  have hle : Nat.pow 256 1 ≤ Nat.pow 256 width := Nat.pow_le_pow_right (by decide) hwidth
  have hlt : value < Nat.pow 256 width := Nat.lt_of_lt_of_le hvalue hle
  have := encoding.unsigned_integer width value
  rw [Int.emod_eq_of_lt (Int.natCast_nonneg _) (Int.ofNat_lt.2 hlt)] at this
  exact Int.ofNat_inj.1 this

/-- An operand that fits is read back from its bytes. -/
theorem signed_integer (hwidth : 0 < encoding.operandWidth) {operand : Int}
    (hfits : encoding.fits operand) :
    encoding.signed (encoding.integer encoding.operandWidth operand) = operand := by
  have hpow : Nat.pow 256 encoding.operandWidth =
      2 * Nat.pow 2 (8 * encoding.operandWidth - 1) := by
    have hexp : 8 * encoding.operandWidth = 8 * encoding.operandWidth - 1 + 1 := by omega
    calc Nat.pow 256 encoding.operandWidth
        = Nat.pow 2 (8 * encoding.operandWidth) := (Nat.pow_mul 2 8 _).symm
      _ = Nat.pow 2 (8 * encoding.operandWidth - 1 + 1) := by rw [← hexp]
      _ = 2 * Nat.pow 2 (8 * encoding.operandWidth - 1) := Nat.mul_comm _ _
  simp only [fits, Bool.and_eq_true, decide_eq_true_eq] at hfits
  rw [signed, unsigned_integer, length_integer, Int.emod_bmod]
  refine Int.bmod_eq_of_le ?_ ?_ <;> omega

end Encoding

/-! ### Instructions -/

namespace Instruction

/-- The instructions without operands. -/
def plain : List Instruction :=
  [pushArgumentIndexed, popArgumentIndexed, popz, add, sub, mul, div, intDiv, mod, bitAnd, bitOr,
    bitXor, shl, shr, neg, not, bitNot, popEnvExit, ret, exit]

/-- The instructions with one operand, made from the operand as each of them has it. -/
def withOne (signed : Int32) (word : UInt32) (byte : UInt8) (comparison : Option Comparison) :
    List Instruction :=
  let accessors : List Accessor := [.array, .map, .arrayRef, .grid, .list]
  [pushInt signed, pushReal word, pushString word, pushLocal word, popLocal word,
    pushInstance word, popInstance word, pushGlobal word, popGlobal word, pushBuiltin word,
    popBuiltin word, pushArgument byte, popArgument byte, pushFunction word, pushField word,
    popField word, newArray word, newStruct word, dup byte, branch (.relative signed),
    branchTrue (.relative signed), branchFalse (.relative signed), pushEnv (.relative signed),
    popEnv (.relative signed), callValue byte]
  ++ accessors.map (loadIndex · byte) ++ accessors.map (storeIndex · byte)
  ++ comparison.toList.map cmp

/-- The instructions with two operands, made from the operands as each of them has them. -/
def withTwo (signed : Int32) (word : UInt32) (byte : UInt8) : List Instruction :=
  [call word byte, callScript signed byte]

/-- The instructions with given operands. -/
def withOperands : List Int → List Instruction
  | [] => plain
  | [operand] =>
    withOne (Int32.ofInt operand) (UInt32.ofNat operand.toNat) (UInt8.ofNat operand.toNat)
      (Comparison.ofCode? operand.toNat)
  | [first, second] =>
    withTwo (Int32.ofInt first) (UInt32.ofNat first.toNat) (UInt8.ofNat second.toNat)
  | _ => []

/-- The instruction with an operation code and operands. The operand of a branch is its distance in
instructions. -/
def ofParts? (opcode : Nat) (operands : List Int) : Option Instruction :=
  (withOperands operands).find? (·.opcode == opcode)

/-- A signed operand. -/
theorem withOperands_signed (value : Int32) :
    ∃ word byte comparison,
      withOperands [value.toInt] = withOne value word byte comparison :=
  ⟨_, _, _, congrArg (withOne · _ _ _) (Int32.ofInt_toInt value)⟩

/-- A word as operand. -/
theorem withOperands_word (n : UInt32) :
    ∃ signed byte comparison,
      withOperands [(n.toNat : Int)] = withOne signed n byte comparison :=
  ⟨_, _, _, congrArg (withOne _ · _ _) UInt32.ofNat_toNat⟩

/-- A byte as operand. -/
theorem withOperands_byte (n : UInt8) :
    ∃ signed word comparison,
      withOperands [(n.toNat : Int)] = withOne signed word n comparison :=
  ⟨_, _, _, congrArg (withOne _ _ · _) UInt8.ofNat_toNat⟩

/-- An instruction is made from its own operation code and operands, unless it is a branch without a
target. -/
theorem ofParts?_operands {I : Instruction} (h : I.jump? ≠ some .pending) :
    ofParts? I.opcode I.operands = some I := by
  unfold ofParts?
  cases I with
  | pushReal n | pushString n | pushLocal n | popLocal n | pushInstance n | popInstance n
  | pushGlobal n | popGlobal n | pushBuiltin n | popBuiltin n | pushFunction n | pushField n
  | popField n | newArray n | newStruct n =>
    obtain ⟨signed, byte, comparison, hn⟩ := withOperands_word n
    rw [operands, hn]
    rfl
  | pushArgument n | popArgument n | dup n | callValue n =>
    obtain ⟨signed, word, comparison, hn⟩ := withOperands_byte n
    rw [operands, hn]
    rfl
  | loadIndex accessor dims | storeIndex accessor dims =>
    obtain ⟨signed, word, comparison, hdims⟩ := withOperands_byte dims
    rw [operands, hdims]
    cases accessor <;> rfl
  | pushInt value =>
    obtain ⟨word, byte, comparison, hvalue⟩ := withOperands_signed value
    rw [operands, hvalue]
    rfl
  | branch target | branchTrue target | branchFalse target | pushEnv target | popEnv target =>
    cases target with
    | pending => exact absurd rfl h
    | relative distance =>
      obtain ⟨word, byte, comparison, hdistance⟩ := withOperands_signed distance
      rw [operands, hdistance]
      rfl
  | cmp comparison => cases comparison <;> rfl
  | call function argc =>
    rw [operands, withOperands, Int.toNat_natCast, Int.toNat_natCast, UInt32.ofNat_toNat,
      UInt8.ofNat_toNat]
    rfl
  | callScript reference argc =>
    rw [operands, withOperands, Int32.ofInt_toInt, Int.toNat_natCast, UInt8.ofNat_toNat]
    rfl
  | _ => rfl

/-- The operation code tells the number of operands. -/
theorem operandCount?_opcode (I : Instruction) :
    operandCount? I.opcode = some I.operands.length := by
  cases I with
  | loadIndex accessor dims | storeIndex accessor dims => cases accessor <;> rfl
  | branch target | branchTrue target | branchFalse target | pushEnv target | popEnv target =>
    cases target <;> rfl
  | _ => rfl

/-- Whether an operation code is that of a branch. -/
def isBranchCode (opcode : Nat) : Bool :=
  0x50 ≤ opcode && opcode ≤ 0x54

/-- Branches have opcodes of their own. -/
theorem isBranchCode_opcode (I : Instruction) : isBranchCode I.opcode = I.jump?.isSome := by
  cases I with
  | loadIndex accessor dims | storeIndex accessor dims => cases accessor <;> rfl
  | _ => rfl

/-- An opcode is a byte. -/
theorem opcode_lt (I : Instruction) : I.opcode < 256 := by
  cases I with
  | loadIndex accessor dims | storeIndex accessor dims =>
    cases accessor <;> exact of_decide_eq_true rfl
  | _ => exact of_decide_eq_true rfl

end Instruction

/-! ### Words -/

/-- An instruction as it stands in bytes. -/
structure Word where
  /-- The byte at which it starts. -/
  start : Nat
  /-- The operation code. -/
  opcode : Nat
  /-- The operands. A branch has its distance in bytes. -/
  operands : List Int
  deriving DecidableEq, Repr

namespace Encoding

variable {encoding : Encoding}

/-- Reads a number of operands. The result has the bytes after them. -/
def readOperands (encoding : Encoding) : Nat → List UInt8 → Option (List Int × List UInt8)
  | 0, bytes => some ([], bytes)
  | count + 1, bytes =>
    if encoding.operandWidth ≤ bytes.length then
      (encoding.readOperands count (bytes.drop encoding.operandWidth)).map fun (operands, rest) =>
        (encoding.signed (bytes.take encoding.operandWidth) :: operands, rest)
    else none

/-- Reads an instruction that starts at a byte. The result has the bytes after it. -/
def readWord (encoding : Encoding) (start : Nat) (bytes : List UInt8) :
    Option (Word × List UInt8) :=
  if encoding.opcodeWidth ≤ bytes.length then do
    let opcode := encoding.unsigned (bytes.take encoding.opcodeWidth)
    let count ← Instruction.operandCount? opcode
    let (operands, rest) ← encoding.readOperands count (bytes.drop encoding.opcodeWidth)
    return (⟨start, opcode, operands⟩, rest)
  else none

/-- Reads instructions to the end of the bytes, of which the first is at the given place. -/
def words? (encoding : Encoding) (start : Nat) (bytes : List UInt8) : Option (List Word) :=
  if bytes = [] then
    some []
  else do
    let (word, rest) ← encoding.readWord start bytes
    if rest.length < bytes.length then
      return word :: (← encoding.words? (start + (bytes.length - rest.length)) rest)
    else none
termination_by bytes.length

/-- Operands are read back from their bytes, whatever follows them. -/
theorem readOperands_append (hs : encoding.Supported) {I : Instruction} {operands : List Int}
    {bytes : List UInt8} (h : encoding.operandBytes I operands = .ok bytes) (rest : List UInt8) :
    encoding.readOperands operands.length (bytes ++ rest) = some (operands, rest) := by
  induction operands generalizing bytes with
  | nil =>
    cases h
    rfl
  | cons operand operands ih =>
    unfold operandBytes at h
    by_cases hfits : encoding.fits operand
    · rw [if_pos hfits] at h
      obtain ⟨later, hlater, h⟩ := exists_ok_of_bind h
      cases h
      have hlength := encoding.length_integer encoding.operandWidth operand
      rw [List.length_cons, readOperands, List.append_assoc, if_pos (by simp [hlength]),
        List.drop_left' hlength, List.take_left' hlength, ih hlater,
        signed_integer hs.operandWidth_pos hfits]
      rfl
    · rw [if_neg hfits] at h
      cases h

/-- An instruction is read back from its bytes, whatever follows them. -/
theorem readWord_append (hs : encoding.Supported) {table : Array Nat} {index start : Nat}
    {I : Instruction} {bytes : List UInt8}
    (h : encoding.instruction table index start I = .ok bytes) (rest : List UInt8) :
    ∃ operands, Encoding.operands table index start I = .ok operands ∧
      encoding.readWord start (bytes ++ rest) = some (⟨start, I.opcode, operands⟩, rest) := by
  obtain ⟨operands, hoperands, h⟩ := exists_ok_of_bind h
  obtain ⟨written, hwritten, h⟩ := exists_ok_of_bind h
  cases h
  refine ⟨operands, hoperands, ?_⟩
  have hlength := encoding.length_integer encoding.opcodeWidth I.opcode
  rw [readWord, List.append_assoc, if_pos (by simp [hlength]), List.drop_left' hlength,
    List.take_left' hlength, unsigned_integer_of_lt hs.opcodeWidth_pos I.opcode_lt]
  show (Instruction.operandCount? I.opcode >>= _) = _
  rw [I.operandCount?_opcode, ← length_operands hoperands]
  show (encoding.readOperands operands.length (written ++ rest) >>= _) = _
  rw [readOperands_append hs hwritten]
  rfl

end Encoding

namespace Word

/-- The distance in instructions to the one that starts so many bytes further on, given the starts of
all instructions. -/
def distance? (starts : List Nat) (index start : Nat) (operand : Int) : Option Int :=
  if 0 ≤ start + operand then
    (starts.idxOf? (start + operand).toNat).map fun target : Nat => (target : Int) - index
  else none

/-- The instruction that a word stands for, given its index and the starts of all instructions. -/
def instruction? (starts : List Nat) (index : Nat) (word : Word) : Option Instruction := do
  let operands ←
    if Instruction.isBranchCode word.opcode then
      word.operands.mapM (distance? starts index word.start)
    else some word.operands
  Instruction.ofParts? word.opcode operands

/-- The instructions that words stand for, given the index of the first. -/
def instructions? (starts : List Nat) : Nat → List Word → Option (List Instruction)
  | _, [] => some []
  | index, word :: words => do
    let I ← word.instruction? starts index
    return I :: (← instructions? starts (index + 1) words)

/-- A start tells the index. -/
theorem idxOf?_eq_some {starts : List Nat} (hstarts : starts.Pairwise (· < ·)) {index start : Nat}
    (h : starts[index]? = some start) : starts.idxOf? start = some index := by
  obtain ⟨hlt, rfl⟩ := List.getElem?_eq_some_iff.1 h
  refine List.idxOf?_eq_some_iff.2 ⟨hlt, rfl, fun earlier hearlier => ?_⟩
  exact Nat.ne_of_lt (List.pairwise_iff_getElem.1 hstarts earlier index _ hlt hearlier)

/-- A word stands for the instruction that it was written for. -/
theorem instruction?_eq {starts : List Nat} (hstarts : starts.Pairwise (· < ·))
    {index start : Nat} {I : Instruction} {operands : List Int}
    (h : Encoding.operands starts.toArray index start I = .ok operands) :
    instruction? starts index ⟨start, I.opcode, operands⟩ = some I := by
  unfold Encoding.operands at h
  rw [instruction?, I.isBranchCode_opcode]
  cases hjump : I.jump? with
  | none =>
    rw [hjump] at h
    cases h
    exact Instruction.ofParts?_operands (by rw [hjump]; exact nofun)
  | some target =>
    rw [hjump] at h
    cases target with
    | pending => cases h
    | relative distance =>
      dsimp only at h
      split at h
      next destination hdestination =>
        cases h
        by_cases htarget : 0 ≤ (index : Int) + distance.toInt
        · rw [if_pos htarget, List.getElem?_toArray] at hdestination
          have hdistance : distance? starts index start ((destination : Int) - start) =
              some distance.toInt := by
            have hbyte : (start : Int) + ((destination : Int) - start) = destination := by omega
            rw [distance?, hbyte, if_pos (Int.natCast_nonneg _), Int.toNat_natCast,
              idxOf?_eq_some hstarts hdestination, Option.map_some, Int.toNat_of_nonneg htarget]
            congr 1
            omega
          have hoperands : I.operands = [distance.toInt] := by
            cases I <;> cases hjump <;> rfl
          show ([(destination : Int) - start].mapM (distance? starts index start) >>= _) = _
          rw [List.mapM_cons, hdistance]
          show Instruction.ofParts? I.opcode [distance.toInt] = some I
          rw [← hoperands]
          exact Instruction.ofParts?_operands (by rw [hjump]; exact nofun)
        · rw [if_neg htarget] at hdestination
          cases hdestination
      · cases h

/-- Words that are written for instructions, given the index of the first and the bytes at which
instructions start. -/
inductive Written (table : Array Nat) : Nat → List Word → List Instruction → Prop
  /-- Nothing is written for nothing. -/
  | nil {index : Nat} : Written table index [] []
  /-- One word is written after another. -/
  | cons {index start : Nat} {I : Instruction} {operands : List Int} {words : List Word}
      {is : List Instruction} : Encoding.operands table index start I = .ok operands →
      Written table (index + 1) words is →
      Written table index (⟨start, I.opcode, operands⟩ :: words) (I :: is)

/-- What is written can be read. -/
theorem Written.instructions?_eq {starts : List Nat} (hstarts : starts.Pairwise (· < ·))
    {index : Nat} {words : List Word} {is : List Instruction}
    (h : Written starts.toArray index words is) : instructions? starts index words = some is := by
  induction h with
  | nil => rfl
  | cons hoperands _ ih =>
    show (instruction? starts _ _ >>= _) = _
    rw [instruction?_eq hstarts hoperands]
    show (instructions? starts _ _ >>= _) = _
    rw [ih]
    rfl

end Word

namespace Encoding

variable {encoding : Encoding}

/-- Reads code from bytes. -/
def decode? (encoding : Encoding) (bytes : List UInt8) : Option (List Instruction) := do
  let words ← encoding.words? 0 bytes
  Word.instructions? (words.map Word.start ++ [bytes.length]) 0 words

/-- An instruction is read in front of others. -/
theorem words?_append (hs : encoding.Supported) {table : Array Nat} {index start : Nat}
    {I : Instruction} {bytes : List UInt8}
    (h : encoding.instruction table index start I = .ok bytes) (rest : List UInt8) :
    ∃ operands, Encoding.operands table index start I = .ok operands ∧
      encoding.words? start (bytes ++ rest) =
        (encoding.words? (start + encoding.width I) rest).map
          (⟨start, I.opcode, operands⟩ :: ·) := by
  obtain ⟨operands, hoperands, hword⟩ := readWord_append hs h rest
  refine ⟨operands, hoperands, ?_⟩
  have hlength := length_instruction h
  have hpos := hs.width_pos I
  have hne : bytes ++ rest ≠ [] := by
    intro hnil
    rw [(List.append_eq_nil_iff.1 hnil).1, List.length_nil] at hlength
    omega
  have hlt : rest.length < (bytes ++ rest).length := by
    rw [List.length_append]
    omega
  have hstart : (bytes ++ rest).length - rest.length = encoding.width I := by
    rw [List.length_append]
    omega
  rw [words?, if_neg hne, hword]
  show (if rest.length < (bytes ++ rest).length then _ else none) = _
  rw [if_pos hlt, hstart]
  cases encoding.words? (start + encoding.width I) rest <;> rfl

/-- The words of instructions that were written, and the bytes at which they start. -/
theorem words?_of_instructions (hs : encoding.Supported) {table : Array Nat} {index start : Nat}
    {is : List Instruction} {bytes : List UInt8}
    (h : encoding.instructions table index start is = .ok bytes) :
    ∃ words, encoding.words? start bytes = some words ∧
      words.map Word.start ++ [start + bytes.length] = encoding.starts start is ∧
      Word.Written table index words is := by
  induction is generalizing index start bytes with
  | nil =>
    cases h
    exact ⟨[], by rw [words?, if_pos rfl], rfl, .nil⟩
  | cons I is ih =>
    obtain ⟨first, later, hfirst, hlater, rfl⟩ := instructions_cons h
    obtain ⟨operands, hoperands, hwords⟩ := words?_append hs hfirst later
    obtain ⟨words, hread, hstarts, hwritten⟩ := ih hlater
    refine ⟨⟨start, I.opcode, operands⟩ :: words, ?_, ?_, .cons hoperands hwritten⟩
    · rw [hwords, hread, Option.map_some]
    · rw [starts, ← hstarts, List.map_cons, List.cons_append, List.length_append,
        length_instruction hfirst, Nat.add_assoc]

/-- The words of an assembly start where the instructions start. -/
theorem words?_of_assembles {code : Code} {assembly : Assembly}
    (h : code.Assembles encoding assembly) :
    ∃ words, encoding.words? 0 assembly.bytes = some words ∧
      words.map Word.start ++ [assembly.bytes.length] = code.starts encoding ∧
      Word.Written (code.starts encoding).toArray 0 words code.instructions.toList := by
  have hwords := words?_of_instructions h.supported h.bytes
  rwa [Nat.zero_add] at hwords

/-- The bytes of an assembly are read as the instructions of the code. -/
theorem decode?_eq {code : Code} {assembly : Assembly}
    (h : code.Assembles encoding assembly) :
    encoding.decode? assembly.bytes = some code.instructions.toList := by
  have hincrease := starts_increase h.supported 0 code.instructions.toList
  obtain ⟨words, hwords, hstarts, hwritten⟩ := words?_of_assembles h
  rw [decode?, hwords]
  show Word.instructions? (words.map Word.start ++ [assembly.bytes.length]) 0 words = _
  rw [hstarts]
  exact hwritten.instructions?_eq hincrease

end Encoding

/-- Assembly loses nothing: bytes are read back as the instructions that they were written for, to
the last byte, so that code with the same bytes in the same encoding has the same instructions. -/
theorem decode?_bytes_of_assemble {code : Code} {encoding : Encoding} {assembly : Assembly}
    (h : code.assemble encoding = .ok assembly) :
    encoding.decode? assembly.bytes = some code.instructions.toList ∧
    ∀ (other : Code) (otherAssembly : Assembly), other.assemble encoding = .ok otherAssembly →
      otherAssembly.bytes = assembly.bytes → other.instructions = code.instructions := by
  have hdecode := Encoding.decode?_eq (Code.assembles_of_assemble h)
  refine ⟨hdecode, fun other otherAssembly hother hbytes => ?_⟩
  have hotherDecode := Encoding.decode?_eq (Code.assembles_of_assemble hother)
  rw [hbytes, hdecode] at hotherDecode
  exact Array.toList_inj.1 (Option.some.inj hotherDecode.symm)

/-- Branches forth, back and to the end of the code, in the encoding with the widest operation codes
and the narrowest operands. -/
theorem decode?_bytes_of_assemble_branches :
    let instructions := [.pushInt (-7), .branchFalse (.relative 4), .loadIndex .grid 2,
      .cmp .lessEqual, .popEnv (.relative (-3)), .callScript (-1) 3, .branch (.relative 1)]
    let encoding : Encoding := ⟨2, 1, .big⟩
    ∃ assembly, Code.assemble { instructions := instructions.toArray } encoding = .ok assembly ∧
      encoding.decode? assembly.bytes = some instructions := by
  intro instructions encoding
  have hok : (Code.assemble { instructions := instructions.toArray } encoding).isOk = true := by
    decide +kernel
  cases h : Code.assemble { instructions := instructions.toArray } encoding with
  | error diagnostic =>
    rw [h] at hok
    cases hok
  | ok assembly => exact ⟨assembly, rfl, (decode?_bytes_of_assemble h).1⟩

end Gml
