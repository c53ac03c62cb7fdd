import Gml.Proofs.Assembly.Landing

/-!
# Code in wider operands

Code that can be written with operands of some width can be written with wider ones, and what is
written says the same (`Code.assemble_of_wider`). For most operands there is nothing to it, as they
stay what they are. A branch is written as a distance in bytes, and the bytes between it and its
target become more. But they do so at most in the proportion of the two widths
(`Encoding.stretches_starts`), and the range of an operand grows faster
(`Encoding.fits_of_stretch`).

`Assembly.Alongside` says what two assemblies of the same code have in common.
-/

namespace Gml

namespace Encoding

/-- Another encoding that differs only in having wider operands. -/
structure Widens (narrow wide : Encoding) : Prop where
  opcode : wide.opcodeWidth = narrow.opcodeWidth
  endianness : wide.endianness = narrow.endianness
  operand : narrow.operandWidth < wide.operandWidth

variable {encoding narrow wide : Encoding}

/-! ### Ranges -/

/-- The range of operands: they are below the bound, and not below its negative. -/
def bound (encoding : Encoding) : Nat :=
  Nat.pow 2 (8 * encoding.operandWidth - 1)

/-- What it is to fit. -/
theorem fits_iff {operand : Int} : encoding.fits operand = true ↔
    operand < encoding.bound ∧ -(encoding.bound : Int) ≤ operand := by
  simp [fits, bound]

/-- One more byte makes the range of an operand 256 times as large. -/
theorem bound_mul_le (hpos : 0 < narrow.operandWidth) (hw : narrow.Widens wide) :
    256 * narrow.bound ≤ wide.bound := by
  have hlt := hw.operand
  have hbyte : Nat.pow 2 (8 * narrow.operandWidth - 1 + 8) = 256 * narrow.bound :=
    (Nat.pow_add 2 _ 8).trans (Nat.mul_comm _ _)
  rw [← hbyte]
  apply Nat.pow_le_pow_right
  · decide
  · omega

/-- What fits is not too wide for more. -/
theorem fits_of_narrower (hpos : 0 < narrow.operandWidth) (hw : narrow.Widens wide) {operand : Int}
    (h : narrow.fits operand = true) : wide.fits operand = true := by
  have hbound := bound_mul_le hpos hw
  rw [fits_iff] at h ⊢
  omega

/-- A distance that is longer in the proportion of the widths at most is still in range, as no width
is more than eight times another. -/
theorem fits_of_stretch (hn : narrow.Supported) (hs : wide.Supported) (hw : narrow.Widens wide)
    {distance wider : Int} (h : narrow.fits distance = true)
    (hle : narrow.operandWidth * wider.natAbs ≤ wide.operandWidth * distance.natAbs) :
    wide.fits wider = true := by
  have hpos := hn.operandWidth_pos
  have hbound := bound_mul_le hpos hw
  have height : wide.operandWidth ≤ 8 := by
    have hwidth := hs.operand
    simp at hwidth
    omega
  rw [fits_iff] at h ⊢
  have hdistance : distance.natAbs ≤ narrow.bound := by omega
  have hwider : wider.natAbs ≤ 8 * narrow.bound := by
    calc wider.natAbs ≤ narrow.operandWidth * wider.natAbs := Nat.le_mul_of_pos_left _ hpos
      _ ≤ wide.operandWidth * distance.natAbs := hle
      _ ≤ 8 * narrow.bound := Nat.mul_le_mul height hdistance
  have hboundPos : 0 < narrow.bound := Nat.pow_pos (by decide)
  omega

/-! ### Distances -/

/-- Two pairs of bytes, in a narrow and in a wide encoding, of which the second is not before the
first, and not further from it than the proportion of the widths allows. -/
structure Stretches (narrow wide : Encoding) (first second : Nat × Nat) : Prop where
  narrow_le : first.1 ≤ second.1
  wide_le : first.2 ≤ second.2
  stretch : narrow.operandWidth * (second.2 - first.2) ≤
    wide.operandWidth * (second.1 - first.1)

/-- Instructions are stretched with their operands. -/
theorem width_stretch (hw : narrow.Widens wide) (I : Instruction) :
    narrow.operandWidth * wide.width I ≤ wide.operandWidth * narrow.width I := by
  have hopcode : narrow.operandWidth * narrow.opcodeWidth ≤
      wide.operandWidth * narrow.opcodeWidth :=
    Nat.mul_le_mul_right _ (Nat.le_of_lt hw.operand)
  have hswap : narrow.operandWidth * (wide.operandWidth * I.operands.length) =
      wide.operandWidth * (narrow.operandWidth * I.operands.length) := Nat.mul_left_comm _ _ _
  simp only [width, hw.opcode, Nat.mul_add]
  omega

/-- The first instruction and all that come after it. -/
theorem stretches_of_mem (hw : narrow.Widens wide) (start start' : Nat) (is : List Instruction) :
    ∀ pair ∈ (narrow.starts start is).zip (wide.starts start' is),
      Stretches narrow wide (start, start') pair := by
  induction is generalizing start start' with
  | nil =>
    intro pair hpair
    simp only [starts, List.zip_cons_cons, List.zip_nil_left, List.mem_singleton] at hpair
    subst hpair
    exact ⟨Nat.le_refl _, Nat.le_refl _, by simp⟩
  | cons I is ih =>
    intro pair hpair
    simp only [starts, List.zip_cons_cons, List.mem_cons] at hpair
    rcases hpair with rfl | hpair
    · exact ⟨Nat.le_refl _, Nat.le_refl _, by simp⟩
    · obtain ⟨hnarrow, hwide, hstretch⟩ := ih _ _ pair hpair
      have hwidth := width_stretch hw I
      simp only at hnarrow hwide hstretch
      refine ⟨by simp only; omega, by simp only; omega, ?_⟩
      have hfirst : pair.1 - start = narrow.width I + (pair.1 - (start + narrow.width I)) := by
        omega
      have hsecond : pair.2 - start' = wide.width I + (pair.2 - (start' + wide.width I)) := by omega
      simp only [hfirst, hsecond, Nat.mul_add]
      exact Nat.add_le_add hwidth hstretch

/-- Between any two instructions there are more bytes in the wide encoding, but not more than in the
proportion of the widths. -/
theorem stretches_starts (hw : narrow.Widens wide) (start start' : Nat) (is : List Instruction) :
    ((narrow.starts start is).zip (wide.starts start' is)).Pairwise (Stretches narrow wide) := by
  induction is generalizing start start' with
  | nil => exact List.pairwise_singleton _ _
  | cons I is ih =>
    simp only [starts, List.zip_cons_cons, List.pairwise_cons]
    refine ⟨?_, ih _ _⟩
    intro pair hpair
    apply stretches_of_mem hw start start' (I :: is)
    simp only [starts, List.zip_cons_cons, List.mem_cons]
    exact .inr hpair

/-- The distance from one instruction to another, forth or back. -/
theorem natAbs_stretch (hw : narrow.Widens wide) {is : List Instruction} {i j a a' b b' : Nat}
    (ha : (narrow.starts 0 is)[i]? = some a) (ha' : (wide.starts 0 is)[i]? = some a')
    (hb : (narrow.starts 0 is)[j]? = some b) (hb' : (wide.starts 0 is)[j]? = some b') :
    narrow.operandWidth * ((b' : Int) - a').natAbs ≤
      wide.operandWidth * ((b : Int) - a).natAbs := by
  have hzip : ∀ {k c c' : Nat}, (narrow.starts 0 is)[k]? = some c →
      (wide.starts 0 is)[k]? = some c' →
      ((narrow.starts 0 is).zip (wide.starts 0 is))[k]? = some (c, c') := by
    intro k c c' hc hc'
    simp [List.getElem?_zip_eq_some, hc, hc']
  have hpairs := List.pairwise_iff_getElem.1 (stretches_starts hw 0 0 is)
  obtain ⟨hi, hgeti⟩ := List.getElem?_eq_some_iff.1 (hzip ha ha')
  obtain ⟨hj, hgetj⟩ := List.getElem?_eq_some_iff.1 (hzip hb hb')
  rcases Nat.lt_trichotomy i j with hlt | rfl | hlt
  · obtain ⟨hnarrow, hwide, hstretch⟩ := hpairs i j hi hj hlt
    rw [hgeti, hgetj] at hnarrow hwide hstretch
    simp only at hnarrow hwide hstretch
    rwa [show ((b' : Int) - a').natAbs = b' - a' by omega,
      show ((b : Int) - a).natAbs = b - a by omega]
  · cases ha.symm.trans hb
    cases ha'.symm.trans hb'
    simp
  · obtain ⟨hnarrow, hwide, hstretch⟩ := hpairs j i hj hi hlt
    rw [hgeti, hgetj] at hnarrow hwide hstretch
    simp only at hnarrow hwide hstretch
    rwa [show ((b' : Int) - a').natAbs = a' - b' by omega,
      show ((b : Int) - a).natAbs = a - b by omega]

/-! ### What can be written -/

variable {table : Array Nat}

/-- The operands of an instruction are its own, or the distance to the target of a branch. -/
theorem operands_cases {index start : Nat} {I : Instruction} {operands : List Int}
    (h : Encoding.operands table index start I = .ok operands) :
    (I.jump? = none ∧ operands = I.operands) ∨
      ∃ jump target byte, I.jump? = some jump ∧ jump.Leads index target ∧
        table[target]? = some byte ∧ operands = [(byte : Int) - start] := by
  unfold Encoding.operands at h
  split at h
  next hjump =>
    cases h
    exact .inl ⟨hjump, rfl⟩
  next => cases h
  next distance hjump =>
    dsimp only at h
    by_cases htarget : 0 ≤ (index : Int) + distance.toInt
    · rw [if_pos htarget] at h
      split at h
      next byte hbyte =>
        cases h
        exact .inr
          ⟨_, _, byte, hjump, ⟨distance, rfl, (Int.toNat_of_nonneg htarget).symm⟩, hbyte, rfl⟩
      next => cases h
    · rw [if_neg htarget] at h
      cases h

/-- Operands can be written if all of them fit. -/
theorem operandBytes_ok_iff {I : Instruction} {operands : List Int} :
    (∃ bytes, encoding.operandBytes I operands = .ok bytes) ↔
      ∀ operand ∈ operands, encoding.fits operand = true := by
  induction operands with
  | nil => simp [operandBytes]
  | cons operand operands ih =>
    unfold operandBytes
    by_cases hfits : encoding.fits operand = true
    · rw [if_pos hfits, List.forall_mem_cons, ← ih]
      constructor
      · rintro ⟨bytes, hbytes⟩
        obtain ⟨later, hlater, -⟩ := exists_ok_of_bind hbytes
        exact ⟨hfits, later, hlater⟩
      · rintro ⟨-, later, hlater⟩
        rw [hlater]
        exact ⟨_, rfl⟩
    · rw [if_neg hfits]
      constructor
      · rintro ⟨bytes, hbytes⟩
        cases hbytes
      · intro hall
        exact absurd (hall operand List.mem_cons_self) hfits

/-- An instruction can be written if its operands are known and can be. -/
theorem instruction_ok_iff {index start : Nat} {I : Instruction} :
    (∃ bytes, encoding.instruction table index start I = .ok bytes) ↔
      ∃ operands, Encoding.operands table index start I = .ok operands ∧
        ∀ operand ∈ operands, encoding.fits operand = true := by
  constructor
  · rintro ⟨bytes, hbytes⟩
    obtain ⟨operands, hoperands, hbytes⟩ := exists_ok_of_bind hbytes
    obtain ⟨written, hwritten, -⟩ := exists_ok_of_bind hbytes
    exact ⟨operands, hoperands, operandBytes_ok_iff.1 ⟨written, hwritten⟩⟩
  · rintro ⟨operands, hoperands, hfits⟩
    obtain ⟨written, hwritten⟩ := operandBytes_ok_iff.2 hfits
    unfold instruction
    rw [hoperands]
    change ∃ bytes, (encoding.operandBytes I operands >>= _) = .ok bytes
    rw [hwritten]
    exact ⟨_, rfl⟩

/-- Instructions can be written if each of them can be written where it starts. -/
theorem instructions_ok_iff {index start : Nat} {is : List Instruction} :
    (∃ bytes, encoding.instructions table index start is = .ok bytes) ↔
      ∀ i I s, is[i]? = some I → (encoding.starts start is)[i]? = some s →
        ∃ bytes, encoding.instruction table (index + i) s I = .ok bytes := by
  induction is generalizing index start with
  | nil => simp [instructions]
  | cons J is ih =>
    constructor
    · rintro ⟨bytes, hbytes⟩ i I s hI hs
      obtain ⟨first, later, hfirst, hlater, rfl⟩ := instructions_cons hbytes
      cases i with
      | zero =>
        cases hI
        cases hs
        exact ⟨first, hfirst⟩
      | succ i =>
        rw [Nat.add_comm i 1, ← Nat.add_assoc]
        exact ih.1 ⟨later, hlater⟩ i I s hI hs
    · intro hall
      obtain ⟨first, hfirst⟩ := hall 0 J start rfl rfl
      have hrest : ∃ bytes, encoding.instructions table (index + 1) (start + encoding.width J) is =
          .ok bytes := by
        apply ih.2
        intro i I s hI hs
        have hlater := hall (i + 1) I s hI hs
        rwa [Nat.add_comm i 1, ← Nat.add_assoc] at hlater
      obtain ⟨later, hlater⟩ := hrest
      unfold instructions
      rw [Nat.add_zero] at hfirst
      rw [hfirst]
      change ∃ bytes, (encoding.instructions table (index + 1) _ is >>= _) = .ok bytes
      rw [hlater]
      exact ⟨_, rfl⟩

end Encoding

/-! ### Assemblies in two encodings -/

/-- Two words for the same instruction, given the bytes at which instructions start. Those of a
branch lead to the same instruction, or both to the end. -/
structure Word.Alongside (starts starts' : List Nat) (word word' : Word) : Prop where
  opcode : word'.opcode = word.opcode
  plain : Instruction.isBranchCode word.opcode = false → word'.operands = word.operands
  branch : Instruction.isBranchCode word.opcode = true → ∃ (target byte byte' : Nat),
    starts[target]? = some byte ∧ starts'[target]? = some byte' ∧
    word.operands = [(byte : Int) - word.start] ∧ word'.operands = [(byte' : Int) - word'.start]

/-- Two assemblies of the same code, read as words. -/
structure Assembly.Alongside (assembly assembly' : Assembly) (words words' : List Word) : Prop where
  strings : assembly'.strings = assembly.strings
  constants : assembly'.constants = assembly.constants
  locals : assembly'.locals = assembly.locals
  /-- The marks are of the same statements, in the same order. -/
  positions : assembly'.marks.map Prod.snd = assembly.marks.map Prod.snd
  /-- The instructions are the same, one by one. -/
  length : words'.length = words.length
  each : ∀ (i : Nat) (word word' : Word), words[i]? = some word → words'[i]? = some word' →
    word.Alongside (words.map Word.start ++ [assembly.bytes.length])
      (words'.map Word.start ++ [assembly'.bytes.length]) word'
  /-- Marks with the same number are at the starts of the same instruction, or both at the end. -/
  marks : ∀ (k : Nat) (mark mark' : Nat × Position),
    assembly.marks[k]? = some mark → assembly'.marks[k]? = some mark' →
    ∃ i : Nat, (words.map Word.start ++ [assembly.bytes.length])[i]? = some mark.1 ∧
      (words'.map Word.start ++ [assembly'.bytes.length])[i]? = some mark'.1

namespace Code

variable {code : Code} {narrow wide : Encoding}
variable {assembly : Assembly} {encoding : Encoding}

/-- Code can be assembled if its instructions can be written. -/
theorem exists_assembles (hs : encoding.Supported) (h : ∃ bytes, encoding.instructions (code.starts
      encoding).toArray 0 0 code.instructions.toList = .ok bytes) :
    ∃ assembly, code.assemble encoding = .ok assembly := by
  obtain ⟨bytes, hbytes⟩ := h
  unfold assemble
  rw [if_pos hs.opcode, if_pos hs.operand]
  change ∃ assembly, (((encoding.instructions (code.starts encoding).toArray 0 0
    code.instructions.toList).mapError _) >>= _) = .ok assembly
  rw [hbytes]
  exact ⟨_, rfl⟩

/-- Each instruction has a start in every encoding. -/
theorem exists_start_of_start {i s : Nat} (h : (code.starts encoding)[i]? = some s)
    (other : Encoding) : ∃ s', (code.starts other)[i]? = some s' := by
  apply exists_start
  have hlt := (List.getElem?_eq_some_iff.1 h).1
  rw [length_starts] at hlt
  omega

/-- An instruction that can be written can be written in a wider encoding. -/
theorem instruction_ok_of_wider (hn : narrow.Supported) (hs : wide.Supported)
    (hw : narrow.Widens wide) {i s s' : Nat} {I : Instruction}
    (hstart : (code.starts narrow)[i]? = some s) (hstart' : (code.starts wide)[i]? = some s')
    (h : ∃ bytes, narrow.instruction (code.starts narrow).toArray i s I = .ok bytes) :
    ∃ bytes, wide.instruction (code.starts wide).toArray i s' I = .ok bytes := by
  rw [Encoding.instruction_ok_iff] at h ⊢
  obtain ⟨operands, hoperands, hfits⟩ := h
  rcases Encoding.operands_cases hoperands with
    ⟨hjump, rfl⟩ | ⟨jump, target, byte, hjump, hleads, hbyte, rfl⟩
  · refine ⟨I.operands, by rw [Encoding.operands, hjump], ?_⟩
    intro operand hmem
    exact Encoding.fits_of_narrower hn.operandWidth_pos hw (hfits operand hmem)
  · rw [List.getElem?_toArray] at hbyte
    obtain ⟨byte', hbyte'⟩ := exists_start_of_start hbyte wide
    refine ⟨_, Encoding.operands_of_leads hjump hleads (by rwa [List.getElem?_toArray]), ?_⟩
    intro operand hmem
    obtain rfl := List.mem_singleton.1 hmem
    apply Encoding.fits_of_stretch hn hs hw (hfits _ (List.mem_singleton.2 rfl))
    exact Encoding.natAbs_stretch hw hstart hstart' hbyte hbyte'

/-- Code fits into a wider encoding. -/
theorem exists_wider (hs : wide.Supported) (hw : narrow.Widens wide)
    (h : code.Assembles narrow assembly) : ∃ wider, code.assemble wide = .ok wider := by
  apply exists_assembles hs
  apply Encoding.instructions_ok_iff.2
  intro i I s' hI hstart'
  obtain ⟨s, hstart⟩ := exists_start_of_start hstart' narrow
  have hnarrow := Encoding.instructions_ok_iff.1 ⟨_, h.bytes⟩ i I s hI hstart
  rw [Nat.zero_add] at hnarrow ⊢
  exact instruction_ok_of_wider h.supported hs hw hstart hstart' hnarrow

/-- The words that two assemblies have for one instruction. -/
theorem word_alongside {i : Nat} {I : Instruction} {word word' : Word}
    (hopcode : word.opcode = I.opcode) (hopcode' : word'.opcode = I.opcode)
    (h : Encoding.operands (code.starts narrow).toArray i word.start I = .ok word.operands)
    (h' : Encoding.operands (code.starts wide).toArray i word'.start I = .ok word'.operands) :
    word.Alongside (code.starts narrow) (code.starts wide) word' := by
  have hbranch : Instruction.isBranchCode word.opcode = I.jump?.isSome := by
    rw [hopcode, I.isBranchCode_opcode]
  rcases Encoding.operands_cases h with
    ⟨hjump, hown⟩ | ⟨jump, target, byte, hjump, hleads, hbyte, hdistance⟩
  · refine ⟨hopcode'.trans hopcode.symm, fun _ => ?_, fun hcode => ?_⟩
    · rw [Encoding.operands, hjump] at h'
      rw [hown]
      exact (Except.ok.inj h').symm
    · rw [hbranch, hjump] at hcode
      cases hcode
  · refine ⟨hopcode'.trans hopcode.symm, fun hcode => ?_, fun _ => ?_⟩
    · rw [hbranch, hjump] at hcode
      cases hcode
    · rw [List.getElem?_toArray] at hbyte
      obtain ⟨byte', hbyte'⟩ := exists_start_of_start hbyte wide
      rw [Encoding.operands_of_leads hjump hleads (by rwa [List.getElem?_toArray])] at h'
      exact ⟨target, byte, byte', hbyte, hbyte', hdistance, (Except.ok.inj h').symm⟩

/-- The mark with a number is at the start of the same instruction in every encoding. -/
theorem Assembles.exists_mark (h : code.Assembles encoding assembly) {k : Nat}
    {mark : Nat × Position} (hmark : assembly.marks[k]? = some mark) :
    ∃ index, code.marks[k]? = some (index, mark.2) ∧
      (code.starts encoding)[min index code.size]? = some mark.1 := by
  rw [h.marks, Array.getElem?_map] at hmark
  obtain ⟨⟨index, position⟩, hcode, rfl⟩ := Option.map_eq_some_iff.1 hmark
  obtain ⟨byte, hbyte⟩ := exists_start (Nat.min_le_right index code.size) encoding
  refine ⟨index, hcode, ?_⟩
  simp only [List.getElem?_toArray, hbyte, Option.getD_some]

/-- Code in two encodings goes alongside. -/
theorem alongside_of_assembles {wider : Assembly} (h : code.Assembles narrow assembly)
    (h' : code.Assembles wide wider) :
    ∃ words words', narrow.words? 0 assembly.bytes = some words ∧
      wide.words? 0 wider.bytes = some words' ∧ assembly.Alongside wider words words' := by
  obtain ⟨words, hwords, hstarts, hwritten⟩ := Encoding.words?_of_assembles h
  obtain ⟨words', hwords', hstarts', hwritten'⟩ := Encoding.words?_of_assembles h'
  refine ⟨words, words', hwords, hwords', ?_⟩
  constructor
  · rw [h'.strings, h.strings]
  · rw [h'.constants, h.constants]
  · rw [h'.locals, h.locals]
  · rw [h'.marks, h.marks, Array.map_map, Array.map_map]
    rfl
  · rw [hwritten'.length_eq, hwritten.length_eq]
  · intro i word word' hword hword'
    rw [hstarts, hstarts']
    have hlt := (List.getElem?_eq_some_iff.1 hword).1
    rw [hwritten.length_eq] at hlt
    have hI := List.getElem?_eq_getElem hlt
    obtain ⟨other, hother, hopcode, hoperands⟩ := hwritten.exists_word hI
    obtain ⟨other', hother', hopcode', hoperands'⟩ := hwritten'.exists_word hI
    cases hword.symm.trans hother
    cases hword'.symm.trans hother'
    exact word_alongside hopcode hopcode' hoperands hoperands'
  · intro k mark mark' hmark hmark'
    rw [hstarts, hstarts']
    obtain ⟨index, hcode, hbyte⟩ := h.exists_mark hmark
    obtain ⟨index', hcode', hbyte'⟩ := h'.exists_mark hmark'
    obtain ⟨rfl, -⟩ := Prod.mk.inj (Option.some.inj (hcode.symm.trans hcode'))
    exact ⟨min index code.size, hbyte, hbyte'⟩

/-- Code that can be assembled can be assembled with wider operands, and the two assemblies go
alongside each other, instruction by instruction and mark by mark. -/
theorem assemble_of_wider {assembly : Assembly} (hw : narrow.Widens wide)
    (hwidth : wide.operandWidth ∈ [1, 2, 4, 8]) (h : code.assemble narrow = .ok assembly) :
    ∃ wider, code.assemble wide = .ok wider ∧ ∃ words words',
      narrow.words? 0 assembly.bytes = some words ∧ wide.words? 0 wider.bytes = some words' ∧
      assembly.Alongside wider words words' := by
  have hassembles := assembles_of_assemble h
  have hs : wide.Supported := ⟨hw.opcode ▸ hassembles.supported.opcode, hwidth⟩
  obtain ⟨wider, hwider⟩ := exists_wider hs hw hassembles
  exact ⟨wider, hwider, alongside_of_assembles hassembles (assembles_of_assemble hwider)⟩

/-- Branches forth over wide instructions, back and to the end of the code, from the narrowest
operands to the widest. A mark that lies beyond the code is at its end. -/
theorem assemble_of_wider_branches :
    let code : Code := {
      instructions := #[.pushInt (-7), .branchFalse (.relative 5), .callScript (-1) 3, .call 9 2,
        .popEnv (.relative (-3)), .branch (.relative 1)]
      strings := #["a"]
      marks := #[(0, ⟨1, 1, 0⟩), (2, ⟨1, 5, 4⟩), (9, ⟨2, 1, 8⟩)] }
    ∃ assembly wider words words', code.assemble ⟨1, 1, .big⟩ = .ok assembly ∧
      code.assemble ⟨1, 8, .big⟩ = .ok wider ∧
      Encoding.words? ⟨1, 1, .big⟩ 0 assembly.bytes = some words ∧
      Encoding.words? ⟨1, 8, .big⟩ 0 wider.bytes = some words' ∧
      assembly.Alongside wider words words' ∧ assembly.marks.map Prod.fst = #[0, 4, 14] ∧
      wider.marks.map Prod.fst = #[0, 18, 70] := by
  intro code
  obtain ⟨assembly, hassembly, hmarks⟩ := exists_ok_of_any
    (p := fun assembly => assembly.marks.map Prod.fst = #[0, 4, 14])
    (x := code.assemble ⟨1, 1, .big⟩) (by decide +kernel)
  have hw : Encoding.Widens ⟨1, 1, .big⟩ ⟨1, 8, .big⟩ := ⟨rfl, rfl, by decide⟩
  obtain ⟨wider, hwider, words, words', hwords, hwords', halongside⟩ :=
    assemble_of_wider hw (by decide) hassembly
  obtain ⟨other, hother, hmarks'⟩ := exists_ok_of_any
    (p := fun assembly => assembly.marks.map Prod.fst = #[0, 18, 70])
    (x := code.assemble ⟨1, 8, .big⟩) (by decide +kernel)
  cases hother.symm.trans hwider
  exact ⟨assembly, wider, words, words', hassembly, hwider, hwords, hwords', halongside,
    of_decide_eq_true hmarks, of_decide_eq_true hmarks'⟩

end Code

end Gml
