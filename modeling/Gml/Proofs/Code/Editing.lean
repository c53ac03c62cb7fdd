import Gml.Proofs.Code.Patching
import Gml.Proofs.Evaluation.Instructions

/-!
# Editing code

Code can be put together by hand, by edits in any order: instructions are pushed, branches are
patched, statements are marked, and strings, constants and local variables are asked for by their
numbers. A `Moment` is an edit with the code that it is made to, and `Code.history` lists the moments
of many edits in a row. What holds after every history follows from what one more moment leaves
(`Code.history_induction`).

* **Branches** (`Code.patchWord?_eq_some_iff`). A patch succeeds exactly if there is a branch at the
  site and a distance that leads from there to the target, and it changes that branch alone.
* **Tables** (`Pool.Kept.numbers`). The three tables are filled in the same way, and a `Pool` stands
  for any of them. No entry is there twice, each number that was given goes on standing for its
  entry, and two numbers are the same exactly if the entries are. Constants are told apart by their
  bits.
* **Marks** (`Code.Marked.edit`). The marks are in order, and the one at an index is the last that was
  made while the code had so many instructions (`LastMark`). The reason is that a mark takes the
  place of those at the end of the code and of no others (`Code.marks_mark`).

The target of a patch is a machine word that is read as a signed number (`Code.place`). No code is so
long that an instruction has a word of the upper half for its index, but a patch does not refuse
such a word: it may succeed, and the branch then leads to a place in front of the code.
-/

namespace Gml

/-- One change to code. -/
inductive Edit where
  /-- Adds an instruction at the end. -/
  | push (instruction : Instruction)
  /-- Points the branch at a site to a target. -/
  | patch (site target : UInt64)
  /-- Marks the next instruction as the start of a statement. -/
  | mark (position : Position)
  /-- Asks for the number of a string. -/
  | addString (string : String)
  /-- Asks for the number of a constant. -/
  | addConstant (constant : Double)
  /-- Asks for the number of a local variable. -/
  | addLocal (name : String)

/-- An edit and the code that it is made to. -/
structure Moment where
  code : Code
  edit : Edit

namespace Code

/-- The code after an edit. A patch that fails leaves the code as it is. -/
def edit (code : Code) : Edit → Code
  | .push instruction => code.push instruction
  | .patch site target => (code.patchWord? site target).getD code
  | .mark position => code.mark position
  | .addString string => (code.addString string).2
  | .addConstant constant => (code.addConstant constant).2
  | .addLocal name => (code.addLocal name).2

/-- The code after some edits. -/
def after (code : Code) (edits : List Edit) : Code :=
  edits.foldl edit code

/-- The moments of some edits, one after the other. -/
def history (code : Code) : List Edit → List Moment
  | [] => []
  | edit :: edits => ⟨code, edit⟩ :: (code.edit edit).history edits

/-- What one more moment preserves is preserved by all that follow. -/
theorem history_induction {P : List Moment → Code → Prop}
    (step : ∀ {past : List Moment} {code : Code} (edit : Edit), P past code →
      P (past ++ [⟨code, edit⟩]) (code.edit edit))
    (edits : List Edit) {past : List Moment} {code : Code} (h : P past code) :
    P (past ++ code.history edits) (code.after edits) := by
  induction edits generalizing past code with
  | nil =>
    rw [history, List.append_nil]
    exact h
  | cons edit edits ih =>
    rw [history, List.append_cons]
    exact ih (step edit h)

end Code

/-! ### Branches -/

namespace Instruction

variable {I J : Instruction} {jump : Jump}

/-- A branch is known by its operation code and its jump. -/
theorem eq_of_opcode_eq (hI : I.jump? = some jump) (hJ : J.jump? = some jump)
    (h : I.opcode = J.opcode) : I = J := by
  cases I <;> cases hI <;> cases J <;> cases hJ <;>
    first | rfl | exact absurd h (Nat.ne_of_beq_eq_false rfl)

/-- A new target leaves the kind of an instruction alone. -/
theorem opcode_withJump (h : I.withJump? jump = some J) : J.opcode = I.opcode := by
  cases I <;> cases h <;> rfl

/-- A new target is all that changes. -/
theorem withJump?_eq_some_iff : I.withJump? jump = some J ↔
    I.jump?.isSome ∧ J.opcode = I.opcode ∧ J.jump? = some jump := by
  constructor
  · intro h
    refine ⟨?_, opcode_withJump h, Generate.jump?_withJump h⟩
    cases I <;> first | rfl | cases h
  · rintro ⟨hbranch, hcode, hjump⟩
    obtain ⟨old, hold⟩ := Option.isSome_iff_exists.1 hbranch
    obtain ⟨K, hK⟩ := Generate.exists_withJump hold jump
    have hsame : J.opcode = K.opcode := hcode.trans (opcode_withJump hK).symm
    rw [hK, eq_of_opcode_eq hjump (Generate.jump?_withJump hK) hsame]

end Instruction

namespace Code

section Branches

variable {code code' : Code} {site target : UInt64}

/-- The place that a word stands for as a target. -/
def place (target : UInt64) : Int :=
  if target.toNat < 9223372036854775808 then target.toNat else target.toNat - 18446744073709551616

/-- A target keeps its value as a signed number. -/
theorem toInt_toInt64 (target : UInt64) : target.toInt64.toInt = place target := by
  show target.toBitVec.toInt = place target
  rw [BitVec.toInt_eq_toNat_cond, UInt64.toNat_toBitVec, place]
  split <;> split <;> omega

/-- Code becomes other code by the jump of the branch at a site alone, which then leads to a
target. -/
def Redirects (code : Code) (site target : UInt64) (code' : Code) : Prop :=
  ∃ (I J : Instruction) (distance : Int32), code.Has site.toNat I ∧ I.jump?.isSome ∧
    J.opcode = I.opcode ∧ J.jump? = some (.relative distance) ∧
    (site.toNat : Int) + distance.toInt = place target ∧
    code' = { code with instructions := code.instructions.setIfInBounds site.toNat J }

/-- A patch succeeds just if it redirects a branch. -/
theorem patchWord?_eq_some_iff :
    code.patchWord? site target = some code' ↔ code.Redirects site target code' := by
  rw [patchWord?, toInt_toInt64, patch?_eq_some_iff]
  simp only [Instruction.withJump?_eq_some_iff, and_assoc]
  constructor
  · rintro ⟨distance, I, J, hdistance, hI, hbranch, hcode, hjump, rfl⟩
    exact ⟨I, J, distance, hI, hbranch, hcode, hjump, hdistance, rfl⟩
  · rintro ⟨I, J, distance, hI, hbranch, hcode, hjump, hdistance, rfl⟩
    exact ⟨distance, I, J, hdistance, hI, hbranch, hcode, hjump, rfl⟩

/-- What comes out of a patch. -/
inductive Patched (code : Code) (site target : UInt64) : Code → Prop where
  /-- It fails and changes nothing, as there is nothing that it could do. -/
  | failed : code.patchWord? site target = none → (∀ code', ¬code.Redirects site target code') →
      Patched code site target code
  /-- It succeeds and redirects a branch. -/
  | redirected {code' : Code} : code.patchWord? site target = some code' →
      code.Redirects site target code' → Patched code site target code'

/-- An edit that patches does so, or changes nothing. -/
theorem patched_edit (code : Code) (site target : UInt64) :
    code.Patched site target (code.edit (.patch site target)) := by
  cases hpatch : code.patchWord? site target with
  | none =>
    rw [edit, hpatch, Option.getD_none]
    refine .failed hpatch fun code' h => ?_
    exact Option.some_ne_none code' ((patchWord?_eq_some_iff.2 h).symm.trans hpatch)
  | some code' =>
    rw [edit, hpatch, Option.getD_some]
    exact .redirected hpatch (patchWord?_eq_some_iff.1 hpatch)

/-- A patch works on the instructions and keeps their number. -/
theorem edit_patch_eq (code : Code) (site target : UInt64) :
    ∃ instructions, code.edit (.patch site target) = { code with instructions } ∧
      instructions.size = code.size := by
  have h := patched_edit code site target
  generalize code.edit (.patch site target) = code' at h ⊢
  cases h with
  | failed => exact ⟨code.instructions, rfl, rfl⟩
  | redirected _ h =>
    obtain ⟨_, J, _, -, -, -, -, -, hedit⟩ := h
    exact ⟨_, hedit, Array.size_setIfInBounds⟩

end Branches

/-- An edit leaves the tables alone or asks for an entry of one of them. -/
theorem edit_cases (code : Code) (edit : Edit) :
    (∃ instructions marks, code.edit edit = { code with instructions, marks }) ∨
      (∃ string, edit = .addString string) ∨ (∃ constant, edit = .addConstant constant) ∨
        ∃ name, edit = .addLocal name := by
  cases edit with
  | push I => exact .inl ⟨_, _, rfl⟩
  | patch site target =>
    obtain ⟨instructions, hedit, -⟩ := code.edit_patch_eq site target
    exact .inl ⟨instructions, code.marks, hedit⟩
  | mark p => exact .inl ⟨_, _, code.mark_eq p⟩
  | addString string => exact .inr (.inl ⟨string, rfl⟩)
  | addConstant constant => exact .inr (.inr (.inl ⟨constant, rfl⟩))
  | addLocal name => exact .inr (.inr (.inr ⟨name, rfl⟩))

end Code

/-! ### Tables -/

/-- The entries that were asked for, with the numbers that were given. -/
def Asked {α : Type} (ask : α → Edit) (answer : Code → α → UInt32 × Code) (past : List Moment)
    (entry : α) (id : UInt32) : Prop :=
  ∃ code : Code, ⟨code, ask entry⟩ ∈ past ∧ id = (answer code entry).1

/-- A table that gives numbers to the entries that it is asked for. Entries are told apart by a
key. -/
structure Numbers {α κ : Type} (key : α → κ) (table : Array α) (asked : α → UInt32 → Prop) :
    Prop where
  /-- No entry is there twice. -/
  nodup : (table.toList.map key).Nodup
  /-- A number that was given stands for its entry. -/
  denotes : ∀ {entry : α} {id : UInt32}, asked entry id → table[id.toNat]? = some entry
  /-- The same number was given exactly for the same entry. -/
  eq_iff : ∀ {a b : α} {i j : UInt32}, asked a i → asked b j → (i = j ↔ key a = key b)

/-- One of the tables of code, which grows by the edits that ask for its entries. -/
structure Pool (α : Type) [DecidableEq α] where
  /-- The table. -/
  table : Code → Array α
  /-- The edit that asks for an entry. -/
  ask : α → Edit
  /-- What is answered. -/
  answer : Code → α → UInt32 × Code
  answer_eq : ∀ code entry, (answer code entry).1 = UInt32.ofNat (intern (table code) entry).1
  table_empty : table {} = #[]
  table_ask : ∀ code entry, table (code.edit (ask entry)) = (intern (table code) entry).2
  table_edit : ∀ code edit, table (code.edit edit) = table code ∨
    ∃ entry, table (code.edit edit) = (intern (table code) entry).2

namespace Pool

variable {α κ : Type} [DecidableEq α] (pool : Pool α) {past : List Moment} {code : Code}

/-- What a table keeps, however large it gets. -/
structure Kept (past : List Moment) (code : Code) : Prop where
  nodup : (pool.table code).toList.Nodup
  entry : ∀ {entry : α} {id : UInt32}, Asked pool.ask pool.answer past entry id →
    Entry (pool.table code) id entry

/-- An empty table keeps nothing. -/
theorem kept_empty : pool.Kept [] {} := by
  refine ⟨?_, ?_⟩
  · rw [pool.table_empty]
    exact List.nodup_nil
  · rintro entry id ⟨code, hmem, -⟩
    exact (List.not_mem_nil hmem).elim

/-- What stands at an index stays there. -/
theorem table_edit_keeps (code : Code) (edit : Edit) {index : Nat} {entry : α}
    (h : (pool.table code)[index]? = some entry) :
    (pool.table (code.edit edit))[index]? = some entry := by
  rcases pool.table_edit code edit with hsame | ⟨other, hgrown⟩
  · rw [hsame]
    exact h
  · rw [hgrown]
    exact Generate.intern_keeps _ other h

variable {pool}

/-- An edit keeps a table up. -/
theorem Kept.edit (h : pool.Kept past code) (edit : Edit) :
    pool.Kept (past ++ [⟨code, edit⟩]) (code.edit edit) := by
  refine ⟨?_, ?_⟩
  · rcases pool.table_edit code edit with hsame | ⟨entry, hgrown⟩
    · rw [hsame]
      exact h.nodup
    · rw [hgrown]
      exact Generate.intern_nodup _ entry h.nodup
  · rintro entry id ⟨before, hmem, rfl⟩
    rcases List.mem_append.1 hmem with hold | hnew
    · obtain ⟨index, hindex, hid⟩ := h.entry ⟨before, hold, rfl⟩
      exact ⟨index, pool.table_edit_keeps code edit hindex, hid⟩
    · obtain ⟨rfl, rfl⟩ := Moment.mk.inj (List.mem_singleton.1 hnew)
      rw [pool.table_ask]
      exact ⟨_, Generate.getElem?_intern _ entry, pool.answer_eq before entry⟩

/-- In a table without repetitions an entry has one number. -/
theorem Kept.eq_of_asked (h : pool.Kept past code) {entry : α} {i j : UInt32}
    (hi : Asked pool.ask pool.answer past entry i) (hj : Asked pool.ask pool.answer past entry j) :
    i = j := by
  obtain ⟨m, hm, rfl⟩ := h.entry hi
  obtain ⟨n, hn, rfl⟩ := h.entry hj
  have hlt : m < (pool.table code).size := (Array.getElem?_eq_some_iff.1 hm).1
  rw [← Array.getElem?_toList] at hm hn
  rw [(List.getElem?_inj hlt h.nodup).1 (hm.trans hn.symm)]

/-- A table that is kept up numbers what was asked for. -/
theorem Kept.numbers (h : pool.Kept past code) {key : α → κ} (hkey : Function.Injective key)
    (hsize : (pool.table code).size ≤ UInt32.size) :
    Numbers key (pool.table code) (Asked pool.ask pool.answer past) where
  nodup := List.Pairwise.map key (fun _ _ hne heq => hne (hkey heq)) h.nodup
  denotes hasked := (h.entry hasked).get hsize
  eq_iff {a b i j} hi hj := by
    constructor
    · rintro rfl
      have hsame := ((h.entry hi).get hsize).symm.trans ((h.entry hj).get hsize)
      rw [Option.some.inj hsame]
    · intro heq
      obtain rfl := hkey heq
      exact h.eq_of_asked hi hj

/-- The table of strings. -/
def strings : Pool String where
  table := Code.strings
  ask := .addString
  answer := Code.addString
  answer_eq _ _ := rfl
  table_empty := rfl
  table_ask _ _ := rfl
  table_edit code edit := by
    rcases code.edit_cases edit with ⟨_, _, hedit⟩ | ⟨string, rfl⟩ | ⟨_, rfl⟩ | ⟨_, rfl⟩
    · exact .inl (by rw [hedit])
    · exact .inr ⟨string, rfl⟩
    all_goals exact .inl rfl

/-- The table of constants. -/
def constants : Pool Double where
  table := Code.constants
  ask := .addConstant
  answer := Code.addConstant
  answer_eq _ _ := rfl
  table_empty := rfl
  table_ask _ _ := rfl
  table_edit code edit := by
    rcases code.edit_cases edit with ⟨_, _, hedit⟩ | ⟨_, rfl⟩ | ⟨constant, rfl⟩ | ⟨_, rfl⟩
    · exact .inl (by rw [hedit])
    · exact .inl rfl
    · exact .inr ⟨constant, rfl⟩
    · exact .inl rfl

/-- The table of local variables. -/
def locals : Pool String where
  table := Code.locals
  ask := .addLocal
  answer := Code.addLocal
  answer_eq _ _ := rfl
  table_empty := rfl
  table_ask _ _ := rfl
  table_edit code edit := by
    rcases code.edit_cases edit with ⟨_, _, hedit⟩ | ⟨_, rfl⟩ | ⟨_, rfl⟩ | ⟨name, rfl⟩
    · exact .inl (by rw [hedit])
    · exact .inl rfl
    · exact .inl rfl
    · exact .inr ⟨name, rfl⟩

end Pool

/-- The bits of a number tell it from others. -/
theorem Double.bits_injective : Function.Injective Double.bits := by
  rintro ⟨a⟩ ⟨b⟩ h
  exact congrArg Double.mk h

/-! ### Marks -/

/-- The last mark that was made while the code had so many instructions. -/
def LastMark (past : List Moment) (index : Nat) (p : Position) : Prop :=
  ∃ earlier code later, past = earlier ++ ⟨code, .mark p⟩ :: later ∧ code.size = index ∧
    ∀ moment ∈ later, ∀ q, moment.edit = .mark q → moment.code.size ≠ index

/-- One more moment is the last mark itself or leaves the one before. -/
theorem lastMark_concat {past : List Moment} {moment : Moment} {index : Nat} {p : Position} :
    LastMark (past ++ [moment]) index p ↔
      (moment.edit = .mark p ∧ moment.code.size = index) ∨
        ((∀ q, moment.edit = .mark q → moment.code.size ≠ index) ∧ LastMark past index p) := by
  constructor
  · rintro ⟨earlier, code, later, hsplit, hsize, hlater⟩
    rcases List.eq_nil_or_concat later with rfl | ⟨later, last, rfl⟩
    · obtain ⟨rfl, hlast⟩ := List.append_inj' hsplit rfl
      obtain rfl := List.cons.inj hlast |>.1
      exact .inl ⟨rfl, hsize⟩
    · rw [List.concat_eq_append, ← List.cons_append, ← List.append_assoc] at hsplit
      obtain ⟨rfl, hlast⟩ := List.append_inj' hsplit rfl
      obtain rfl := List.cons.inj hlast |>.1
      rw [List.concat_eq_append] at hlater
      refine .inr ⟨hlater moment (by simp), earlier, code, later, rfl, hsize, ?_⟩
      intro m hm
      exact hlater m (List.mem_append_left _ hm)
  · rintro (⟨hedit, hsize⟩ | ⟨hlast, earlier, code, later, rfl, hsize, hlater⟩)
    · obtain ⟨code, edit⟩ := moment
      obtain rfl := hedit
      exact ⟨past, code, [], rfl, hsize, by simp⟩
    · refine ⟨earlier, code, later ++ [moment], by simp, hsize, fun m hm => ?_⟩
      rcases List.mem_append.1 hm with hm | hm
      · exact hlater m hm
      · rw [List.mem_singleton.1 hm]
        exact hlast

namespace Code

variable {past : List Moment} {code : Code}

/-- The marks of code that was put together by edits. -/
structure Marked (past : List Moment) (code : Code) : Prop where
  /-- They are in order, one for an index. -/
  increasing : (code.marks.toList.map Prod.fst).Pairwise (· < ·)
  /-- They are in the code or at its end. -/
  le_size : ∀ mark ∈ code.marks, mark.1 ≤ code.size
  /-- They are the last ones that were made. -/
  mem_iff : ∀ {index : Nat} {p : Position}, (index, p) ∈ code.marks ↔ LastMark past index p

/-- A mark takes the place of those at the end of the code. -/
theorem marks_mark (hincreasing : (code.marks.toList.map Prod.fst).Pairwise (· < ·))
    (hle : ∀ mark ∈ code.marks, mark.1 ≤ code.size) (p : Position) :
    (code.mark p).marks.toList = code.marks.toList.filter (·.1 < code.size) ++ [(code.size, p)] := by
  obtain ⟨earlier, hnew, ⟨hold, hlast⟩ | ⟨q, hold⟩⟩ := code.exists_marks_mark p
  · -- No mark is at the end, as the last one is not and the others are in front of it.
    rw [hnew, hold, List.filter_eq_self.2]
    have hle' : ∀ mark ∈ earlier, mark.1 ≤ code.size := fun mark hmark =>
      hle mark (Array.mem_toList_iff.1 (hold ▸ hmark))
    rcases List.eq_nil_or_concat earlier with rfl | ⟨front, last, rfl⟩
    · simp
    · simp only [List.concat_eq_append] at *
      have hend : last.1 < code.size :=
        Nat.lt_of_le_of_ne (hle' last (by simp)) (hlast last (by simp))
      rw [hold, List.map_append, List.pairwise_append] at hincreasing
      intro mark hmark
      rcases List.mem_append.1 hmark with hfront | hback
      · have hlt := hincreasing.2.2 _ (List.mem_map_of_mem hfront) last.1 (by simp)
        exact decide_eq_true (Nat.lt_trans hlt hend)
      · rw [List.mem_singleton.1 hback]
        exact decide_eq_true hend
  · rw [hold, List.map_append, List.pairwise_append] at hincreasing
    rw [hnew, hold, List.filter_append, List.filter_eq_self.2]
    · simp
    · intro mark hmark
      exact decide_eq_true (hincreasing.2.2 _ (List.mem_map_of_mem hmark) _ (by simp))

/-- Only marks change the marks. -/
theorem marks_edit {edit : Edit} (h : ∀ p, edit ≠ .mark p) (code : Code) :
    (code.edit edit).marks = code.marks := by
  cases edit with
  | patch site target =>
    obtain ⟨_, hedit, -⟩ := code.edit_patch_eq site target
    rw [hedit]
  | mark p => exact (h p rfl).elim
  | push | addString | addConstant | addLocal => rfl

/-- No edit makes code shorter. -/
theorem size_le_edit (code : Code) (edit : Edit) : code.size ≤ (code.edit edit).size := by
  cases edit with
  | push I => exact Nat.le_of_lt (by simp [Code.edit, size, push])
  | patch site target =>
    obtain ⟨_, hedit, hsize⟩ := code.edit_patch_eq site target
    rw [hedit]
    exact Nat.le_of_eq hsize.symm
  | mark p =>
    rw [Code.edit, mark_eq]
    exact Nat.le_refl _
  | addString | addConstant | addLocal => exact Nat.le_refl _

/-- Nothing is marked in the beginning. -/
theorem marked_empty : Marked [] {} where
  increasing := List.Pairwise.nil
  le_size := by simp
  mem_iff := by simp [LastMark]

/-- A mark is the last one at its instruction. -/
theorem Marked.mark (h : Marked past code) (p : Position) :
    Marked (past ++ [⟨code, .mark p⟩]) (code.mark p) := by
  have hmarks := marks_mark h.increasing h.le_size p
  have hmem : ∀ {mark}, mark ∈ (code.mark p).marks ↔
      (mark ∈ code.marks ∧ mark.1 < code.size) ∨ mark = (code.size, p) := by
    intro mark
    rw [← Array.mem_toList_iff, hmarks]
    simp
  have hsize : (code.mark p).size = code.size := by rw [mark_eq]; rfl
  constructor
  case increasing =>
    rw [hmarks, List.map_append, List.pairwise_append]
    refine ⟨h.increasing.sublist (List.filter_sublist.map _), by simp, ?_⟩
    simp
  case le_size =>
    intro mark hmark
    rw [hsize]
    rcases hmem.1 hmark with ⟨-, hlt⟩ | rfl
    · exact Nat.le_of_lt hlt
    · exact Nat.le_refl _
  case mem_iff =>
    intro index q
    rw [hmem, lastMark_concat, ← h.mem_iff]
    simp only [Edit.mark.injEq, Prod.mk.injEq]
    constructor
    · rintro (⟨hold, hlt⟩ | ⟨rfl, rfl⟩)
      · exact .inr ⟨fun _ _ => Nat.ne_of_gt hlt, hold⟩
      · exact .inl ⟨rfl, rfl⟩
    · rintro (⟨rfl, rfl⟩ | ⟨hne, hold⟩)
      · exact .inr ⟨rfl, rfl⟩
      · exact .inl ⟨hold, Nat.lt_of_le_of_ne (h.le_size _ hold) (hne p rfl).symm⟩

/-- An edit keeps the marks up. -/
theorem Marked.edit (h : Marked past code) (edit : Edit) :
    Marked (past ++ [⟨code, edit⟩]) (code.edit edit) := by
  by_cases hmark : ∃ p, edit = .mark p
  · obtain ⟨p, rfl⟩ := hmark
    exact h.mark p
  · have hother : ∀ p, edit ≠ .mark p := not_exists.1 hmark
    have hmarks := marks_edit hother code
    refine ⟨hmarks ▸ h.increasing, fun mark hmem => ?_, ?_⟩
    · exact Nat.le_trans (h.le_size mark (hmarks ▸ hmem)) (size_le_edit code edit)
    · intro index p
      rw [hmarks, h.mem_iff, lastMark_concat]
      constructor
      · exact fun hlast => .inr ⟨fun q hq => (hother q hq).elim, hlast⟩
      · rintro (⟨hedit, -⟩ | ⟨-, hlast⟩)
        · exact (hother p hedit).elim
        · exact hlast

/-! ### All edits -/

/-- What holds of code that was put together by edits. -/
structure Consistent (past : List Moment) (code : Code) : Prop where
  /-- Strings have numbers. -/
  strings : Numbers id code.strings (Asked .addString addString past)
  /-- Constants have numbers, by their bits. -/
  constants : Numbers Double.bits code.constants (Asked .addConstant addConstant past)
  /-- Local variables have numbers. -/
  locals : Numbers id code.locals (Asked .addLocal addLocal past)
  /-- The marks are in order. -/
  marks : Marked past code
  /-- Each patch failed and changed nothing, or it redirected a branch. -/
  patches : ∀ {before : Code} {site target : UInt64}, ⟨before, .patch site target⟩ ∈ past →
    before.Patched site target (before.edit (.patch site target))

/-- Whatever edits are made to empty code, its tables, marks and branches stay consistent. -/
theorem consistent_after (edits : List Edit) (h : (after {} edits).Addressable) :
    Consistent (history {} edits) (after {} edits) := by
  have hkept {α : Type} [DecidableEq α] (pool : Pool α) :
      pool.Kept (history {} edits) (after {} edits) :=
    history_induction (fun edit h => h.edit edit) edits pool.kept_empty
  constructor
  case strings => exact (hkept Pool.strings).numbers Function.injective_id h.strings
  case constants => exact (hkept Pool.constants).numbers Double.bits_injective h.constants
  case locals => exact (hkept Pool.locals).numbers Function.injective_id h.locals
  case marks => exact history_induction (fun edit h => h.edit edit) edits marked_empty
  case patches =>
    intro before site target _
    exact patched_edit before site target

/-- Numbers that differ in their bits alone, entries that come again, and marks that are made twice. -/
def mixedEdits : List Edit :=
  [.mark ⟨1, 1, 0⟩, .mark ⟨1, 3, 2⟩, .addConstant ⟨0x7ff8000000000000⟩, .addConstant ⟨0⟩,
    .addConstant ⟨0x8000000000000000⟩, .addConstant ⟨0x7ff8000000000000⟩, .addString "hp",
    .addLocal "hp", .addString "mp", .addString "hp", .push (.branchFalse .pending),
    .mark ⟨2, 1, 9⟩, .push (.pushInt 2), .patch 0 2, .patch 1 0]

/-- Edits of all kinds, one after the other. -/
theorem consistent_after_mixed :
    (after {} mixedEdits).Addressable ∧ Consistent (history {} mixedEdits) (after {} mixedEdits) ∧
      (after {} mixedEdits).strings = #["hp", "mp"] ∧ (after {} mixedEdits).constants.size = 3 ∧
      (after {} mixedEdits).marks = #[(0, ⟨1, 3, 2⟩), (1, ⟨2, 1, 9⟩)] ∧
      (after {} mixedEdits).instructions = #[.branchFalse (.relative 2), .pushInt 2] := by
  have h : (after {} mixedEdits).Addressable := by decide +kernel
  exact ⟨h, consistent_after mixedEdits h, by decide +kernel, by decide +kernel, by decide +kernel,
    by decide +kernel⟩

/-- A patch succeeds for the last word, to which no distance leads. -/
theorem patched_in_front :
    ∃ before code : Code,
      ⟨before, .patch 0 0xffffffffffffffff⟩ ∈
        history {} [.push (.branch .pending), .patch 0 0xffffffffffffffff] ∧
      before.patchWord? 0 0xffffffffffffffff = some code ∧
      code.Has 0 (.branch (.relative (-1))) ∧
      (0 : Int) + (-1 : Int32).toInt ≠ (0xffffffffffffffff : UInt64).toNat := by
  refine ⟨push {} (.branch .pending), _, ?_, rfl, rfl, by decide⟩
  exact List.mem_cons_of_mem _ List.mem_cons_self

end Code

end Gml
