import Gml.Proofs.Code.Layout

/-!
# Writing code

What the basic actions of writing code do, seen from the finished code. Code that is being written is
`Code.PartOf` the finished code: the branches that wait for their target are not final, and all the
rest is. `Generator.Waits` lists branches that wait, so that pointing one of them to its target
changes nothing else that counts.

An action that leaves alone what was there `Generator.Extends` it, and one that writes nothing but
some instructions in a row `Generator.Writes` them.
-/

namespace Gml

namespace Code

variable {code whole : Code} {a : Nat}

/-! ### Parts of code -/

namespace PartOf

/-- Code is part of itself. -/
theorem refl (code : Code) : code.PartOf code :=
  ⟨fun h _ => h, id, id, id⟩

/-- A part of a part is a part. -/
theorem trans {c₁ c₂ c₃ : Code} (h : c₁.PartOf c₂) (h' : c₂.PartOf c₃) : c₁.PartOf c₃ :=
  ⟨fun hi hp => h'.has (h.has hi hp) hp, fun hs => h'.strings (h.strings hs),
    fun hc => h'.constants (h.constants hc), fun hl => h'.locals (h.locals hl)⟩

/-- A string keeps its place in the whole code. -/
theorem string {id : UInt32} {s : String} (h : code.PartOf whole) :
    Entry code.strings id s → Entry whole.strings id s := by
  rintro ⟨index, hs, hid⟩
  exact ⟨index, h.strings hs, hid⟩

/-- So does a constant. -/
theorem constant {id : UInt32} {c : Double} (h : code.PartOf whole) :
    Entry code.constants id c → Entry whole.constants id c := by
  rintro ⟨index, hc, hid⟩
  exact ⟨index, h.constants hc, hid⟩

/-- So does a local variable. -/
theorem slot {id : UInt32} {s : String} (h : code.PartOf whole) :
    Entry code.locals id s → Entry whole.locals id s := by
  rintro ⟨index, hl, hid⟩
  exact ⟨index, h.locals hl, hid⟩

/-- Code is part of the code with an instruction more. -/
theorem push (code : Code) (I : Instruction) : code.PartOf (code.push I) :=
  ⟨fun h _ => has_push.2 (.inl ⟨h.lt, h⟩), id, id, id⟩

end PartOf

/-- Code is the start of longer code, but for branches that wait and for marks at its end. -/
structure StartOf (code code' : Code) : Prop extends PartOf code code' where
  /-- The code does not get shorter. -/
  size_le : code.size ≤ code'.size
  /-- Of the marks only those at the end may be replaced. -/
  marks : code'.marks.toList.filter (·.1 < code.size) = code.marks.toList.filter (·.1 < code.size)

/-- Lists that agree on some marks agree on fewer of them. -/
theorem filter_marks_of_imp {P Q : Nat × Position → Bool} {marks marks' : List (Nat × Position)}
    (h : marks'.filter Q = marks.filter Q) (himp : ∀ mark, P mark = true → Q mark = true) :
    marks'.filter P = marks.filter P := by
  have hboth (marks : List (Nat × Position)) : (marks.filter Q).filter P = marks.filter P := by
    rw [List.filter_filter]
    refine List.filter_congr fun mark _ => ?_
    rw [Bool.and_eq_left_iff_imp]
    exact himp mark
  rw [← hboth marks', h, hboth]

/-- Code is the start of itself. -/
theorem StartOf.refl (code : Code) : code.StartOf code :=
  ⟨.refl code, Nat.le_refl _, rfl⟩

/-- A start of a start is a start. -/
theorem StartOf.trans {c₁ c₂ c₃ : Code} (h : c₁.StartOf c₂) (h' : c₂.StartOf c₃) :
    c₁.StartOf c₃ := by
  refine ⟨h.toPartOf.trans h'.toPartOf, Nat.le_trans h.size_le h'.size_le, ?_⟩
  -- A mark before the end of the first code is one before the end of the second.
  have hkept := filter_marks_of_imp h'.marks (P := (·.1 < c₁.size)) fun mark hmark =>
    decide_eq_true (Nat.lt_of_lt_of_le (of_decide_eq_true hmark) h.size_le)
  exact hkept.trans h.marks

/-- A mark works on the marks alone. -/
theorem mark_eq (code : Code) (p : Position) :
    code.mark p = { code with marks := (code.mark p).marks } := by
  unfold mark
  dsimp only
  split
  · split <;> rfl
  · rfl

/-- A mark comes after the others, in place of one at the same instruction. -/
theorem exists_marks_mark (code : Code) (p : Position) : ∃ earlier,
    (code.mark p).marks.toList = earlier ++ [(code.size, p)] ∧
      ((code.marks.toList = earlier ∧ ∀ last ∈ earlier.getLast?, last.1 ≠ code.size) ∨
        ∃ q, code.marks.toList = earlier ++ [(code.size, q)]) := by
  unfold mark
  dsimp only
  rw [← Array.getLast?_toList]
  split
  next last hlast =>
    obtain ⟨earlier, hsplit⟩ := List.getLast?_eq_some_iff.1 hlast
    split
    next hsame =>
      refine ⟨earlier, ?_, .inr ⟨last.2, by rw [hsplit, ← hsame]⟩⟩
      rw [Array.toList_push, Array.toList_pop, hsplit, List.dropLast_concat]
    next hne =>
      refine ⟨_, Array.toList_push, .inl ⟨rfl, ?_⟩⟩
      rintro _ hmem
      obtain rfl := Option.some.inj (hlast.symm.trans hmem)
      exact hne
  next hnone => exact ⟨_, Array.toList_push, .inl ⟨rfl, by simp [hnone]⟩⟩

/-- A mark makes room only for another one at the same instruction. -/
theorem filter_marks_mark (code : Code) (p : Position) :
    (code.mark p).marks.toList.filter (·.1 ≠ code.size) =
      code.marks.toList.filter (·.1 ≠ code.size) := by
  obtain ⟨earlier, hnew, ⟨hold, -⟩ | ⟨q, hold⟩⟩ := exists_marks_mark code p
  · simp [hnew, hold]
  · simp [hnew, hold]

/-! ### Targets -/

/-- The distance is what leads from the branch to the target. -/
theorem distance?_eq_some_iff {site : Nat} {target : Int} {d : Int32} :
    distance? site target = some d ↔ (site : Int) + d.toInt = target := by
  unfold distance?
  simp only [Option.ite_none_right_eq_some, Option.some.injEq]
  constructor
  · rintro ⟨⟨hlo, hhi⟩, rfl⟩
    rw [Int32.toInt_minValue] at hlo
    rw [Int32.toInt_maxValue] at hhi
    rw [Int32.toInt_ofInt_of_le (by omega) (by omega)]
    omega
  · rintro rfl
    have hcancel : (site : Int) + d.toInt - site = d.toInt := by omega
    rw [hcancel, Int32.ofInt_toInt]
    exact ⟨⟨d.minValue_le_toInt, d.toInt_le⟩, rfl⟩

/-- Code gets a target exactly if there is a branch at the site and a distance that leads there. -/
theorem patch?_eq_some_iff {code' : Code} {site : Nat} {target : Int} :
    code.patch? site target = some code' ↔
      ∃ (d : Int32) (I J : Instruction), (site : Int) + d.toInt = target ∧ code.Has site I ∧
        I.withJump? (.relative d) = some J ∧
        code' = { code with instructions := code.instructions.setIfInBounds site J } := by
  simp only [patch?, Option.bind_eq_bind, Option.bind_eq_some_iff, Option.pure_def,
    Option.some.injEq, distance?_eq_some_iff]
  constructor
  · rintro ⟨I, hI, d, hd, J, hJ, rfl⟩
    exact ⟨d, I, J, hd, hI, hJ, rfl⟩
  · rintro ⟨d, I, J, hd, hI, hJ, rfl⟩
    exact ⟨I, hI, d, hd, J, hJ, rfl⟩

end Code

/-! ### Branches that wait -/

/-- A branch that waits for its target: where it stands and what it is. -/
abbrev Gap := Nat × Instruction

/-- Different branches of the code that all wait for their target. -/
structure Code.Waits (code : Code) (sites : List Gap) : Prop where
  /-- They are different. -/
  nodup : (sites.map Prod.fst).Nodup
  /-- They stand in the code. -/
  has : ∀ site ∈ sites, code.Has site.1 site.2
  /-- They wait. -/
  pending : ∀ site ∈ sites, site.2.jump? = some .pending

namespace Code.Waits

variable {code code' : Code} {W W' : List Gap}

/-- No branch has to wait. -/
theorem nil (code : Code) : code.Waits [] :=
  ⟨List.nodup_nil, by simp, by simp⟩

/-- Branches go on waiting where all instructions stay. -/
theorem of_has (h : code.Waits W) (hc : ∀ {i I}, code.Has i I → code'.Has i I) : code'.Waits W :=
  ⟨h.nodup, fun site hs => hc (h.has site hs), h.pending⟩

/-- The order of the waiting branches is no matter. -/
theorem perm (h : code.Waits W) (hp : W.Perm W') : code.Waits W' :=
  ⟨(hp.map Prod.fst).nodup h.nodup, fun site hs => h.has site (hp.mem_iff.2 hs),
    fun site hs => h.pending site (hp.mem_iff.2 hs)⟩

/-- Some of the waiting branches wait. -/
theorem right (W : List Gap) (h : code.Waits (W ++ W')) : code.Waits W' :=
  ⟨by
    have := h.nodup
    rw [List.map_append, List.nodup_append] at this
    exact this.2.1, fun site hs => h.has site (List.mem_append_right W hs),
    fun site hs => h.pending site (List.mem_append_right W hs)⟩

/-- A branch without a target waits. -/
theorem push {I : Instruction} (h : code.Waits W) (hI : I.jump? = some .pending) :
    (code.push I).Waits ((code.size, I) :: W) where
  nodup := by
    rw [List.map_cons, List.nodup_cons]
    refine ⟨?_, h.nodup⟩
    intro hmem
    obtain ⟨site, hs, hi⟩ := List.mem_map.1 hmem
    exact Nat.lt_irrefl _ (hi ▸ (h.has site hs).lt)
  has := by
    rintro site hs
    rcases List.mem_cons.1 hs with rfl | hs
    · exact has_push.2 (.inr ⟨rfl, rfl⟩)
    · exact has_push.2 (.inl ⟨(h.has site hs).lt, h.has site hs⟩)
  pending := by
    rintro site hs
    rcases List.mem_cons.1 hs with rfl | hs
    · exact hI
    · exact h.pending site hs

end Code.Waits

/-! ### Actions that write -/

namespace Generator

/-- What was written before is left alone. -/
structure Extends (g g' : Generator) : Prop where
  /-- The constructs around are the same. -/
  frames : g'.frames = g.frames
  /-- The code does not get shorter. -/
  size_le : g.code.size ≤ g'.code.size
  /-- Branches go on waiting. -/
  waits : ∀ {W : List Gap}, g.code.Waits W → g'.code.Waits W
  /-- All else stays. -/
  part : g.code.PartOf g'.code
  /-- No local variable gets a second place. -/
  nodup : g.code.locals.toList.Nodup → g'.code.locals.toList.Nodup

/-- Instructions are written in a row, and nothing else. -/
structure Writes (g g' : Generator) (written : List Instruction) : Prop extends Extends g g' where
  /-- The code gets longer by them. -/
  size_eq : g'.code.size = g.code.size + written.length
  /-- The finished code has them. -/
  segment : ∀ {code : Code}, g'.code.PartOf code → code.Segment g.code.size written

/-- Code that is extended without a mark is a start. -/
theorem Extends.startOf {g g' : Generator} (h : g.Extends g')
    (hmarks : g'.code.marks = g.code.marks) : g.code.StartOf g'.code :=
  ⟨h.part, h.size_le, by rw [hmarks]⟩

/-- Branches are pointed to a target. -/
structure Points (g g' : Generator) (sites : List Nat) (I : Instruction) (target : Nat) : Prop where
  /-- The constructs around are the same. -/
  frames : g'.frames = g.frames
  /-- The code is as long as before. -/
  size_eq : g'.code.size = g.code.size
  /-- So are the local variables. -/
  locals : g'.code.locals = g.code.locals
  /-- All else stays. -/
  part : g.code.PartOf g'.code
  /-- In the finished code the branches lead to the target. -/
  leads : ∀ site ∈ sites, ∃ jump : Jump, jump.Leads site target ∧
    ∀ {J : Instruction}, I.withJump? jump = some J →
      ∀ {code : Code}, g'.code.PartOf code → code.Has site J

variable {g g' g'' : Generator}

/-- Nothing is an extension. -/
theorem Extends.refl (g : Generator) : g.Extends g :=
  ⟨rfl, Nat.le_refl _, id, .refl _, id⟩

/-- Extensions add up. -/
theorem Extends.trans (h : g.Extends g') (h' : g'.Extends g'') : g.Extends g'' :=
  ⟨h'.frames.trans h.frames, Nat.le_trans h.size_le h'.size_le, fun w => h'.waits (h.waits w),
    h.part.trans h'.part, fun n => h'.nodup (h.nodup n)⟩

/-- So do the instructions that are written. -/
theorem Writes.append {xs ys : List Instruction} (h : g.Writes g' xs) (h' : g'.Writes g'' ys) :
    g.Writes g'' (xs ++ ys) where
  toExtends := h.toExtends.trans h'.toExtends
  size_eq := by rw [h'.size_eq, h.size_eq, List.length_append, Nat.add_assoc]
  segment hc := Code.segment_append.2
    ⟨h.segment (h'.part.trans hc), h.size_eq ▸ h'.segment hc⟩

end Generator

namespace Generate

open Generator

variable {α β : Type} {g g' g'' : Generator}

/-- To give a value changes nothing. -/
theorem gives_pure {a b : α} : Gives (pure a) g b g' ↔ b = a ∧ g' = g := by
  change Except.ok (a, g) = .ok (b, g') ↔ _
  rw [Except.ok.injEq, Prod.mk.injEq, eq_comm, @eq_comm _ g]

/-- A sequence gives what its second action gives. -/
theorem gives_bind {x : Generate α} {f : α → Generate β} {b : β} :
    Gives (x >>= f) g b g'' ↔ ∃ a g', Gives x g a g' ∧ Gives (f a) g' b g'' := by
  simp only [Gives, StateT.run_bind]
  rcases x.run g with _ | ⟨a, g'⟩
  · simp [Except.bind, bind]
  · simp only [bind, Except.bind, Except.ok.injEq, Prod.mk.injEq]
    constructor
    · intro h
      exact ⟨a, g', ⟨rfl, rfl⟩, h⟩
    · rintro ⟨_, _, ⟨rfl, rfl⟩, h⟩
      exact h

variable {p : Position} {u : Unit} {I : Instruction} {target : Nat}

/-- Nothing comes of a failure. -/
theorem gives_fail {fault : Fault} {a : α} : ¬ Gives (fail fault p) g a g' := by
  intro h
  cases h

/-- The state can be looked at. -/
theorem gives_get {a : Generator} : Gives get g a g' ↔ a = g ∧ g' = g := by
  constructor
  · intro h
    cases h
    exact ⟨rfl, rfl⟩
  · rintro ⟨rfl, rfl⟩
    rfl

/-- The state can be replaced. -/
theorem gives_set {s : Generator} : Gives (set s) g u g' ↔ g' = s := by
  constructor
  · intro h
    cases h
    rfl
  · rintro rfl
    rfl

/-- The state can be changed. -/
theorem gives_modify {f : Generator → Generator} : Gives (modify f) g u g' ↔ g' = f g := by
  constructor
  · intro h
    cases h
    rfl
  · rintro rfl
    rfl

/-- The next instruction comes at the end. -/
theorem gives_here {n : Nat} : Gives here g n g' ↔ n = g.code.size ∧ g = g' := by
  simp only [here, gives_bind, gives_get, gives_pure]
  constructor
  · rintro ⟨_, _, ⟨rfl, rfl⟩, rfl, rfl⟩
    exact ⟨rfl, rfl⟩
  · rintro ⟨rfl, rfl⟩
    exact ⟨g, g, ⟨rfl, rfl⟩, rfl, rfl⟩

/-! ### Instructions -/

/-- A branch is added at the end, and gives its place. -/
theorem gives_emit {n : Nat} :
    Gives (emit I) g n g' ↔ n = g.code.size ∧ g' = { g with code := g.code.push I } := by
  simp only [emit, gives_bind, gives_get, gives_set, gives_pure]
  constructor
  · rintro ⟨_, _, ⟨rfl, rfl⟩, -, _, rfl, rfl, rfl⟩
    exact ⟨rfl, rfl⟩
  · rintro ⟨rfl, rfl⟩
    exact ⟨g, g, ⟨rfl, rfl⟩, (), _, rfl, rfl, rfl⟩

/-- An instruction more is an extension. -/
theorem extends_push (g : Generator) (I : Instruction) :
    g.Extends { g with code := g.code.push I } where
  frames := rfl
  size_le := by simp [Code.size, Code.push]
  waits w := w.of_has fun h => Code.has_push.2 (.inl ⟨h.lt, h⟩)
  part := .push g.code I
  nodup := id

/-- A branch that is written waits, after all those before it. -/
theorem emit_gives {n : Nat} (h : Gives (emit I) g n g') :
    g.Extends g' ∧ n = g.code.size ∧ g'.code.size = g.code.size + 1 ∧
      (I.jump? = some .pending → ∀ {W : List Gap}, g.code.Waits W →
        g'.code.Waits ((n, I) :: W)) := by
  obtain ⟨rfl, rfl⟩ := gives_emit.1 h
  refine ⟨extends_push g I, rfl, ?_, fun hI _ w => w.push hI⟩
  simp [Code.size, Code.push]

/-- To write an instruction adds it. -/
theorem write_gives (h : Gives (write I) g u g') (hI : I.jump? ≠ some .pending) :
    g.Writes g' [I] := by
  simp only [write, gives_bind, gives_emit, gives_pure] at h
  obtain ⟨n, _, ⟨rfl, rfl⟩, -, rfl⟩ := h
  refine ⟨extends_push g I, by simp [Code.size, Code.push], ?_⟩
  intro code hc
  exact ⟨hc.has (Code.has_push.2 (.inr ⟨rfl, rfl⟩)) hI, trivial⟩

/-- A mark adds no instruction. -/
theorem mark_gives (h : Gives (mark p) g u g') : g.Writes g' [] := by
  obtain rfl := gives_modify.1 h
  rw [Code.mark_eq]
  refine ⟨⟨rfl, Nat.le_refl _, fun w => ?_, ⟨fun h _ => h, id, id, id⟩, id⟩, rfl, fun _ => trivial⟩
  exact w.of_has fun h => h

/-! ### Tables -/

variable {γ : Type} [DecidableEq γ]

/-- An entry of a table is found under its number. -/
theorem getElem?_intern (table : Array γ) (entry : γ) :
    (intern table entry).2[(intern table entry).1]? = some entry := by
  unfold intern
  cases h : table.idxOf? entry with
  | none => exact Array.getElem?_push_size
  | some index =>
    rw [Array.idxOf?_eq_map_finIdxOf?_val, Option.map_eq_some_iff] at h
    obtain ⟨i, hi, rfl⟩ := h
    rw [Array.finIdxOf?_eq_some_iff] at hi
    exact Array.getElem?_eq_some_iff.2 ⟨i.isLt, hi.1⟩

/-- Earlier entries keep their numbers. -/
theorem intern_keeps (table : Array γ) (entry : γ) {i : Nat} {e : γ} (h : table[i]? = some e) :
    (intern table entry).2[i]? = some e := by
  unfold intern
  cases table.idxOf? entry with
  | none =>
    have hlt := (Array.getElem?_eq_some_iff.1 h).1
    rw [Array.getElem?_push_lt hlt, ← Array.getElem?_eq_getElem hlt]
    exact h
  | some index => exact h

/-- No entry comes twice. -/
theorem intern_nodup (table : Array γ) (entry : γ) (h : table.toList.Nodup) :
    (intern table entry).2.toList.Nodup := by
  unfold intern
  cases hidx : table.idxOf? entry with
  | none =>
    rw [Array.idxOf?_eq_map_finIdxOf?_val, Option.map_eq_none_iff, Array.finIdxOf?_eq_none_iff]
      at hidx
    rw [Array.toList_push, List.nodup_append]
    refine ⟨h, by simp, ?_⟩
    rintro a ha b hb rfl
    exact hidx (Array.mem_toList_iff.1 (List.mem_singleton.1 hb ▸ ha))
  | some index => exact h

/-- Work on the tables alone. -/
theorem writes_tables {c : Code} (hi : c.instructions = g.code.instructions)
    (hp : g.code.PartOf c) (hn : g.code.locals.toList.Nodup → c.locals.toList.Nodup) :
    g.Writes { g with code := c } [] where
  frames := rfl
  size_le := by simp [Code.size, hi]
  waits w := w.of_has fun h => by simpa [Code.Has, hi] using h
  part := hp
  nodup := hn
  size_eq := by simp [Code.size, hi]
  segment _ := trivial

/-- A string is in the table under the number it gets. -/
theorem string_gives {s : String} {id : UInt32} (h : Gives (string s) g id g') :
    g.Writes g' [] ∧ Entry g'.code.strings id s := by
  cases h
  refine ⟨writes_tables rfl ⟨fun h _ => h, ?_, fun h => h, fun h => h⟩ fun h => h, _,
    getElem?_intern g.code.strings s, rfl⟩
  exact intern_keeps g.code.strings s

/-- So is a constant. -/
theorem constant_gives {c : Double} {id : UInt32} (h : Gives (constant c) g id g') :
    g.Writes g' [] ∧ Entry g'.code.constants id c := by
  cases h
  refine ⟨writes_tables rfl ⟨fun h _ => h, fun h => h, ?_, fun h => h⟩ fun h => h, _,
    getElem?_intern g.code.constants c, rfl⟩
  exact intern_keeps g.code.constants c

/-- So is a local variable. -/
theorem slot_gives {s : String} {id : UInt32} (h : Gives (slot s) g id g') :
    g.Writes g' [] ∧ Entry g'.code.locals id s := by
  cases h
  refine ⟨writes_tables rfl ⟨fun h _ => h, fun h => h, fun h => h, ?_⟩ ?_, _,
    getElem?_intern g.code.locals s, rfl⟩
  · exact intern_keeps g.code.locals s
  · exact intern_nodup g.code.locals s

/-- So is a temporary variable. -/
theorem temporary_gives {id : UInt32} (h : Gives temporary g id g') :
    g.Writes g' [] ∧ ∃ n, Entry g'.code.locals id (temporaryName n) := by
  simp only [temporary, gives_bind, gives_get, gives_set] at h
  obtain ⟨_, _, ⟨rfl, rfl⟩, -, _, rfl, h⟩ := h
  obtain ⟨hw, he⟩ := slot_gives h
  exact ⟨⟨⟨hw.frames, hw.size_le, hw.waits, hw.part, hw.nodup⟩, hw.size_eq, hw.segment⟩, _, he⟩

/-- A count that is given fits into a byte. -/
theorem byteCount_gives {what : String} {count : Nat} {n : UInt8}
    (h : Gives (byteCount what count p) g n g') :
    count < UInt8.size ∧ n = .ofNat count ∧ g' = g := by
  unfold byteCount at h
  split at h
  · exact ⟨‹_›, gives_pure.1 h⟩
  · exact (gives_fail h).elim

/-- A count that is given fits into a word. -/
theorem wordCount_gives {what : String} {count : Nat} {n : UInt32}
    (h : Gives (wordCount what count p) g n g') :
    count < UInt32.size ∧ n = .ofNat count ∧ g' = g := by
  unfold wordCount at h
  split at h
  · exact ⟨‹_›, gives_pure.1 h⟩
  · exact (gives_fail h).elim

/-! ### Pointing branches to their targets -/

/-- An instruction with a new target has that target. -/
theorem jump?_withJump {J : Instruction} {jump : Jump} (h : I.withJump? jump = some J) :
    J.jump? = some jump := by
  cases I <;> simp only [Instruction.withJump?, Option.some.injEq, reduceCtorEq] at h <;>
    · subst h; rfl

/-- Being careful rules out some targets, and changes none. -/
theorem patch?_of_careful {site : Nat} {code : Code} (h : g.patch? site target = some code) :
    g.code.patch? site target = some code := by
  unfold Generator.patch? at h
  split at h
  · cases h
  · exact h

/-- To point a branch changes that branch only. -/
theorem gives_patch {site : Nat} (h : Gives (patch site target p) g u g') :
    ∃ (d : Int32) (I J : Instruction), (site : Int) + d.toInt = target ∧ g.code.Has site I ∧
      I.withJump? (.relative d) = some J ∧
      g' = { g with code :=
        { g.code with instructions := g.code.instructions.setIfInBounds site J } } := by
  simp only [patch, gives_bind, gives_get] at h
  obtain ⟨_, _, ⟨rfl, rfl⟩, h⟩ := h
  split at h
  next code hcode =>
    obtain ⟨d, I, J, hd, hI, hJ, rfl⟩ := Code.patch?_eq_some_iff.1 (patch?_of_careful hcode)
    exact ⟨d, I, J, hd, hI, hJ, gives_set.1 h⟩
  next => exact (gives_fail h).elim

/-- Pointing a branch that waits to its target leaves alone the others. -/
theorem patch_gives {site : Nat} {W : List Gap} (h : Gives (patch site target p) g u g')
    (w : g.code.Waits ((site, I) :: W)) : g.Points g' [site] I target ∧ g'.code.Waits W := by
  obtain ⟨d, I', J, hd, hI', hJ, rfl⟩ := gives_patch h
  have hI : g.code.Has site I := w.has _ List.mem_cons_self
  obtain rfl : I = I' := Option.some.inj (hI.symm.trans hI')
  have hother : ∀ {i K}, i ≠ site → g.code.Has i K →
      Code.Has { g.code with instructions := g.code.instructions.setIfInBounds site J } i K := by
    intro i K hne hK
    unfold Code.Has
    rw [Array.getElem?_setIfInBounds, if_neg (Ne.symm hne)]
    exact hK
  have hself :
      Code.Has { g.code with instructions := g.code.instructions.setIfInBounds site J } site J := by
    unfold Code.Has
    rw [Array.getElem?_setIfInBounds, if_pos rfl]
    exact if_pos hI.lt
  have hn := w.nodup
  rw [List.map_cons, List.nodup_cons] at hn
  refine ⟨⟨rfl, by simp [Code.size], rfl, ⟨?_, id, id, id⟩, ?_⟩, hn.2, ?_, ?_⟩
  · intro i K hK hp
    refine hother ?_ hK
    rintro rfl
    obtain rfl : I = K := Option.some.inj (hI.symm.trans hK)
    exact hp (w.pending _ List.mem_cons_self)
  · intro s hs
    obtain rfl := List.mem_singleton.1 hs
    refine ⟨.relative d, ⟨d, rfl, hd⟩, ?_⟩
    intro K hK code hc
    obtain rfl : J = K := Option.some.inj (hJ.symm.trans hK)
    exact hc.has hself (by rw [jump?_withJump hJ]; simp)
  · intro gap hgap
    refine hother ?_ (w.has gap (List.mem_cons_of_mem _ hgap))
    rintro rfl
    exact hn.1 (List.mem_map.2 ⟨gap, hgap, rfl⟩)
  · intro gap hgap
    exact w.pending gap (List.mem_cons_of_mem _ hgap)

/-- A branch is pointed to what comes next. -/
theorem patchHere_gives {site : Nat} {W : List Gap} (h : Gives (patchHere site p) g u g')
    (w : g.code.Waits ((site, I) :: W)) : g.Points g' [site] I g.code.size ∧ g'.code.Waits W := by
  simp only [patchHere, gives_bind, gives_here] at h
  obtain ⟨_, _, ⟨rfl, rfl⟩, h⟩ := h
  exact patch_gives h w

/-- Several branches are pointed to one target. -/
theorem patchAll_gives {sites : List Nat} {W : List Gap}
    (h : Gives (patchAll sites target p) g u g') (w : g.code.Waits (sites.map (·, I) ++ W)) :
    g.Points g' sites I target ∧ g'.code.Waits W := by
  induction sites generalizing g with
  | nil =>
    obtain ⟨-, rfl⟩ := gives_pure.1 h
    exact ⟨⟨rfl, rfl, rfl, .refl _, by simp⟩, w⟩
  | cons site sites ih =>
    change Gives (patch site target p >>= fun _ => patchAll sites target p) g u g' at h
    obtain ⟨_, g₁, h₁, h⟩ := gives_bind.1 h
    obtain ⟨hp, w₁⟩ := patch_gives h₁ w
    obtain ⟨hq, w'⟩ := ih h w₁
    refine ⟨⟨hq.frames.trans hp.frames, hq.size_eq.trans hp.size_eq, hq.locals.trans hp.locals,
      hp.part.trans hq.part, ?_⟩, w'⟩
    intro s hs
    rcases List.mem_cons.1 hs with rfl | hs
    · obtain ⟨jump, hl, hJ⟩ := hp.leads s (List.mem_singleton.2 rfl)
      exact ⟨jump, hl, fun hw code hc => hJ hw (hq.part.trans hc)⟩
    · exact hq.leads s hs

/-- A branch to a target that is known. -/
theorem branchBack_gives (hI : I.jump? = some .pending) (h : Gives (branchBack I target p) g u g') :
    g.Extends g' ∧ g'.code.size = g.code.size + 1 ∧
      ∃ jump : Jump, jump.Leads g.code.size target ∧
        ∀ {J : Instruction}, I.withJump? jump = some J →
          ∀ {code : Code}, g'.code.PartOf code → code.Has g.code.size J := by
  simp only [branchBack, gives_bind] at h
  obtain ⟨site, g₁, h₁, h⟩ := h
  obtain ⟨hx, rfl, hsize, hw⟩ := emit_gives h₁
  have key : ∀ {W : List Gap}, g.code.Waits W → _ := fun w => patch_gives h (hw hI w)
  obtain ⟨hp, -⟩ := key (.nil g.code)
  refine ⟨⟨hp.frames.trans hx.frames, ?_, fun w => (key w).2, hx.part.trans hp.part, ?_⟩, ?_,
    hp.leads _ (List.mem_singleton.2 rfl)⟩
  · rw [hp.size_eq]
    exact hx.size_le
  · rw [hp.locals]
    exact hx.nodup
  · rw [hp.size_eq, hsize]

end Generate

end Gml
