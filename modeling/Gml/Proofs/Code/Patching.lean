import Gml.Proofs.Code.Frame
import Gml.Proofs.Code.Size
import Gml.Proofs.Outcome

/-!
# Branches on the way to their targets

While code is being written, some branches wait for their targets. Here it is stated which ones:
those that the constructs around the next statement collect in their frames, and a list of others
that the construct at hand knows about. All other branches lead to an instruction of the code so far
or to its end. This is `Generator.InOrder`, which every action keeps.

`Generate.Runs` says what an action does from a state on, in both ways that it can end. If it
succeeds, the code is the start of longer code (`Code.StartOf`), by a number of instructions that is
known before. If it fails, then not because of a branch, as long as the code is not too long for the
distances that branches can hold (`maxCodeSize`); and if the tree is as the stages before leave it,
then only because something is too large to be written. Either way, it does the same if it is careful
and points only branches that wait (`Generate.Careful`), and the places that it tells of, in the marks
of the code or in a message, are places of the tree.
-/

namespace Gml

/-- The number of instructions that branches cannot be relied on to pass. -/
def maxCodeSize : Nat :=
  2147483648

/-- Whether a fault is about branches and frames, which a tree has no influence on. -/
def Fault.isPatching : Fault → Bool
  | frameUnderflow | neverPatched .. | notBranch .. => true
  | _ => false

/-- A fault that may come up: it is not about branches, and if all is well with the tree then
something is too large. -/
structure Fault.Excused (ok : Prop) (fault : Fault) : Prop where
  patching : fault.isPatching = false
  stage : ok → fault.stage = .assembly

/-- What is promised of a tree: it is as the stages before leave it, and its places are of a kind. -/
structure Promise where
  holds : Prop
  place : Position → Prop

/-- Nothing is promised. -/
def Promise.none : Promise :=
  ⟨False, fun _ => True⟩

/-- So much is promised of a place. -/
abbrev Promise.At (ok : Promise) (p : Position) : Prop :=
  ok.holds → ok.place p

/-! ### The state of writing code -/

/-- The branches that wait for a construct. -/
def Frame.sites (frame : Frame) : List Nat :=
  frame.breaks ++ frame.continues

/-- They get their targets one kind after the other. -/
theorem Frame.sites_perm (frame : Frame) (R : List Nat) :
    (frame.sites ++ R).Perm (frame.continues ++ (frame.breaks ++ R)) := by
  rw [Frame.sites, ← List.append_assoc]
  exact List.perm_append_comm.append_right R

namespace Generator

/-- The state of writing code carefully. -/
def wary (g : Generator) : Generator :=
  { g with careful := true }

/-- The branches that wait for the constructs around the next statement. -/
def sites (g : Generator) : List Nat :=
  g.frames.flatMap Frame.sites

/-- The constructs around the next statement are of given kinds, and the branches that wait are
theirs and the given others. -/
structure InOrder (kinds : List FrameKind) (others : List Nat) (g : Generator) : Prop where
  /-- The kinds of the constructs. -/
  kinds : g.frames.map Frame.kind = kinds
  /-- No branch waits for two things. -/
  nodup : (others ++ g.sites).Nodup
  /-- These branches wait, and no others. -/
  waits : ∀ i, i ∈ others ++ g.sites ↔ ∃ I, g.code.Has i I ∧ I.jump? = some .pending
  /-- The other branches lead to the code so far or to its end. -/
  leads : ∀ i I distance, g.code.Has i I → I.jump? = some (.relative distance) →
    ∃ target ≤ g.code.size, (i : Int) + distance.toInt = target
  /-- Statements start in the code so far or at its end. -/
  marks : ∀ mark ∈ g.code.marks, mark.1 ≤ g.code.size
  /-- A switch has no next round. -/
  rounds : ∀ frame ∈ g.frames, frame.kind = .switch → frame.continues = []

variable {kinds : List FrameKind} {R R' : List Nat} {g g' : Generator}

/-- In the beginning nothing waits. -/
theorem inOrder_start : InOrder [] [] {} where
  kinds := rfl
  nodup := List.nodup_nil
  waits i := by simp [sites, Code.Has]
  leads i I distance h := by simp [Code.Has] at h
  marks := by simp
  rounds := by simp

/-- The order of the other branches is no matter. -/
theorem InOrder.perm (h : g.InOrder kinds R) (hp : R.Perm R') : g.InOrder kinds R' where
  kinds := h.kinds
  nodup := (hp.append_right _).nodup h.nodup
  waits i := (hp.append_right g.sites).mem_iff.symm.trans (h.waits i)
  leads := h.leads
  marks := h.marks
  rounds := h.rounds

/-- Work on the tables alone changes nothing. -/
theorem InOrder.of_tables (h : g.InOrder kinds R) (hf : g'.frames = g.frames)
    (hi : g'.code.instructions = g.code.instructions) (hm : g'.code.marks = g.code.marks) :
    g'.InOrder kinds R := by
  have hsize : g'.code.size = g.code.size := congrArg Array.size hi
  have hhas : ∀ i I, g'.code.Has i I ↔ g.code.Has i I := fun i I => by
    unfold Code.Has
    rw [hi]
  have hsites : g'.sites = g.sites := congrArg (·.flatMap Frame.sites) hf
  constructor
  case kinds => rw [hf, h.kinds]
  case nodup => rw [hsites]; exact h.nodup
  case waits =>
    intro i
    rw [hsites, h.waits i]
    simp only [hhas]
  case leads =>
    intro i I distance hI hjump
    rw [hsize]
    exact h.leads i I distance ((hhas i I).1 hI) hjump
  case marks =>
    rw [hm, hsize]
    exact h.marks
  case rounds =>
    rw [hf]
    exact h.rounds

/-- An instruction more makes code longer by one. -/
theorem size_push (code : Code) (I : Instruction) : (code.push I).size = code.size + 1 := by
  simp [Code.size, Code.push]

/-- A branch that waits is in the code. -/
theorem InOrder.lt_of_mem (h : g.InOrder kinds R) {i : Nat} (hi : i ∈ R ++ g.sites) :
    i < g.code.size := by
  obtain ⟨I, hI, -⟩ := (h.waits i).1 hi
  exact hI.lt

/-- Targets are still in the code after an instruction more. -/
theorem InOrder.leads_push (h : g.InOrder kinds R) {I : Instruction}
    (hI : ∀ distance, I.jump? ≠ some (.relative distance)) {i : Nat} {J : Instruction}
    {distance : Int32} (hJ : (g.code.push I).Has i J)
    (hjump : J.jump? = some (.relative distance)) :
    ∃ target ≤ (g.code.push I).size, (i : Int) + distance.toInt = target := by
  rcases Code.has_push.1 hJ with ⟨-, hJ⟩ | ⟨-, rfl⟩
  · obtain ⟨target, hle, heq⟩ := h.leads i J distance hJ hjump
    exact ⟨target, by rw [size_push]; omega, heq⟩
  · exact (hI distance hjump).elim

/-- So are marks. -/
theorem InOrder.marks_push (h : g.InOrder kinds R) (I : Instruction) :
    ∀ mark ∈ (g.code.push I).marks, mark.1 ≤ (g.code.push I).size := by
  intro mark hmark
  rw [size_push]
  exact Nat.le_succ_of_le (h.marks mark hmark)

/-- An instruction that is no branch changes nothing. -/
theorem InOrder.push (h : g.InOrder kinds R) {I : Instruction} (hI : I.jump? = none) :
    InOrder kinds R { g with code := g.code.push I } where
  kinds := h.kinds
  nodup := h.nodup
  waits i := by
    refine (h.waits i).trans ⟨?_, ?_⟩
    · rintro ⟨J, hJ, hpending⟩
      exact ⟨J, Code.has_push.2 (.inl ⟨hJ.lt, hJ⟩), hpending⟩
    · rintro ⟨J, hJ, hpending⟩
      rcases Code.has_push.1 hJ with ⟨-, hJ⟩ | ⟨-, rfl⟩
      · exact ⟨J, hJ, hpending⟩
      · rw [hI] at hpending
        cases hpending
  leads i J distance hJ hjump := h.leads_push (by simp [hI]) hJ hjump
  marks := h.marks_push I
  rounds := h.rounds

/-- A branch without a target waits. -/
theorem InOrder.push_pending (h : g.InOrder kinds R) {I : Instruction}
    (hI : I.jump? = some .pending) :
    InOrder kinds (g.code.size :: R) { g with code := g.code.push I } where
  kinds := h.kinds
  nodup := List.nodup_cons.2 ⟨fun hmem => Nat.lt_irrefl _ (h.lt_of_mem hmem), h.nodup⟩
  waits i := by
    rw [List.cons_append, List.mem_cons]
    constructor
    · rintro (rfl | hi)
      · exact ⟨I, Code.has_push.2 (.inr ⟨rfl, rfl⟩), hI⟩
      · obtain ⟨J, hJ, hpending⟩ := (h.waits i).1 hi
        exact ⟨J, Code.has_push.2 (.inl ⟨hJ.lt, hJ⟩), hpending⟩
    · rintro ⟨J, hJ, hpending⟩
      rcases Code.has_push.1 hJ with ⟨-, hJ⟩ | ⟨rfl, -⟩
      · exact .inr ((h.waits i).2 ⟨J, hJ, hpending⟩)
      · exact .inl rfl
  leads i J distance hJ hjump := h.leads_push (by simp [hI]) hJ hjump
  marks := h.marks_push I
  rounds := h.rounds

/-- After a mark there is one at the end, and the earlier ones. -/
theorem mem_marks_mark {code : Code} {p : Position} {mark : Nat × Position}
    (h : mark ∈ (code.mark p).marks) : mark ∈ code.marks ∨ mark = (code.size, p) := by
  obtain ⟨earlier, hnew, hold⟩ := code.exists_marks_mark p
  rw [← Array.mem_toList_iff, hnew, List.mem_append, List.mem_singleton] at h
  refine h.imp_left fun hmem => ?_
  rw [← Array.mem_toList_iff]
  rcases hold with ⟨hold, -⟩ | ⟨q, hold⟩ <;> simp [hold, hmem]

/-- A mark leaves the instructions alone. -/
theorem instructions_mark (code : Code) (p : Position) :
    (code.mark p).instructions = code.instructions := by
  rw [code.mark_eq]

/-- The start of a statement is marked in the code so far or at its end. -/
theorem InOrder.mark (h : g.InOrder kinds R) (p : Position) :
    InOrder kinds R { g with code := g.code.mark p } := by
  -- All but the marks is as if they were left alone.
  have hsame : InOrder kinds R { g with code := { g.code.mark p with marks := g.code.marks } } :=
    h.of_tables rfl (instructions_mark g.code p) rfl
  refine ⟨hsame.kinds, hsame.nodup, hsame.waits, hsame.leads, fun mark hmark => ?_, hsame.rounds⟩
  have hsize : (g.code.mark p).size = g.code.size :=
    congrArg Array.size (instructions_mark g.code p)
  rcases mem_marks_mark hmark with hmark | rfl
  · exact hsize ▸ h.marks mark hmark
  · exact Nat.le_of_eq hsize.symm

variable {frames : List Frame}

/-- Branches are handed over to frames or taken from them. -/
theorem InOrder.withFrames (h : g.InOrder kinds R)
    (hp : (R ++ g.sites).Perm (R' ++ frames.flatMap Frame.sites))
    (hr : ∀ frame ∈ frames, frame.kind = .switch → frame.continues = []) :
    InOrder (frames.map Frame.kind) R' { g with frames } where
  kinds := rfl
  nodup := hp.nodup h.nodup
  waits i := hp.mem_iff.symm.trans (h.waits i)
  leads := h.leads
  marks := h.marks
  rounds := hr

/-- Nothing waits for a construct that is entered. -/
theorem InOrder.enter (h : g.InOrder kinds R) (kind : FrameKind) :
    InOrder (kind :: kinds) R { g with frames := { kind } :: g.frames } := by
  rw [← h.kinds, ← List.map_cons (f := Frame.kind) (a := { kind })]
  refine h.withFrames ?_ (List.forall_mem_cons.2 ⟨fun _ => rfl, h.rounds⟩)
  exact .refl _

/-- What waits for a construct is known when it is left. -/
theorem InOrder.leave {kind : FrameKind} {frame : Frame} (h : g.InOrder (kind :: kinds) R)
    (hframes : g.frames = frame :: frames) :
    InOrder kinds (frame.sites ++ R) { g with frames } ∧
      (kind = .switch → frame.continues = []) := by
  have hkinds := h.kinds
  have hrounds := h.rounds
  rw [hframes, List.map_cons] at hkinds
  rw [hframes] at hrounds
  obtain ⟨hkind, rfl⟩ := List.cons.inj hkinds
  obtain ⟨hround, hrounds⟩ := List.forall_mem_cons.1 hrounds
  refine ⟨h.withFrames ?_ hrounds, fun hswitch => hround (hkind.trans hswitch)⟩
  rw [sites, hframes, List.flatMap_cons, ← List.append_assoc]
  exact List.perm_append_comm.append_right _

/-- A `break` waits for the innermost construct. -/
theorem InOrder.addBreak {site : Nat} {frame : Frame} (h : g.InOrder kinds (site :: R))
    (hframes : g.frames = frame :: frames) :
    InOrder kinds R
      { g with frames := { frame with breaks := site :: frame.breaks } :: frames } := by
  have hrounds := h.rounds
  rw [hframes] at hrounds
  have hkinds : ({ frame with breaks := site :: frame.breaks } :: frames).map Frame.kind =
      kinds := by
    rw [← h.kinds, hframes, List.map_cons, List.map_cons]
  rw [← hkinds]
  refine h.withFrames ?_ (List.forall_mem_cons.2 (List.forall_mem_cons.1 hrounds))
  rw [sites, hframes]
  exact List.perm_middle.symm

/-- A `continue` waits for a construct that has rounds. -/
theorem InOrder.addContinue {site : Nat} {frame : Frame} {crossed outer : List Frame}
    (h : g.InOrder kinds (site :: R)) (hframes : g.frames = crossed ++ frame :: outer)
    (hkind : frame.kind ≠ .switch) :
    InOrder kinds R
      { g with frames :=
        crossed ++ { frame with continues := site :: frame.continues } :: outer } := by
  have hrounds := h.rounds
  rw [hframes] at hrounds
  have hkinds : (crossed ++ { frame with continues := site :: frame.continues } :: outer).map
      Frame.kind = kinds := by
    rw [← h.kinds, hframes, List.map_append, List.map_append, List.map_cons, List.map_cons]
  rw [← hkinds]
  refine h.withFrames ?_ fun other hother hswitch => ?_
  · rw [sites, hframes, List.perm_iff_count]
    intro i
    simp [Frame.sites, List.flatMap_append, List.count_cons]
    omega
  · rcases List.mem_append.1 hother with hother | hother
    · exact hrounds other (List.mem_append_left _ hother) hswitch
    rcases List.mem_cons.1 hother with rfl | hother
    · exact (hkind hswitch).elim
    · exact hrounds other (List.mem_append_right _ (List.mem_cons_of_mem _ hother)) hswitch

end Generator

/-- One instruction is replaced, and the others stay. -/
theorem Code.has_set {code : Code} {site : Nat} {J : Instruction} (hsite : site < code.size)
    {i : Nat} {K : Instruction} :
    Code.Has { code with instructions := code.instructions.setIfInBounds site J } i K ↔
      (i ≠ site ∧ code.Has i K) ∨ (i = site ∧ K = J) := by
  unfold Code.Has
  rw [Array.getElem?_setIfInBounds]
  by_cases hi : site = i
  · subst hi
    rw [if_pos rfl, if_pos (show site < code.instructions.size from hsite)]
    constructor
    · intro h
      exact .inr ⟨rfl, (Option.some.inj h).symm⟩
    · rintro (⟨hne, -⟩ | ⟨-, rfl⟩)
      · exact (hne rfl).elim
      · rfl
  · rw [if_neg hi]
    constructor
    · intro h
      exact .inl ⟨Ne.symm hi, h⟩
    · rintro (⟨-, h⟩ | ⟨rfl, -⟩)
      · exact h
      · exact (hi rfl).elim

/-- A branch that waits may get a target. -/
theorem Code.StartOf.set {code : Code} {site : Nat} {I : Instruction} (hI : code.Has site I)
    (hpending : I.jump? = some .pending) (J : Instruction) :
    code.StartOf { code with instructions := code.instructions.setIfInBounds site J } := by
  refine ⟨⟨fun {i K} hK hnot => ?_, id, id, id⟩, by simp [Code.size], rfl⟩
  refine (Code.has_set hI.lt).2 (.inl ⟨?_, hK⟩)
  rintro rfl
  cases Option.some.inj (hI.symm.trans hK)
  exact hnot hpending

/-- A branch that gets its target no longer waits. -/
theorem Generator.InOrder.set {kinds : List FrameKind} {R : List Nat} {g : Generator}
    {site target : Nat} (h : g.InOrder kinds (site :: R)) (htarget : target ≤ g.code.size)
    {J : Instruction} {distance : Int32} (hJ : J.jump? = some (.relative distance))
    (hdistance : (site : Int) + distance.toInt = target) :
    InOrder kinds R { g with code :=
      { g.code with instructions := g.code.instructions.setIfInBounds site J } } := by
  have hsite : site < g.code.size := h.lt_of_mem List.mem_cons_self
  have hsize : Code.size { g.code with
      instructions := g.code.instructions.setIfInBounds site J } = g.code.size := by
    simp [Code.size]
  have hnodup := List.nodup_cons.1 h.nodup
  constructor
  case kinds => exact h.kinds
  case nodup => exact hnodup.2
  case waits =>
    intro i
    constructor
    · intro hi
      obtain ⟨I, hI, hpending⟩ := (h.waits i).1 (List.mem_cons_of_mem _ hi)
      have hne : i ≠ site := by
        rintro rfl
        exact hnodup.1 hi
      exact ⟨I, (Code.has_set hsite).2 (.inl ⟨hne, hI⟩), hpending⟩
    · rintro ⟨I, hI, hpending⟩
      rcases (Code.has_set hsite).1 hI with ⟨hne, hI⟩ | ⟨-, rfl⟩
      · exact (List.mem_cons.1 ((h.waits i).2 ⟨I, hI, hpending⟩)).resolve_left hne
      · rw [hJ] at hpending
        cases hpending
  case leads =>
    intro i I other hI hjump
    rw [hsize]
    rcases (Code.has_set hsite).1 hI with ⟨-, hI⟩ | ⟨rfl, rfl⟩
    · exact h.leads i I other hI hjump
    · rw [hJ] at hjump
      cases hjump
      exact ⟨target, htarget, hdistance⟩
  case marks =>
    rw [hsize]
    exact h.marks
  case rounds => exact h.rounds

/-! ### Marks -/

namespace Code

/-- The first instruction is the start of a statement. -/
def IsOpened (code : Code) : Prop :=
  ∃ mark ∈ code.marks, mark.1 = 0

/-- Later code has its marks from earlier code or in some places, and stays opened. -/
structure MarkedFrom (P : Position → Prop) (code code' : Code) : Prop where
  marks : ∀ mark ∈ code'.marks, mark ∈ code.marks ∨ P mark.2
  opened : code.IsOpened → code'.IsOpened

variable {P : Position → Prop} {code code' code'' : Code}

/-- Without a new mark nothing changes. -/
theorem MarkedFrom.of_eq (h : code'.marks = code.marks) : MarkedFrom P code code' := by
  refine ⟨fun mark hmark => .inl (h ▸ hmark), ?_⟩
  rintro ⟨mark, hmark, hzero⟩
  exact ⟨mark, h ▸ hmark, hzero⟩

/-- Marks add up. -/
theorem MarkedFrom.trans (h : MarkedFrom P code code') (h' : MarkedFrom P code' code'') :
    MarkedFrom P code code'' := by
  refine ⟨fun mark hmark => ?_, fun hopened => h'.opened (h.opened hopened)⟩
  rcases h'.marks mark hmark with hmark | hplace
  · exact h.marks mark hmark
  · exact .inr hplace

/-- A mark is one of the marks. -/
theorem mem_marks_self (code : Code) (p : Position) : (code.size, p) ∈ (code.mark p).marks := by
  obtain ⟨earlier, hnew, -⟩ := code.exists_marks_mark p
  rw [← Array.mem_toList_iff, hnew]
  exact List.mem_append_right _ List.mem_cons_self

/-- Marks of earlier instructions stay. -/
theorem mem_marks_of_ne {mark : Nat × Position} (hmark : mark ∈ code.marks)
    (hne : mark.1 ≠ code.size) (p : Position) : mark ∈ (code.mark p).marks := by
  have hmem : mark ∈ code.marks.toList.filter (·.1 ≠ code.size) :=
    List.mem_filter.2 ⟨Array.mem_toList_iff.2 hmark, decide_eq_true hne⟩
  rw [← filter_marks_mark code p] at hmem
  exact Array.mem_toList_iff.1 (List.mem_filter.1 hmem).1

/-- A mark in such a place may be added. -/
theorem markedFrom_mark (code : Code) {p : Position} (h : P p) :
    MarkedFrom P code (code.mark p) := by
  refine ⟨fun mark hmark => ?_, ?_⟩
  · rcases Generator.mem_marks_mark hmark with hmark | rfl
    · exact .inl hmark
    · exact .inr h
  · rintro ⟨mark, hmark, hzero⟩
    by_cases hsize : mark.1 = code.size
    · exact ⟨(code.size, p), mem_marks_self code p, hsize.symm.trans hzero⟩
    · exact ⟨mark, mem_marks_of_ne hmark hsize p, hzero⟩

end Code

/-! ### Actions -/

namespace Generate

open Generator FrameKind

variable {α β : Type} {ok : Promise} {n m : Nat} {g : Generator} {P Q : α → Generator → Prop}

/-- From a state on an action does the same if it points only branches that wait. -/
def Careful (x : Generate α) (g : Generator) : Prop :=
  x.run g.wary = (x.run g).map fun result => (result.1, result.2.wary)

variable {p : Position} {x : Generate α} {site target : Nat} {f : α → Generate β}
  {S : β → Generator → Prop}

/-- One careful action after another. -/
theorem Careful.bind (hx : Careful x g) (hf : ∀ a g', Gives x g a g' → Careful (f a) g') :
    Careful (x >>= f) g := by
  unfold Careful
  rw [StateT.run_bind, StateT.run_bind, show x.run g.wary = _ from hx]
  cases hrun : x.run g with
  | error diagnostic => rfl
  | ok result => exact hf result.1 result.2 hrun

/-- What an action does from a state on: it adds so many instructions to the code and ends in a
state of which something is known, or fails because of a fault that is excused. It only points
branches that wait, and tells of places that are promised. -/
structure Runs (ok : Promise) (n : Nat) (x : Generate α) (g : Generator)
    (Q : α → Generator → Prop) : Prop where
  gives : ∀ a g', Gives x g a g' → g'.code.size = g.code.size + n ∧ Q a g'
  keeps : ∀ a g', Gives x g a g' → g.code.StartOf g'.code
  marks : ∀ a g', Gives x g a g' → ok.holds → Code.MarkedFrom ok.place g.code g'.code
  fails : ∀ diagnostic, x.run g = .error diagnostic → g.code.size + n < maxCodeSize →
    diagnostic.fault.Excused ok.holds
  tells : ∀ diagnostic, x.run g = .error diagnostic → ok.holds →
    ok.place diagnostic.position ∧ diagnostic.stage ≠ .lexical
  careful : Careful x g

/-- An action keeps the state in order and adds so many instructions. -/
abbrev Adds (ok : Promise) (kinds : List FrameKind) (n : Nat) (x : Generate α) : Prop :=
  ∀ (g : Generator) (R : List Nat), g.InOrder kinds R →
    Runs ok n x g fun _ g' => g'.InOrder kinds R

/-- A value may be given. -/
theorem runs_pure {a : α} (h : Q a g) : Runs ok 0 (pure a) g Q where
  gives b g' hgives := by
    obtain ⟨rfl, rfl⟩ := gives_pure.1 hgives
    exact ⟨rfl, h⟩
  keeps b g' hgives := by
    obtain ⟨-, rfl⟩ := gives_pure.1 hgives
    exact .refl _
  marks b g' hgives _ := by
    obtain ⟨-, rfl⟩ := gives_pure.1 hgives
    exact .of_eq rfl
  fails diagnostic hfails := by cases hfails
  tells diagnostic hfails := by cases hfails
  careful := rfl

/-- A fault that is excused may come up. -/
theorem runs_fail {fault : Fault} (hpatching : fault.isPatching = false)
    (h : ok.holds → fault.stage = .assembly ∧ ok.place p) : Runs ok n (fail fault p) g Q where
  gives a g' hgives := (gives_fail hgives).elim
  keeps a g' hgives := (gives_fail hgives).elim
  marks a g' hgives := (gives_fail hgives).elim
  fails diagnostic hfails _ := by
    cases hfails
    exact ⟨hpatching, fun hyes => (h hyes).1⟩
  tells diagnostic hfails hyes := by
    cases hfails
    refine ⟨(h hyes).2, ?_⟩
    rw [Diagnostic.stage, (h hyes).1]
    exact nofun
  careful := rfl

/-- What is known of the end may be weakened. -/
theorem Runs.imp (h : Runs ok n x g P) (hPQ : ∀ a g', P a g' → Q a g') : Runs ok n x g Q where
  gives a g' hgives := ⟨(h.gives a g' hgives).1, hPQ a g' (h.gives a g' hgives).2⟩
  keeps := h.keeps
  marks := h.marks
  fails := h.fails
  tells := h.tells
  careful := h.careful

/-- The number of instructions may be written in another way. -/
theorem Runs.of_eq (h : Runs ok n x g Q) (hn : n = m) : Runs ok m x g Q :=
  hn ▸ h

/-- One action after another. -/
theorem Runs.bind (hx : Runs ok n x g P)
    (hf : ∀ a g', g'.code.size = g.code.size + n → P a g' → Runs ok m (f a) g' S) :
    Runs ok (n + m) (x >>= f) g S where
  gives b g'' hgives := by
    obtain ⟨a, g', hfirst, hrest⟩ := gives_bind.1 hgives
    obtain ⟨hsize, hP⟩ := hx.gives a g' hfirst
    obtain ⟨hsize', hS⟩ := (hf a g' hsize hP).gives b g'' hrest
    exact ⟨by omega, hS⟩
  keeps b g'' hgives := by
    obtain ⟨a, g', hfirst, hrest⟩ := gives_bind.1 hgives
    obtain ⟨hsize, hP⟩ := hx.gives a g' hfirst
    exact (hx.keeps a g' hfirst).trans ((hf a g' hsize hP).keeps b g'' hrest)
  marks b g'' hgives hyes := by
    obtain ⟨a, g', hfirst, hrest⟩ := gives_bind.1 hgives
    obtain ⟨hsize, hP⟩ := hx.gives a g' hfirst
    exact (hx.marks a g' hfirst hyes).trans ((hf a g' hsize hP).marks b g'' hrest hyes)
  fails diagnostic hfails hbound := by
    rw [StateT.run_bind] at hfails
    rcases error_of_bind hfails with hfails | ⟨result, hrun, hfails⟩
    · exact hx.fails _ hfails (by omega)
    · obtain ⟨hsize, hP⟩ := hx.gives result.1 result.2 hrun
      exact (hf result.1 result.2 hsize hP).fails diagnostic hfails (by omega)
  tells diagnostic hfails := by
    rw [StateT.run_bind] at hfails
    rcases error_of_bind hfails with hfails | ⟨result, hrun, hfails⟩
    · exact hx.tells _ hfails
    · obtain ⟨hsize, hP⟩ := hx.gives result.1 result.2 hrun
      exact (hf result.1 result.2 hsize hP).tells diagnostic hfails
  careful := hx.careful.bind fun a g' hfirst =>
    (hf a g' (hx.gives a g' hfirst).1 (hx.gives a g' hfirst).2).careful

/-- A look at the state comes first. -/
theorem Runs.after {a : α} (h : Runs ok n (f a) g S) (hx : x.run g = .ok (a, g))
    (hwary : (x >>= f).run g.wary = (f a).run g.wary) : Runs ok n (x >>= f) g S := by
  have hrun : (x >>= f).run g = (f a).run g := by
    rw [StateT.run_bind, hx]
    rfl
  refine ⟨fun b g' hgives => h.gives b g' (hrun.symm.trans hgives),
    fun b g' hgives => h.keeps b g' (hrun.symm.trans hgives),
    fun b g' hgives => h.marks b g' (hrun.symm.trans hgives),
    fun diagnostic hfails => h.fails diagnostic (hrun.symm.trans hfails),
    fun diagnostic hfails => h.tells diagnostic (hrun.symm.trans hfails), ?_⟩
  unfold Careful
  rw [hwary, hrun]
  exact h.careful

/-- A value may be given first. -/
theorem runs_pure_bind {a : α} (h : Runs ok n (f a) g S) : Runs ok n (pure a >>= f) g S :=
  h.after rfl rfl

/-- The state may be looked at, but not at how careful it is. -/
theorem runs_get_bind {f : Generator → Generate α} (h : Runs ok n (f g) g Q)
    (hwary : f g.wary = f g) : Runs ok n (get >>= f) g Q := by
  refine h.after rfl ?_
  rw [← hwary]
  rfl

/-- The end of the code may be asked for. -/
theorem runs_here_bind {f : Nat → Generate α} (h : Runs ok n (f g.code.size) g Q) :
    Runs ok n (here >>= f) g Q :=
  h.after rfl rfl

/-! ### Instructions and tables -/

variable {kinds : List FrameKind} {R : List Nat}

/-- An action that cannot fail and gives no target. -/
theorem runs_of_run {a : α} {g' : Generator} (hrun : x.run g = .ok (a, g'))
    (hwary : x.run g.wary = .ok (a, g'.wary)) (hsize : g'.code.size = g.code.size + n)
    (hstart : g.code.StartOf g'.code) (hmarked : ok.holds → Code.MarkedFrom ok.place g.code g'.code)
    (hQ : Q a g') : Runs ok n x g Q where
  gives b g'' hgives := by
    cases hrun.symm.trans hgives
    exact ⟨hsize, hQ⟩
  keeps b g'' hgives := by
    cases hrun.symm.trans hgives
    exact hstart
  marks b g'' hgives := by
    cases hrun.symm.trans hgives
    exact hmarked
  fails diagnostic hfails := by
    cases hrun.symm.trans hfails
  tells diagnostic hfails := by
    cases hrun.symm.trans hfails
  careful := by
    unfold Careful
    rw [hwary, hrun]
    rfl

/-- An action that leaves the instructions and the marks alone. -/
theorem runs_aside {a : α} {g' : Generator} (hrun : x.run g = .ok (a, g'))
    (hwary : x.run g.wary = .ok (a, g'.wary)) (hsame : g'.code.instructions = g.code.instructions)
    (hstart : g.code.StartOf g'.code) (hmarks : g'.code.marks = g.code.marks) (hQ : Q a g') :
    Runs ok 0 x g Q :=
  runs_of_run hrun hwary (congrArg Array.size hsame) hstart (fun _ => .of_eq hmarks) hQ

/-- The frames may be changed. -/
theorem runs_modify {f : Generator → Generator} {Q : Unit → Generator → Prop}
    (hsame : (f g).code = g.code) (hwary : f g.wary = (f g).wary) (hQ : Q () (f g)) :
    Runs ok 0 (modify f) g Q :=
  runs_aside rfl (congrArg (fun g' => Except.ok ((), g')) hwary) (congrArg Code.instructions hsame)
    (hsame ▸ .refl _) (congrArg Code.marks hsame) hQ

/-- A branch without a target. -/
theorem runs_emit (I : Instruction) (hI : I.jump? = some .pending) (h : g.InOrder kinds R) :
    Runs ok 1 (emit I) g fun site g' => g'.frames = g.frames ∧ g'.InOrder kinds (site :: R) :=
  runs_of_run rfl rfl (size_push g.code I) ((extends_push g I).startOf rfl)
    (fun _ => .of_eq rfl) ⟨rfl, h.push_pending hI⟩

/-- An instruction that is no branch. -/
theorem runs_write (I : Instruction) (hI : I.jump? = none) (h : g.InOrder kinds R) :
    Runs ok 1 (write I) g fun _ g' => g'.frames = g.frames ∧ g'.InOrder kinds R :=
  runs_of_run rfl rfl (size_push g.code I) ((extends_push g I).startOf rfl) (fun _ => .of_eq rfl)
    ⟨rfl, h.push hI⟩

/-- It keeps the state in order. -/
theorem adds_write (I : Instruction) (hI : I.jump? = none) : Adds ok kinds 1 (write I) :=
  fun _ _ h => (runs_write I hI h).imp fun _ _ h' => h'.2

/-- Code is the start of code with a mark more. -/
theorem startOf_mark (g : Generator) (p : Position) : g.code.StartOf (g.code.mark p) := by
  have hwrites : g.Writes { g with code := g.code.mark p } [] := mark_gives (p := p) rfl
  refine ⟨hwrites.part, hwrites.size_le, ?_⟩
  refine Code.filter_marks_of_imp (Code.filter_marks_mark g.code p) fun mark hmark => ?_
  exact decide_eq_true (Nat.ne_of_lt (of_decide_eq_true hmark))

/-- A mark keeps the state in order. -/
theorem adds_mark (hp : ok.At p) : Adds ok kinds 0 (mark p) :=
  fun g _ h => runs_of_run rfl rfl (congrArg Array.size (instructions_mark g.code p))
    (startOf_mark g p) (fun hyes => Code.markedFrom_mark g.code (hp hyes)) (h.mark p)

/-- A string in the table does so, too. -/
theorem adds_string (s : String) : Adds ok kinds 0 (string s) :=
  fun _ _ h => runs_aside rfl rfl rfl ((string_gives rfl).1.startOf rfl) rfl
    (h.of_tables rfl rfl rfl)

/-- So does a constant. -/
theorem adds_constant (c : Double) : Adds ok kinds 0 (constant c) :=
  fun _ _ h => runs_aside rfl rfl rfl ((constant_gives rfl).1.startOf rfl) rfl
    (h.of_tables rfl rfl rfl)

/-- So does a local variable. -/
theorem adds_slot (name : String) : Adds ok kinds 0 (slot name) :=
  fun _ _ h => runs_aside rfl rfl rfl ((slot_gives rfl).1.startOf rfl) rfl
    (h.of_tables rfl rfl rfl)

/-- So does a temporary variable. -/
theorem adds_temporary : Adds ok kinds 0 temporary :=
  fun _ _ h => runs_aside rfl rfl rfl ((temporary_gives rfl).1.startOf rfl) rfl
    (h.of_tables rfl rfl rfl)

/-- A count that has to fit into a byte. -/
theorem runs_byteCount {what : String} {count : Nat} (hp : ok.At p)
    (h : g.InOrder kinds R) :
    Runs ok 0 (byteCount what count p) g fun byte g' =>
      byte = UInt8.ofNat count ∧ g'.InOrder kinds R := by
  unfold byteCount
  by_cases hcount : count < UInt8.size
  · rw [if_pos hcount]
    exact runs_pure ⟨rfl, h⟩
  · rw [if_neg hcount]
    exact runs_fail rfl fun hyes => ⟨rfl, hp hyes⟩

/-- A count that has to fit into a word. -/
theorem adds_wordCount {what : String} {count : Nat} (hp : ok.At p) :
    Adds ok kinds 0 (wordCount what count p) := by
  intro g R h
  unfold wordCount
  by_cases hcount : count < UInt32.size
  · rw [if_pos hcount]
    exact runs_pure h
  · rw [if_neg hcount]
    exact runs_fail rfl fun hyes => ⟨rfl, hp hyes⟩

/-! ### Targets -/

/-- Code that is short enough can be passed by a branch. -/
theorem exists_distance (hsite : site < maxCodeSize) (htarget : target < maxCodeSize) :
    ∃ d : Int32, (site : Int) + d.toInt = target := by
  unfold maxCodeSize at hsite htarget
  refine ⟨Int32.ofInt (target - site), ?_⟩
  rw [Int32.toInt_ofInt_of_le (by omega) (by omega)]
  omega

/-- Every branch can be given another target. -/
theorem exists_withJump {I : Instruction} {jump : Jump} (hI : I.jump? = some jump)
    (target : Jump) : ∃ J, I.withJump? target = some J := by
  cases I <;> first | exact ⟨_, rfl⟩ | cases hI

/-- A branch that is known to wait does. -/
theorem InOrder.waitsAt (h : g.InOrder kinds (site :: R)) : g.code.waitsAt site = true := by
  obtain ⟨I, hI, hpending⟩ := (h.waits site).1 List.mem_cons_self
  refine decide_eq_true ?_
  rw [show g.code.instructions[site]? = some I from hI]
  exact hpending

/-- It is no matter whether a branch that waits is pointed carefully. -/
theorem patch?_of_waitsAt (h : g.code.waitsAt site = true) :
    g.patch? site target = g.code.patch? site target := by
  unfold Generator.patch?
  rw [h, Bool.not_true, Bool.and_false]
  rfl

/-- So it is no matter how careful the state is. -/
theorem careful_patch (h : g.code.waitsAt site = true) : Careful (patch site target p) g := by
  have hwary : g.wary.patch? site target = g.patch? site target :=
    (patch?_of_waitsAt (g := g.wary) h).trans (patch?_of_waitsAt h).symm
  unfold Careful
  simp only [patch, StateT.run_bind, StateT.run_get, pure_bind, hwary]
  cases g.patch? site target <;> rfl

/-- A branch that waits can get a target. -/
theorem exists_patched (p : Position) (htarget : target ≤ g.code.size)
    (h : g.InOrder kinds (site :: R)) (hbound : g.code.size < maxCodeSize) :
    ∃ code, (patch site target p).run g = .ok ((), { g with code }) := by
  obtain ⟨I, hI, hpending⟩ := (h.waits site).1 List.mem_cons_self
  obtain ⟨distance, hdistance⟩ :=
    exists_distance (Nat.lt_trans hI.lt hbound) (Nat.lt_of_le_of_lt htarget hbound)
  obtain ⟨J, hJ⟩ := exists_withJump hpending (.relative distance)
  have hcode := (patch?_of_waitsAt (InOrder.waitsAt h)).trans
    (Code.patch?_eq_some_iff.2 ⟨distance, I, J, hdistance, hI, hJ, rfl⟩)
  refine ⟨{ g.code with instructions := g.code.instructions.setIfInBounds site J }, ?_⟩
  simp only [patch, StateT.run_bind, StateT.run_get, pure_bind]
  rw [hcode]
  rfl

/-- A branch that waits gets its target. -/
theorem runs_patch (hp : ok.At p) (htarget : target ≤ g.code.size)
    (h : g.InOrder kinds (site :: R)) :
    Runs ok 0 (patch site target p) g fun _ g' => g'.InOrder kinds R where
  gives _ g' hgives := by
    obtain ⟨distance, I, J, hdistance, -, hJ, rfl⟩ := gives_patch hgives
    exact ⟨by simp [Code.size], h.set htarget (jump?_withJump hJ) hdistance⟩
  keeps _ g' hgives := by
    obtain ⟨distance, I, J, hdistance, -, hJ, rfl⟩ := gives_patch hgives
    obtain ⟨K, hK, hpending⟩ := (h.waits site).1 List.mem_cons_self
    exact .set hK hpending J
  marks _ g' hgives _ := by
    obtain ⟨_, _, _, -, -, -, rfl⟩ := gives_patch hgives
    exact .of_eq rfl
  fails diagnostic hfails hbound := by
    obtain ⟨code, hrun⟩ := exists_patched p htarget h hbound
    cases hrun.symm.trans hfails
  tells diagnostic hfails hyes := by
    simp only [patch, StateT.run_bind, StateT.run_get, pure_bind] at hfails
    cases hcode : g.patch? site target with
    | none =>
      rw [hcode] at hfails
      cases hfails
      exact ⟨hp hyes, by rintro ⟨⟩⟩
    | some code =>
      rw [hcode] at hfails
      cases hfails
  careful := careful_patch (InOrder.waitsAt h)

/-- A branch that waits is pointed to what comes next. -/
theorem runs_patchHere (hp : ok.At p) (h : g.InOrder kinds (site :: R)) :
    Runs ok 0 (patchHere site p) g fun _ g' => g'.InOrder kinds R :=
  runs_here_bind (runs_patch hp (Nat.le_refl _) h)

/-- Several branches that wait get one target. -/
theorem runs_patchAll {sites : List Nat} (hp : ok.At p)
    (htarget : target ≤ g.code.size) (h : g.InOrder kinds (sites ++ R)) :
    Runs ok 0 (patchAll sites target p) g fun _ g' => g'.InOrder kinds R := by
  induction sites generalizing g with
  | nil => exact runs_pure h
  | cons site sites ih =>
    show Runs ok (0 + 0) (patch site target p >>= fun _ => patchAll sites target p) g _
    refine (runs_patch hp htarget h).bind fun _ g₁ hsize h₁ => ih ?_ h₁
    omega

/-- A branch whose target is known. -/
theorem runs_branchBack {I : Instruction} (hp : ok.At p)
    (hI : I.jump? = some .pending) (htarget : target ≤ g.code.size) (h : g.InOrder kinds R) :
    Runs ok 1 (branchBack I target p) g fun _ g' => g'.InOrder kinds R :=
  (runs_emit I hI h).bind fun _ _ hsize h₁ => runs_patch hp (by omega) h₁.2

/-! ### Frames -/

/-- The inside of a construct. After it the branches that its frame has collected are known. -/
theorem runs_inFrame {kind : FrameKind} {body : Generate Unit} {R' : List Nat} (hbody : ∀ g :
      Generator, g.InOrder (kind :: kinds) R → Runs ok n body g fun _ g' => g'.InOrder (kind ::
      kinds) R') (h : g.InOrder kinds R) :
    Runs ok n (inFrame kind p body) g fun frame g' =>
      g'.InOrder kinds (frame.sites ++ R') ∧ (kind = .switch → frame.continues = []) := by
  have hpush : Runs ok 0 (modify fun generator =>
      { generator with frames := { kind } :: generator.frames }) g
      fun _ g' => g'.InOrder (kind :: kinds) R := runs_modify rfl rfl (h.enter kind)
  refine (hpush.bind fun _ g₁ _ h₁ => (hbody g₁ h₁).bind (m := 0) fun _ g₂ _ h₂ => ?_).of_eq
    (Nat.zero_add n)
  cases hframes : g₂.frames with
  | nil =>
    have hkinds := h₂.kinds
    rw [hframes] at hkinds
    cases hkinds
  | cons frame frames =>
    have hwary : g₂.wary.frames = frame :: frames := hframes
    have hleave := h₂.leave hframes
    refine runs_aside (a := frame) ?_ ?_ (by rfl) (by exact .refl _) (by rfl) hleave
    · simp only [StateT.run_bind, StateT.run_get, pure_bind, hframes]
      rfl
    · simp only [StateT.run_bind, StateT.run_get, pure_bind, hwary]
      rfl

/-- A branch that is handed over to the innermost frame. -/
theorem adds_breakBranch {hand : Nat → Generator → Generator} (hkinds : kinds ≠ [])
    (hhand : ∀ site g frame frames, g.frames = frame :: frames → hand site g =
      { g with frames := { frame with breaks := site :: frame.breaks } :: frames }) :
    Adds ok kinds 1 (emit (.branch .pending) >>= fun site => modify (hand site)) := by
  intro g R h
  refine (runs_emit (.branch .pending) rfl h).bind (m := 0) fun site g₁ _ h₁ => ?_
  cases hframes : g₁.frames with
  | nil =>
    have hnil := h₁.2.kinds
    rw [hframes] at hnil
    exact (hkinds hnil.symm).elim
  | cons frame frames =>
    have hgiven := hhand site g₁ frame frames hframes
    refine runs_modify ?_ ?_ ?_
    · rw [hgiven]
    · rw [hgiven, hhand site g₁.wary frame frames hframes]
      rfl
    · rw [hgiven]
      exact h₁.2.addBreak hframes

/-- A `break` leaves the innermost construct. -/
theorem adds_breakOut (hok : ok.holds → kinds ≠ []) :
    Adds ok kinds (breakSize kinds) (breakOut p) := by
  intro g R h
  refine runs_get_bind ?_ rfl
  have hkinds := h.kinds
  cases hframes : g.frames with
  | nil =>
    rw [hframes] at hkinds
    exact runs_fail rfl fun hyes => absurd hkinds.symm (hok hyes)
  | cons frame frames =>
    rw [hframes, List.map_cons] at hkinds
    have hne : kinds ≠ [] := by
      rw [← hkinds]
      exact List.cons_ne_nil _ _
    dsimp only
    by_cases hkind : frame.kind = .within
    · have hsize : breakSize kinds = 2 := by
        rw [breakSize, ← hkinds, List.head?_cons, hkind, if_pos rfl]
      rw [if_pos hkind, hsize]
      refine (adds_write .popEnvExit rfl g R h).bind fun _ g₁ _ h₁ =>
        adds_breakBranch hne (fun site g' frame frames hframes => ?_) g₁ R h₁
      rw [hframes]
    · have hsize : breakSize kinds = 1 := by
        rw [breakSize, ← hkinds, List.head?_cons, if_neg fun heq => hkind (Option.some.inj heq)]
      rw [if_neg hkind, hsize]
      refine adds_breakBranch hne (fun site g' frame frames hframes => ?_) g R h
      rw [hframes]

/-- One value is dropped for each switch on the way. -/
theorem runs_drops (l : List Frame) (h : g.InOrder kinds R) :
    Runs ok l.length (l.forM fun _ => write .popz) g
      fun _ g' => g'.frames = g.frames ∧ g'.InOrder kinds R := by
  induction l generalizing g with
  | nil => exact runs_pure ⟨rfl, h⟩
  | cons frame l ih =>
    refine ((runs_write .popz rfl h).bind fun _ g₁ _ h₁ => ?_).of_eq (Nat.add_comm 1 l.length)
    exact (ih h₁.2).imp fun _ _ h₂ => ⟨h₂.1.trans h₁.1, h₂.2⟩

/-- A `continue` goes on with the innermost loop. -/
theorem adds_continueOn (hok : ok.holds → ∃ kind ∈ kinds, kind ≠ .switch) :
    Adds ok kinds (crossedCount kinds + 1) (continueOn p) := by
  intro g R h
  refine runs_get_bind ?_ rfl
  dsimp only
  have hsplit := List.takeWhile_append_dropWhile (p := fun frame : Frame => frame.kind = .switch)
    (l := g.frames)
  have hcount : (g.frames.takeWhile fun frame => frame.kind = .switch).length =
      crossedCount kinds := by
    rw [crossedCount, ← h.kinds, List.takeWhile_map, List.length_map]
    rfl
  rw [drop_length_takeWhile]
  cases hrest : g.frames.dropWhile fun frame => frame.kind = .switch with
  | nil =>
    refine runs_fail rfl fun hyes => ?_
    obtain ⟨kind, hmem, hne⟩ := hok hyes
    rw [← h.kinds] at hmem
    obtain ⟨frame, hframe, rfl⟩ := List.mem_map.1 hmem
    rw [hrest, List.append_nil] at hsplit
    rw [← hsplit] at hframe
    exact (hne (of_decide_eq_true (List.all_eq_true.1 List.all_takeWhile frame hframe))).elim
  | cons frame outer =>
    rw [hrest] at hsplit
    have hkind : frame.kind ≠ .switch := by
      have := List.head?_dropWhile_not (fun frame : Frame => decide (frame.kind = .switch)) g.frames
      rw [hrest] at this
      simpa using this
    refine Runs.of_eq (Runs.bind (runs_drops _ h) fun _ g₁ _ h₁ =>
      Runs.bind (runs_emit _ rfl h₁.2) fun site g₂ _ h₂ => runs_modify rfl rfl ?_) (by rw [hcount])
    refine h₂.2.addContinue ?_ hkind
    rw [h₂.1, h₁.1, hsplit]

/-- All instances are left. -/
theorem adds_leaveInstances : Adds ok kinds (enteredCount kinds) leaveInstances := by
  intro g R h
  refine runs_get_bind ?_ rfl
  have hall : ∀ (frames : List Frame) (g : Generator), g.InOrder kinds R →
      Runs ok (enteredCount (frames.map Frame.kind))
        (frames.forM fun frame => do
          if frame.kind = .within then
            write .popEnvExit) g fun _ g' => g'.InOrder kinds R := by
    intro frames
    induction frames with
    | nil => exact fun g h => runs_pure h
    | cons frame frames ih =>
      intro g h
      have hcount : enteredCount ((frame :: frames).map Frame.kind) =
          (if frame.kind = .within then 1 else 0) + enteredCount (frames.map Frame.kind) := by
        rw [enteredCount, List.map_cons, List.count_cons, Nat.add_comm]
        simp only [beq_iff_eq]
        rfl
      rw [hcount]
      refine Runs.bind (P := fun _ g' => g'.InOrder kinds R) ?_ fun _ g₁ _ h₁ => ih g₁ h₁
      dsimp only
      by_cases hkind : frame.kind = .within
      · rw [if_pos hkind, if_pos hkind]
        exact adds_write _ rfl g R h
      · rw [if_neg hkind, if_neg hkind]
        exact runs_pure h
  have := hall g.frames g h
  rwa [h.kinds] at this

end Generate

end Gml
