import Gml.Proofs.Code.Expression

/-!
# Frames

The branches that leave a construct or go on with it wait in its frame until its end is written.
`Frame.Fits` says that they lead where they should in the finished code, so that the constructs around
a statement become its levels. An action that writes code for a clause under these terms is
`Generate.Performing` it.

Here are the terms, what a construct does to the branches of its inside (`inFrame_gives`), and the
two statements that add to them, `break` and `continue`.
-/

namespace Gml

/-! ### Frames -/

namespace Frame

/-- The branches that wait for a construct. -/
def gaps (frame : Frame) : List Gap :=
  frame.continues.map (·, .branch .pending) ++ frame.breaks.map (·, .branch .pending)

/-- Branches are added to the frames. -/
def Grow : List Frame → List Frame → Prop
  | [], [] => True
  | f :: fs, f' :: fs' => f'.kind = f.kind ∧ f.breaks ⊆ f'.breaks ∧ f.continues ⊆ f'.continues ∧
    Grow fs fs'
  | _, _ => False

/-- The branches of the frames lead to where the levels say. A switch has no next round. -/
def Fits (code : Code) : List Frame → List Level → Prop
  | [], [] => True
  | f :: fs, level :: levels => f.kind = level.kind ∧
    (∀ site ∈ f.breaks, ∃ jump, jump.Leads site level.onBreak ∧ code.Has site (.branch jump)) ∧
    (level.kind ≠ .switch → ∀ site ∈ f.continues,
      ∃ jump, jump.Leads site level.onContinue ∧ code.Has site (.branch jump)) ∧
    Fits code fs levels
  | _, _ => False

/-- Frames may stay as they are. -/
theorem Grow.refl : ∀ frames : List Frame, Grow frames frames
  | [] => trivial
  | _ :: fs => ⟨rfl, List.Subset.refl _, List.Subset.refl _, refl fs⟩

/-- Frames grow step by step. -/
theorem Grow.trans : ∀ {fs₁ fs₂ fs₃ : List Frame}, Grow fs₁ fs₂ → Grow fs₂ fs₃ → Grow fs₁ fs₃
  | [], [], [], _, _ => trivial
  | _ :: _, _ :: _, _ :: _, ⟨hk, hb, hc, h⟩, ⟨hk', hb', hc', h'⟩ =>
    ⟨hk'.trans hk, List.Subset.trans hb hb', List.Subset.trans hc hc', h.trans h'⟩

/-- Inner frames may stay as they are. -/
theorem Grow.append_left {fs fs' : List Frame} (h : Grow fs fs') :
    ∀ frames : List Frame, Grow (frames ++ fs) (frames ++ fs')
  | [] => h
  | _ :: frames => ⟨rfl, List.Subset.refl _, List.Subset.refl _, append_left h frames⟩

/-- Where grown frames fit, the earlier ones do. -/
theorem Grow.fits {code : Code} :
    ∀ {fs fs' : List Frame} {levels : List Level}, Grow fs fs' → Fits code fs' levels →
      Fits code fs levels
  | [], [], _, _, h => h
  | _ :: _, _ :: _, _ :: _, ⟨hk, hb, hc, hg⟩, ⟨hk', hb', hc', h⟩ =>
    ⟨hk ▸ hk', fun s hs => hb' s (hb hs), fun hne s hs => hc' hne s (hc hs), hg.fits h⟩

/-- Levels are entered as often as frames are. -/
theorem Fits.entered {code : Code} : ∀ {frames : List Frame} {levels : List Level},
    Fits code frames levels →
      Level.entered levels = frames.countP fun frame => frame.kind = .within
  | [], [], _ => rfl
  | f :: fs, level :: levels, ⟨hk, _, _, h⟩ => by
    have ih := h.entered
    unfold Level.entered at ih ⊢
    rw [List.countP_cons, List.countP_cons, ih, Level.enters, hk]

/-- The levels of the switches that a `continue` crosses, and the one that it goes on with. -/
theorem Fits.split {code : Code} {f : Frame} {outer : List Frame} :
    ∀ {crossed : List Frame} {levels : List Level},
      Fits code (crossed ++ f :: outer) levels →
      (∀ inner ∈ crossed, inner.kind = .switch) →
      ∃ inside level rest, levels = inside ++ level :: rest ∧ inside.length = crossed.length ∧
        (∀ inner ∈ inside, inner.kind = .switch) ∧ Fits code (f :: outer) (level :: rest)
  | [], level :: rest, h, _ => ⟨[], level, rest, rfl, rfl, by simp, h⟩
  | frame :: crossed, level :: levels, ⟨hk, _, _, h⟩, hs => by
    obtain ⟨inside, l, rest, rfl, hlen, hin, hf⟩ :=
      split h fun inner hi => hs inner (List.mem_cons_of_mem _ hi)
    refine ⟨level :: inside, l, rest, rfl, by simp [hlen], ?_, hf⟩
    intro inner hi
    rcases List.mem_cons.1 hi with rfl | hi
    · exact hk ▸ hs frame List.mem_cons_self
    · exact hin inner hi

end Frame

namespace Generator

/-- The branches that wait for the constructs around. -/
def gaps (g : Generator) : List Gap :=
  g.frames.flatMap Frame.gaps

/-- Code is added and, to the frames, branches. -/
structure Grows (g g' : Generator) : Prop where
  /-- The frames get branches. -/
  frames : Frame.Grow g.frames g'.frames
  /-- The code does not get shorter. -/
  size_le : g.code.size ≤ g'.code.size
  /-- No local variable gets a second place. -/
  nodup : g.code.locals.toList.Nodup → g'.code.locals.toList.Nodup

/-- Code is added while branches go on waiting, those of the frames and others. -/
structure Carries (g g' : Generator) (R : List Gap) : Prop extends Grows g g' where
  /-- The branches wait. -/
  waits : g'.code.Waits (g'.gaps ++ R)
  /-- All else stays. -/
  part : g.code.PartOf g'.code

/-- Code is added that does what a clause says, while other branches go on waiting. -/
structure Does (g g' : Generator) (R : List Gap) (clause : Clause) : Prop
    extends Grows g g' where
  /-- The branches of the frames wait, and so do the others. -/
  waits : g'.code.Waits (g'.gaps ++ R)
  /-- All else stays. -/
  part : g.code.PartOf g'.code
  /-- Wherever the branches of the frames lead, the finished code does it there. -/
  performs : ∀ {code : Code} {levels : List Level}, g'.code.PartOf code →
    Frame.Fits code g'.frames levels → code.Performs levels clause g.code.size g'.code.size

/-- Code is added for the inside of a construct. After it the branches of the construct wait, too;
those to its next round are the first to get their target. -/
structure Encloses (g g' : Generator) (R R' : List Gap) (frame : Frame) (clause : Clause) : Prop
    extends Grows g g' where
  /-- The branches of all frames wait, and so do the others. -/
  waits : g'.code.Waits (g'.gaps ++ (frame.continues.map (·, .branch .pending) ++
    (R ++ (frame.breaks.map (·, .branch .pending) ++ R'))))
  /-- All else stays. -/
  part : g.code.PartOf g'.code
  /-- Wherever the branches lead, the finished code does what the clause says there. -/
  performs : ∀ {code : Code} {levels : List Level}, g'.code.PartOf code →
    Frame.Fits code (frame :: g'.frames) levels →
    code.Performs levels clause g.code.size g'.code.size

variable {g g' g'' : Generator} {clause : Clause}

/-- States grow step by step. -/
theorem Grows.trans (h : g.Grows g') (h' : g'.Grows g'') : g.Grows g'' :=
  ⟨h.frames.trans h'.frames, Nat.le_trans h.size_le h'.size_le, fun hn => h'.nodup (h.nodup hn)⟩

/-- An extension grows. -/
theorem Extends.grows (h : g.Extends g') : g.Grows g' :=
  ⟨h.frames ▸ .refl _, h.size_le, h.nodup⟩

/-- So does a state whose branches get targets. -/
theorem Points.grows {sites : List Nat} {I : Instruction} {target : Nat}
    (h : g.Points g' sites I target) : g.Grows g' :=
  ⟨h.frames ▸ .refl _, Nat.le_of_eq h.size_eq.symm, h.locals ▸ id⟩

variable {R : List Gap}

/-- An extension leaves the waiting branches alone. -/
theorem Extends.waits_gaps (h : g.Extends g') (w : g.code.Waits (g.gaps ++ R)) :
    g'.code.Waits (g'.gaps ++ R) := by
  unfold gaps
  rw [h.frames]
  exact h.waits w

/-- An extension carries them on. -/
theorem Extends.carries (h : g.Extends g') (w : g.code.Waits (g.gaps ++ R)) : g.Carries g' R :=
  ⟨h.grows, h.waits_gaps w, h.part⟩

/-- A clause carries them on. -/
theorem Does.carries (h : g.Does g' R clause) : g.Carries g' R :=
  ⟨h.toGrows, h.waits, h.part⟩

/-- An extension does what its code performs. -/
theorem Extends.does (h : g.Extends g') (w : g.code.Waits (g.gaps ++ R)) (hp : ∀ {code : Code}
      {levels : List Level}, g'.code.PartOf code → Frame.Fits code g'.frames levels → code.Performs
      levels clause g.code.size g'.code.size) : g.Does g' R clause :=
  ⟨h.grows, h.waits_gaps w, h.part, hp⟩

/-- Work on the tables before a statement is no part of its code. -/
theorem Writes.does (h : g.Writes g' []) (h' : g'.Does g'' R clause) : g.Does g'' R clause := by
  have hp := @h'.performs
  rw [h.size_eq] at hp
  exact ⟨h.grows.trans h'.toGrows, h'.waits, h.part.trans h'.part, hp⟩

/-- The finished code has the levels of a construct, once its branches point to them. -/
theorem fits_cons {g₁ g₂ g₃ g₄ : Generator} {code : Code} {frame : Frame} {frames : List Frame}
    {levels : List Level} {kind : FrameKind} {onBreak onContinue : Nat} (hk : frame.kind = kind)
    (hb : g₁.Points g₂ frame.breaks (.branch .pending) onBreak) (cb : g₂.code.PartOf code)
    (hc : g₃.Points g₄ frame.continues (.branch .pending) onContinue)
    (cc : g₄.code.PartOf code) (h : Frame.Fits code frames levels) :
    Frame.Fits code (frame :: frames) (⟨kind, onBreak, onContinue⟩ :: levels) := by
  refine ⟨hk, fun site hs => ?_, fun _ site hs => ?_, h⟩
  · obtain ⟨jump, hl, hJ⟩ := hb.leads site hs
    exact ⟨jump, hl, hJ rfl cb⟩
  · obtain ⟨jump, hl, hJ⟩ := hc.leads site hs
    exact ⟨jump, hl, hJ rfl cc⟩

end Generator

namespace Generate

open Generator

/-- An action writes code that does what a clause says. -/
def Performing (x : Generate Unit) (clause : Clause) : Prop :=
  ∀ ⦃g g' : Generator⦄ ⦃R : List Gap⦄, g.code.Waits (g.gaps ++ R) → Gives x g () g' →
    g.Does g' R clause

variable {g g' : Generator} {clause : Clause} {R : List Gap}

/-! ### Branches beside those of the frames -/

variable {p : Position} {u : Unit} {I : Instruction} {body : Generate Unit}

/-- A branch without a target waits beside the others. -/
theorem emit_opens {n : Nat} (h : Gives (emit I) g n g') (hI : I.jump? = some .pending)
    (w : g.code.Waits (g.gaps ++ R)) : g'.code.Waits (g'.gaps ++ ((n, I) :: R)) := by
  obtain ⟨x, -, -, hw⟩ := emit_gives h
  unfold gaps
  rw [x.frames]
  exact (hw hI w).perm List.perm_middle.symm

/-- It no longer waits once it is pointed to what comes next. -/
theorem patchHere_closes {site : Nat} (h : Gives (patchHere site p) g u g')
    (w : g.code.Waits (g.gaps ++ ((site, I) :: R))) :
    g.Points g' [site] I g.code.size ∧ g'.code.Waits (g'.gaps ++ R) := by
  obtain ⟨hp, w'⟩ := patchHere_gives h (w.perm List.perm_middle)
  refine ⟨hp, ?_⟩
  unfold gaps
  rw [hp.frames]
  exact w'

/-- Nor do several that are pointed to one target. -/
theorem patchAll_closes {sites : List Nat} {target : Nat}
    (h : Gives (patchAll sites target p) g u g')
    (w : g.code.Waits (g.gaps ++ (sites.map (·, I) ++ R))) :
    g.Points g' sites I target ∧ g'.code.Waits (g'.gaps ++ R) := by
  have hperm : (g.gaps ++ (sites.map (·, I) ++ R)).Perm (sites.map (·, I) ++ (g.gaps ++ R)) := by
    rw [← List.append_assoc, ← List.append_assoc]
    exact List.perm_append_comm.append_right R
  obtain ⟨hp, w'⟩ := patchAll_gives h (w.perm hperm)
  refine ⟨hp, ?_⟩
  unfold gaps
  rw [hp.frames]
  exact w'

/-- One branch is pointed as several are. -/
theorem gives_patchHere {site : Nat} (h : Gives (patchHere site p) g u g') :
    Gives (patchAll [site] g.code.size p) g () g' :=
  gives_bind.2 ⟨u, g', h, gives_pure.2 ⟨rfl, rfl⟩⟩

/-! ### Constructs -/

/-- A body is written inside of a new frame. -/
theorem gives_inFrame {kind : FrameKind} {frame : Frame}
    (h : Gives (inFrame kind p body) g frame g') :
    ∃ g₁ frames, Gives body { g with frames := { kind } :: g.frames } () g₁ ∧
      g₁.frames = frame :: frames ∧ g' = { g₁ with frames } := by
  simp only [inFrame, gives_bind, gives_modify, gives_get] at h
  obtain ⟨-, _, rfl, _, g₁, h₁, _, _, ⟨rfl, rfl⟩, h⟩ := h
  split at h
  next f fs hframes =>
    simp only [gives_bind, gives_set, gives_pure] at h
    obtain ⟨-, _, rfl, rfl, rfl⟩ := h
    exact ⟨_, _, h₁, hframes, rfl⟩
  next => exact (gives_fail h).elim

/-- It performs its clause between the branches of the frame. -/
theorem inFrame_gives {kind : FrameKind} {frame : Frame} {R R' : List Gap}
    (hbody : Performing body clause) (w : g.code.Waits (g.gaps ++ (R ++ R')))
    (h : Gives (inFrame kind p body) g frame g') :
    frame.kind = kind ∧ g.Encloses g' R R' frame clause := by
  obtain ⟨g₁, frames, h₁, hframes, rfl⟩ := gives_inFrame h
  have d : Does { g with frames := { kind } :: g.frames } g₁ (R ++ R') clause := hbody w h₁
  have hgrow := d.frames
  rw [hframes] at hgrow
  obtain ⟨hkind, -, -, hgrow⟩ := hgrow
  refine ⟨hkind, ⟨hgrow, d.size_le, d.nodup⟩, d.waits.perm ?_, d.part, fun hc hf => ?_⟩
  · unfold gaps
    rw [hframes, List.flatMap_cons, Frame.gaps]
    simp only [List.perm_iff_count, List.count_append]
    intro gap
    omega
  · exact d.performs hc (hframes ▸ hf)

/-- A mark in front is no matter. -/
theorem started_gives (hbody : Performing body clause) :
    Performing (Node.started p body) clause := by
  intro g g' R w h
  simp only [Node.started, gives_bind] at h
  obtain ⟨_, g₁, h₁, h⟩ := h
  have w₁ := mark_gives h₁
  exact w₁.does (hbody (w₁.waits_gaps w) h)

/-! ### Ways out of constructs -/

/-- Each instance around the statement is left. -/
theorem leaveInstances_gives (h : Gives leaveInstances g u g') :
    g.Writes g' (.replicate (g.frames.countP fun frame => frame.kind = .within) .popEnvExit) := by
  simp only [leaveInstances, gives_bind, gives_get] at h
  obtain ⟨_, g₀, ⟨rfl, hg⟩, h⟩ := h
  revert h
  rw [← hg]
  generalize g₀.frames = frames
  clear hg
  induction frames generalizing g₀ with
  | nil =>
    intro h
    obtain ⟨-, rfl⟩ := gives_pure.1 h
    exact Node.writes_nothing _
  | cons frame frames ih =>
    intro h
    obtain ⟨_, g₁, h₁, h₂⟩ := gives_bind.1 h
    dsimp only at h₁
    rw [List.countP_cons]
    split at h₁
    next hk =>
      rw [if_pos (decide_eq_true hk), List.replicate_succ]
      exact (write_gives h₁ (by simp [Instruction.jump?])).append (ih g₁ h₂)
    next hk =>
      obtain ⟨-, rfl⟩ := gives_pure.1 h₁
      rw [if_neg (by simpa using hk)]
      exact ih _ h₂

/-- A branch that is added to a frame waits together with the others. -/
theorem waits_push {g : Generator} {frames : List Frame} {R : List Gap}
    (hp : (frames.flatMap Frame.gaps).Perm ((g.code.size, .branch .pending) :: g.gaps))
    (w : g.code.Waits (g.gaps ++ R)) :
    (g.code.push (.branch .pending)).Waits (frames.flatMap Frame.gaps ++ R) :=
  (w.push rfl).perm (hp.symm.append_right R)

/-- A `break` is one of the branches of its frame. -/
theorem gaps_break (f : Frame) (site : Nat) (outer : List Frame) :
    (({ f with breaks := site :: f.breaks } :: outer).flatMap Frame.gaps).Perm
      ((site, .branch .pending) :: (f :: outer).flatMap Frame.gaps) := by
  simp only [List.flatMap_cons, Frame.gaps, List.map_cons, List.append_assoc, List.cons_append]
  exact List.perm_middle

/-- So is a `continue`, past the frames of switches. -/
theorem gaps_continue (crossed : List Frame) (f : Frame) (site : Nat) (outer : List Frame) :
    ((crossed ++ { f with continues := site :: f.continues } :: outer).flatMap Frame.gaps).Perm
      ((site, .branch .pending) :: (crossed ++ f :: outer).flatMap Frame.gaps) := by
  simp only [List.flatMap_append, List.flatMap_cons, Frame.gaps, List.map_cons, List.append_assoc,
    List.cons_append]
  exact List.perm_middle

/-- A branch out of the innermost construct waits in its frame, once the instance of the construct
has been left. -/
theorem breakOut_gives (h : Gives (breakOut p) g u g') :
    ∃ g₁ f fs, g₁.frames = f :: fs ∧
      g.Writes g₁ (if f.kind = .within then [.popEnvExit] else []) ∧
      g' = { g₁ with
        code := g₁.code.push (.branch .pending)
        frames := { f with breaks := g₁.code.size :: f.breaks } :: fs } := by
  simp only [breakOut, gives_bind, gives_get] at h
  obtain ⟨_, g₀, ⟨rfl, hg⟩, h⟩ := h
  rw [← hg]
  split at h
  · exact (gives_fail h).elim
  next f fs hframes =>
    rw [← hg] at hframes
    split at h
    next hk =>
      simp only [gives_bind, gives_emit, gives_modify] at h
      obtain ⟨_, g₁, h₁, _, _, ⟨rfl, rfl⟩, rfl⟩ := h
      have w₁ := write_gives h₁ (by simp [Instruction.jump?])
      have hf := w₁.frames.trans hframes
      refine ⟨g₁, f, fs, hf, by rw [if_pos hk]; exact w₁, ?_⟩
      dsimp only
      rw [hf]
    next hk =>
      simp only [gives_bind, gives_emit, gives_modify] at h
      obtain ⟨_, _, ⟨rfl, rfl⟩, rfl⟩ := h
      refine ⟨g₀, f, fs, hframes, by rw [if_neg hk]; exact Node.writes_nothing g₀, ?_⟩
      dsimp only
      rw [hframes]

/-- A `break` branches to the end of the innermost construct. -/
theorem performing_breaking (p : Position) : Performing (breakOut p) (.one (.breaking p)) := by
  intro g g' R w h
  obtain ⟨g₁, f, fs, hf, w₁, rfl⟩ := breakOut_gives h
  have hp := extends_push g₁ (.branch .pending)
  have hgrow : Frame.Grow g₁.frames ({ f with breaks := g₁.code.size :: f.breaks } :: fs) := by
    rw [hf]
    exact ⟨rfl, List.subset_cons_self _ _, List.Subset.refl _, .refl fs⟩
  refine ⟨w₁.grows.trans ⟨hgrow, hp.size_le, hp.nodup⟩, waits_push ?_ (w₁.waits_gaps w),
    w₁.part.trans hp.part, fun {code levels} hc hfits => ?_⟩
  · rw [gaps, hf]
    exact gaps_break f _ fs
  rcases levels with _ | ⟨level, levels⟩
  · exact hfits.elim
  obtain ⟨hk, hbreaks, -, -⟩ := hfits
  obtain ⟨jump, hl, hJ⟩ := hbreaks g₁.code.size List.mem_cons_self
  have hseg := w₁.segment (hp.part.trans hc)
  have hsize : (g₁.code.push (.branch .pending)).size = g₁.code.size + 1 := by
    simp [Code.size, Code.push]
  rw [hsize]
  rw [w₁.size_eq] at hl hJ ⊢
  by_cases hw : f.kind = .within
  · rw [if_pos hw] at hl hJ hseg ⊢
    exact .breakBack (by simp [Level.enters, ← hk, hw]) ⟨hseg.1, hJ, trivial⟩ hl
  · rw [if_neg hw] at hl hJ ⊢
    exact .breakOut (by simp [Level.enters, ← hk, hw]) hJ hl

/-- One instruction is written for each frame. -/
theorem write_each_gives {frames : List Frame} (hI : I.jump? ≠ some .pending)
    (h : Gives (frames.forM fun _ => write I) g u g') :
    g.Writes g' (.replicate frames.length I) := by
  induction frames generalizing g with
  | nil =>
    obtain ⟨-, rfl⟩ := gives_pure.1 h
    exact Node.writes_nothing _
  | cons frame frames ih =>
    obtain ⟨_, g₁, h₁, h₂⟩ := gives_bind.1 h
    exact (write_gives h₁ hI).append (ih h₂)

/-- What is taken from the front is dropped. -/
theorem drop_length_takeWhile {α : Type} (q : α → Bool) (xs : List α) :
    xs.drop (xs.takeWhile q).length = xs.dropWhile q := by
  induction xs with
  | nil => rfl
  | cons x xs ih => by_cases h : q x <;> simp [h, ih]

/-- A branch to the next round waits in the frame of the innermost construct that has one. -/
theorem continueOn_gives (h : Gives (continueOn p) g u g') :
    ∃ g₁ crossed f outer, g₁.frames = crossed ++ f :: outer ∧
      (∀ inner ∈ crossed, inner.kind = .switch) ∧ f.kind ≠ .switch ∧
      g.Writes g₁ (.replicate crossed.length .popz) ∧
      g' = { g₁ with
        code := g₁.code.push (.branch .pending)
        frames := crossed ++ { f with continues := g₁.code.size :: f.continues } :: outer } := by
  simp only [continueOn, gives_bind, gives_get] at h
  obtain ⟨_, g₀, ⟨rfl, hg⟩, h⟩ := h
  rw [← hg]
  rw [← hg] at h
  split at h
  · exact (gives_fail h).elim
  next f outer hdrop =>
    simp only [gives_bind, gives_emit, gives_modify] at h
    obtain ⟨_, g₁, h₁, _, _, ⟨rfl, rfl⟩, rfl⟩ := h
    have w₁ := write_each_gives (by simp [Instruction.jump?]) h₁
    rw [drop_length_takeWhile] at hdrop
    refine ⟨g₁, g₀.frames.takeWhile fun frame => frame.kind = .switch, f, outer, ?_, ?_, ?_, w₁, rfl⟩
    · rw [w₁.frames, ← hdrop, List.takeWhile_append_dropWhile]
    · intro inner hinner
      simpa using (List.all_takeWhile (l := g₀.frames) |> List.all_eq_true.1) inner hinner
    · have := List.head?_dropWhile_not (fun frame : Frame => decide (frame.kind = .switch)) g₀.frames
      rw [hdrop] at this
      simpa using this

/-- A `continue` branches to the next round of a loop. -/
theorem performing_continuing (p : Position) :
    Performing (continueOn p) (.one (.continuing p)) := by
  intro g g' R w h
  obtain ⟨g₁, crossed, f, outer, hf, hcrossed, hkind, w₁, rfl⟩ := continueOn_gives h
  have hp := extends_push g₁ (.branch .pending)
  have hgrow : Frame.Grow g₁.frames
      (crossed ++ { f with continues := g₁.code.size :: f.continues } :: outer) := by
    rw [hf]
    refine Frame.Grow.append_left ?_ crossed
    exact ⟨rfl, List.Subset.refl _, List.subset_cons_self _ _, .refl outer⟩
  refine ⟨w₁.grows.trans ⟨hgrow, hp.size_le, hp.nodup⟩, waits_push ?_ (w₁.waits_gaps w),
    w₁.part.trans hp.part, fun {code levels} hc hfits => ?_⟩
  · rw [gaps, hf]
    exact gaps_continue crossed f _ outer
  obtain ⟨inside, level, rest, rfl, hlen, hinside, hk, -, hcontinues, -⟩ := hfits.split hcrossed
  have hlevel : level.kind ≠ .switch := hk ▸ hkind
  obtain ⟨jump, hl, hJ⟩ := hcontinues hlevel g₁.code.size List.mem_cons_self
  have hseg := w₁.segment (hp.part.trans hc)
  have hsize : (g₁.code.push (.branch .pending)).size = g₁.code.size + 1 := by
    simp [Code.size, Code.push]
  rw [hsize]
  rw [w₁.size_eq, List.length_replicate, ← hlen] at hl hJ ⊢
  refine .continueOn hinside hlevel ?_ hl
  rw [← hlen] at hseg
  exact Code.segment_append.2 ⟨hseg, by rw [List.length_replicate]; exact ⟨hJ, trivial⟩⟩

end Generate

end Gml
