import Gml.Proofs.Flow.Tracking

/-!
# The code of statements does what the statements mean

Code that performs a statement takes the machine along with the structured execution of the
statement, wherever that leads: to the end of the code if the statement is done, to where the
constructs around it are left or gone on with if it breaks or continues, and to the end of the script
if it returns. `Code.Arrives` says where that is, with the values and the instances that the
constructs around have put away, and `Code.Simulates` that the machine gets there.

There is one lemma for each construct. `Code.Performs.simulated` puts them together by induction over
the layout of the code.
-/

namespace Gml

namespace Level

/-- One more level may keep a value. -/
theorem held_cons (level : Level) (L : List Level) :
    held (level :: L) = held L + if level.keeps then 1 else 0 :=
  List.countP_cons

/-- One more level may enter an instance. -/
theorem entered_cons (level : Level) (L : List Level) :
    entered (level :: L) = entered L + if level.enters then 1 else 0 :=
  List.countP_cons

end Level

namespace Code

/-- Where a machine is when a statement has ended, with the values and instances of the constructs
around it. -/
inductive Arrives (code : Code) (start : Machine) (b : Nat) :
    List Level → List Value → List Int → Ending → Machine → Nat → Prop
  | done {L : List Level} {H : List Value} {O : List Int} {m : Machine} {n : Nat} :
      start.At code n b H O m → Arrives code start b L H O .done m n
  | broke {L : List Level} {level : Level} {H : List Value} {O : List Int} {m : Machine} {n : Nat} :
      level.enters = false → start.At code n level.onBreak H O m →
      Arrives code start b (level :: L) H O .broke m n
  | brokeBack {L : List Level} {level : Level} {H : List Value} {id : Int} {O : List Int}
      {m : Machine} {n : Nat} :
      level.enters = true → start.At code n level.onBreak H O { m with current := id } →
      Arrives code start b (level :: L) H (id :: O) .broke m n
  | continued {L : List Level} {level : Level} {H : List Value} {O : List Int} {m : Machine}
      {n : Nat} :
      level.kind ≠ .switch → start.At code n level.onContinue H O m →
      Arrives code start b (level :: L) H O .continued m n
  | crossed {L : List Level} {level : Level} {v : Value} {H : List Value} {O : List Int}
      {m : Machine} {n : Nat} :
      level.kind = .switch → Arrives code start b L H O .continued m n →
      Arrives code start b (level :: L) (v :: H) O .continued m n
  | returned {L : List Level} {H K : List Value} {O : List Int} {v : Value} {m F : Machine}
      {n : Nat} :
      start.Passes code n (.ended v F) → F.Inside code → F.stack = K ++ H → F.outer = [] →
      F.world = { m.world with current := O.getLast?.getD m.current } →
      Arrives code start b L H O (.returned v K.length) m n

/-- The code from `a` up to `b` takes a machine along with an execution. -/
def Simulates (code : Code) (rounds : Nat) (L : List Level) (a b : Nat)
    (x : Structured Ending) : Prop :=
  ∀ (start m : Machine) (n : Nat) (H : List Value) (O : List Int), start.At code n a H O m →
    H.length = Level.held L → O.length = Level.entered L →
    start.Tracks code rounds n (fun ending m n => code.Arrives start b L H O ending m n) (x.on m)

open Machine Structured

variable {code : Code} {rounds : Nat} {L : List Level} {a k l b : Nat}
variable {start m : Machine} {H : List Value} {O : List Int} {n : Nat} {level : Level} {body : Flow}

/-- The end of the code only counts for a statement that is done. -/
theorem Arrives.elsewhere {ending : Ending} (h : code.Arrives start k L H O ending m n)
    (he : ending ≠ .done) : code.Arrives start b L H O ending m n := by
  induction h with
  | done => exact absurd rfl he
  | broke hl h => exact .broke hl h
  | brokeBack hl h => exact .brokeBack hl h
  | continued hl h => exact .continued hl h
  | crossed hl _ ih => exact .crossed hl (ih he)
  | returned hp hi hs ho hw => exact .returned hp hi hs ho hw

/-! ### Statements without branches

The code for each form takes a machine along with the execution of its flow.
-/

/-- An assignment. -/
theorem simulates_assign {width : Nat} (haddress : code.Moves a k 0 width)
    (hvalue : code.Moves k l 0 1) (hstore : code.Moves l b (width + 1) 0) :
    code.Simulates rounds L a b (Flow.exec code rounds (.assign ⟨a, k⟩ ⟨k, l⟩ ⟨l, b⟩)) := by
  intro start m n H O hat hH hO
  refine (Tracks.runs haddress rfl hat).bind ?_
  rintro address m n - ⟨rfl, hat⟩
  refine (Tracks.evaluate hvalue hat).bind ?_
  rintro value m n - hat
  refine (Tracks.store hstore hat).bind ?_
  rintro - m n - hat
  exact .ok (Nat.le_refl n) (.done hat)

/-- An assignment with an operation. -/
theorem simulates_compound {width e : Nat} (haddress : code.Moves a k 0 width)
    (hload : code.Moves k l width (width + 1)) (hvalue : code.Moves l e 0 1)
    (hstore : code.Moves e b (width + 2) 0) :
    code.Simulates rounds L a b
      (Flow.exec code rounds (.compound ⟨a, k⟩ ⟨k, l⟩ ⟨l, e⟩ ⟨e, b⟩)) := by
  intro start m n H O hat hH hO
  refine (Tracks.runs haddress rfl hat).bind ?_
  rintro address m n - ⟨hwidth, hat⟩
  refine (Tracks.runs hload hwidth hat).bind ?_
  rintro loaded m n - ⟨hloaded, hat⟩
  refine (Tracks.evaluate hvalue hat).bind ?_
  rintro value m n - hat
  refine (Tracks.store (hloaded ▸ hstore) hat).bind ?_
  rintro - m n - hat
  exact .ok (Nat.le_refl n) (.done hat)

/-- A step. -/
theorem simulates_update {width : Nat} (haddress : code.Moves a k 0 width)
    (hchange : code.Moves k b width 0) :
    code.Simulates rounds L a b (Flow.exec code rounds (.update ⟨a, k⟩ ⟨k, b⟩)) := by
  intro start m n H O hat hH hO
  refine (Tracks.runs haddress rfl hat).bind ?_
  rintro address m n - ⟨hwidth, hat⟩
  refine (Tracks.runs hchange hwidth hat).bind ?_
  rintro rest m n - ⟨hrest, hat⟩
  obtain rfl := List.length_eq_zero_iff.1 hrest
  exact .ok (Nat.le_refl n) (.done hat)

/-- An expression for its effects. -/
theorem simulates_discard (hvalue : code.Moves a k 0 1) (hpop : code.Has k .popz) :
    code.Simulates rounds L a (k + 1) (Flow.exec code rounds (.discard ⟨a, k⟩)) := by
  intro start m n H O hat hH hO
  refine (Tracks.evaluate hvalue hat).bind ?_
  rintro value m n - hat
  exact .ok (Nat.le_succ n) (.done (hat.popz hpop))

/-- Declarations have the stretches of code that they are made of, and these are run one after the
other. -/
theorem Declares.tracks {bindings : List (Binding Node)} (h : code.Declares bindings a b) :
    ∃ values, Node.HaveValues code bindings values ∧
      ∀ {rounds n : Nat} {start m : Machine} {H : List Value} {O : List Int},
        start.At code n a H O m → start.Tracks code rounds n (fun _ m n => start.At code n b H O m)
          ((declareAll code values).on m) := by
  induction h with
  | done => exact ⟨[], .nil, fun hat => .ok (Nat.le_refl _) hat⟩
  | plain _ ih =>
    obtain ⟨values, hvalues, htracks⟩ := ih
    exact ⟨values, .plain hvalues, htracks⟩
  | @valued a k b _ _ _ _ _ _ hid hvalue hpop _ ih =>
    obtain ⟨values, hvalues, htracks⟩ := ih
    refine ⟨(⟨a, k⟩, ⟨k, k + 1⟩) :: values, .valued hvalue.emits hid ⟨⟨hpop, trivial⟩, rfl⟩ hvalues,
      fun hat => ?_⟩
    refine (Tracks.evaluate hvalue.pushes.moves hat).bind ?_
    rintro value m n - hat
    refine (Tracks.store (S := []) (.of_effect hpop (.popLocal hid.lt)) hat).bind ?_
    rintro - m n - hat
    exact htracks hat

/-! ### Sequences and choices -/

/-- No statement. -/
theorem simulates_nil : code.Simulates rounds L a a (Flow.execAll code rounds []) := by
  intro start m n H O hat hH hO
  exact .ok (Nat.le_refl n) (.done hat)

/-- The next part follows if the first one is done. -/
theorem Simulates.sequence {x y : Structured Ending} (hx : code.Simulates rounds L a k x)
    (hy : code.Simulates rounds L k b y) :
    code.Simulates rounds L a b (do
      match ← x with
      | .done => y
      | ending => return ending) := by
  intro start m n H O hat hH hO
  refine (hx start m n H O hat hH hO).bind ?_
  intro ending m n ht harr
  cases ending with
  | done =>
    cases harr with
    | done hat => exact hy start m n H O hat hH hO
  | _ => exact .ok (Nat.le_refl n) (harr.elsewhere (by simp))

/-- A condition. -/
theorem simulates_ifElse {thenBody elseBody : Flow} {skip : Jump} {e : Nat}
    (hc : code.Moves a k 0 1) (hb : code.Has k (.branchFalse skip)) (hskip : skip.Leads k e)
    (hthen : code.Simulates rounds L (k + 1) b (thenBody.exec code rounds))
    (helse : code.Simulates rounds L e b (elseBody.exec code rounds)) :
    code.Simulates rounds L a b (Flow.exec code rounds (.ifElse ⟨a, k⟩ thenBody elseBody)) := by
  intro start m n H O hat hH hO
  refine (Tracks.evaluate hc hat).bind ?_
  intro v m n ht hat
  have hat := hat.branchFalse hb hskip
  cases hv : v.isTrue with
  | true =>
    rw [hv, if_pos rfl] at hat
    exact (hthen start m _ H O hat hH hO).since (Nat.le_succ n)
  | false =>
    rw [hv, if_neg (by simp)] at hat
    exact (helse start m _ H O hat hH hO).since (Nat.le_succ n)

/-- A branch behind the code that is taken when the statement is done. -/
theorem Simulates.jump {x : Structured Ending} {jump : Jump} (hx : code.Simulates rounds L a k x)
    (hb : code.Has k (.branch jump)) (hj : jump.Leads k b) : code.Simulates rounds L a b x := by
  intro start m n H O hat hH hO
  refine (hx start m n H O hat hH hO).advance ?_
  intro ending m n ht harr
  cases ending with
  | done =>
    cases harr with
    | done hat => exact ⟨n + 1, by omega, .done (hat.branch hb hj)⟩
  | _ => exact ⟨n, ht, harr.elsewhere (by simp)⟩

/-! ### Loops -/

/-- Where a machine is when the body of a loop has ended. -/
theorem Arrives.out {ending : Ending} (h : code.Arrives start k (level :: L) H O ending m n)
    (hs : level.kind ≠ .switch) (he : level.enters = false) (b : Nat) :
    match ending with
    | .done => start.At code n k H O m
    | .broke => start.At code n level.onBreak H O m
    | .continued => start.At code n level.onContinue H O m
    | .returned v left => code.Arrives start b L H O (.returned v left) m n := by
  cases h with
  | done h => exact h
  | broke _ h => exact h
  | brokeBack hb => exact absurd hb (by simp [he])
  | continued _ h => exact h
  | crossed hc => exact absurd hc hs
  | returned hp hi hst ho hw => exact .returned hp hi hst ho hw

/-- A loop with its test in front. -/
theorem simulates_whileDo {leave back : Jump} (hc : code.Moves a k 0 1)
    (hb : code.Has k (.branchFalse leave)) (hleave : leave.Leads k (l + 1))
    (hbody : code.Simulates rounds (⟨.loop, l + 1, a⟩ :: L) (k + 1) l (body.exec code rounds))
    (hl : code.Has l (.branch back)) (hback : back.Leads l a) :
    code.Simulates rounds L a (l + 1) (Flow.exec code rounds (.whileDo ⟨a, k⟩ body)) := by
  intro start m n H O hat hH hO
  refine Tracks.loop ?_ rounds (by omega) hat
  intro m n hat
  refine (Tracks.evaluate hc hat).bind ?_
  intro v m n₁ ht hat
  have hat := hat.branchFalse hb hleave
  cases hv : v.isTrue with
  | false =>
    rw [hv, if_neg (by simp)] at hat
    exact .ok (Nat.le_succ n₁) (.last (.done hat))
  | true =>
    rw [hv, if_pos rfl] at hat
    refine ((hbody start m _ H O hat hH hO).bind ?_).since (Nat.le_succ n₁)
    intro ending m n₂ ht' harr
    have harr := harr.out (by simp) rfl (l + 1)
    cases ending with
    | done => exact .ok (Nat.le_succ n₂) (.back (by omega) (harr.branch hl hback))
    | broke => exact .ok (Nat.le_refl n₂) (.last (.done harr))
    | continued => exact .ok (Nat.le_refl n₂) (.back (by omega) harr)
    | returned => exact .ok (Nat.le_refl n₂) (.last harr)

/-- A loop with its test at the end. -/
theorem simulates_doUntil {back : Jump}
    (hbody : code.Simulates rounds (⟨.loop, l + 1, k⟩ :: L) a k (body.exec code rounds))
    (hc : code.Moves k l 0 1) (hb : code.Has l (.branchFalse back)) (hback : back.Leads l a) :
    code.Simulates rounds L a (l + 1) (Flow.exec code rounds (.doUntil body ⟨k, l⟩)) := by
  intro start m n H O hat hH hO
  refine Tracks.loop ?_ rounds (by omega) hat
  intro m n hat
  refine (hbody start m n H O hat hH hO).bind ?_
  intro ending m n₁ ht harr
  have harr := harr.out (by simp) rfl (l + 1)
  -- The condition comes both after a body that is done and after a `continue`.
  have test : start.At code n₁ k H O m →
      start.Tracks code rounds n₁ (Tracks.Round start code a H O (code.Arrives start (l + 1) L H O) n)
        (Structured.on (do
          return if (← Structured.evaluate code ⟨k, l⟩).isTrue then some .done else none) m) := by
    intro hat
    refine (Tracks.evaluate hc hat).bind ?_
    intro v m n₂ ht' hat
    have hat := hat.branchFalse hb hback
    cases hv : v.isTrue with
    | true =>
      rw [hv, if_pos rfl] at hat
      exact .ok (Nat.le_succ n₂) (.last (.done hat))
    | false =>
      rw [hv, if_neg (by simp)] at hat
      exact .ok (Nat.le_succ n₂) (.back (by omega) hat)
  cases ending with
  | done => exact test harr
  | broke => exact .ok (Nat.le_refl n₁) (.last (.done harr))
  | continued => exact test harr
  | returned => exact .ok (Nat.le_refl n₁) (.last harr)

/-- A value that a construct keeps stays on the stack when the script ends inside of the construct. -/
theorem Arrives.leaving {L' : List Level} {v result : Value} {left : Nat}
    (h : code.Arrives start k L' (v :: H) O (.returned result left) m n) :
    code.Arrives start b L H O (.returned result (left + 1)) m n := by
  generalize he : Ending.returned result left = ending at h
  cases h with
  | @returned _ _ K _ _ _ _ _ hp hi hs ho hw =>
    cases he
    have hlen : (K ++ [v]).length = K.length + 1 := by simp
    rw [← hlen]
    refine .returned hp hi ?_ ho hw
    rw [hs, List.append_assoc]
    rfl
  | _ => cases he

/-- The rounds of a `repeat`. The counter lies on the stack. -/
theorem tracks_countdown {body : Structured Ending} {leave back : Jump} {counter : Value}
    (htest : code.Segment k [.dup 1, .pushInt 0, .cmp .greater, .branchFalse leave])
    (hleave : leave.Leads (k + 3) (l + 3))
    (hbody : code.Simulates rounds (⟨.counter, l + 3, l⟩ :: L) (k + 4) l body)
    (hstep : code.Segment l [.pushInt 1, .sub, .branch back, .popz]) (hback : back.Leads (l + 2) k)
    (hH : H.length = Level.held L) (hO : O.length = Level.entered L) (count : Nat)
    (hc : rounds ≤ n + count) (hat : start.At code n k (counter :: H) O m) :
    start.Tracks code rounds n
      (fun ending m n => code.Arrives start (l + 4) L H O ending m n)
      ((countdown body count counter).on m) := by
  induction count generalizing counter m n with
  | zero => exact .exhausted hat hc
  | succ count ih =>
    have hat := (hat.dup htest.1).pushInt htest.2.1
    refine ((Tracks.compares hat htest.2.2.1).bind ?_).since (by omega)
    rintro positive m n₁ - ⟨hn₁, hat⟩
    have hat := hat.branchFalse htest.2.2.2.1 hleave
    rw [Value.isTrue_ofBool] at hat
    cases positive with
    | false =>
      have hat := hat.popz hstep.2.2.2.1
      exact .ok (by omega) (.done hat)
    | true =>
      have hheld : (counter :: H).length = Level.held (⟨.counter, l + 3, l⟩ :: L) := by
        rw [Level.held_cons, List.length_cons, hH]
        rfl
      refine ((hbody start m _ (counter :: H) O hat hheld hO).bind ?_).since (by omega)
      intro ending m n₂ hn₂ harr
      have harr := harr.out (by simp) rfl (l + 4)
      -- The counter loses one both after a body that is done and after a `continue`.
      have next : start.At code n₂ l (counter :: H) O m →
          start.Tracks code rounds n₂
            (fun ending m n => code.Arrives start (l + 4) L H O ending m n)
            (Structured.on (do
              countdown body count (← ofExec (Exec.operate .sub counter (.real 1)))) m) := by
        intro hat
        refine ((Tracks.sub (hat.pushInt hstep.1) hstep.2.1).bind ?_).since (by omega)
        rintro u m n₃ - ⟨hn₃, hat⟩
        exact (ih (by omega) (hat.branch hstep.2.2.1 hback)).since (by omega)
      cases ending with
      | done => exact next harr
      | broke => exact .ok (Nat.le_succ n₂) (.done (harr.popz hstep.2.2.2.1))
      | continued => exact next harr
      | returned => exact .ok (Nat.le_refl n₂) harr.leaving

/-- A loop with a count. -/
theorem simulates_repeatTimes {leave back : Jump} (hc : code.Moves a k 0 1)
    (htest : code.Segment k [.dup 1, .pushInt 0, .cmp .greater, .branchFalse leave])
    (hleave : leave.Leads (k + 3) (l + 3))
    (hbody : code.Simulates rounds (⟨.counter, l + 3, l⟩ :: L) (k + 4) l (body.exec code rounds))
    (hstep : code.Segment l [.pushInt 1, .sub, .branch back, .popz])
    (hback : back.Leads (l + 2) k) :
    code.Simulates rounds L a (l + 4) (Flow.exec code rounds (.repeatTimes ⟨a, k⟩ body)) := by
  intro start m n H O hat hH hO
  refine (Tracks.evaluate hc hat).bind ?_
  rintro counter m n - hat
  exact tracks_countdown htest hleave hbody hstep hback hH hO rounds (Nat.le_add_left rounds n) hat

/-- The test of a `for`. Without a condition there is nothing to do. -/
inductive Tested (code : Code) : Option Extent → Nat → Nat → Nat → Prop
  | some {condition : Extent} {leave : Jump} {out : Nat} :
      code.Moves condition.start condition.stop 0 1 →
      code.Has condition.stop (.branchFalse leave) → leave.Leads condition.stop out →
      Tested code (some condition) condition.start (condition.stop + 1) out
  | none {a out : Nat} : Tested code none a a out

/-- The test of a loop, if there is one. -/
theorem Tested.tracks {condition : Option Extent} {out : Nat} (h : code.Tested condition k l out)
    (hat : start.At code n k H O m) :
    start.Tracks code rounds n
      (fun goesOn m n => start.At code n (if goesOn then l else out) H O m)
      ((test code condition).on m) := by
  cases h with
  | none => exact .ok (Nat.le_refl n) hat
  | some hc hb hleave =>
    refine (Tracks.evaluate hc hat).bind ?_
    rintro v m n - hat
    exact .ok (Nat.le_succ n) (hat.branchFalse hb hleave)

/-- A loop with clauses. -/
theorem simulates_forLoop {init step : List Flow} {condition : Option Extent} {back : Jump}
    {s e : Nat} (hinit : code.Simulates rounds L a k (Flow.execAll code rounds init))
    (htest : code.Tested condition k l (e + 1))
    (hbody : code.Simulates rounds (⟨.loop, e + 1, s⟩ :: L) l s (body.exec code rounds))
    (hstep : code.Simulates rounds L s e (Flow.execAll code rounds step))
    (hb : code.Has e (.branch back)) (hback : back.Leads e k) :
    code.Simulates rounds L a (e + 1)
      (Flow.exec code rounds (.forLoop init condition step body)) := by
  refine hinit.sequence ?_
  intro start m n H O hat hH hO
  refine Tracks.loop ?_ rounds (by omega) hat
  intro m n hat
  refine (htest.tracks hat).bind ?_
  intro goesOn m n₁ hn₁ hat
  cases goesOn with
  | false => exact .ok (Nat.le_refl n₁) (.last (.done hat))
  | true =>
    refine (hbody start m n₁ H O hat hH hO).bind ?_
    intro ending m n₂ hn₂ harr
    have harr := harr.out (by simp) rfl (e + 1)
    -- The step comes both after a body that is done and after a `continue`.
    have next : start.At code n₂ s H O m →
        start.Tracks code rounds n₂
          (Tracks.Round start code k H O (code.Arrives start (e + 1) L H O) n)
          (Structured.on (do
            match ← Flow.execAll code rounds step with
            | .done => return none
            | ending => return some ending) m) := by
      intro hat
      refine (hstep start m n₂ H O hat hH hO).bind ?_
      intro ending m n₃ hn₃ harr
      cases ending with
      | done =>
        cases harr with
        | done hat => exact .ok (Nat.le_succ n₃) (.back (by omega) (hat.branch hb hback))
      | _ => exact .ok (Nat.le_refl n₃) (.last (harr.elsewhere (by simp)))
    cases ending with
    | done => exact next harr
    | broke => exact .ok (Nat.le_refl n₂) (.last (.done harr))
    | continued => exact next harr
    | returned => exact .ok (Nat.le_refl n₂) (.last harr)

/-! ### Switches -/

/-- The comparisons of the subject with the labels of a switch lead to the start of the arm that is
chosen, or to their end if there is none. -/
def Chooses (code : Code) (labels : List (Option Extent)) (starts : List Nat) (k t : Nat) : Prop :=
  ∀ (rounds : Nat) (start m : Machine) (subject : Value) (H : List Value) (O : List Int)
    (n e : Nat), start.At code n k (subject :: H) O m →
    start.Tracks code rounds n
      (fun chosen m n =>
        start.At code n (chosen.elim t fun i => starts.getD i e) (subject :: H) O m)
      ((choose code subject labels).on m)

/-- The labels of a switch in finished code: the arm for a subject is the one that the comparisons
go to. -/
theorem Tests.chooses {cases : List (Case Node)} {starts : List Nat} {t : Nat}
    (h : code.Tests cases starts k t) :
    ∃ labels, Node.HaveLabels code cases labels ∧
      (∀ e, Case.otherwise e cases starts = starts.getD (labels.findIdx Option.isNone) e) ∧
      code.Chooses labels starts k t := by
  induction h with
  | done => exact ⟨[], .nil, fun _ => rfl, fun _ _ _ _ _ _ _ _ hat => .ok (Nat.le_refl _) hat⟩
  | unlabelled _ ih =>
    obtain ⟨labels, hl, hother, htracks⟩ := ih
    refine ⟨none :: labels, .unlabelled hl, fun e => by simp [Case.otherwise, List.findIdx_cons], ?_⟩
    intro rounds start m subject H O n e hat
    refine (htracks _ _ _ _ _ _ _ e hat).bind ?_
    rintro (_ | i) m n - hat
    · exact .ok (Nat.le_refl n) hat
    · exact .ok (Nat.le_refl n) hat
  | label hdup hlabel hseg hjump _ ih =>
    obtain ⟨labels, hl, hother, htracks⟩ := ih
    refine ⟨some ⟨_, _⟩ :: labels, .label hlabel.emits hl, fun e => ?_, ?_⟩
    · rw [Case.otherwise, if_neg (by simp), hother]
      simp [List.findIdx_cons]
    intro rounds start m subject H O n e hat
    have hat := hat.dup hdup
    refine ((Tracks.evaluate hlabel.pushes.moves hat).bind ?_).since (Nat.le_succ n)
    rintro value m n - hat
    refine (Tracks.compares hat hseg.1).bind ?_
    rintro equal m n - ⟨-, hat⟩
    have hat := hat.branchTrue hseg.2.1 hjump
    rw [Value.isTrue_ofBool] at hat
    cases equal with
    | true => exact .ok (Nat.le_succ n) hat
    | false =>
      refine ((htracks _ _ _ _ _ _ _ e hat).bind ?_).since (Nat.le_succ n)
      rintro (_ | i) m n - hat
      · exact .ok (Nat.le_refl n) hat
      · exact .ok (Nat.le_refl n) hat

/-- Where a machine is when the arms of a switch have ended. -/
theorem Arrives.outOfSwitch {e : Nat} {subject : Value} {ending : Ending}
    (h : code.Arrives start e (⟨.switch, e, e⟩ :: L) (subject :: H) O ending m n) (b : Nat) :
    match ending with
    | .done | .broke => start.At code n e (subject :: H) O m
    | .continued => code.Arrives start b L H O .continued m n
    | .returned result left => code.Arrives start b L H O (.returned result (left + 1)) m n := by
  cases h with
  | done h => exact h
  | broke _ h => exact h
  | brokeBack hb => exact absurd hb (by simp [Level.enters])
  | continued hk => exact absurd rfl hk
  | crossed _ h => exact h.elsewhere (by simp)
  | returned hp hi hs ho hw =>
    have h : code.Arrives start e L (subject :: H) O (.returned _ _) m n :=
      .returned hp hi hs ho hw
    exact h.leaving

/-- A switch. -/
theorem simulates_switch {labels : List (Option Extent)} {bodies : List (List Flow)}
    {starts : List Nat} {otherwise : Jump} {t e : Nat} (hc : code.Moves a k 0 1)
    (hchoose : code.Chooses labels starts k t)
    (hb : code.Has t (.branch otherwise))
    (hother : otherwise.Leads t (starts.getD (labels.findIdx Option.isNone) e))
    (harms : ∀ i, code.Simulates rounds (⟨.switch, e, e⟩ :: L) (starts.getD i e) e
      (Flow.execArms code rounds i bodies))
    (hpop : code.Has e .popz) :
    code.Simulates rounds L a (e + 1) (Flow.exec code rounds (.switch ⟨a, k⟩ labels bodies)) := by
  intro start m n H O hat hH hO
  refine (Tracks.evaluate hc hat).bind ?_
  rintro value m n - hat
  refine (hchoose _ _ _ _ _ _ _ e hat).bind ?_
  rintro chosen m n - hat
  -- With no equal label the machine still has a branch to take.
  obtain ⟨n', hn', hat⟩ : ∃ n', n ≤ n' ∧ start.At code n'
      (starts.getD (chosen.getD (labels.findIdx Option.isNone)) e) (value :: H) O m := by
    cases chosen with
    | none => exact ⟨n + 1, Nat.le_succ n, hat.branch hb hother⟩
    | some i => exact ⟨n, Nat.le_refl n, hat⟩
  have hheld : (value :: H).length = Level.held (⟨.switch, e, e⟩ :: L) := by
    rw [Level.held_cons, List.length_cons, hH]
    rfl
  refine ((harms _ start m n' (value :: H) O hat hheld hO).bind ?_).since hn'
  intro ending m n hn harr
  have harr := harr.outOfSwitch (e + 1)
  cases ending with
  | done => exact .ok (Nat.le_succ n) (.done (harr.popz hpop))
  | broke => exact .ok (Nat.le_succ n) (.done (harr.popz hpop))
  | continued => exact .ok (Nat.le_refl n) harr
  | returned => exact .ok (Nat.le_refl n) harr

/-- No arm. -/
theorem simulates_noArms (i : Nat) :
    code.Simulates rounds L a a (Flow.execArms code rounds i []) := by
  intro start m n H O hat hH hO
  cases i <;> exact .ok (Nat.le_refl n) (.done hat)

/-! ### Instances -/

/-- The instance to go back to first is the one to end as, unless there are more. -/
theorem Arrives.back {L' : List Level} {id : Int} {result : Value} {left : Nat}
    (h : code.Arrives start k L' H (id :: O) (.returned result left) m n) :
    code.Arrives start b L H O (.returned result left) { m with current := id } n := by
  generalize he : Ending.returned result left = ending at h
  cases h with
  | returned hp hi hs ho hw =>
    cases he
    refine .returned hp hi hs ho (hw.trans ?_)
    rw [List.getLast?_cons]
    rfl
  | _ => cases he

/-- No target. -/
theorem simulates_noRounds : code.Simulates rounds L a a (Flow.execRounds code rounds []) := by
  intro start m n H O hat hH hO
  exact .ok (Nat.le_refl n) (.done hat)

/-- A body for one target, and the others. -/
theorem simulates_round {rest : List (Extent × Flow)} {skip back : Jump} (hc : code.Moves a k 0 1)
    (hb : code.Has k (.pushEnv skip)) (hskip : skip.Leads k (l + 1))
    (hbody : code.Simulates rounds (⟨.within, l + 1, l⟩ :: L) (k + 1) l (body.exec code rounds))
    (hl : code.Has l (.popEnv back))
    (hrest : code.Simulates rounds L (l + 1) b (Flow.execRounds code rounds rest)) :
    code.Simulates rounds L a b (Flow.execRounds code rounds ((⟨a, k⟩, body) :: rest)) := by
  intro start m n H O hat hH hO
  refine (Tracks.evaluate hc hat).bind ?_
  rintro value m n - hat
  refine (Tracks.number hat hb).bind ?_
  rintro x m n - ⟨rfl, hat⟩
  change start.Tracks code rounds n _ (Structured.on (if _ then _ else _) m)
  split
  next hid =>
    have hat := hat.enter hb hid
    have hentered : (m.current :: O).length = Level.entered (⟨.within, l + 1, l⟩ :: L) := by
      rw [Level.entered_cons, List.length_cons, hO]
      rfl
    change start.Tracks code rounds n _ (Structured.on (body.exec code rounds >>= _) _)
    refine ((hbody start _ _ H _ hat hH hentered).bind ?_).since (Nat.le_succ n)
    intro ending m' n' hn' harr
    -- Unless the script ends, the machine is behind the body, as the instance before.
    have next : ∀ n'', n' ≤ n'' →
        start.At code n'' (l + 1) H O { m' with current := m.current } →
        start.Tracks code rounds n' (fun ending m n => code.Arrives start b L H O ending m n)
          ((Flow.execRounds code rounds rest).on { m' with current := m.current }) :=
      fun n'' hle hat => (hrest start _ n'' H O hat hH hO).since hle
    cases ending with
    | done =>
      cases harr with
      | done hat => exact next _ (Nat.le_succ n') (hat.leave (.inr ⟨_, hl⟩))
    | broke =>
      cases harr with
      | broke he => cases he
      | brokeBack _ hat => exact next n' (Nat.le_refl n') hat
    | continued =>
      cases harr with
      | continued _ hat => exact next _ (Nat.le_succ n') (hat.leave (.inr ⟨_, hl⟩))
      | crossed hk => cases hk
    | returned => exact .ok (Nat.le_refl n') harr.back
  next hid =>
    have hat := hat.pass hb hskip (by simpa using hid)
    exact (hrest start m _ H O hat hH hO).since (Nat.le_succ n)

/-! ### Ways out -/

/-- A script returns a value. -/
theorem simulates_returnValue {b : Nat} (hc : code.Moves a k 0 1)
    (hseg : code.Segment k (.replicate (Level.entered L) .popEnvExit ++ [.ret])) :
    code.Simulates rounds L a b (Flow.exec code rounds (.returning (some ⟨a, k⟩))) := by
  intro start m n H O hat hH hO
  refine (Tracks.evaluate hc hat).bind ?_
  rintro v m n - hat
  rw [← hO] at hseg
  obtain ⟨hat, hret, -⟩ := hat.leaveAll hseg
  refine .ok (Nat.le_add_right n (O.length + 1)) ?_
  exact .returned (K := []) (hat.ret hret) ⟨_, rfl, hret.lt⟩ rfl rfl rfl

/-- A script returns nothing. -/
theorem simulates_returnNothing {b : Nat}
    (hseg : code.Segment a (.replicate (Level.entered L) .popEnvExit ++ [.exit])) :
    code.Simulates rounds L a b (Flow.exec code rounds (.returning none)) := by
  intro start m n H O hat hH hO
  rw [← hO] at hseg
  obtain ⟨hat, hexit, -⟩ := hat.leaveAll hseg
  refine .ok (Nat.le_add_right n (O.length + 1)) ?_
  exact .returned (K := []) (hat.exit hexit) ⟨_, rfl, hexit.lt⟩ rfl rfl rfl

/-- A `break` out of a loop or switch. -/
theorem simulates_breakOut {jump : Jump} {b : Nat} (hl : level.enters = false)
    (hI : code.Has a (.branch jump)) (hj : jump.Leads a level.onBreak) :
    code.Simulates rounds (level :: L) a b (Flow.exec code rounds .breaking) := by
  intro start m n H O hat hH hO
  exact .ok (Nat.le_succ n) (.broke hl (hat.branch hI hj))

/-- A `break` out of an instance. -/
theorem simulates_breakBack {jump : Jump} {b : Nat} (hl : level.enters = true)
    (hseg : code.Segment a [.popEnvExit, .branch jump]) (hj : jump.Leads (a + 1) level.onBreak) :
    code.Simulates rounds (level :: L) a b (Flow.exec code rounds .breaking) := by
  intro start m n H O hat hH hO
  cases O with
  | nil => simp [Level.entered_cons, hl] at hO
  | cons id O =>
    exact .ok (Nat.le_add_right n 2) (.brokeBack hl ((hat.leave (.inl hseg.1)).branch hseg.2.1 hj))

/-- The subjects of the switches that a `continue` leaves are dropped. -/
theorem arrives_continue {crossed : List Level} {jump : Jump}
    (hcrossed : ∀ inner ∈ crossed, inner.kind = .switch) (hl : level.kind ≠ .switch)
    (hseg : code.Segment a (.replicate crossed.length .popz ++ [.branch jump]))
    (hj : jump.Leads (a + crossed.length) level.onContinue)
    (hH : H.length = Level.held (crossed ++ level :: L)) (hat : start.At code n a H O m) :
    ∃ n', n ≤ n' ∧ code.Arrives start b (crossed ++ level :: L) H O .continued m n' := by
  induction crossed generalizing a n H with
  | nil => exact ⟨n + 1, Nat.le_succ n, .continued hl (hat.branch hseg.1 hj)⟩
  | cons inner crossed ih =>
    obtain ⟨hI, hseg⟩ := hseg
    have hinner := hcrossed inner List.mem_cons_self
    rw [List.cons_append, Level.held_cons, if_pos (by simp [Level.keeps, hinner])] at hH
    cases H with
    | nil => simp at hH
    | cons v H =>
      rw [List.length_cons, Nat.add_comm crossed.length, ← Nat.add_assoc] at hj
      obtain ⟨n', hn', harr⟩ := ih (fun l h => hcrossed l (List.mem_cons_of_mem inner h)) hseg hj
        (Nat.succ.inj hH) (hat.popz hI)
      exact ⟨n', by omega, .crossed hinner harr⟩

/-- A `continue` past switches. -/
theorem simulates_continueOn {crossed : List Level} {jump : Jump} {b : Nat}
    (hcrossed : ∀ inner ∈ crossed, inner.kind = .switch) (hl : level.kind ≠ .switch)
    (hseg : code.Segment a (.replicate crossed.length .popz ++ [.branch jump]))
    (hj : jump.Leads (a + crossed.length) level.onContinue) :
    code.Simulates rounds (crossed ++ level :: L) a b (Flow.exec code rounds .continuing) := by
  intro start m n H O hat hH hO
  obtain ⟨n', hn', harr⟩ := arrives_continue hcrossed hl hseg hj hH hat
  exact .ok hn' harr

/-! ### All statements -/

/-- The code for a clause takes a machine along with the execution of the flow that the clause has,
whatever the number of rounds. The arms of a switch can be entered at each of their starts. -/
def SimulatesClause (code : Code) (L : List Level) : Clause → Nat → Nat → Prop
  | .one node, a, b => ∃ flow, node.HasFlow code flow ∧
      ∀ rounds, code.Simulates rounds L a b (flow.exec code rounds)
  | .all nodes, a, b => ∃ flows, Node.HaveFlows code nodes flows ∧
      ∀ rounds, code.Simulates rounds L a b (Flow.execAll code rounds flows)
  | .arms cases starts, a, b => starts.getD 0 b = a ∧ ∃ bodies, Node.HaveBodies code cases bodies ∧
      ∀ rounds i, code.Simulates rounds L (starts.getD i b) b (Flow.execArms code rounds i bodies)
  | .targets nodes body, a, b => ∃ flows, Node.HaveRounds code body nodes flows ∧
      ∀ rounds, code.Simulates rounds L a b (Flow.execRounds code rounds flows)

/-- The code of a statement without branches takes a machine along with its execution. -/
theorem Acts.simulated {node : Node} (h : code.Acts node a b) : ∃ flow, node.HasFlow code flow ∧
    ∀ rounds, code.Simulates rounds L a b (flow.exec code rounds) := by
  cases h with
  | assign hop htarget hvalue hstore =>
    exact ⟨.assign ⟨_, _⟩ ⟨_, _⟩ ⟨_, _⟩,
      .assign hop htarget.emits hvalue.emits ⟨⟨hstore, trivial⟩, rfl⟩, fun _ =>
      simulates_assign htarget.pushes.moves hvalue.pushes.moves
        (.of_effect hstore htarget.pushes.placeEffect.store)⟩
  | compound hop htarget hkeep hvalue hseg =>
    have hp := htarget.pushes.placeEffect
    exact ⟨.compound ⟨_, _⟩ ⟨_, _⟩ ⟨_, _⟩ ⟨_, _⟩,
      .compound hop htarget.emits ⟨hkeep, rfl⟩ hvalue.emits ⟨hseg, rfl⟩, fun _ =>
      simulates_compound htarget.pushes.moves (moves_keeping hp hkeep) hvalue.pushes.moves
        (moves_operate hp hseg)⟩
  | step htarget hseg =>
    refine ⟨.update ⟨_, _⟩ ⟨_, _⟩, .update htarget.emits ⟨hseg, ?_⟩, fun _ =>
      simulates_update htarget.pushes.moves (moves_step htarget.pushes.placeEffect hseg)⟩
    rw [List.length_append, ← Nat.add_assoc]
    rfl
  | discard hupdate hvalue hpop =>
    exact ⟨.discard ⟨_, _⟩, .discard hupdate hvalue.emits, fun _ =>
      simulates_discard hvalue.pushes.moves hpop⟩
  | declare hd =>
    obtain ⟨values, hvalues, htracks⟩ := hd.tracks
    refine ⟨.declare values, .declare hvalues, fun rounds start m n H O hat hH hO => ?_⟩
    refine (htracks hat).bind ?_
    rintro - m n - hat
    exact .ok (Nat.le_refl n) (.done hat)
  | declareGlobal => exact ⟨.block [], .declareGlobal, fun _ => simulates_nil⟩
  | declareEnum => exact ⟨.block [], .declareEnum, fun _ => simulates_nil⟩

/-- Code that performs a clause takes a machine along with the execution of the clause. -/
theorem Performs.simulated {clause : Clause} (h : code.Performs L clause a b) :
    code.SimulatesClause L clause a b := by
  induction h with
  | block _ ih =>
    obtain ⟨flows, hf, hs⟩ := ih
    exact ⟨.block flows, .block hf, hs⟩
  | basic hacts => exact hacts.simulated
  | ifThen hc hb hskip _ ih =>
    obtain ⟨flow, hf, hs⟩ := ih
    exact ⟨.ifElse ⟨_, _⟩ flow (.block []), .ifThen hc.emits hf, fun rounds =>
      simulates_ifElse hc.pushes.moves hb hskip (hs rounds) simulates_nil⟩
  | ifElse hc hb hthen _ hl helse _ ih ih' =>
    obtain ⟨thenFlow, hf, hs⟩ := ih
    obtain ⟨elseFlow, hf', hs'⟩ := ih'
    exact ⟨.ifElse ⟨_, _⟩ thenFlow elseFlow, .ifElse hc.emits hf hf', fun rounds =>
      simulates_ifElse hc.pushes.moves hb hthen ((hs rounds).jump hl helse) (hs' rounds)⟩
  | whileDo hc hb hleave _ hl hback ih =>
    obtain ⟨flow, hf, hs⟩ := ih
    exact ⟨.whileDo ⟨_, _⟩ flow, .whileDo hc.emits hf, fun rounds =>
      simulates_whileDo hc.pushes.moves hb hleave (hs rounds) hl hback⟩
  | doUntil _ hc hb hback ih =>
    obtain ⟨flow, hf, hs⟩ := ih
    exact ⟨.doUntil flow ⟨_, _⟩, .doUntil hf hc.emits, fun rounds =>
      simulates_doUntil (hs rounds) hc.pushes.moves hb hback⟩
  | repeatTimes hc htest hleave _ hstep hback ih =>
    obtain ⟨flow, hf, hs⟩ := ih
    exact ⟨.repeatTimes ⟨_, _⟩ flow, .repeatTimes hc.emits hf, fun rounds =>
      simulates_repeatTimes hc.pushes.moves htest hleave (hs rounds) hstep hback⟩
  | forLoop _ hc hb hleave _ _ he hback ihi ihb ihs =>
    obtain ⟨init, hfi, hsi⟩ := ihi
    obtain ⟨flow, hfb, hsb⟩ := ihb
    obtain ⟨step, hfs, hss⟩ := ihs
    exact ⟨.forLoop init (some ⟨_, _⟩) step flow, .forLoop hfi hc.emits hfs hfb, fun rounds =>
      simulates_forLoop (hsi rounds) (.some hc.pushes.moves hb hleave) (hsb rounds) (hss rounds) he
        hback⟩
  | forEver _ _ _ he hback ihi ihb ihs =>
    obtain ⟨init, hfi, hsi⟩ := ihi
    obtain ⟨flow, hfb, hsb⟩ := ihb
    obtain ⟨step, hfs, hss⟩ := ihs
    exact ⟨.forLoop init none step flow, .forEver hfi hfs hfb, fun rounds =>
      simulates_forLoop (hsi rounds) .none (hsb rounds) (hss rounds) he hback⟩
  | switch hc htests hb hother _ hpop ih =>
    obtain ⟨labels, hl, hfirst, hchooses⟩ := htests.chooses
    obtain ⟨-, bodies, hf, hs⟩ := ih
    exact ⟨.switch ⟨_, _⟩ labels bodies, .switch hc.emits hl hf, fun rounds =>
      simulates_switch hc.pushes.moves hchooses hb (hfirst _ ▸ hother) (hs rounds) hpop⟩
  | withEach _ ih =>
    obtain ⟨flows, hf, hs⟩ := ih
    exact ⟨.withEach flows, .withEach hf, hs⟩
  | returnValue hc hseg =>
    exact ⟨.returning (some ⟨_, _⟩), .returnValue hc.emits, fun _ =>
      simulates_returnValue hc.pushes.moves hseg⟩
  | returnNothing hseg => exact ⟨.returning none, .returnNothing, fun _ => simulates_returnNothing hseg⟩
  | exit hseg => exact ⟨.returning none, .exit, fun _ => simulates_returnNothing hseg⟩
  | breakOut hl hI hj => exact ⟨.breaking, .breaking, fun _ => simulates_breakOut hl hI hj⟩
  | breakBack hl hseg hj => exact ⟨.breaking, .breaking, fun _ => simulates_breakBack hl hseg hj⟩
  | continueOn hcrossed hl hseg hj =>
    exact ⟨.continuing, .continuing, fun _ => simulates_continueOn hcrossed hl hseg hj⟩
  | nothing => exact ⟨[], .nil, fun _ => simulates_nil⟩
  | sequence _ _ ih ih' =>
    obtain ⟨flow, hf, hs⟩ := ih
    obtain ⟨flows, hf', hs'⟩ := ih'
    exact ⟨flow :: flows, .cons hf hf', fun rounds => (hs rounds).sequence (hs' rounds)⟩
  | noArms => exact ⟨rfl, [], .nil, fun _ i => simulates_noArms i⟩
  | moreArms _ _ ih ih' =>
    obtain ⟨flows, hf, hs⟩ := ih
    obtain ⟨hstart, bodies, hf', hs'⟩ := ih'
    refine ⟨rfl, flows :: bodies, .cons hf hf', fun rounds i => ?_⟩
    cases i with
    | zero => exact (hs rounds).sequence (hstart ▸ hs' rounds 0)
    | succ i => exact hs' rounds i
  | noTargets => exact ⟨[], .nil, fun _ => simulates_noRounds⟩
  | moreTargets hc hb hskip _ hl _ ih ih' =>
    obtain ⟨flow, hf, hs⟩ := ih
    obtain ⟨flows, hf', hs'⟩ := ih'
    exact ⟨(⟨_, _⟩, flow) :: flows, .cons hc.emits hf hf', fun rounds =>
      simulates_round hc.pushes.moves hb hskip (hs rounds) hl (hs' rounds)⟩

end Code

end Gml
