import Gml.Compile
import Mathlib.Data.List.Nodup
import Mathlib.Data.List.Perm.Basic

/-!
# Schedules of a batch

The workers of a pool take their turns in any order. Here it is shown that the order does not
matter: when all workers have stopped, each script has the outcome that it has alone.

The argument has three parts.

* At every time the indices that the workers hold, those past the end apart, are the indices up to
  the counter, each held once (`Pool.Sound`). A turn keeps this (`Pool.Sound.turn`) and so does a
  run (`Pool.Sound.run`).
* A worker that has stopped has seen the counter at the end, so that the workers of a pool that has
  stopped keep a result for each index (`Pool.Sound.finished_perm`). Results for one index are
  equal, so that they can be put in their places in any order (`getElem?_foldl_set`).
* A worker moves on with each of its turns (`Worker.progress`), and cannot hold more indices than
  there are scripts, so that a worker with enough turns stops (`Pool.stopped_of_count`).

The main statement is `every_schedule_gives_outcomes`.
-/

namespace Gml.Batch

variable {α : Type} {work : Work α} {files : List ScriptFile}

/-! ### What workers hold -/

/-- The index that a worker is busy with. -/
def Task.indices : Task α → List Nat
  | .take => []
  | .work index => [index]
  | .keep index _ => [index]
  | .rest => []

/-- The turns that a worker has spent since it last took up nothing. -/
def Task.spent : Task α → Nat
  | .take => 0
  | .work _ => 1
  | .keep _ _ => 2
  | .rest => 2

/-- The indices of scripts that a worker holds: those that it has a result for and the one that it
is busy with. -/
def Worker.share (files : List ScriptFile) (worker : Worker α) : List Nat :=
  (worker.finished.map Prod.fst ++ worker.task.indices).filter (· < files.length)

/-- What a worker does is right: it keeps the outcomes of the scripts, and has stopped only if the
counter is past the end. -/
structure Worker.Right (work : Work α) (files : List ScriptFile) (next : Nat)
    (worker : Worker α) : Prop where
  finished : ∀ index result, (index, result) ∈ worker.finished →
    (files.map (outcome work))[index]? = some result
  working : ∀ index, worker.task = .work index → index < next
  keeping : ∀ index result, worker.task = .keep index result →
    (files.map (outcome work))[index]? = some result
  resting : worker.task = .rest → files.length ≤ next

variable {worker : Worker α}

/-- More files may be taken. -/
theorem Worker.Right.mono {next next' : Nat} (h : worker.Right work files next)
    (hle : next ≤ next') : worker.Right work files next' where
  finished := h.finished
  working index htask := Nat.lt_of_lt_of_le (h.working index htask) hle
  keeping := h.keeping
  resting htask := Nat.le_trans (h.resting htask) hle

/-- All that a turn of a worker can be. -/
theorem Worker.turn_cases (work : Work α) (files : List ScriptFile) (next : Nat)
    (worker : Worker α) :
    (worker.task = .take ∧
      worker.turn work files next = (next + 1, ⟨.work next, worker.finished⟩)) ∨
    (∃ index file, worker.task = .work index ∧ files[index]? = some file ∧
      worker.turn work files next = (next, ⟨.keep index (outcome work file), worker.finished⟩)) ∨
    (∃ index, worker.task = .work index ∧ files.length ≤ index ∧
      worker.turn work files next = (next, ⟨.rest, worker.finished⟩)) ∨
    (∃ index result, worker.task = .keep index result ∧
      worker.turn work files next = (next, ⟨.take, worker.finished ++ [(index, result)]⟩)) ∨
    (worker.task = .rest ∧ worker.turn work files next = (next, worker)) := by
  rcases worker with ⟨_ | index | ⟨index, result⟩ | _, finished⟩
  · exact .inl ⟨rfl, rfl⟩
  · by_cases hlt : index < files.length
    · refine .inr (.inl ⟨index, files[index], rfl, List.getElem?_eq_getElem hlt, ?_⟩)
      simp [Worker.turn, List.getElem?_eq_getElem hlt]
    · have hle : files.length ≤ index := Nat.le_of_not_lt hlt
      refine .inr (.inr (.inl ⟨index, rfl, hle, ?_⟩))
      simp [Worker.turn, List.getElem?_eq_none hle]
  · exact .inr (.inr (.inr (.inl ⟨index, result, rfl, rfl⟩)))
  · exact .inr (.inr (.inr (.inr ⟨rfl, rfl⟩)))

/-- A turn gives none back. -/
theorem Worker.le_turn (next : Nat) (worker : Worker α) :
    next ≤ (worker.turn work files next).1 := by
  obtain ⟨-, h⟩ | ⟨_, _, -, -, h⟩ | ⟨_, -, -, h⟩ | ⟨_, _, -, h⟩ | ⟨-, h⟩ :=
    worker.turn_cases work files next
  all_goals
    have hnext := congrArg Prod.fst h
    dsimp only at hnext
    omega

/-- A turn keeps a worker right. -/
theorem Worker.Right.turn {next : Nat} (h : worker.Right work files next) :
    (worker.turn work files next).2.Right work files (worker.turn work files next).1 := by
  obtain ⟨-, hturn⟩ | ⟨index, file, -, hfile, hturn⟩ | ⟨index, htask, hle, hturn⟩ |
    ⟨index, result, htask, hturn⟩ | ⟨-, hturn⟩ := worker.turn_cases work files next
  all_goals
    rw [hturn]
    dsimp only
  · constructor
    case finished => exact h.finished
    case working =>
      rintro index ⟨⟩
      exact Nat.lt_succ_self next
    case keeping => rintro _ _ ⟨⟩
    case resting => rintro ⟨⟩
  · constructor
    case finished => exact h.finished
    case working => rintro _ ⟨⟩
    case keeping =>
      rintro _ _ ⟨⟩
      rw [List.getElem?_map, hfile, Option.map_some]
    case resting => rintro ⟨⟩
  · constructor
    case finished => exact h.finished
    case working => rintro _ ⟨⟩
    case keeping => rintro _ _ ⟨⟩
    case resting =>
      intro _
      exact Nat.le_trans hle (Nat.le_of_lt (h.working index htask))
  · constructor
    case finished =>
      intro i r hmem
      rcases List.mem_append.1 hmem with hmem | hmem
      · exact h.finished i r hmem
      · cases List.mem_singleton.1 hmem
        exact h.keeping index result htask
    case working => rintro _ ⟨⟩
    case keeping => rintro _ _ ⟨⟩
    case resting => rintro ⟨⟩
  · exact h

/-- What a worker gains by a turn is what the counter moves on by, unless that is past the end. -/
theorem Worker.share_turn (work : Work α) (files : List ScriptFile) (next : Nat)
    (worker : Worker α) :
    ∃ gained, (worker.turn work files next).2.share files = worker.share files ++ gained ∧
      List.range (min (worker.turn work files next).1 files.length) =
        List.range (min next files.length) ++ gained := by
  obtain ⟨htask, hturn⟩ | ⟨index, file, htask, hfile, hturn⟩ | ⟨index, htask, hle, hturn⟩ |
    ⟨index, result, htask, hturn⟩ | ⟨-, hturn⟩ := worker.turn_cases work files next
  all_goals rw [hturn]
  · by_cases hlt : next < files.length
    · refine ⟨[next], ?_, ?_⟩
      · simp [Worker.share, htask, Task.indices, hlt]
      · rw [Nat.min_eq_left hlt, Nat.min_eq_left (Nat.le_of_lt hlt), List.range_succ]
    · refine ⟨[], ?_, ?_⟩
      · simp [Worker.share, htask, Task.indices, hlt]
      · rw [Nat.min_eq_right (by omega), Nat.min_eq_right (by omega), List.append_nil]
  · exact ⟨[], by simp [Worker.share, htask, Task.indices], by simp⟩
  · exact ⟨[], by simp [Worker.share, htask, Task.indices, hle], by simp⟩
  · exact ⟨[], by simp [Worker.share, htask, Task.indices], by simp⟩
  · exact ⟨[], by simp, by simp⟩

/-! ### What the pool holds -/

namespace Pool

/-- All that a turn of a pool can be: no worker has the number, or one has, and the others stay as
they are. -/
theorem turn_cases (work : Work α) (files : List ScriptFile) (pool : Pool α) (number : Nat) :
    (pool.workers[number]? = none ∧ pool.turn work files number = pool) ∨
    ∃ worker, pool.workers[number]? = some worker ∧
      pool.turn work files number = ⟨(worker.turn work files pool.next).1,
        pool.workers.set number (worker.turn work files pool.next).2⟩ := by
  cases hworker : pool.workers[number]? with
  | none => exact .inl ⟨rfl, by rw [Pool.turn, hworker]⟩
  | some worker => exact .inr ⟨worker, rfl, by rw [Pool.turn, hworker]⟩

/-- A turn keeps the number of workers. -/
theorem length_turn (pool : Pool α) (number : Nat) :
    (pool.turn work files number).workers.length = pool.workers.length := by
  obtain ⟨-, h⟩ | ⟨worker, -, h⟩ := pool.turn_cases work files number
  · rw [h]
  · rw [h, List.length_set]

/-- So does a run. -/
theorem length_run (pool : Pool α) (numbers : List Nat) :
    (pool.run work files numbers).workers.length = pool.workers.length := by
  induction numbers generalizing pool with
  | nil => rfl
  | cons number numbers ih => exact (ih _).trans (pool.length_turn number)

/-- The invariant of a pool: its workers do what is right, and hold the indices up to the counter,
each of them once. -/
structure Sound (work : Work α) (files : List ScriptFile) (pool : Pool α) : Prop where
  right : ∀ worker ∈ pool.workers, worker.Right work files pool.next
  share : (pool.workers.flatMap (Worker.share files)).Perm
    (List.range (min pool.next files.length))

/-- A pool is sound in the beginning. -/
theorem Sound.start (work : Work α) (files : List ScriptFile) (count : Nat) :
    (Pool.start count : Pool α).Sound work files where
  right worker hmem := by
    rw [List.eq_of_mem_replicate hmem]
    constructor
    case finished => simp
    case working => rintro _ ⟨⟩
    case keeping => rintro _ _ ⟨⟩
    case resting => rintro ⟨⟩
  share := by
    have hnone : ∀ worker ∈ (Pool.start count : Pool α).workers, worker.share files = [] := by
      intro worker hmem
      rw [List.eq_of_mem_replicate hmem]
      rfl
    rw [List.flatMap_eq_nil_iff.2 hnone]
    simp [Pool.start]

variable {pool : Pool α}

/-- A turn keeps the invariant. -/
theorem Sound.turn (h : pool.Sound work files) (number : Nat) :
    (pool.turn work files number).Sound work files := by
  obtain ⟨-, hturn⟩ | ⟨worker, hworker, hturn⟩ := pool.turn_cases work files number
  · rw [hturn]
    exact h
  obtain ⟨hlt, hget⟩ := List.getElem?_eq_some_iff.1 hworker
  rw [hturn]
  constructor
  case right =>
    intro other hmem
    rcases List.mem_or_eq_of_mem_set hmem with hmem | rfl
    · exact (h.right other hmem).mono (worker.le_turn pool.next)
    · exact (h.right worker (List.mem_of_getElem? hworker)).turn
  case share =>
    obtain ⟨gained, hgained, hrange⟩ := worker.share_turn work files pool.next
    obtain ⟨front, back, hworkers, -, hset⟩ : ∃ front back,
        pool.workers = front ++ pool.workers[number] :: back ∧ front.length = number ∧
        pool.workers.set number (worker.turn work files pool.next).2 =
          front ++ (worker.turn work files pool.next).2 :: back := List.exists_of_set hlt
    have hshare := h.share
    rw [hworkers, hget, List.flatMap_append, List.flatMap_cons] at hshare
    rw [hset, List.flatMap_append, List.flatMap_cons, hgained, hrange]
    -- The index that was gained stands before the shares of the workers at the back.
    have hmove : (worker.share files ++ gained ++ back.flatMap (Worker.share files)).Perm
        (worker.share files ++ back.flatMap (Worker.share files) ++ gained) := by
      rw [List.append_assoc, List.append_assoc]
      exact List.perm_append_comm.append_left _
    refine (hmove.append_left _).trans ?_
    rw [← List.append_assoc]
    exact hshare.append_right gained

/-- A run keeps the invariant. -/
theorem Sound.run (h : pool.Sound work files) (numbers : List Nat) :
    (pool.run work files numbers).Sound work files := by
  induction numbers generalizing pool with
  | nil => exact h
  | cons number numbers ih => exact ih (h.turn number)

/-! ### The results of a pool that has stopped -/

/-- A file that is finished is one of the files. -/
theorem Sound.lt_of_finished (h : pool.Sound work files) {worker : Worker α}
    (hmem : worker ∈ pool.workers) {index : Nat} (hindex : index ∈ worker.finished.map Prod.fst) :
    index < files.length := by
  obtain ⟨⟨_, result⟩, hresult, rfl⟩ := List.mem_map.1 hindex
  have := (List.getElem?_eq_some_iff.1 ((h.right worker hmem).finished _ _ hresult)).1
  rwa [List.length_map] at this

/-- What a worker finished and what it does now. -/
theorem Sound.share_eq (h : pool.Sound work files) {worker : Worker α}
    (hmem : worker ∈ pool.workers) :
    worker.share files =
      worker.finished.map Prod.fst ++ worker.task.indices.filter (· < files.length) := by
  rw [Worker.share, List.filter_append]
  congr 1
  exact List.filter_eq_self.2 fun index hindex => decide_eq_true (h.lt_of_finished hmem hindex)

/-- The workers of a pool that has stopped keep one result for each index. -/
theorem Sound.finished_perm (h : pool.Sound work files) (hstopped : pool.Stopped)
    (hworkers : files ≠ [] → pool.workers ≠ []) :
    (pool.workers.flatMap (fun worker => worker.finished.map Prod.fst)).Perm
      (List.range files.length) := by
  have hshare : ∀ worker ∈ pool.workers,
      worker.share files = worker.finished.map Prod.fst := by
    intro worker hmem
    rw [h.share_eq hmem, hstopped worker hmem, Task.indices, List.filter_nil, List.append_nil]
  have hend : files.length ≤ pool.next := by
    by_cases hnil : files = []
    · simp [hnil]
    · obtain ⟨worker, hmem⟩ := List.exists_mem_of_ne_nil _ (hworkers hnil)
      exact (h.right worker hmem).resting (hstopped worker hmem)
  have hperm := h.share
  rw [Nat.min_eq_right hend] at hperm
  rwa [List.flatMap_congr hshare] at hperm

end Pool

/-- Results that are put in their places one after another, if results for one place are equal. -/
theorem getElem?_foldl_set {β : Type} {values : List β} {kept : List (Nat × β)}
    {slots : List (Option β)}
    (hkept : ∀ index value, (index, value) ∈ kept → values[index]? = some value)
    (hlength : slots.length = values.length) (place : Nat) :
    (kept.foldl (fun slots pair => slots.set pair.1 (some pair.2)) slots)[place]? =
      if place ∈ kept.map Prod.fst then (values[place]?).map some else slots[place]? := by
  induction kept generalizing slots with
  | nil => simp
  | cons pair kept ih =>
    obtain ⟨index, value⟩ := pair
    have hvalue := hkept index value List.mem_cons_self
    have hlength' : (slots.set index (some value)).length = values.length := by
      rw [List.length_set, hlength]
    rw [List.foldl_cons, ih (fun i v hmem => hkept i v (List.mem_cons_of_mem _ hmem)) hlength',
      List.map_cons]
    by_cases hplace : index = place
    · subst hplace
      have hlt : index < slots.length := hlength ▸ (List.getElem?_eq_some_iff.1 hvalue).1
      rw [List.getElem?_set_self hlt, hvalue, Option.map_some, ite_self, if_pos List.mem_cons_self]
    · have hmem : place ∈ index :: kept.map Prod.fst ↔ place ∈ kept.map Prod.fst := by
        rw [List.mem_cons, or_iff_right (Ne.symm hplace)]
      simp only [List.getElem?_set_ne hplace, hmem]

namespace Pool

/-- The results of a pool that has stopped are the outcomes of the scripts. -/
theorem Sound.results_eq {pool : Pool α} (h : pool.Sound work files) (hstopped : pool.Stopped)
    (hworkers : files ≠ [] → pool.workers ≠ []) :
    pool.results files = files.map (outcome work) := by
  have hkept : ∀ index result, (index, result) ∈ pool.workers.flatMap (·.finished) →
      (files.map (outcome work))[index]? = some result := by
    intro index result hmem
    obtain ⟨worker, hworker, hmem⟩ := List.mem_flatMap.1 hmem
    exact (h.right worker hworker).finished index result hmem
  have hindices : ∀ index < files.length,
      index ∈ (pool.workers.flatMap (·.finished)).map Prod.fst := by
    intro index hlt
    rw [List.map_flatMap]
    exact (h.finished_perm hstopped hworkers).mem_iff.2 (List.mem_range.2 hlt)
  have hslots : pool.slots files = (files.map (outcome work)).map some := by
    refine List.ext_getElem? fun place => ?_
    have hlength : (files.map fun _ => (none : Option (Except Diagnostic α))).length =
        (files.map (outcome work)).length := by simp
    refine (getElem?_foldl_set hkept hlength place).trans ?_
    by_cases hlt : place < files.length
    · rw [if_pos (hindices place hlt), ← List.getElem?_map]
    · have hle := Nat.le_of_not_lt hlt
      simp [hle]
  rw [Pool.results, hslots]
  refine List.ext_getElem? fun place => ?_
  cases hfile : files[place]? <;> simp [List.getElem?_zipWith, hfile]

end Pool

/-! ### Schedules that come to an end -/

/-- How far a worker has come: three turns for each result that it keeps, and those that it has
spent on the next one. -/
def Worker.progress (worker : Worker α) : Nat :=
  3 * worker.finished.length + worker.task.spent

/-- A worker that has not stopped moves on with its turn. -/
theorem Worker.progress_turn {next : Nat} (hbusy : worker.task ≠ .rest) :
    (worker.turn work files next).2.progress = worker.progress + 1 := by
  obtain ⟨htask, hturn⟩ | ⟨index, file, htask, -, hturn⟩ | ⟨index, htask, -, hturn⟩ |
    ⟨index, result, htask, hturn⟩ | ⟨htask, -⟩ := worker.turn_cases work files next
  · simp [hturn, Worker.progress, htask, Task.spent]
  · simp [hturn, Worker.progress, htask, Task.spent]
  · simp [hturn, Worker.progress, htask, Task.spent]
  · simp [hturn, Worker.progress, htask, Task.spent, Nat.mul_add]
  · exact absurd htask hbusy

namespace Pool

/-- A worker that has not stopped holds no more indices than there are scripts, which bounds how far
it has come. -/
theorem Sound.progress_le {pool : Pool α} (h : pool.Sound work files) {worker : Worker α}
    (hmem : worker ∈ pool.workers) (hbusy : worker.task ≠ .rest) :
    worker.progress ≤ 3 * files.length + 1 := by
  have hshare : (worker.share files).length ≤ files.length := by
    have hsub : (worker.share files).Sublist (pool.workers.flatMap (Worker.share files)) :=
      List.sublist_flatten_of_mem (List.mem_map_of_mem hmem)
    have hle := hsub.length_le
    rw [h.share.length_eq, List.length_range] at hle
    exact Nat.le_trans hle (Nat.min_le_right _ _)
  rw [h.share_eq hmem, List.length_append, List.length_map] at hshare
  unfold Worker.progress
  cases htask : worker.task with
  | take =>
    simp only [Task.spent]
    omega
  | work index =>
    simp only [Task.spent]
    omega
  | keep index result =>
    have hlt := (List.getElem?_eq_some_iff.1 ((h.right worker hmem).keeping index result htask)).1
    rw [List.length_map] at hlt
    rw [htask, Task.indices, List.filter_cons_of_pos (by simpa using hlt), List.length_cons]
      at hshare
    simp only [Task.spent]
    omega
  | rest => exact absurd htask hbusy

/-- Each worker has stopped or has come as far as a number of turns that it had. -/
def Advanced (turns : Nat → Nat) (pool : Pool α) : Prop :=
  ∀ number worker, pool.workers[number]? = some worker →
    worker.task = .rest ∨ turns number ≤ worker.progress

/-- A turn advances one worker. -/
theorem Advanced.turn {turns : Nat → Nat} {pool : Pool α} (h : pool.Advanced turns)
    (number : Nat) :
    (pool.turn work files number).Advanced
      (fun other => turns other + if number = other then 1 else 0) := by
  intro other worker' hworker'
  obtain ⟨hnone, hturn⟩ | ⟨worker, hworker, hturn⟩ := pool.turn_cases work files number
  · rw [hturn] at hworker'
    have hne : number ≠ other := by
      rintro rfl
      rw [hnone] at hworker'
      cases hworker'
    simpa [hne] using h other worker' hworker'
  · rw [hturn] at hworker'
    by_cases heq : number = other
    · subst heq
      rw [List.getElem?_set_self (List.getElem?_eq_some_iff.1 hworker).1] at hworker'
      cases hworker'
      simp only [if_pos]
      by_cases hbusy : worker.task = .rest
      · left
        rw [Worker.turn, hbusy]
        exact hbusy
      · rw [Worker.progress_turn hbusy]
        exact .inr (Nat.succ_le_succ ((h number worker hworker).resolve_left hbusy))
    · rw [List.getElem?_set_ne heq] at hworker'
      simpa [heq] using h other worker' hworker'

/-- A run advances each by its turns. -/
theorem Advanced.run {turns : Nat → Nat} {pool : Pool α} (h : pool.Advanced turns)
    (numbers : List Nat) :
    (pool.run work files numbers).Advanced (fun number => turns number + numbers.count number) := by
  induction numbers generalizing pool turns with
  | nil => exact h
  | cons number numbers ih =>
    intro other worker hworker
    refine (ih (h.turn number) other worker hworker).imp_right fun hle => ?_
    simp only [List.count_cons, beq_iff_eq] at hle ⊢
    omega

/-- If each worker has three turns for each script and two more, all of them stop. -/
theorem stopped_of_count {count : Nat} {numbers : List Nat}
    (hnumbers : ∀ number < count, 3 * files.length + 2 ≤ numbers.count number) :
    ((Pool.start count).run work files numbers).Stopped := by
  intro worker hmem
  by_contra hbusy
  have hsound := (Sound.start work files count).run numbers
  have hadvanced : (Pool.start count : Pool α).Advanced (fun _ => 0) :=
    fun _ _ _ => .inr (Nat.zero_le _)
  obtain ⟨number, hworker⟩ := List.getElem?_of_mem hmem
  have hlt : number < count := by
    have := (List.getElem?_eq_some_iff.1 hworker).1
    rwa [length_run, Pool.start, List.length_replicate] at this
  have hle : 0 + numbers.count number ≤ worker.progress :=
    (hadvanced.run numbers number worker hworker).resolve_left hbusy
  have hbound := hsound.progress_le hmem hbusy
  have hturns := hnumbers number hlt
  omega

/-- There are workers. -/
theorem workers_ne_nil {count : Nat} (hcount : 0 < count) (numbers : List Nat) :
    ((Pool.start count).run work files numbers).workers ≠ [] := by
  rw [← List.length_pos_iff, length_run, Pool.start, List.length_replicate]
  exact hcount

end Pool

/-- A batch on one worker gives each script its outcome. -/
theorem run_eq (work : Work α) (files : List ScriptFile) :
    run work files = files.map (outcome work) := by
  refine ((Pool.Sound.start work files 1).run _).results_eq (Pool.stopped_of_count ?_)
    fun _ => Pool.workers_ne_nil Nat.one_pos _
  intro number hlt
  exact Nat.le_of_eq (by rw [Nat.lt_one_iff.1 hlt, List.count_replicate_self])

/-- In a pool with workers, every order of turns in which all workers stop gives each script its
own outcome. The scripts are shared out among the workers without loss or repetition, and the
workers do stop if each of them has enough turns. A script whose work does not come to an end
counts as crashed; the other results stay what they are. In particular, to compile a batch is to
compile each script alone. -/
theorem every_schedule_gives_outcomes (work : Work α) (files : List ScriptFile) (count : Nat)
    (hcount : files ≠ [] → 0 < count) :
    (∀ numbers, (∀ number < count, 3 * files.length + 2 ≤ numbers.count number) →
      ((Pool.start count).run work files numbers).Stopped) ∧
    (∀ numbers, ((Pool.start count).run work files numbers).Stopped →
      ((Pool.start count).run work files numbers).results files = files.map (outcome work) ∧
      (((Pool.start count).run work files numbers).workers.flatMap
        fun worker => worker.finished.map Prod.fst).Perm (List.range files.length) ∧
      ∀ (place : Nat) file, files[place]? = some file →
        (∀ result, work file = some result →
          (((Pool.start count).run work files numbers).results files)[place]? = some result) ∧
        (work file = none →
          ∃ diagnostic, (((Pool.start count).run work files numbers).results files)[place]? =
              some (.error diagnostic) ∧
            diagnostic.fault.message = "compiler panicked while compiling " ++ file.name)) ∧
    run work files = files.map (outcome work) ∧
    ∀ context, toCode files context = files.map (fun file => compileToCode file.text context) ∧
      toBytes files context = files.map (fun file => compile file.text context) := by
  refine ⟨fun numbers => Pool.stopped_of_count, fun numbers hstopped => ?_, run_eq work files,
    fun context => ⟨run_eq _ files, run_eq _ files⟩⟩
  have hsound := (Pool.Sound.start work files count).run numbers
  have hworkers : files ≠ [] → ((Pool.start count).run work files numbers).workers ≠ [] :=
    fun hfiles => Pool.workers_ne_nil (hcount hfiles) numbers
  have hresults := hsound.results_eq hstopped hworkers
  refine ⟨hresults, hsound.finished_perm hstopped hworkers, fun place file hfile => ?_⟩
  rw [hresults, List.getElem?_map, hfile, Option.map_some]
  constructor
  · intro result hresult
    rw [outcome, hresult, Option.getD_some]
  · intro hnone
    rw [outcome, hnone, Option.getD_none]
    exact ⟨⟨.crashed file.name, .nowhere⟩, rfl, rfl⟩

/-- Two workers share three scripts, and the work on the second does not come to an end. -/
theorem every_schedule_gives_outcomes_crash :
    let files : List ScriptFile := [⟨"a", "x"⟩, ⟨"b", "y"⟩, ⟨"c", "z"⟩]
    let work : Work String := fun file => if file.name = "b" then none else some (.ok file.text)
    let numbers := [0, 1, 1, 0, 1, 1, 0] ++ (List.replicate 8 [1, 0, 0]).flatten ++ [1, 1]
    (∀ number < 2, 3 * files.length + 2 ≤ numbers.count number) ∧
    ((Pool.start 2).run work files numbers).results files =
      [.ok "x", .error ⟨.crashed "b", .nowhere⟩, .ok "z"] := by
  intro files work numbers
  have hnumbers : ∀ number < 2, 3 * files.length + 2 ≤ numbers.count number := by decide
  obtain ⟨hstops, hgives, -⟩ :=
    every_schedule_gives_outcomes work files 2 (fun _ => Nat.two_pos)
  refine ⟨hnumbers, (hgives numbers (hstops numbers hnumbers)).1.trans ?_⟩
  simp [files, work, outcome, crashed]

end Gml.Batch
