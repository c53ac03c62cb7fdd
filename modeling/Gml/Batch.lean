import Gml.Diagnostic

/-!
# Batches

The scripts of a batch are shared out among the workers of a pool. A worker takes the index of the
next script from a counter that all workers share, does the work on that script, keeps the result
with the index, and starts again; it stops when the index that it took is past the end. The workers
take turns in any order. When all of them have stopped, the results are put in the order of the
scripts.

Which worker does the work on a script, and when, has no influence on the results.
-/

namespace Gml

/-- A script with its name. -/
structure ScriptFile where
  /-- The name of the script. -/
  name : String
  /-- The text of the script. -/
  text : String
  deriving DecidableEq, Repr, Inhabited

namespace Batch

/-- The work on a script. It gives nothing if it does not come to an end. -/
abbrev Work (α : Type) := ScriptFile → Option (Except Diagnostic α)

/-- What stands for the result of a script if the work on it did not come to an end. -/
def crashed (file : ScriptFile) : Except Diagnostic α :=
  .error ⟨.crashed file.name, .nowhere⟩

/-- What becomes of one script. -/
def outcome (work : Work α) (file : ScriptFile) : Except Diagnostic α :=
  (work file).getD (crashed file)

/-- What a worker does when its turn comes. -/
inductive Task (α : Type) where
  /-- It takes an index from the counter. -/
  | take
  /-- It does the work on the script with an index, or stops if there is none. -/
  | work (index : Nat)
  /-- It keeps the result for an index. -/
  | keep (index : Nat) (result : Except Diagnostic α)
  /-- It does nothing, because it has stopped. -/
  | rest

/-- A worker. -/
structure Worker (α : Type) where
  /-- What it does next. -/
  task : Task α := .take
  /-- The results that it keeps, with their indices. -/
  finished : List (Nat × Except Diagnostic α) := []

/-- The workers with the counter that they share. -/
structure Pool (α : Type) where
  /-- The counter. -/
  next : Nat := 0
  /-- The workers. -/
  workers : List (Worker α)

/-- A turn of a worker, given the counter. The result has the counter after the turn. -/
def Worker.turn (work : Work α) (files : List ScriptFile) (next : Nat) (worker : Worker α) :
    Nat × Worker α :=
  match worker.task with
  | .take => (next + 1, { worker with task := .work next })
  | .work index =>
    match files[index]? with
    | some file => (next, { worker with task := .keep index (outcome work file) })
    | none => (next, { worker with task := .rest })
  | .keep index result => (next, ⟨.take, worker.finished ++ [(index, result)]⟩)
  | .rest => (next, worker)

namespace Pool

/-- A pool of workers that have not done anything. -/
def start (count : Nat) : Pool α :=
  { workers := List.replicate count {} }

/-- Gives a turn to the worker with a number. -/
def turn (work : Work α) (files : List ScriptFile) (pool : Pool α) (number : Nat) : Pool α :=
  match pool.workers[number]? with
  | some worker =>
    let (next, worker) := worker.turn work files pool.next
    ⟨next, pool.workers.set number worker⟩
  | none => pool

/-- Gives turns to workers, in the order of their numbers in the list. -/
def run (work : Work α) (files : List ScriptFile) (pool : Pool α) (numbers : List Nat) : Pool α :=
  numbers.foldl (turn work files) pool

/-- Whether all workers have stopped. -/
def Stopped (pool : Pool α) : Prop :=
  ∀ worker ∈ pool.workers, worker.task = .rest

/-- The results that the workers keep, each in the place of its script. -/
def slots (files : List ScriptFile) (pool : Pool α) : List (Option (Except Diagnostic α)) :=
  (pool.workers.flatMap (·.finished)).foldl (fun slots (index, result) => slots.set index result)
    (files.map fun _ => none)

/-- The results in the order of the scripts. -/
def results (files : List ScriptFile) (pool : Pool α) : List (Except Diagnostic α) :=
  List.zipWith (fun slot file => slot.getD (crashed file)) (pool.slots files) files

end Pool

/-- Does the same work on several scripts. One worker has enough turns for all of them: three for
each script, and two to see that there are no more. -/
def run (work : Work α) (files : List ScriptFile) : List (Except Diagnostic α) :=
  ((Pool.start 1).run work files (List.replicate (3 * files.length + 2) 0)).results files

end Batch

end Gml
