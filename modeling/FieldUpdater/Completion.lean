import FieldUpdater.Classes.Table

/-!
# Completion

Work that has to wait until all code is there is queued as named tasks.
Running the queue runs the tasks in the order in which they were queued and stops
at the first that fails. What a task is, and what it acts on, is left open.
-/

namespace FieldUpdater

/-- Why a completion task fails. -/
inductive CompletionError where
  /-- A class could not be finished. -/
  | type (task : String) (source : TableError)
  /-- The class was complete before. -/
  | alreadyFinalized (name : String)
  deriving DecidableEq

/-- The wording of a completion error. -/
def CompletionError.message : CompletionError → String
  | .type task source => s!"Finish task `{task}` failed: {source.message}"
  | .alreadyFinalized name => s!"Type {name} was already finalized"

/-- Tasks with their names, in the order in which they were queued. -/
structure CompletionQueue (Task : Type) where
  /-- The tasks. -/
  tasks : Array (String × Task) := #[]

namespace CompletionQueue

variable {Task State Error : Type}

/-- Queue a task. -/
def register (q : CompletionQueue Task) (name : String) (task : Task) : CompletionQueue Task :=
  ⟨q.tasks.push (name, task)⟩

/-- The number of tasks. -/
def size (q : CompletionQueue Task) : Nat := q.tasks.size

/-- The names of the tasks in order. -/
def pending (q : CompletionQueue Task) : List String := q.tasks.toList.map Prod.fst

/-- Run tasks in order up to the first that fails. What the state became by then
remains. -/
def runTasks (run : String → Task → State → Except Error Unit × State) :
    List (String × Task) → State → Except Error Unit × State
  | [], s => (.ok (), s)
  | (name, task) :: rest, s =>
    match run name task s with
    | (.error err, s) => (.error err, s)
    | (.ok (), s) => runTasks run rest s

/-- Run the queue. The result of a full run is the number of tasks. -/
def run (step : String → Task → State → Except Error Unit × State) (q : CompletionQueue Task)
    (s : State) : Except Error Nat × State :=
  match runTasks step q.tasks.toList s with
  | (.error err, s) => (.error err, s)
  | (.ok (), s) => (.ok q.size, s)

end CompletionQueue

end FieldUpdater
