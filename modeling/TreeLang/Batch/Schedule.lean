import TreeLang.Batch

/-!
# The workers of a batch

A batch gives each of its programs to a worker. Workers run side by side, as many at a time as a
limit allows, and in whatever order they get their turns. All they share is the context of their
group: a worker asks it once before it runs its program, and the program asks it before every turn
of a loop and in every call. A worker that is refused leaves without a result and makes the batch
fail; a program that is refused has a result, with the error in it.

Nobody can tell how far a worker is between two questions. So a turn of a worker takes it to its
next question and the answer to that, or to the end of its program. A schedule is the list of the
turns of all that take part, which are the workers, the batch itself and the two contexts.
-/

set_option autoImplicit false

namespace TreeLang.Batch

/-- Where a worker is. -/
inductive Worker where
  /-- It was not started yet. -/
  | idle
  /-- It was started, and asks next whether it may run its program. -/
  | started
  /-- It runs its program, which was let go on so many times. -/
  | running (passed : Nat)
  /-- It was refused, and left with an error. -/
  | refused
  /-- Its program has ended. -/
  | ended
  deriving DecidableEq, Repr

namespace Worker

/-- Whether a worker takes up one of the places that are limited. -/
def active : Worker → Bool
  | .started | .running _ => true
  | .idle | .refused | .ended => false

/-- Whether a worker has left. -/
def gone : Worker → Bool
  | .refused | .ended => true
  | .idle | .started | .running _ => false

end Worker

/-- A program, its worker, and what was stored as its result so far. -/
structure Job where
  program : Program
  worker : Worker := .idle
  result : Result := {}
  deriving Repr

/-- A turn of a worker, told by the context of its group whether to stop. A program that was let go
on so many times and is refused the next time ends like one that is given so many checks. -/
def Job.work (o : Options) (stop : Bool) (j : Job) : Option Job :=
  match j.worker with
  | .started => some { j with worker := if stop then .refused else .running 0 }
  | .running k =>
    let r := (j.program.run o (some k)).1
    if r.halt = some (.error .canceled) ∧ stop = false then
      some { j with worker := .running (k + 1) }
    else some { j with worker := .ended, result := r }
  | .idle | .refused | .ended => none

/-- A batch at work. -/
structure Group where
  jobs : List Job
  /-- The context of the caller is done. -/
  canceled : Bool := false
  /-- The context of the group is done. -/
  stopped : Bool := false
  /-- The batch has waited for all workers. -/
  waited : Bool := false
  /-- Whether the batch has returned, and then whether with an error. -/
  returned : Option Bool := none
  deriving Repr

/-- Whose turn it is. -/
inductive Turn where
  /-- The context of the caller becomes done. -/
  | cancel
  /-- The context of the group becomes done. -/
  | stop
  /-- The batch starts a worker. -/
  | start (job : Nat)
  /-- A worker goes on. -/
  | work (job : Nat)
  /-- The batch has waited for all workers. -/
  | wait
  /-- The batch returns. -/
  | leave
  deriving DecidableEq, Repr

namespace Group

/-- The programs of a batch, with no worker started. -/
def ofPrograms (ps : List Program) : Group := { jobs := ps.map fun p => { program := p } }

/-- The results that are stored. -/
def results (g : Group) : List Result := g.jobs.map (·.result)

/-- Whether a worker has left with an error. -/
def failed (g : Group) : Bool := g.jobs.any fun j => j.worker = .refused

/-- How many workers are at work. -/
def active (g : Group) : Nat := g.jobs.countP fun j => j.worker.active

/-- Whether there is a place for one more worker. Without a positive limit there always is. -/
def hasPlace (limit : Int) (g : Group) : Bool := limit ≤ 0 ∨ g.active < limit

/-- Put something in the place of a job. -/
def setJob (g : Group) (i : Nat) (j : Job) : Group := { g with jobs := g.jobs.set i j }

/-- A turn, if it is possible. The context of the group is done only after that of the caller, after
a worker has failed, or after the wait. A batch fails if a worker does or if the context of the
caller is done when it returns. -/
def turn (o : Options) (limit : Int) (g : Group) (t : Turn) : Option Group :=
  if g.returned.isSome then none
  else
    match t with
    | .cancel => if g.canceled then none else some { g with canceled := true }
    | .stop =>
      if g.stopped = false ∧ (g.canceled ∨ g.failed ∨ g.waited) then
        some { g with stopped := true }
      else none
    | .start i => do
      let j ← g.jobs[i]?
      if j.worker = .idle ∧ g.hasPlace limit then
        some (g.setJob i { j with worker := .started })
      else none
    | .work i => do
      let j ← g.jobs[i]?
      let j ← j.work o g.stopped
      some (g.setJob i j)
    | .wait =>
      if g.waited = false ∧ g.jobs.all (·.worker.gone) then some { g with waited := true } else none
    | .leave => if g.waited then some { g with returned := some (g.failed || g.canceled) } else none

/-- The turns of a schedule one after the other, if they are possible. -/
def run (o : Options) (limit : Int) : Group → List Turn → Option Group
  | g, [] => some g
  | g, t :: ts => do
    let g ← g.turn o limit t
    g.run o limit ts

end Group

end TreeLang.Batch
