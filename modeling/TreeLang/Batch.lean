import TreeLang.Eval.Request
import TreeLang.Library

/-!
# Batches of programs

A batch runs programs that do not share a scope: each has a root frame and a sink of its own, so
that one which fails does not affect the others. Only a batch that is canceled before it starts
fails as a whole, and then none of its programs runs.
-/

set_option autoImplicit false

namespace TreeLang

/-- A program: its name, its trees, and whether it uses the library. -/
structure Program where
  name : Text
  trees : List (Option Tree)
  library : Bool := false
  deriving Repr

/-- What became of a program: its value, what it printed, and what halted it if it has no value. -/
structure Result where
  name : Text := []
  value : Int64 := 0
  output : Text := []
  halt : Option Halt := none
  deriving DecidableEq, Repr

namespace Program

/-- The machine at the start of a program. -/
def start (p : Program) (checks : Option Nat) : Machine :=
  { chain := Library.root p.library, checks := checks }

/-- Run a program. The machine is kept for its calls and the checks that are left. -/
def run (o : Options) (checks : Option Nat) (p : Program) : Result × Machine :=
  match evalAll o p.trees (p.start checks) with
  | .ok v m => (⟨p.name, v, (m.sinks.get 0).text, none⟩, m)
  | .error h m => (⟨p.name, 0, (m.sinks.get 0).text, some h⟩, m)

/-- Run a program with requests. -/
def runWith (rs : List Request) (p : Program) : Result × Machine :=
  p.run (Setup.ofRequests rs).options (Setup.ofRequests rs).checks

end Program

/-- The checks that let a run go on: all, or none if the run is canceled. -/
def checksWhen (canceled : Bool) : Option Nat := if canceled then some 0 else none

/-- What became of a batch: the results of its programs, whether it was canceled, and the calls,
last first. -/
structure Batch where
  results : List Result
  canceled : Bool := false
  calls : List CallRecord := []
  deriving Repr

namespace Batch

/-- Run programs one after the other. They share the checks that let them go on. -/
def runEach (o : Options) : Option Nat → List Program → Batch
  | _, [] => ⟨[], false, []⟩
  | checks, p :: ps =>
    let (r, m) := p.run o checks
    let rest := runEach o m.checks ps
    ⟨r :: rest.results, rest.canceled, rest.calls ++ m.calls⟩

/-- Run a batch. -/
def run (o : Options) (canceled : Bool) (checks : Option Nat) (ps : List Program) : Batch :=
  if canceled then ⟨ps.map fun _ => {}, true, []⟩ else runEach o checks ps

/-- Run a batch with requests. The context of the batch is asked for before them. -/
def runWith (rs : List Request) (canceled : Bool) (ps : List Program) : Batch :=
  let s := Setup.ofRequests (.context (checksWhen canceled) :: rs)
  run s.options canceled s.checks ps

/-- The wording of the error of a canceled batch. -/
def canceledMessage : Text := utf8 "context canceled"

end Batch

end TreeLang
