import TreeLang.Scope.Chain

/-!
# The machine that evaluates

The machine has a scope and sinks for what is printed. It counts the trees it visits against a
limit, and asks at every loop and call whether it may go on. It also knows how many function bodies
it is in, and keeps a record of the calls.

What halts a run is an error of the program or the end of the fuel. The machine is kept in either
case, so a failed run leaves behind what it has done so far.
-/

set_option autoImplicit false

namespace TreeLang

/-! ## Errors -/

/-- Why an evaluation fails. -/
inductive EvalError where
  /-- The frame binds the variable already. -/
  | duplicate (name : Text)
  /-- No frame binds the variable. -/
  | undefinedVar (name : Text)
  /-- No frame binds the function. -/
  | undefinedFunc (name : Text)
  /-- More trees were visited than the limit allows. -/
  | stepLimit (limit : Nat)
  /-- The evaluation may not go on. -/
  | canceled
  /-- The sink takes no more lines. -/
  | sinkFull
  /-- There is no tree to evaluate. -/
  | missingTree
  deriving DecidableEq, Repr

/-- The wording of an error. -/
def EvalError.message : EvalError → Text
  | .duplicate x => utf8 "already defined variable: " ++ x
  | .undefinedVar x => utf8 "undefined variable: " ++ x
  | .undefinedFunc x => utf8 "undefined function: " ++ x
  | .stepLimit n => utf8 "step limit exceeded: " ++ Text.ofNat n
  | .canceled => utf8 "evaluation aborted: context canceled"
  | .sinkFull => utf8 "sink full"
  | .missingTree => utf8 "nil node"

/-- What halts a run without a value. -/
inductive Halt where
  | error (e : EvalError)
  | outOfFuel
  deriving DecidableEq, Repr

/-- The wording of a halt. -/
def Halt.message : Halt → Text
  | .error e => e.message
  | .outOfFuel => utf8 "out of fuel"

/-! ## Sinks -/

/-- A sink: the values printed to it, last first, and how many more it takes. -/
structure Sink where
  printed : List Int64 := []
  room : Option Nat := none
  deriving DecidableEq, Repr

namespace Sink

/-- The line of a printed value. -/
def line (v : Int64) : Text := Text.ofInt64 v ++ Text.newline

/-- The text of a sink. -/
def text (s : Sink) : Text := s.printed.reverse.flatMap line

/-- Print a value, if there is room. -/
def print? (s : Sink) (v : Int64) : Option Sink :=
  match s.room with
  | none => some { s with printed := v :: s.printed }
  | some 0 => none
  | some (k + 1) => some ⟨v :: s.printed, some k⟩

end Sink

/-- Sinks by number. A sink that was never used is empty and has room for all. -/
abbrev Sinks := List (Nat × Sink)

namespace Sinks

/-- The sink of a number. -/
def get (s : Sinks) (n : Nat) : Sink := (s.lookup n).getD {}

/-- Put a sink in the place of the one with a number. -/
def set : Sinks → Nat → Sink → Sinks
  | [], n, a => [(n, a)]
  | (m, b) :: r, n, a => if m = n then (m, a) :: r else (m, b) :: set r n a

end Sinks

/-! ## Machines -/

/-- What a run may do: the number of trees it may visit, and whether its calls are recorded. -/
structure Options where
  limit : Option Nat := none
  recorded : Bool := false
  deriving DecidableEq, Repr

/-- The record of a call: the name of the function, the number of arguments that were bound, and the
number of function bodies in progress with its own. -/
structure CallRecord where
  func : Text
  args : Nat
  depth : Nat
  deriving DecidableEq, Repr

/-- The machine. The checks that are left, if they are limited at all, are those that let it go on;
the calls are recorded last first. -/
structure Machine where
  chain : Chain
  sinks : Sinks := []
  checks : Option Nat := none
  steps : Nat := 0
  depth : Nat := 0
  calls : List CallRecord := []
  deriving Repr

/-- Functions on the machine that may halt. -/
abbrev Eval := EStateM Halt Machine

namespace Eval

/-- Fail with an error. -/
def fail {α : Type} (e : EvalError) : Eval α := throw (.error e)

/-- Count a visited tree, if there is a limit. -/
def step (o : Options) : Eval Unit := fun m =>
  match o.limit with
  | none => .ok () m
  | some n =>
    let m := { m with steps := m.steps + 1 }
    if n < m.steps then .error (.error (.stepLimit n)) m else .ok () m

/-- Ask whether the machine may go on. -/
def check : Eval Unit := fun m =>
  match m.checks with
  | none => .ok () m
  | some 0 => .error (.error .canceled) m
  | some (k + 1) => .ok () { m with checks := some k }

/-- The value of a variable. -/
def lookup (x : Text) : Eval Int64 := fun m =>
  match m.chain.lookup? x with
  | some v => .ok v m
  | none => .error (.error (.undefinedVar x)) m

/-- The function of a name. -/
def lookupFunc (x : Text) : Eval Function := fun m =>
  match m.chain.lookupFunc? x with
  | some f => .ok f m
  | none => .error (.error (.undefinedFunc x)) m

/-- Declare a variable in the current frame. -/
def declare (x : Text) (v : Int64) : Eval Unit := fun m =>
  match m.chain.declare? x v with
  | some c => .ok () { m with chain := c }
  | none => .error (.error (.duplicate x)) m

/-- Assign a variable. -/
def assign (x : Text) (v : Int64) : Eval Unit := fun m =>
  match m.chain.assign? x v with
  | some c => .ok () { m with chain := c }
  | none => .error (.error (.undefinedVar x)) m

/-- Define a function. -/
def define (x : Text) (f : Function) : Eval Unit := fun m =>
  .ok () { m with chain := m.chain.defineFunc x f }

/-- Print a value to the sink of the current frame. -/
def print (v : Int64) : Eval Unit := fun m =>
  match (m.sinks.get m.chain.sink).print? v with
  | some s => .ok () { m with sinks := m.sinks.set m.chain.sink s }
  | none => .error (.error .sinkFull) m

/-- Run inside a new frame, which is dropped in the end. -/
def inFrame {α : Type} (f : Frame) (x : Eval α) : Eval α := fun m =>
  match x { m with chain := f :: m.chain } with
  | .ok a m => .ok a { m with chain := m.chain.tail }
  | .error e m => .error e { m with chain := m.chain.tail }

/-- Run a function body: it is one more in progress, and its call is recorded. -/
def inBody {α : Type} (o : Options) (func : Text) (args : Nat) (x : Eval α) : Eval α := fun m =>
  let depth := m.depth + 1
  let calls := if o.recorded then ⟨func, args, depth⟩ :: m.calls else m.calls
  match x { m with depth := depth, calls := calls } with
  | .ok a m => .ok a { m with depth := m.depth - 1 }
  | .error e m => .error e { m with depth := m.depth - 1 }

end Eval

end TreeLang
