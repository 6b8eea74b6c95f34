import TreeLang.Eval.Machine

/-!
# Requests for an evaluation

Who wants trees evaluated lists what is asked for: a limit on the visited trees, a context that may
stop the run, a logger of the calls. The requests are met one after the other, so of two requests of
the same kind the later one counts.
-/

set_option autoImplicit false

namespace TreeLang

/-- What may be asked for an evaluation. -/
inductive Request where
  /-- The greatest number of trees to visit, if positive. -/
  | maxSteps (n : Int)
  /-- The checks of a context that let the run go on, if they are limited. -/
  | context (checks : Option Nat)
  /-- Whether calls are recorded. -/
  | logger (recorded : Bool)
  deriving DecidableEq, Repr

/-- What a run starts with: its options, and the checks that let it go on. -/
structure Setup where
  options : Options := {}
  checks : Option Nat := none
  deriving DecidableEq, Repr

namespace Setup

/-- Meet a request. -/
def meet (s : Setup) : Request → Setup
  | .maxSteps n => { s with options.limit := if 0 < n then some n.toNat else none }
  | .context checks => { s with checks := checks }
  | .logger recorded => { s with options.recorded := recorded }

/-- Meet requests one after the other. -/
def ofRequests (rs : List Request) : Setup := rs.foldl meet {}

end Setup

end TreeLang
