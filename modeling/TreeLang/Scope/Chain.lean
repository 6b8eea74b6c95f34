import TreeLang.Scope.Bindings
import TreeLang.Tree.Basic

/-!
# Frames and chains

A scope is a chain of frames, the current frame first and the root last. A frame binds variables and
functions, and knows the sink that prints in it go to. A name means what the nearest frame that
binds it says.

A variable is declared in the current frame only and assigned in the nearest frame that binds it. A
function is defined in the nearest frame that binds its name, and in the current frame if there is
none.
-/

set_option autoImplicit false

namespace TreeLang

/-- A function: its own name, its parameters and its body, which may be missing. -/
structure Function where
  name : Text
  params : List Text
  body : Option Tree
  deriving Repr

/-- A frame of a scope. -/
structure Frame where
  vars : Bindings Int64 := []
  funcs : Bindings Function := []
  sink : Nat := 0
  deriving Repr

/-- Declare a variable that the frame does not bind yet. -/
def Frame.declare? (f : Frame) (x : Text) (v : Int64) : Option Frame :=
  if f.vars.binds x then none else some { f with vars := f.vars.set x v }

/-- A scope: the current frame, its parent, and so on up to the root. -/
abbrev Chain := List Frame

namespace Chain

/-- The value of a variable in the nearest frame that binds it. -/
def lookup? : Chain → Text → Option Int64
  | [], _ => none
  | f :: up, x =>
    match f.vars.get? x with
    | some v => some v
    | none => lookup? up x

/-- The function in the nearest frame that binds its name. -/
def lookupFunc? : Chain → Text → Option Function
  | [], _ => none
  | f :: up, x =>
    match f.funcs.get? x with
    | some g => some g
    | none => lookupFunc? up x

/-- Declare a variable in the current frame, which must not bind it yet. -/
def declare? : Chain → Text → Int64 → Option Chain
  | [], _, _ => none
  | f :: up, x, v => (f.declare? x v).map (· :: up)

/-- Assign a variable in the nearest frame that binds it. -/
def assign? : Chain → Text → Int64 → Option Chain
  | [], _, _ => none
  | f :: up, x, v =>
    if f.vars.binds x then some ({ f with vars := f.vars.set x v } :: up)
    else (assign? up x v).map (f :: ·)

/-- Replace the nearest function of a name, if there is one. -/
def replaceFunc? : Chain → Text → Function → Option Chain
  | [], _, _ => none
  | f :: up, x, g =>
    if f.funcs.binds x then some ({ f with funcs := f.funcs.set x g } :: up)
    else (replaceFunc? up x g).map (f :: ·)

/-- Add a function to the current frame. -/
def addFunc : Chain → Text → Function → Chain
  | [], _, _ => []
  | f :: up, x, g => { f with funcs := f.funcs.set x g } :: up

/-- Define a function in the nearest frame that binds its name, or else in the current frame. -/
def defineFunc (c : Chain) (x : Text) (g : Function) : Chain :=
  (c.replaceFunc? x g).getD (c.addFunc x g)

/-- The sink of the current frame. -/
def sink (c : Chain) : Nat := (c.head?.map Frame.sink).getD 0

/-- An empty frame below the current one, with its sink. -/
def child (c : Chain) : Frame := { sink := c.sink }

end Chain

end TreeLang
