import TreeLang.Scope.Chain

/-!
# Forests of frames

A forest holds frames by number. Each frame but a root has a parent that was there before it, so
that the frames from any one up to its root form a chain.
-/

set_option autoImplicit false

namespace TreeLang

/-- A frame of a forest and the number of its parent. -/
structure Member where
  frame : Frame
  parent : Option Nat
  deriving Repr

/-- Frames by number. -/
abbrev Forest := List Member

namespace Forest

/-- The numbers of a frame and of the frames above it, of at most `room` frames. -/
def pathIn (forest : Forest) : Nat → Nat → List Nat
  | 0, _ => []
  | room + 1, n =>
    match forest[n]? with
    | none => []
    | some m =>
      match m.parent with
      | none => [n]
      | some p => n :: pathIn forest room p

/-- The numbers of a frame and of the frames above it. -/
def path (forest : Forest) (n : Nat) : List Nat := pathIn forest (n + 1) n

/-- The chain of a frame. -/
def chain (forest : Forest) (n : Nat) : Chain :=
  (forest.path n).filterMap fun k => (forest[k]?).map Member.frame

/-- Put a frame in the place of the one with a number. -/
def setFrame (forest : Forest) (n : Nat) (f : Frame) : Forest :=
  forest.modify n fun m => { m with frame := f }

/-- Put the frames of a chain in the places with the given numbers. -/
def setFrames (forest : Forest) : List Nat → Chain → Forest
  | n :: ns, f :: fs => setFrames (forest.setFrame n f) ns fs
  | _, _ => forest

/-- Put a chain in the place of the chain of a frame. -/
def setChain (forest : Forest) (n : Nat) (c : Chain) : Forest := forest.setFrames (forest.path n) c

/-- Add an empty frame, below a parent and with its sink, or as a root with the first sink. -/
def grow (forest : Forest) (parent : Option Nat) : Forest :=
  match parent with
  | none => forest ++ [⟨{}, none⟩]
  | some p => forest ++ [⟨(forest.chain p).child, some p⟩]

/-- The number of the parent of a frame. -/
def parentOf (forest : Forest) (n : Nat) : Option Nat := (forest[n]?).bind Member.parent

/-- Send the prints of a frame to a sink. -/
def redirect (forest : Forest) (n sink : Nat) : Forest :=
  forest.modify n fun m => { m with frame := { m.frame with sink := sink } }

/-! ## Scope operations from a frame -/

/-- The value of a variable, as seen from a frame. -/
def lookup? (forest : Forest) (n : Nat) (x : Text) : Option Int64 := (forest.chain n).lookup? x

/-- The function of a name, as seen from a frame. -/
def lookupFunc? (forest : Forest) (n : Nat) (x : Text) : Option Function :=
  (forest.chain n).lookupFunc? x

/-- Declare a variable in a frame. -/
def declare? (forest : Forest) (n : Nat) (x : Text) (v : Int64) : Option Forest :=
  ((forest.chain n).declare? x v).map (forest.setChain n)

/-- Assign a variable as seen from a frame. -/
def assign? (forest : Forest) (n : Nat) (x : Text) (v : Int64) : Option Forest :=
  ((forest.chain n).assign? x v).map (forest.setChain n)

/-- Define a function as seen from a frame. -/
def defineFunc (forest : Forest) (n : Nat) (x : Text) (f : Function) : Forest :=
  forest.setChain n ((forest.chain n).defineFunc x f)

/-- The frame of a number. -/
def frame (forest : Forest) (n : Nat) : Frame := ((forest[n]?).map Member.frame).getD {}

end Forest

end TreeLang
