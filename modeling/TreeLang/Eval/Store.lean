import TreeLang.Eval.Source
import TreeLang.Library
import TreeLang.Scope.Forest

/-!
# Evaluation in a forest

A store holds a forest of frames and the sinks that they print to. Evaluation in a frame runs on its
chain, and what becomes of the chain is put back into the forest. The other frames do not take part.
-/

set_option autoImplicit false

namespace TreeLang

/-- Frames and sinks by number. -/
structure Store where
  forest : Forest := []
  sinks : Sinks := []
  deriving Repr

namespace Store

/-- The machine that evaluates in a frame. -/
def machine (s : Store) (n : Nat) (checks : Option Nat) : Machine :=
  { chain := s.forest.chain n, sinks := s.sinks, checks := checks }

/-- The store after a machine has evaluated in a frame. -/
def keep (s : Store) (n : Nat) (m : Machine) : Store := ⟨s.forest.setChain n m.chain, m.sinks⟩

/-- Load the library in a frame. -/
def loadLibrary (s : Store) (n : Nat) : Store :=
  match Library.load (s.machine n none) with
  | .ok _ m => s.keep n m
  | .error _ m => s.keep n m

/-- Send the prints of a frame to a sink, which takes so many more lines if that is said. -/
def redirect (s : Store) (n sink : Nat) (room : Option Nat) : Store :=
  { forest := s.forest.redirect n sink
    sinks := match room with
      | none => s.sinks
      | some k => s.sinks.set sink { s.sinks.get sink with room := some k } }

end Store

end TreeLang
