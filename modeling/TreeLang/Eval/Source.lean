import TreeLang.Eval.Tree
import TreeLang.Tree.Stream

/-!
# Evaluation of texts

A text is read to its end before any tree in it is evaluated. So a text with a fault leaves the
machine as it is.
-/

set_option autoImplicit false

namespace TreeLang

/-- Why a text has no value. -/
inductive SourceError where
  | read (e : ReadError)
  | halt (h : Halt)
  deriving DecidableEq, Repr

/-- The wording of an error. -/
def SourceError.message : SourceError → Text
  | .read e => e.message
  | .halt h => h.message

/-- Evaluate the trees of a text one after the other. -/
def evalText (o : Options) (t : Text) (m : Machine) : EStateM.Result SourceError Machine Int64 :=
  match Tree.parse t with
  | .error e => .error (.read e) m
  | .ok ts =>
    match evalAll o (ts.map some) m with
    | .ok v m => .ok v m
    | .error h m => .error (.halt h) m

end TreeLang
