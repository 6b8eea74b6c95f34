import TreeLang.Eval.Machine

/-!
# Evaluation

Every tree has a value. A condition holds when its value is one. Sequences and function bodies have
frames of their own; a function body runs below the frame of its caller, so names in it mean what
they mean where it is called.

Evaluation need not end, so it takes fuel: it goes down by one from a tree to the trees inside it,
and from one turn of a loop to the next.
-/

set_option autoImplicit false

namespace TreeLang

/-- The value of a truth value. -/
def ofBool (b : Bool) : Int64 := if b then 1 else 0

/-- The value of an operation. Sums and products wrap around. -/
def Op.apply : Op → Int64 → Int64 → Int64
  | .add, a, b => a + b
  | .mul, a, b => a * b
  | .eq, a, b => ofBool (a == b)
  | .lt, a, b => ofBool (a < b)
  | .gt, a, b => ofBool (b < a)

namespace Eval

/-- Evaluate one thing after the other. The value is the last one, or else the given one. -/
def inOrder {α : Type} (eval : α → Eval Int64) : List α → Int64 → Eval Int64
  | [], last => pure last
  | t :: ts, _ => do
    let v ← eval t
    inOrder eval ts v

/-- Evaluate the body as long as the test gives one. The value is the last one of the body, or else
the given one. -/
def repeated (test body : Eval Int64) : Nat → Int64 → Eval Int64
  | 0, _ => throw .outOfFuel
  | fuel + 1, last => do
    check
    if (← test) = 1 then
      let v ← body
      repeated test body fuel v
    else return last

/-- Bind parameters to the values of arguments, from left to right, as far as there are both. -/
def bindArgs (eval : Tree → Eval Int64) : List Text → List Tree → Frame → Eval Frame
  | p :: ps, a :: as, f => do
    let v ← eval a
    match f.declare? p v with
    | some f => bindArgs eval ps as f
    | none => fail (.duplicate p)
  | _, _, f => pure f

/-- Evaluate a tree that may be missing. -/
def present (eval : Tree → Eval Int64) : Option Tree → Eval Int64
  | some t => eval t
  | none => fail .missingTree

/-- Evaluate a tree. -/
def tree (o : Options) : Nat → Tree → Eval Int64
  | 0, _ => throw .outOfFuel
  | fuel + 1, t => do
    step o
    match t with
    | .none => return 0
    | .literal v => return v
    | .binary op a b =>
      let x ← tree o fuel a
      let y ← tree o fuel b
      return op.apply x y
    | .seq ts =>
      inFrame (← get).chain.child (inOrder (tree o fuel) ts 0)
    | .cond c a b =>
      if (← tree o fuel c) = 1 then tree o fuel a else tree o fuel b
    | .loop c b => repeated (tree o fuel c) (tree o fuel b) fuel 0
    | .declare x e =>
      let v ← tree o fuel e
      declare x v
      return v
    | .assign x e =>
      let v ← tree o fuel e
      assign x v
      return v
    | .var x => lookup x
    | .print e =>
      let v ← tree o fuel e
      print v
      return v
    | .define f ps b =>
      define f ⟨f, ps, some b⟩
      return 0
    | .call f args =>
      let g ← lookupFunc f
      check
      let frame ← bindArgs (tree o fuel) g.params args (← get).chain.child
      inBody o g.name (min g.params.length args.length)
        (inFrame frame (present (tree o fuel) g.body))

/-- Evaluate trees, which may be missing, one after the other in the current frame. -/
def all (o : Options) (fuel : Nat) (ts : List (Option Tree)) : Eval Int64 :=
  inOrder (present (tree o fuel)) ts 0

end Eval

/-- Fuel that a run with the given options does not use up. A run with a limit on the visited trees
is never deeper than that, and any other run gets one less than two to the power of 63, which no
machine gets through. -/
def Options.fuel (o : Options) : Nat :=
  match o.limit with
  | some n => n + 1
  | none => 9223372036854775807

/-- Evaluate trees one after the other, with the steps counted anew. -/
def evalAll (o : Options) (ts : List (Option Tree)) (m : Machine) :
    EStateM.Result Halt Machine Int64 :=
  Eval.all o o.fuel ts { m with steps := 0, depth := 0 }

end TreeLang
