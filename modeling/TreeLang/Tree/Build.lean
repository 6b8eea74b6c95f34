import TreeLang.Tree.Basic

/-!
# Trees from operands that may be missing

Callers that put trees together by hand may lack an operand. The functions here take operands that
may be missing, and give the tree if none is; otherwise they say which operand of which form is the
first that is missing.
-/

set_option autoImplicit false

namespace TreeLang.Tree

/-- Why a tree cannot be built. -/
inductive BuildFault where
  /-- An operand is missing. -/
  | missingOperand (index : Nat) (form : Text)
  /-- No operator has this number. -/
  | noOperator (number : Int)
  deriving DecidableEq, Repr

/-- The wording of a fault. -/
def BuildFault.message : BuildFault → Text
  | .missingOperand index form =>
    utf8 "minexp: nil operand " ++ Text.ofNat index ++ utf8 " for " ++ form
  | .noOperator number => utf8 "minexp: invalid operator " ++ Op.nameOfNumber number

/-- The operands of a form from number `index` on, if none is missing. -/
def presentFrom (form : Text) : Nat → List (Option Tree) → Except BuildFault (List Tree)
  | _, [] => .ok []
  | index, Option.none :: _ => .error (.missingOperand index form)
  | index, some t :: rest => (presentFrom form (index + 1) rest).map (t :: ·)

/-- The operands of a form, if none is missing. -/
def present (form : Text) (operands : List (Option Tree)) : Except BuildFault (List Tree) :=
  presentFrom form 0 operands

/-- The only operand of a form, if it is not missing. -/
def presentOne (form : Text) : Option Tree → Except BuildFault Tree
  | some t => .ok t
  | Option.none => .error (.missingOperand 0 form)

/-- An operation. -/
def binary? (op : Op) (left right : Option Tree) : Except BuildFault Tree := do
  match left, right with
  | some a, some b => return .binary op a b
  | Option.none, _ => throw (.missingOperand 0 op.name)
  | some _, Option.none => throw (.missingOperand 1 op.name)

/-- An operation by the number of its operator. -/
def operation? (number : Int) (left right : Option Tree) : Except BuildFault Tree :=
  match Op.ofNumber? number with
  | some op => binary? op left right
  | Option.none => .error (.noOperator number)

/-- A sequence. -/
def seq? (items : List (Option Tree)) : Except BuildFault Tree :=
  (present Kind.seq.name items).map .seq

/-- A choice. -/
def cond? (test yes no : Option Tree) : Except BuildFault Tree := do
  match ← present Kind.cond.name [test, yes, no] with
  | [c, a, b] => return .cond c a b
  | _ => throw (.missingOperand 0 Kind.cond.name)

/-- A loop. -/
def loop? (test body : Option Tree) : Except BuildFault Tree := do
  match ← present Kind.loop.name [test, body] with
  | [c, b] => return .loop c b
  | _ => throw (.missingOperand 0 Kind.loop.name)

/-- A declaration. -/
def declare? (name : Text) (value : Option Tree) : Except BuildFault Tree :=
  (presentOne Kind.declare.name value).map (.declare name)

/-- An assignment. -/
def assign? (name : Text) (value : Option Tree) : Except BuildFault Tree :=
  (presentOne Kind.assign.name value).map (.assign name)

/-- A print. -/
def print? (value : Option Tree) : Except BuildFault Tree :=
  (presentOne Kind.print.name value).map .print

/-- A function definition. -/
def define? (name : Text) (params : List Text) (body : Option Tree) : Except BuildFault Tree :=
  (presentOne Kind.define.name body).map (.define name params)

/-- A function call. -/
def call? (name : Text) (args : List (Option Tree)) : Except BuildFault Tree :=
  (present Kind.call.name args).map (.call name)

end TreeLang.Tree
