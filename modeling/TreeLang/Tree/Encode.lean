import TreeLang.Tree.Basic
import TreeLang.Yaml.Print

/-!
# Trees as nodes and as text

A tree is written as the node that denotes it: a literal as an integer, any other tree as a mapping
from the name of its form to its operands. Small trees are written on one line, which is decided
without counting a great tree to its end.
-/

set_option autoImplicit false

namespace TreeLang.Tree

open Yaml (Node)

/-! ## Small trees -/

/-- The size of the greatest tree that is written on one line. -/
def flowLimit : Nat := 6

/-- Add a size to a count, unless the count is above the limit already. -/
def addCapped (count size : Nat) : Nat := if flowLimit < count then count else count + size

mutual

/-- The size of a tree, or some number above the limit if the size is above it. -/
def cappedSize : Tree → Nat
  | .none | .literal _ | .var _ => 1
  | .binary _ a b => addCapped (addCapped 1 a.cappedSize) b.cappedSize
  | .seq ts => cappedFrom 1 ts
  | .cond c a b => addCapped (addCapped (addCapped 1 c.cappedSize) a.cappedSize) b.cappedSize
  | .loop c b => addCapped (addCapped 1 c.cappedSize) b.cappedSize
  | .declare _ e | .assign _ e | .print e => addCapped 1 e.cappedSize
  | .define _ _ b => addCapped 1 b.cappedSize
  | .call _ args => cappedFrom 1 args

/-- Count on with trees until the limit is passed. -/
def cappedFrom (count : Nat) : List Tree → Nat
  | [] => count
  | t :: ts => if flowLimit < count then count else cappedFrom (count + t.cappedSize) ts

end

/-- Whether a tree is written on one line. -/
def isSmall (t : Tree) : Bool := t.cappedSize ≤ flowLimit

/-! ## Nodes -/

/-- The node of an integer. -/
def intNode (v : Int64) : Node := .scalar {} Yaml.Tag.int (Text.ofInt64 v)

/-- The node of a name. -/
def nameNode (x : Text) : Node := .scalar {} Yaml.Tag.str x

/-- The node of an absent operand. -/
def nullNode : Node := .scalar {} Yaml.Tag.null (utf8 "null")

/-- The node of a list of operands. -/
def listNode (items : List Node) : Node := .sequence {} Yaml.Tag.seq false items

/-- The node of a list of parameters. -/
def paramsNode (params : List Text) : Node := .sequence {} Yaml.Tag.seq true (params.map nameNode)

/-- The node of a form applied to its operand. -/
def formNode (small : Bool) (form : Text) (operand : Node) : Node :=
  .mapping {} Yaml.Tag.map small [(nameNode form, operand)]

mutual

/-- The node that denotes a tree. -/
def toNode (t : Tree) : Node :=
  match t with
  | .literal v => intNode v
  | .none => formNode t.isSmall t.key nullNode
  | .var x => formNode t.isSmall t.key (nameNode x)
  | .print e => formNode t.isSmall t.key e.toNode
  | .declare x e => formNode t.isSmall t.key (listNode [nameNode x, e.toNode])
  | .assign x e => formNode t.isSmall t.key (listNode [nameNode x, e.toNode])
  | .define f ps b => formNode t.isSmall t.key (listNode [nameNode f, paramsNode ps, b.toNode])
  | .call f args => formNode t.isSmall t.key (listNode (nameNode f :: toNodes args))
  | .binary _ a b => formNode t.isSmall t.key (listNode [a.toNode, b.toNode])
  | .seq ts => formNode t.isSmall t.key (listNode (toNodes ts))
  | .cond c a b => formNode t.isSmall t.key (listNode [c.toNode, a.toNode, b.toNode])
  | .loop c b => formNode t.isSmall t.key (listNode [c.toNode, b.toNode])

/-- The nodes that denote trees. -/
def toNodes : List Tree → List Node
  | [] => []
  | t :: ts => t.toNode :: toNodes ts

end

/-! ## Text -/

/-- Trees as a text with a document for each. -/
def format (ts : List Tree) : Except Yaml.PrintFault Text := do
  Yaml.Print.stream (← Yaml.Print.documents (toNodes ts))

/-- Why trees that may be missing cannot be written. -/
inductive FormatFault where
  /-- A tree cannot be written. -/
  | unwritable (f : Yaml.PrintFault)
  /-- A tree is missing. -/
  | missing
  deriving DecidableEq, Repr

/-- The wording of a fault. -/
def FormatFault.message : FormatFault → Text
  | .unwritable f => f.message
  | .missing => utf8 "runtime error: invalid memory address or nil pointer dereference"

/-- The texts of trees that may be missing. The first fault counts. -/
def documents? : List (Option Tree) → Except FormatFault (List Text)
  | [] => .ok []
  | Option.none :: _ => .error .missing
  | some t :: rest => do
    let text ← (Yaml.Print.document t.toNode).mapError .unwritable
    let texts ← documents? rest
    return text :: texts

/-- Trees that may be missing as a text. -/
def format? (ts : List (Option Tree)) : Except FormatFault Text := do
  (Yaml.Print.stream (← documents? ts)).mapError .unwritable

end TreeLang.Tree
