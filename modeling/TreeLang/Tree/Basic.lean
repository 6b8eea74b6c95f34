import TreeLang.Text.Basic

/-!
# Expression trees

A program is a list of trees. A tree is a literal, an operation, a control structure, or one of the
forms that bind and use names: variables and functions have separate namespaces. Numbers are signed
64-bit integers, and every tree has one as its value.

`Tree.form` writes a tree with parentheses. `Tree.size` counts the trees inside a tree, itself
included.
-/

set_option autoImplicit false

namespace TreeLang

/-- The operators with two operands. -/
inductive Op where
  | add
  | mul
  | eq
  | lt
  | gt
  deriving DecidableEq, Repr, Inhabited

namespace Op

/-- The operators by their numbers. -/
def all : List Op := [.add, .mul, .eq, .lt, .gt]

/-- The name of an operator. -/
def name : Op → Text
  | .add => utf8 "add"
  | .mul => utf8 "mul"
  | .eq => utf8 "eq"
  | .lt => utf8 "lt"
  | .gt => utf8 "gt"

/-- The operator of a number. -/
def ofNumber? (n : Int) : Option Op := if n < 0 then none else all[n.toNat]?

/-- The name of the operator of a number, also of a number that has none. -/
def nameOfNumber (n : Int) : Text :=
  match ofNumber? n with
  | some op => op.name
  | none => utf8 "Op(" ++ Text.ofInt n ++ utf8 ")"

end Op

/-- The kinds of trees. -/
inductive Kind where
  | none
  | literal
  | binary
  | seq
  | cond
  | loop
  | declare
  | assign
  | var
  | print
  | define
  | call
  deriving DecidableEq, Repr, Inhabited

namespace Kind

/-- The kinds by their numbers. -/
def all : List Kind :=
  [.none, .literal, .binary, .seq, .cond, .loop, .declare, .assign, .var, .print, .define, .call]

/-- The name of a kind. -/
def name : Kind → Text
  | .none => utf8 "none"
  | .literal => utf8 "literal"
  | .binary => utf8 "binary"
  | .seq => utf8 "seq"
  | .cond => utf8 "if"
  | .loop => utf8 "while"
  | .declare => utf8 "let"
  | .assign => utf8 "assign"
  | .var => utf8 "var"
  | .print => utf8 "print"
  | .define => utf8 "def"
  | .call => utf8 "call"

/-- The kind of a number. -/
def ofNumber? (n : Int) : Option Kind := if n < 0 then Option.none else all[n.toNat]?

/-- The name of the kind of a number, also of a number that has none. -/
def nameOfNumber (n : Int) : Text :=
  match ofNumber? n with
  | some k => k.name
  | Option.none => utf8 "NodeType(" ++ Text.ofInt n ++ utf8 ")"

end Kind

/-- The expression trees. -/
inductive Tree where
  /-- Does nothing. -/
  | none
  /-- A number. -/
  | literal (value : Int64)
  /-- An operator with its operands. -/
  | binary (op : Op) (left right : Tree)
  /-- Trees one after the other in a scope of their own. -/
  | seq (items : List Tree)
  /-- A choice by a condition. -/
  | cond (test yes no : Tree)
  /-- A loop as long as a condition holds. -/
  | loop (test body : Tree)
  /-- The declaration of a variable in the current scope. -/
  | declare (name : Text) (value : Tree)
  /-- The assignment to the nearest variable of a name. -/
  | assign (name : Text) (value : Tree)
  /-- The value of a variable. -/
  | var (name : Text)
  /-- Prints a value on a line. -/
  | print (value : Tree)
  /-- The definition of a function. -/
  | define (name : Text) (params : List Text) (body : Tree)
  /-- The call of a function. -/
  | call (name : Text) (args : List Tree)
  deriving Repr, Inhabited

namespace Tree

/-! ## Parts of a tree -/

/-- The kind of a tree. -/
def kind : Tree → Kind
  | .none => .none
  | .literal _ => .literal
  | .binary .. => .binary
  | .seq _ => .seq
  | .cond .. => .cond
  | .loop .. => .loop
  | .declare .. => .declare
  | .assign .. => .assign
  | .var _ => .var
  | .print _ => .print
  | .define .. => .define
  | .call .. => .call

/-- The operator of an operation, and the first operator for any other tree. -/
def op : Tree → Op
  | .binary op _ _ => op
  | _ => .add

/-- The value of a literal, and zero for any other tree. -/
def value : Tree → Int64
  | .literal v => v
  | _ => 0

/-- The name that a tree declares, assigns, uses, defines or calls. -/
def name : Tree → Text
  | .declare x _ => x
  | .assign x _ => x
  | .var x => x
  | .define f _ _ => f
  | .call f _ => f
  | _ => []

/-- The parameters of a function definition. -/
def params : Tree → List Text
  | .define _ ps _ => ps
  | _ => []

/-- The trees directly inside a tree, in the order of evaluation. -/
def children : Tree → List Tree
  | .none | .literal _ | .var _ => []
  | .binary _ a b => [a, b]
  | .seq ts => ts
  | .cond c a b => [c, a, b]
  | .loop c b => [c, b]
  | .declare _ e | .assign _ e | .print e => [e]
  | .define _ _ b => [b]
  | .call _ args => args

/-- The name of the form a tree is written with: its operator, or else its kind. -/
def key : Tree → Text
  | .binary op _ _ => op.name
  | t => t.kind.name

/-! ## Size and string form -/

mutual

/-- The number of trees inside a tree, itself included. -/
def size : Tree → Nat
  | .none | .literal _ | .var _ => 1
  | .binary _ a b => 1 + a.size + b.size
  | .seq ts => 1 + sizeAll ts
  | .cond c a b => 1 + c.size + a.size + b.size
  | .loop c b => 1 + c.size + b.size
  | .declare _ e | .assign _ e | .print e => 1 + e.size
  | .define _ _ b => 1 + b.size
  | .call _ args => 1 + sizeAll args

/-- The sizes of trees, added up. -/
def sizeAll : List Tree → Nat
  | [] => 0
  | t :: ts => t.size + sizeAll ts

end

/-- Words between parentheses. -/
def parenthesized (words : List Text) : Text := utf8 "(" ++ Text.join (utf8 " ") words ++ utf8 ")"

/-- The string form of a list of names. -/
def bracketed (names : List Text) : Text := utf8 "[" ++ Text.join (utf8 " ") names ++ utf8 "]"

mutual

/-- The string form of a tree. -/
def form : Tree → Text
  | .none => parenthesized [Kind.none.name]
  | .literal v => Text.ofInt64 v
  | .binary op a b => parenthesized [op.name, a.form, b.form]
  | .seq ts => parenthesized (Kind.seq.name :: formAll ts)
  | .cond c a b => parenthesized [Kind.cond.name, c.form, a.form, b.form]
  | .loop c b => parenthesized [Kind.loop.name, c.form, b.form]
  | .declare x e => parenthesized [Kind.declare.name, x, e.form]
  | .assign x e => parenthesized [Kind.assign.name, x, e.form]
  | .var x => parenthesized [Kind.var.name, x]
  | .print e => parenthesized [Kind.print.name, e.form]
  | .define f ps b => parenthesized [Kind.define.name, f, bracketed ps, b.form]
  | .call f args => parenthesized (Kind.call.name :: f :: formAll args)

/-- The string forms of trees. -/
def formAll : List Tree → List Text
  | [] => []
  | t :: ts => t.form :: formAll ts

end

/-- The string form of a tree that may be missing. -/
def formOf? : Option Tree → Text
  | some t => t.form
  | Option.none => utf8 "nil"

end Tree

end TreeLang
