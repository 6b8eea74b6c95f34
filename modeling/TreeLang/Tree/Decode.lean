import TreeLang.Text.Quoted
import TreeLang.Tree.Basic
import TreeLang.Yaml.Scalar

/-!
# Trees from nodes

A node of a document denotes a tree: an integer denotes a literal, and a mapping with one entry
denotes the form that its key names, applied to its operand. An alias in the place of a tree denotes
what the node it refers to denotes, as a tree of its own.

Aliases may form cycles, and may make trees that are much greater than the document. So the aliases
that are being followed are remembered, a second visit to one of them is a fault, and so is a visit
of more than `aliasLimit` nodes under aliases in one document.
-/

set_option autoImplicit false

namespace TreeLang

open Yaml (Node Place Anchors Document)

/-! ## Faults -/

/-- Why a node does not denote a tree. -/
inductive Misfit where
  /-- There are too many nodes under aliases. -/
  | aliasLimit
  /-- The alias is inside the node it refers to. -/
  | recursiveAlias
  /-- The alias refers to nothing. -/
  | danglingAlias
  /-- From the alias, aliases lead on to aliases without end. -/
  | endlessAlias
  /-- The mapping has not exactly one entry. -/
  | notOneKind (count : Nat)
  /-- The key is not a scalar. -/
  | kindNotScalar
  /-- The key names no form. -/
  | unknownKind (kind : Text)
  /-- The node is neither a scalar nor a mapping. -/
  | notTree (tag : Text)
  /-- The scalar is not an integer. -/
  | notInteger (value : Text)
  /-- The integer is not a machine integer. -/
  | badInteger (value : Text) (fault : Yaml.Scalar.IntFault)
  /-- The operand is there where none is wanted. -/
  | needlessOperand
  /-- The operand is not a list. -/
  | notList (form : Text)
  /-- The list of operands has the wrong length. -/
  | wrongCount (form : Text) (want got : Nat)
  /-- The parameters are not a list. -/
  | paramsNotList
  /-- The operand of a call is not a list with a name. -/
  | noFunction
  /-- The node is not a name. -/
  | notName (value : Text)
  deriving DecidableEq, Repr

/-- The greatest number of nodes under aliases in one document. -/
def aliasLimit : Nat := 10000

/-- The wording of a misfit. -/
def Misfit.message : Misfit → Text
  | .aliasLimit =>
    utf8 "alias expansion exceeds " ++ Text.ofNat TreeLang.aliasLimit ++ utf8 " nodes"
  | .recursiveAlias => utf8 "recursive alias"
  | .danglingAlias => utf8 "dangling alias"
  | .endlessAlias => utf8 "endless alias"
  | .notOneKind count => utf8 "node must have exactly one kind, got " ++ Text.ofNat count
  | .kindNotScalar => utf8 "node kind must be a string"
  | .unknownKind kind => utf8 "unknown node kind " ++ Quoted.quote kind
  | .notTree tag => utf8 "expected integer or node, got " ++ tag
  | .notInteger value => utf8 "expected integer, got " ++ Quoted.quote value
  | .badInteger value fault =>
    utf8 "invalid integer " ++ Quoted.quote value ++ utf8 ": " ++ fault.message
  | .needlessOperand => utf8 "none takes no operand"
  | .notList form => form ++ utf8 " expects a list"
  | .wrongCount form want got =>
    form ++ utf8 " expects " ++ Text.ofNat want ++ utf8 " operands, got " ++ Text.ofNat got
  | .paramsNotList => utf8 "def parameters must be a list"
  | .noFunction => utf8 "call needs a function name"
  | .notName value => utf8 "expected a name, got " ++ Quoted.quote value

/-- A misfit and the place of the node it is about. -/
structure Fault where
  place : Place
  cause : Misfit
  deriving DecidableEq, Repr

/-- The wording of a fault. -/
def Fault.message (f : Fault) : Text :=
  utf8 "line " ++ Text.ofNat f.place.line ++ utf8 ", column " ++ Text.ofNat f.place.column ++
    utf8 ": " ++ f.cause.message

/-! ## Forms -/

/-- The forms that the key of a mapping may name. -/
inductive Form where
  | operator (op : Op)
  | none
  | seq
  | cond
  | loop
  | declare
  | assign
  | var
  | print
  | define
  | call
  deriving DecidableEq, Repr

namespace Form

/-- The name of a form. -/
def name : Form → Text
  | .operator op => op.name
  | .none => Kind.none.name
  | .seq => Kind.seq.name
  | .cond => Kind.cond.name
  | .loop => Kind.loop.name
  | .declare => Kind.declare.name
  | .assign => Kind.assign.name
  | .var => Kind.var.name
  | .print => Kind.print.name
  | .define => Kind.define.name
  | .call => Kind.call.name

/-- All forms. -/
def all : List Form :=
  [.operator .add, .operator .mul, .operator .eq, .operator .lt, .operator .gt, .none, .seq, .cond,
    .loop, .declare, .assign, .var, .print, .define, .call]

/-- The form of a name. -/
def ofName? (t : Text) : Option Form := all.find? fun f => f.name = t

end Form

/-! ## Decoding -/

/-- The aliases that are being followed, and the number of nodes visited under aliases so far. -/
structure Expansion where
  followed : List Nat := []
  visited : Nat := 0
  deriving DecidableEq, Repr

/-- Functions that decode nodes. The expansion is kept also when they fail. -/
abbrev Decode := EStateM Fault Expansion

namespace Decode

/-- Fail at a place. -/
def fail {α : Type} (place : Place) (cause : Misfit) : Decode α := throw ⟨place, cause⟩

/-- Count a node in the place of a tree when it is under an alias. -/
def visit (place : Place) : Decode Unit := fun s =>
  if s.followed.isEmpty then .ok () s
  else
    let s := { s with visited := s.visited + 1 }
    if aliasLimit < s.visited then .error ⟨place, .aliasLimit⟩ s else .ok () s

/-- Decode while an alias is followed. -/
def following {α : Type} (target : Nat) (x : Decode α) : Decode α := fun s =>
  match x { s with followed := target :: s.followed } with
  | .ok a s => .ok a { s with followed := s.followed.erase target }
  | .error e s => .error e { s with followed := s.followed.erase target }

/-- A name is a text that is not empty. -/
def name : Node → Decode Text
  | .scalar p tag v =>
    if tag = Yaml.Tag.str ∧ v ≠ [] then pure v else fail p (.notName v)
  | n => fail n.place (.notName n.value)

/-- Names, one after the other. -/
def names : List Node → Decode (List Text)
  | [] => pure []
  | n :: ns => do
    let x ← name n
    let xs ← names ns
    return x :: xs

/-- The parameters of a function. -/
def params : Node → Decode (List Text)
  | .sequence _ _ _ items => names items
  | n => fail n.place .paramsNotList

/-- A literal. -/
def literal (place : Place) (tag value : Text) : Decode Tree :=
  if tag = Yaml.Tag.int then
    match Yaml.Scalar.toInt64 place value with
    | .ok v => pure (.literal v)
    | .error f => fail place (.badInteger value f)
  else fail place (.notInteger value)

/-- The tree of the form without operand, for an operand with the given tag. -/
def noOperand (tag : Option Text) (operand : Node) : Decode Tree :=
  match tag with
  | some tag => if tag = Yaml.Tag.null then pure .none else fail operand.place .needlessOperand
  | none => fail operand.place .endlessAlias

/-- A node in the place of an operand, and how to decode it as a tree. -/
structure Operand where
  node : Node
  tree : Decode Tree

/-- The trees of operands, one after the other. -/
def trees : List Operand → Decode (List Tree)
  | [] => pure []
  | o :: os => do
    let t ← o.tree
    let ts ← trees os
    return t :: ts

/-- The tree of a form with a list of operands at a place. -/
def operands (f : Form) (place : Place) (os : List Operand) : Decode Tree :=
  match f, os with
  | .operator op, [a, b] => return .binary op (← a.tree) (← b.tree)
  | .seq, os => return .seq (← trees os)
  | .cond, [c, a, b] => return .cond (← c.tree) (← a.tree) (← b.tree)
  | .cond, os => fail place (.wrongCount f.name 3 os.length)
  | .loop, [c, b] => return .loop (← c.tree) (← b.tree)
  | .declare, [x, e] => return .declare (← name x.node) (← e.tree)
  | .assign, [x, e] => return .assign (← name x.node) (← e.tree)
  | .define, [x, ps, b] => return .define (← name x.node) (← params ps.node) (← b.tree)
  | .define, os => fail place (.wrongCount f.name 3 os.length)
  | .call, x :: args => return .call (← name x.node) (← trees args)
  | .call, [] => fail place .noFunction
  | _, os => fail place (.wrongCount f.name 2 os.length)

mutual

/-- The tree of a node; `tag?` finds the tags of operands, and `follow` decodes what an alias refers
to. -/
def node (tag? : Node → Option Text) (follow : Place → Nat → Decode Tree) : Node → Decode Tree
  | .alias p _ target => do
    visit p
    follow p target
  | .scalar p tag v => do
    visit p
    literal p tag v
  | .sequence p tag _ _ => do
    visit p
    fail p (.notTree tag)
  | .mapping p _ _ entries => do
    visit p
    match entries with
    | [(.scalar k _ kind, operand)] =>
      match Form.ofName? kind with
      | none => fail k (.unknownKind kind)
      | some .none => noOperand (tag? operand) operand
      | some .var => return .var (← name operand)
      | some .print => return .print (← node tag? follow operand)
      | some f =>
        match operand with
        | .sequence q _ _ items => operands f q (suspended tag? follow items)
        | n => fail n.place (if f = .call then .noFunction else .notList f.name)
    | [(k, _)] => fail k.place .kindNotScalar
    | _ => fail p (.notOneKind entries.length)

/-- The operands of a list of nodes. -/
def suspended (tag? : Node → Option Text) (follow : Place → Nat → Decode Tree) :
    List Node → List Operand
  | [] => []
  | n :: ns => ⟨n, node tag? follow n⟩ :: suspended tag? follow ns

end

/-- What the alias at a place refers to, where at most `room` aliases can be followed inside each
other. There are only so many anchors, so with as much room as anchors it is never short. -/
def target (anchors : Anchors) : Nat → Place → Nat → Decode Tree
  | room, place, k => do
    if (← get).followed.contains k then fail place .recursiveAlias
    else match room, anchors[k]? with
      | room + 1, some n => following k (node (Node.tag? anchors) (target anchors room) n)
      | _, _ => fail place .danglingAlias

/-- The tree of the root of a document. -/
def document (d : Document) : Decode Tree :=
  node (Node.tag? d.anchors) (target d.anchors d.anchors.length) d.root

end Decode

/-- The tree that a document denotes. -/
def Tree.ofDocument (d : Document) : Except Fault Tree :=
  match Decode.document d {} with
  | .ok t _ => .ok t
  | .error e _ => .error e

end TreeLang
