import TreeLang.Yaml.Error

/-!
# Nodes

A document is a tree of nodes: scalars, sequences, mappings and aliases. An alias refers to an
anchored node by its number in a table, so the nodes of a document together with the table form a
graph that may have cycles; without the aliases it is a finite tree.

Every node but an alias has a tag in its short form, and a place in the source. Sequences and
mappings that are written tell whether they are laid out in flow style, on one line.
-/

set_option autoImplicit false

namespace TreeLang.Yaml

/-- A place in a source, with lines and columns counted from one; zero for a node made otherwise. -/
structure Place where
  line : Nat := 0
  column : Nat := 0
  deriving DecidableEq, Repr, Inhabited

/-- The place of a mark. -/
def Mark.place (m : Mark) : Place := ⟨m.line + 1, m.column + 1⟩

/-- The nodes of a document. -/
inductive Node where
  | scalar (place : Place) (tag value : Text)
  | sequence (place : Place) (tag : Text) (flow : Bool) (items : List Node)
  | mapping (place : Place) (tag : Text) (flow : Bool) (entries : List (Node × Node))
  | alias (place : Place) (name : Text) (target : Nat)
  deriving Repr, Inhabited

namespace Node

/-- Where a node stands. -/
def place : Node → Place
  | .scalar p _ _ => p
  | .sequence p _ _ _ => p
  | .mapping p _ _ _ => p
  | .alias p _ _ => p

/-- The text of a node: the value of a scalar, the name of an alias, and nothing for a
collection. -/
def value : Node → Text
  | .scalar _ _ v => v
  | .alias _ name _ => name
  | _ => []

end Node

/-- The anchored nodes of a stream by their numbers. -/
abbrev Anchors := List Node

/-- The tag of a node, where no more than `room` nodes are looked at. An alias has the tag of the
node it refers to, which may be an alias again, and the empty tag if it refers to nothing. -/
def Node.tagWithin (anchors : Anchors) : Nat → Node → Option Text
  | 0, _ => none
  | _ + 1, .scalar _ t _ => some t
  | _ + 1, .sequence _ t _ _ => some t
  | _ + 1, .mapping _ t _ _ => some t
  | room + 1, .alias _ _ target =>
    match anchors[target]? with
    | some n => tagWithin anchors room n
    | none => some []

/-- The tag of a node. A node has none if it is an alias from which aliases lead on to aliases
without end: the others lead to their last node over different anchored nodes. -/
def Node.tag? (anchors : Anchors) (n : Node) : Option Text :=
  n.tagWithin anchors (anchors.length + 1)

/-- A document: its root and the anchored nodes that aliases in it may refer to. -/
structure Document where
  root : Node
  anchors : Anchors := []
  deriving Repr

/-! ## Tags -/

namespace Tag

/-- The tag of absent values. -/
def null : Text := utf8 "!!null"

/-- The tag of truth values. -/
def bool : Text := utf8 "!!bool"

/-- The tag of integers. -/
def int : Text := utf8 "!!int"

/-- The tag of other numbers. -/
def float : Text := utf8 "!!float"

/-- The tag of points in time. -/
def timestamp : Text := utf8 "!!timestamp"

/-- The tag of texts. -/
def str : Text := utf8 "!!str"

/-- The tag of base 64 data. -/
def binary : Text := utf8 "!!binary"

/-- The tag of sequences. -/
def seq : Text := utf8 "!!seq"

/-- The tag of mappings. -/
def map : Text := utf8 "!!map"

/-- The tag of the key that merges mappings. -/
def merge : Text := utf8 "!!merge"

/-- What the short form of a tag stands for. -/
def longForm : Text := utf8 "tag:yaml.org,2002:"

/-- The short form of a tag. -/
def short (t : Text) : Text :=
  if longForm.isPrefixOf t then utf8 "!!" ++ t.drop longForm.length else t

end Tag

end TreeLang.Yaml
