import TreeLang.Tree.Decode
import TreeLang.Yaml.Document

/-!
# Trees of a stream

A stream holds one tree in each of its documents. Reading goes on after a document that denotes no
tree, but not after a text that is no document.
-/

set_option autoImplicit false

namespace TreeLang

/-- Why no tree can be read. -/
inductive ReadError where
  /-- The text is not a document. -/
  | yaml (e : Yaml.Error)
  /-- The document does not denote a tree. -/
  | tree (f : Fault)
  deriving DecidableEq, Repr

/-- The wording of an error. -/
def ReadError.message : ReadError → Text
  | .yaml e => e.message
  | .tree f => f.message

/-- What is left of a stream of trees: its documents, and the aliases that are being followed. -/
structure TreeStream where
  documents : Yaml.DocumentStream
  expansion : Expansion := {}

namespace TreeStream

/-- The trees of a source. -/
def ofSource (s : Yaml.Source) : TreeStream := { documents := Yaml.DocumentStream.ofSource s }

/-- The next tree, or nothing at the end of the stream. The nodes under aliases are counted for
each document on its own. -/
def next? : EStateM ReadError TreeStream (Option Tree) := fun s =>
  match Yaml.DocumentStream.next?.run s.documents with
  | .error e => .error (.yaml e) s
  | .ok (none, documents) => .ok none { s with documents := documents }
  | .ok (some d, documents) =>
    match Decode.document d { s.expansion with visited := 0 } with
    | .ok t expansion => .ok (some t) ⟨documents, expansion⟩
    | .error f expansion => .error (.tree f) ⟨documents, expansion⟩

/-- All trees of a stream of at most `fuel` documents. -/
def readAll : Nat → TreeStream → Except ReadError (List Tree)
  | 0, _ => .error (.yaml .exhausted)
  | fuel + 1, s =>
    match next? s with
    | .error e _ => .error e
    | .ok none _ => .ok []
    | .ok (some t) s => (readAll fuel s).map (t :: ·)

end TreeStream

/-- The trees of a source. A source has no more documents than characters, and one more. -/
def Tree.readAll (s : Yaml.Source) : Except ReadError (List Tree) :=
  TreeStream.readAll (s.size + 2) (TreeStream.ofSource s)

/-- The trees of a text. -/
def Tree.parse (t : Text) : Except ReadError (List Tree) := Tree.readAll (Yaml.Source.ofBytes t)

end TreeLang
