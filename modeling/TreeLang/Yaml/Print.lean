import TreeLang.Yaml.Style

/-!
# Documents as text

A collection in flow style is written between brackets on one line, any other one in block style,
with an entry on each line. A collection inside another one is indented by two more spaces. An empty
collection is always written between brackets, and so is all that is inside a flow collection.

Documents are separated by a line of three dashes.
-/

set_option autoImplicit false

namespace TreeLang.Yaml

/-- Why nodes cannot be written. -/
inductive PrintFault where
  /-- There is no document. -/
  | noDocument
  /-- A scalar is not UTF-8. -/
  | notUtf8 (tag : Text)
  deriving DecidableEq, Repr

/-- The wording of a fault. -/
def PrintFault.message : PrintFault → Text
  | .noDocument => utf8 "yaml: expected STREAM-START"
  | .notUtf8 tag => utf8 "yaml: cannot marshal invalid UTF-8 data as " ++ tag

namespace Print

/-- A scalar whose lines, but for the first one, are indented by `indent`. -/
def scalar (inFlow : Bool) (indent : Nat) (tag value : Text) : Except PrintFault Text :=
  match Utf8.chars? value with
  | none => .error (.notUtf8 tag)
  | some cs => .ok (Utf8.encode ((Style.choose inFlow tag cs).write indent cs))

/-- An alias. -/
def reference (name : Text) : Text := utf8 "*" ++ name

/-! ## Flow style -/

mutual

/-- A node between brackets or by itself, where lines are indented by `indent` if it needs more than
one. -/
def inline (indent : Nat) : Node → Except PrintFault Text
  | .scalar _ tag v => scalar true indent tag v
  | .alias _ name _ => .ok (reference name)
  | .sequence _ _ _ items => do
    return utf8 "[" ++ Text.join (utf8 ", ") (← inlineItems (indent + 2) items) ++ utf8 "]"
  | .mapping _ _ _ entries => do
    return utf8 "\x7b" ++ Text.join (utf8 ", ") (← inlineEntries (indent + 2) entries) ++
      utf8 "\x7d"

/-- The items of a sequence in flow style. -/
def inlineItems (indent : Nat) : List Node → Except PrintFault (List Text)
  | [] => .ok []
  | n :: ns => do
    let t ← inline indent n
    let ts ← inlineItems indent ns
    return t :: ts

/-- The entries of a mapping in flow style. -/
def inlineEntries (indent : Nat) : List (Node × Node) → Except PrintFault (List Text)
  | [] => .ok []
  | (k, v) :: es => do
    let key ← inline indent k
    let value ← inline indent v
    let rest ← inlineEntries indent es
    return (key ++ utf8 ": " ++ value) :: rest

end

/-! ## Block style -/

/-- A line: its indentation and its text. The text of a literal block has further lines, which are
indented already. -/
structure Line where
  indent : Nat
  text : Text
  deriving DecidableEq, Repr

/-- A text with the end of its line. A literal block whose text ends in a break has it already. -/
def endLine (t : Text) : Text :=
  match Utf8.chars? t with
  | some cs => if Style.endsIn isBreak cs then t else t ++ Text.newline
  | none => t ++ Text.newline

/-- The text of a line with its end. -/
def Line.render (l : Line) : Text := Utf8.encode (Style.spaces l.indent) ++ endLine l.text

/-- Whether a node is written in block style. -/
def isBlock : Node → Bool
  | .sequence _ _ flow items => !flow && !items.isEmpty
  | .mapping _ _ flow entries => !flow && !entries.isEmpty
  | _ => false

/-- A node that is not in block style. -/
def leaf (indent : Nat) : Node → Except PrintFault Text
  | .scalar _ tag v => scalar false indent tag v
  | n => inline indent n

/-- The lines of a node with a text in front of the first one, which moves that one to the left. -/
def behind (indent : Nat) (front : Text) : List Line → List Line
  | [] => []
  | l :: ls => ⟨indent, front ++ l.text⟩ :: ls

mutual

/-- The lines of a node, indented by `indent`. -/
def block (indent : Nat) : Node → Except PrintFault (List Line)
  | .sequence p tag flow items =>
    if isBlock (.sequence p tag flow items) then blockItems indent items
    else do return [⟨indent, ← leaf indent (.sequence p tag flow items)⟩]
  | .mapping p tag flow entries =>
    if isBlock (.mapping p tag flow entries) then blockEntries indent entries
    else do return [⟨indent, ← leaf indent (.mapping p tag flow entries)⟩]
  | n => do return [⟨indent, ← leaf indent n⟩]

/-- The lines of the items of a sequence. An item starts on the line of its dash. -/
def blockItems (indent : Nat) : List Node → Except PrintFault (List Line)
  | [] => .ok []
  | n :: ns => do
    let lines ← block (indent + 2) n
    let rest ← blockItems indent ns
    return behind indent (utf8 "- ") lines ++ rest

/-- The lines of the entries of a mapping. A value in block style starts on a line of its own, and
any other one on the line of its key. -/
def blockEntries (indent : Nat) : List (Node × Node) → Except PrintFault (List Line)
  | [] => .ok []
  | (k, v) :: es => do
    let key ← inline indent k
    let lines ← block (indent + 2) v
    let rest ← blockEntries indent es
    if isBlock v then return ⟨indent, key ++ utf8 ":"⟩ :: lines ++ rest
    else return behind indent (key ++ utf8 ": ") lines ++ rest

end

/-! ## Documents -/

/-- The lines of the root of a document. -/
def root (n : Node) : Except PrintFault (List Line) :=
  if isBlock n then block 0 n else do return [⟨0, ← leaf 2 n⟩]

/-- The text of a document. -/
def document (n : Node) : Except PrintFault Text := do return (← root n).flatMap Line.render

/-- The texts of documents. -/
def documents : List Node → Except PrintFault (List Text)
  | [] => .ok []
  | n :: ns => do
    let t ← document n
    let ts ← documents ns
    return t :: ts

/-- The texts of documents, with a line between neighbours. -/
def stream : List Text → Except PrintFault Text
  | [] => .error .noDocument
  | ts => .ok (Text.join (utf8 "---\n") ts)

end Print

end TreeLang.Yaml
