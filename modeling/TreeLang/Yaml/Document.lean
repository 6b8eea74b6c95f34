import TreeLang.Yaml.Event
import TreeLang.Yaml.Scalar

/-!
# Documents of a stream

The events of a document are put together to its nodes, with a stack of the collections that are
open. An anchor gets a number when its node starts and refers to the node that was anchored last
under that name, also one of an earlier document; a collection may so contain an alias of itself.
-/

set_option autoImplicit false

namespace TreeLang.Yaml

/-- A collection whose end is not reached: what is known of it, the number of its anchor, and its
entries so far, last first. A mapping may have a key without its value. -/
inductive Open where
  | sequence (place : Place) (tag : Text) (flow : Bool) (anchor : Option Nat) (items : List Node)
  | mapping (place : Place) (tag : Text) (flow : Bool) (anchor : Option Nat)
      (entries : List (Node × Node)) (key : Option Node)

/-- The documents that are left of a stream: its events, the numbers of the anchor names, and the
anchored nodes. -/
structure DocumentStream where
  events : EventStream
  started : Bool := false
  names : List (Text × Nat) := []
  anchors : Anchors := []

/-- Functions on a stream of documents that may fail. -/
abbrev Compose := StateT DocumentStream (Except Error)

namespace DocumentStream

/-- The documents of a source. -/
def ofSource (s : Source) : DocumentStream := { events := EventStream.ofSource s }

/-- The next event. -/
def nextEvent : Compose Event := do
  let s ← get
  match EventStream.next s.events with
  | .ok e events =>
    set { s with events := events }
    return e
  | .error failure _ => throw failure

/-- Give a node that starts a number if it is anchored. Its place in the table is held by an empty
scalar until the node ends. -/
def register (anchor : Option Text) : Compose (Option Nat) := do
  match anchor with
  | none => return none
  | some name =>
    let s ← get
    let number := s.anchors.length
    set { s with
      names := (name, number) :: s.names
      anchors := s.anchors ++ [Node.scalar {} Tag.null []] }
    return some number

/-- Put a node that has ended into the table if it is anchored. -/
def settle (number : Option Nat) (n : Node) : Compose Unit :=
  match number with
  | none => pure ()
  | some k => modify fun s => { s with anchors := s.anchors.set k n }

/-- The tag of a node from the tag that is written, if any, and the tag it has without. -/
def tagOf (written : Option Text) (default : Text) : Text :=
  match written with
  | none => default
  | some t => if t = utf8 "!" then default else Tag.short t

/-- The tag of a scalar without a written tag. -/
def scalarTag (value : Text) (plain : Bool) : Text :=
  if !plain then Tag.str
  else if value = utf8 "<<" then Tag.merge
  else (Scalar.meaning value).tag

/-- The node that an alias refers to. -/
def findAlias (start : Mark) (name : Text) : Compose Node := do
  match (← get).names.lookup name with
  | none => throw (.unknownAnchor name)
  | some target => return .alias start.place name target

/-- Put a node into the innermost open collection. -/
def add (n : Node) : Open → Open
  | .sequence p t f a items => .sequence p t f a (n :: items)
  | .mapping p t f a entries none => .mapping p t f a entries (some n)
  | .mapping p t f a entries (some k) => .mapping p t f a ((k, n) :: entries) none

/-- The node of a collection that ends, and the number of its anchor. -/
def close : Open → Node × Option Nat
  | .sequence p t f a items => (.sequence p t f items.reverse, a)
  | .mapping p t f a entries _ => (.mapping p t f entries.reverse, a)

/-- What an event does: it ends a node, opens a collection or closes one. -/
inductive Effect where
  | node (n : Node)
  | opens (c : Open)
  | closes
  | none

/-- The effect of an event. -/
def effect : Event → Compose Effect
  | .alias start name => return .node (← findAlias start name)
  | .scalar props value plain => do
    let number ← register props.anchor
    let n := Node.scalar props.start.place (tagOf props.tag (scalarTag value plain)) value
    settle number n
    return .node n
  | .sequenceStart props flow => do
    let number ← register props.anchor
    return .opens (.sequence props.start.place (tagOf props.tag Tag.seq) flow number [])
  | .mappingStart props flow => do
    let number ← register props.anchor
    return .opens (.mapping props.start.place (tagOf props.tag Tag.map) flow number [] none)
  | .sequenceEnd | .mappingEnd => return .closes
  | _ => return .none

/-- Read the rest of a node inside the collections `opened`, innermost first. -/
def readNode : Nat → List Open → Compose Node
  | 0, _ => throw .exhausted
  | fuel + 1, opened => do
    match ← effect (← nextEvent), opened with
    | .opens c, _ => readNode fuel (c :: opened)
    | .node n, [] => return n
    | .node n, c :: outer => readNode fuel (add n c :: outer)
    | .closes, c :: outer =>
      let (n, number) := close c
      settle number n
      match outer with
      | [] => return n
      | d :: rest => readNode fuel (add n d :: rest)
    | _, _ => throw .exhausted

/-- A number of events that no document of a source of so many characters reaches. -/
def eventBound (chars : Nat) : Nat := 32 * (chars + 8)

/-- The next document, or nothing at the end of the stream. -/
def next? : Compose (Option Document) := do
  if !(← get).started then
    let _ ← nextEvent
    modify fun s => { s with started := true }
  match ← nextEvent with
  | .documentStart =>
    let root ← readNode (eventBound (← get).events.tokens.cursor.bound) []
    let _ ← nextEvent
    return some ⟨root, (← get).anchors⟩
  | _ => return none

end DocumentStream

end TreeLang.Yaml
