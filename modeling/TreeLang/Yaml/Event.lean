import TreeLang.Yaml.Token.Stream

/-!
# Events

The events of a stream say what its tokens mean: documents, collections and scalars start and end,
and aliases occur. They are found by a machine with a stack of goals. A goal is what the grammar
expects next; the top goal looks at the next tokens, yields one event and leaves the goals for what
follows it. The goals inside a collection carry the mark where it started, for the faults that name
it.

A missing node is an empty plain scalar, placed where the grammar missed it.

Comments wait for the node they are the head of. When some wait at a dash, the token after the dash
is looked at on their behalf, and a failure there is passed over at first: reading goes on where it
stopped. But no event is yielded after a failure has been met, however it was passed over.
-/

set_option autoImplicit false

namespace TreeLang.Yaml

/-- What precedes the content of a node: where it starts, its anchor and its tag. -/
structure Properties where
  start : Mark
  anchor : Option Text := none
  tag : Option Text := none
  deriving DecidableEq, Repr

/-- The events of a stream. -/
inductive Event where
  | streamStart
  | streamEnd
  | documentStart
  | documentEnd
  | alias (start : Mark) (name : Text)
  | scalar (props : Properties) (value : Text) (plain : Bool)
  | sequenceStart (props : Properties) (flow : Bool)
  | sequenceEnd
  | mappingStart (props : Properties) (flow : Bool)
  | mappingEnd
  deriving DecidableEq, Repr

/-- What the grammar expects next. `opened` is the mark where the collection around it started;
`first` tells whether it is the first entry. -/
inductive Goal where
  | stream
  | document (first : Bool)
  | documentContent
  | documentEnd
  | blockNode
  | blockEntry (opened : Mark)
  | indentlessEntry
  | blockKey (opened : Mark)
  | blockValue (opened : Mark)
  | flowEntry (opened : Mark) (first : Bool)
  | pairKey
  | pairValue
  | pairEnd
  | flowKey (opened : Mark) (first : Bool)
  | flowValue (opened : Mark)
  | flowNoValue (opened : Mark)
  deriving DecidableEq, Repr

/-- The tokens left, the goals, the meanings of tag handles in the current document, and the head
comments that wait for their node, last first. -/
structure EventStream where
  tokens : TokenStream
  goals : List Goal := [.stream]
  handles : List (Text × Text) := []
  heads : List Comment := []

/-- Functions on the stream of events that may fail. -/
abbrev Parse := EStateM Error EventStream

namespace EventStream

/-- The events of a source. -/
def ofSource (s : Source) : EventStream := { tokens := TokenStream.ofSource s }

/-- Run a function on the tokens. -/
def scanning {α : Type} (r : Scan α) : Parse α := fun s =>
  match r s.tokens with
  | .ok a t => .ok a { s with tokens := t }
  | .error e t => .error e { s with tokens := t }

/-- The next token, which stays. The comments in front of it are claimed. -/
def peek : Parse Token := do
  let t ← scanning TokenStream.peek
  let claimed ← scanning (TokenStream.claim t)
  modify fun s => { s with heads := (claimed.filter (·.kind == .head)).reverse ++ s.heads }
  return t

/-- Take the next token. -/
def skip : Parse Unit := scanning TokenStream.skip

/-- Take the next token and look at the one after it. -/
def skipAndPeek : Parse Token := do
  skip
  peek

/-- Put a goal on the stack. -/
def push (g : Goal) : Parse Unit := modify fun s => { s with goals := g :: s.goals }

/-- The node that the waiting comments are the head of has come. -/
def attachHeads : Parse Unit := modify fun s => { s with heads := [] }

/-- Fail with a fault of the construct that starts at `context`. -/
def fail {α : Type} (fault : GrammarFault) (context place : Mark) : Parse α :=
  scanning (TokenStream.reading (Read.raise (.grammar fault context place)))

/-- Fail with a fault that names no construct, and takes that of the failure before it. -/
def failAt {α : Type} (fault : GrammarFault) (place : Mark) : Parse α := do
  fail fault (← get).tokens.cursor.lastContext place

/-- The scalar that stands for a missing node. -/
def missing (m : Mark) : Event := .scalar { start := m } [] true

/-! ## Nodes -/

/-- The meaning of a tag: its suffix after the meaning of its handle, or the suffix alone. -/
def resolveTag (start place : Mark) (handle suffix : Text) : Parse Text := do
  if handle.isEmpty then return suffix
  else
    let meaning := ((← get).handles.lookup handle).elim [] (· ++ suffix)
    if meaning.isEmpty then fail .undefinedHandle start place
    return meaning

/-- Read the anchor and the tag in front of a node, in either order, and look at what follows. -/
def properties : Parse (Properties × Token) := do
  let t ← peek
  match t.kind with
  | .anchor name =>
    let u ← skipAndPeek
    match u.kind with
    | .tag handle suffix =>
      let v ← skipAndPeek
      let tag ← resolveTag t.start u.start handle suffix
      return ({ start := t.start, anchor := some name, tag := some tag }, v)
    | _ => return ({ start := t.start, anchor := some name }, u)
  | .tag handle suffix =>
    let u ← skipAndPeek
    match u.kind with
    | .anchor name =>
      let v ← skipAndPeek
      let tag ← resolveTag t.start t.start handle suffix
      return ({ start := t.start, anchor := some name, tag := some tag }, v)
    | _ =>
      let tag ← resolveTag t.start t.start handle suffix
      return ({ start := t.start, tag := some tag }, u)
  | _ => return ({ start := t.start }, t)

/-- The event at the start of a node. Block collections are only nodes in a block, and a sequence
that is not indented only as the value or key of a block mapping. -/
def node (block indentless : Bool) : Parse Event := do
  let t ← peek
  if let .alias name := t.kind then
    attachHeads
    skip
    return .alias t.start name
  let (props, t) ← properties
  match t.kind, block, indentless with
  | .blockEntry, _, true =>
    push .indentlessEntry
    return .sequenceStart props false
  | .scalar value plain, _, _ =>
    attachHeads
    skip
    return .scalar props value plain
  | .flowSequenceStart, _, _ =>
    attachHeads
    skip
    push (.flowEntry t.start true)
    return .sequenceStart props true
  | .flowMappingStart, _, _ =>
    attachHeads
    skip
    push (.flowKey t.start true)
    return .mappingStart props true
  | .blockSequenceStart, true, _ =>
    skip
    push (.blockEntry t.start)
    return .sequenceStart props false
  | .blockMappingStart, true, _ =>
    skip
    push (.blockKey t.start)
    return .mappingStart props false
  | _, _, _ =>
    if props.anchor.isSome || props.tag.isSome then return .scalar props [] true
    else fail .noNodeContent props.start t.start

/-- A node with `g` as the goal after it. -/
def nodeThen (g : Goal) (block indentless : Bool) : Parse Event := do
  push g
  node block indentless

/-- A missing node with `g` as the goal after it. -/
def missingThen (g : Goal) (m : Mark) : Parse Event := do
  push g
  return missing m

/-! ## Documents -/

/-- The meanings that tag handles have without a directive. -/
def defaultHandles : List (Text × Text) :=
  [(utf8 "!", utf8 "!"), (utf8 "!!", utf8 "tag:yaml.org,2002:")]

/-- Add the default meanings of the handles that no directive has set. -/
def addDefaultHandles : Parse Unit :=
  modify fun s =>
    { s with
      handles := defaultHandles.foldl
        (fun hs h => if (hs.lookup h.1).isSome then hs else hs ++ [h]) s.handles }

/-- Read the directives in front of a document; `versioned` tells whether one stated the version. -/
def directives : Nat → Bool → Parse Unit
  | 0, _ => throw .exhausted
  | fuel + 1, versioned => do
    let t ← peek
    match t.kind with
    | .versionDirective major minor =>
      if versioned then failAt .duplicateVersion t.start
      if !(major == 1 && minor == 1) then failAt .incompatibleVersion t.start
      skip
      directives fuel true
    | .tagDirective handle uri =>
      if ((← get).handles.lookup handle).isSome then failAt .duplicateHandle t.start
      modify fun s => { s with handles := s.handles ++ [(handle, uri)] }
      skip
      directives fuel versioned
    | _ => addDefaultHandles

/-- Skip the document end markers that stand in front of a document. -/
def skipDocumentEnds : Nat → Parse Unit
  | 0 => throw .exhausted
  | fuel + 1 => do
    if (← peek).kind == .documentEnd then
      skip
      skipDocumentEnds fuel

/-- Whether a token belongs in front of a document or ends the stream. -/
def isOutsideDocument : TokenKind → Bool
  | .versionDirective _ _ | .tagDirective _ _ | .documentStart | .streamEnd => true
  | _ => false

/-- The comments in front of a document without start marker are its own, up to the last empty
line. -/
def releaseHeads : Parse Unit :=
  modify fun s => if (s.heads.head?.map (·.spaced)).getD false then { s with heads := [] } else s

/-- The start of a document, or the end of the stream. Only the first document may do without a
start marker. -/
def document (first : Bool) : Parse Event := do
  let bound := (← get).tokens.cursor.bound
  if !first then skipDocumentEnds bound
  let t ← peek
  if first && !isOutsideDocument t.kind then
    addDefaultHandles
    releaseHeads
    push .documentEnd
    push .blockNode
    return .documentStart
  else if t.kind == .streamEnd then
    skip
    return .streamEnd
  else
    directives bound false
    let t ← peek
    if t.kind != .documentStart then failAt .noDocumentStart t.start
    skip
    push .documentEnd
    push .documentContent
    return .documentStart

/-- The content of a document with a start marker, which may be missing. -/
def documentContent : Parse Event := do
  let t ← peek
  if isOutsideDocument t.kind || t.kind == .documentEnd then return missing t.start
  else node true false

/-- The end of a document, marked or not. -/
def documentEnd : Parse Event := do
  if (← peek).kind == .documentEnd then skip
  attachHeads
  modify fun s => { s with handles := [] }
  push (.document false)
  return .documentEnd

/-! ## Block collections -/

/-- Take a dash and look at the token after it. The comments that wait at the dash belong to a block
collection that starts there, rather than to its first entry. -/
def skipDash : Parse Token := do
  let waiting := (← get).heads.length
  skip
  if 0 < waiting then
    try
      let t ← peek
      if t.kind == .blockSequenceStart || t.kind == .blockMappingStart then
        modify fun s => { s with heads := s.heads.take (s.heads.length - waiting) }
    catch _ => pure ()
  peek

/-- An entry of a block sequence, or its end. -/
def blockEntry (opened : Mark) : Parse Event := do
  let t ← peek
  match t.kind with
  | .blockEntry =>
    let u ← skipDash
    match u.kind with
    | .blockEntry | .blockEnd => missingThen (.blockEntry opened) t.stop
    | _ => nodeThen (.blockEntry opened) true false
  | .blockEnd =>
    skip
    return .sequenceEnd
  | _ => fail .noDash opened t.start

/-- An entry of a block sequence without indentation of its own, or its end. -/
def indentlessEntry : Parse Event := do
  let t ← peek
  match t.kind with
  | .blockEntry =>
    let u ← skipDash
    match u.kind with
    | .blockEntry | .key | .value | .blockEnd => missingThen .indentlessEntry t.stop
    | _ => nodeThen .indentlessEntry true false
  | _ => return .sequenceEnd

/-- A key of a block mapping, or its end. -/
def blockKey (opened : Mark) : Parse Event := do
  let t ← peek
  match t.kind with
  | .key =>
    let u ← skipAndPeek
    match u.kind with
    | .key | .value | .blockEnd => missingThen (.blockValue opened) t.stop
    | _ => nodeThen (.blockValue opened) true true
  | .blockEnd =>
    attachHeads
    skip
    return .mappingEnd
  | _ => fail .noKey opened t.start

/-- A value of a block mapping. -/
def blockValue (opened : Mark) : Parse Event := do
  let t ← peek
  match t.kind with
  | .value =>
    let u ← skipAndPeek
    match u.kind with
    | .key | .value | .blockEnd => missingThen (.blockKey opened) t.stop
    | _ => nodeThen (.blockKey opened) true true
  | _ => missingThen (.blockKey opened) t.start

/-! ## Flow collections -/

/-- Look at the next entry of a flow collection, past the comma that every entry but the first has
in front. -/
def flowNext (opened : Mark) (first : Bool) (close : TokenKind) (fault : GrammarFault) :
    Parse Token := do
  let t ← peek
  if t.kind == close || first then return t
  else if t.kind == .flowEntry then skipAndPeek
  else fail fault opened t.start

/-- An entry of a flow sequence, or its end. An entry may be a mapping of one pair without
brackets. -/
def flowEntry (opened : Mark) (first : Bool) : Parse Event := do
  let t ← flowNext opened first .flowSequenceEnd .noFlowSequenceEnd
  match t.kind with
  | .flowSequenceEnd =>
    attachHeads
    skip
    return .sequenceEnd
  | .key =>
    skip
    push (.flowEntry opened false)
    push .pairKey
    return .mappingStart { start := t.start } true
  | _ => nodeThen (.flowEntry opened false) false false

/-- The key of a pair in a flow sequence. -/
def pairKey : Parse Event := do
  let t ← peek
  match t.kind with
  | .value | .flowEntry | .flowSequenceEnd =>
    skip
    missingThen .pairValue t.stop
  | _ => nodeThen .pairValue false false

/-- The value of a pair in a flow sequence. -/
def pairValue : Parse Event := do
  let t ← peek
  match t.kind with
  | .value =>
    let u ← skipAndPeek
    match u.kind with
    | .flowEntry | .flowSequenceEnd => missingThen .pairEnd t.start
    | _ => nodeThen .pairEnd false false
  | _ => missingThen .pairEnd t.start

/-- The end of a pair in a flow sequence. -/
def pairEnd : Parse Event := do
  let _ ← peek
  return .mappingEnd

/-- A key of a flow mapping, or its end. A key without colon has no value. -/
def flowKey (opened : Mark) (first : Bool) : Parse Event := do
  let t ← flowNext opened first .flowMappingEnd .noFlowMappingEnd
  match t.kind with
  | .flowMappingEnd =>
    attachHeads
    skip
    return .mappingEnd
  | .key =>
    let u ← skipAndPeek
    match u.kind with
    | .value | .flowEntry | .flowMappingEnd => missingThen (.flowValue opened) u.start
    | _ => nodeThen (.flowValue opened) false false
  | _ => nodeThen (.flowNoValue opened) false false

/-- A value of a flow mapping. -/
def flowValue (opened : Mark) : Parse Event := do
  let t ← peek
  match t.kind with
  | .value =>
    let u ← skipAndPeek
    match u.kind with
    | .flowEntry | .flowMappingEnd => missingThen (.flowKey opened false) u.start
    | _ => nodeThen (.flowKey opened false) false false
  | _ => missingThen (.flowKey opened false) t.start

/-- The missing value of a key without colon. -/
def flowNoValue (opened : Mark) : Parse Event := do
  let t ← peek
  missingThen (.flowKey opened false) t.start

/-! ## The machine -/

/-- The start of the stream. -/
def stream : Parse Event := do
  let t ← peek
  if t.kind != .streamStart then failAt .noStreamStart t.start
  skip
  push (.document true)
  return .streamStart

/-- Meet a goal. -/
def meet : Goal → Parse Event
  | .stream => stream
  | .document first => document first
  | .documentContent => documentContent
  | .documentEnd => documentEnd
  | .blockNode => node true false
  | .blockEntry opened => blockEntry opened
  | .indentlessEntry => indentlessEntry
  | .blockKey opened => blockKey opened
  | .blockValue opened => blockValue opened
  | .flowEntry opened first => flowEntry opened first
  | .pairKey => pairKey
  | .pairValue => pairValue
  | .pairEnd => pairEnd
  | .flowKey opened first => flowKey opened first
  | .flowValue opened => flowValue opened
  | .flowNoValue opened => flowNoValue opened

/-- The next event. When no goal is left the stream has ended. -/
def next : Parse Event := do
  let s ← get
  match s.goals with
  | [] => return .streamEnd
  | g :: gs =>
    set { s with goals := gs }
    let e ← meet g
    match (← get).tokens.cursor.trouble with
    | some failure => throw failure
    | none => return e

end EventStream

end TreeLang.Yaml
