import TreeLang.Yaml.Token.Property
import TreeLang.Yaml.Token.Scalar

/-!
# The stream of tokens

Tokens are read on demand and wait in a queue until they are taken. A key of a mapping is recognized
only by the colon after it, so the place where a key may have started is kept as a pending key, one
for each level of flow collections; when the colon comes, a key token is set into the queue at that
place. A token is handed out once two more are read after it and no pending key starts at it, and it
claims the comments in front of it.

A pending key lapses when its line ends or after 1024 characters. One that stands at the indentation
of its block has to be a key, and its lapse is a fault.

Block collections start where a token goes right of the current indentation and end where one comes
back to the left of it; a collection that comments at its indentation follow ends at the first of
them.

A failure leaves the stream where it was met, and reading can go on from there.
-/

set_option autoImplicit false

namespace TreeLang.Yaml

/-- A place where a key may have started: the number of its first token, and its mark. -/
structure PendingKey where
  possible : Bool := false
  required : Bool := false
  number : Nat := 0
  mark : Mark := {}
  deriving Repr

/-- The tokens read and not yet taken, and where reading stands. `taken` counts the tokens taken,
`indent` is the column of the innermost block collection or `-1`, and `keys` holds the pending keys,
innermost flow level first. `watched` gives, for the number of a token, the flow level whose pending
key is asked before that token is handed out; `comments` are those that no token has claimed. -/
structure TokenStream where
  cursor : Cursor
  started : Bool := false
  queue : List Token := []
  taken : Nat := 0
  indent : Int := -1
  indents : List Int := []
  keyAllowed : Bool := false
  flowLevel : Nat := 0
  keys : List PendingKey := []
  watched : List (Nat × Nat) := []
  comments : List Comment := []

/-- Functions on the stream of tokens that may fail. -/
abbrev Scan := EStateM Error TokenStream

namespace TokenStream

/-- The tokens of a source, none of them read yet. -/
def ofSource (s : Source) : TokenStream := { cursor := Cursor.ofSource s }

/-- The greatest number of flow levels, and of block levels. -/
def maxDepth : Nat := 10000

/-- The number of characters after which a pending key lapses. -/
def keyReach : Nat := 1024

/-- Run a function on the cursor. -/
def reading {α : Type} (r : Read α) : Scan α := fun s =>
  match r s.cursor with
  | .ok a c => .ok a { s with cursor := c }
  | .error e c => .error e { s with cursor := c }

/-- The mark of the next character. -/
def mark : Scan Mark := return (← get).cursor.mark

/-- Fail with a fault of the construct that starts at `context`. -/
def fail {α : Type} (fault : ScanFault) (context : Mark) : Scan α :=
  reading (Read.fail fault context)

/-- Put a token at the end of the queue. -/
def push (t : Token) : Scan Unit := modify fun s => { s with queue := s.queue ++ [t] }

/-- Set a token into the queue in front of the token with a given number, or at the end when that
token is already taken. -/
def insertAt (number : Nat) (t : Token) : Scan Unit :=
  modify fun s =>
    if number < s.taken then { s with queue := s.queue ++ [t] }
    else { s with queue := s.queue.insertIdx (number - s.taken) t }

/-- Keep comments until a token claims them. -/
def keep (cs : List Comment) : Scan Unit :=
  modify fun s => if cs.isEmpty then s else { s with comments := s.comments ++ cs }

/-- Allow or forbid a key at the next token. -/
def allowKey (b : Bool) : Scan Unit := modify fun s => { s with keyAllowed := b }

/-! ## Pending keys -/

/-- The number of the next token to be read. -/
def nextNumber (s : TokenStream) : Nat := s.taken + s.queue.length

/-- Whether a pending key has lapsed at a mark. -/
def hasLapsed (k : PendingKey) (m : Mark) : Bool :=
  k.mark.line < m.line || k.mark.index + keyReach < m.index

/-- Whether the pending key of a flow level still stands. A lapsed one is dropped, or is a fault. -/
def keyStands (level : Nat) : Scan Bool := do
  let s ← get
  let place := s.flowLevel - level
  match s.keys[place]? with
  | none => return false
  | some k =>
    if !k.possible then return false
    else if hasLapsed k s.cursor.mark then
      if k.required then fail .keyWithoutColon k.mark
      set { s with keys := s.keys.set place { k with possible := false } }
      return false
    else return true

/-- Drop the pending key of the current flow level; dropping a required one is a fault. -/
def dropKey : Scan Unit := do
  let s ← get
  match s.keys with
  | k :: ks =>
    if k.possible then
      if k.required then fail .keyWithoutColon k.mark
      set { s with
        keys := { k with possible := false } :: ks
        watched := s.watched.filter (·.1 != k.number) }
  | [] => pure ()

/-- Keep the current place as a pending key, if a key may start here. -/
def saveKey : Scan Unit := do
  if (← get).keyAllowed then
    dropKey
    let s ← get
    let k : PendingKey :=
      { possible := true
        required := s.flowLevel == 0 && s.indent == (s.cursor.mark.column : Int)
        number := s.nextNumber
        mark := s.cursor.mark }
    set { s with
      keys := k :: s.keys.drop 1
      watched := (k.number, s.flowLevel) :: s.watched.filter (·.1 != k.number) }

/-! ## Levels -/

/-- Enter a flow collection. -/
def enterFlow : Scan Unit := do
  let s ← get
  set { s with
    keys := { number := s.nextNumber, mark := s.cursor.mark } :: s.keys
    flowLevel := s.flowLevel + 1 }
  if maxDepth < s.flowLevel + 1 then fail .tooDeep s.cursor.mark

/-- Leave a flow collection. -/
def leaveFlow : Scan Unit :=
  modify fun s =>
    match s.flowLevel, s.keys with
    | level + 1, k :: ks =>
      { s with
        flowLevel := level
        keys := ks
        watched := s.watched.filter (·.1 != k.number) }
    | _, _ => s

/-- Enter a block collection at a column right of the current indentation, with its start token in
front of the token with a given number. -/
def enterBlock (column : Nat) (number : Option Nat) (kind : TokenKind) (m : Mark) : Scan Unit := do
  let s ← get
  if s.flowLevel == 0 && decide (s.indent < (column : Int)) then
    set { s with indents := s.indent :: s.indents, indent := (column : Int) }
    if maxDepth < s.indents.length + 1 then fail .tooDeep ((s.keys.head?.map (·.mark)).getD {})
    match number with
    | some n => insertAt n ⟨kind, m, m⟩
    | none => push ⟨kind, m, m⟩

/-- Where a block collection of a given indentation ends that has ended by the mark `m`: at the
first of the comments at its indentation that reach back from `m` without a gap. The comments are
given last first, and `reached` is where the one before was reached. -/
def endMark (indent : Int) : Nat → Mark → List Comment → Mark
  | _, m, [] => m
  | reached, m, c :: cs =>
    if c.stop < reached then m
    else endMark indent c.origin (if (c.start.column : Int) == indent + 1 then c.start else m) cs

/-- The ends of the block collections that lie right of a column, and the indentations that are
left. -/
def blockEnds (column : Int) (comments : List Comment) :
    Mark → Int → List Int → List Token × Int × List Int
  | _, indent, [] => ([], indent, [])
  | m, indent, outer :: rest =>
    if column < indent then
      let m := endMark indent m.index m comments
      let (ends, left) := blockEnds column comments m outer rest
      (⟨.blockEnd, m, m⟩ :: ends, left)
    else ([], indent, outer :: rest)

/-- Leave the block collections that lie right of a column, after a token that stopped at `m`. -/
def leaveBlocks (column : Int) (m : Mark) : Scan Unit :=
  modify fun s =>
    if s.flowLevel == 0 && decide (column < s.indent) then
      let before := { m with index := m.index - 1 }
      let (ends, indent, indents) :=
        blockEnds column s.comments.reverse before s.indent s.indents
      { s with indent := indent, indents := indents, queue := s.queue ++ ends }
    else s

/-! ## Reading one token -/

/-- Read a mark of the notation that takes `width` characters. -/
def readMark (kind : TokenKind) (width : Nat) : Scan Unit := do
  let start ← mark
  reading (Read.skipMany width)
  push ⟨kind, start, ← mark⟩

/-- The start of the stream. -/
def readStreamStart : Scan Unit := do
  modify fun s => { s with started := true, keyAllowed := true, keys := [{}] }
  let m ← mark
  push ⟨.streamStart, m, m⟩

/-- The end of the stream, at the start of a line of its own. -/
def readStreamEnd : Scan Unit := do
  modify fun s =>
    if s.cursor.mark.column == 0 then s
    else
      { s with cursor.mark := { s.cursor.mark with column := 0, line := s.cursor.mark.line + 1 } }
  leaveBlocks (-1) (← mark)
  dropKey
  allowKey false
  let m ← mark
  push ⟨.streamEnd, m, m⟩

/-- What stands between documents ends all block collections. -/
def leaveDocument : Scan Unit := do
  leaveBlocks (-1) (← mark)
  dropKey
  allowKey false

/-- The start of a flow collection, which may be a key. -/
def readFlowStart (kind : TokenKind) : Scan Unit := do
  saveKey
  enterFlow
  allowKey true
  readMark kind 1

/-- The end of a flow collection. -/
def readFlowEnd (kind : TokenKind) : Scan Unit := do
  dropKey
  leaveFlow
  allowKey false
  readMark kind 1

/-- The comma between entries of a flow collection. -/
def readFlowEntry : Scan Unit := do
  dropKey
  allowKey true
  readMark .flowEntry 1

/-- The dash in front of an entry of a block sequence. -/
def readBlockEntry : Scan Unit := do
  let s ← get
  if s.flowLevel == 0 then
    if !s.keyAllowed then fail .entryNotAllowed s.cursor.mark
    enterBlock s.cursor.mark.column none .blockSequenceStart s.cursor.mark
  dropKey
  allowKey true
  readMark .blockEntry 1

/-- The question mark in front of a key. -/
def readKey : Scan Unit := do
  let s ← get
  if s.flowLevel == 0 then
    if !s.keyAllowed then fail .keyNotAllowed s.cursor.mark
    enterBlock s.cursor.mark.column none .blockMappingStart s.cursor.mark
  dropKey
  allowKey (s.flowLevel == 0)
  readMark .key 1

/-- The colon in front of a value. It makes a key of the pending key, if one stands. -/
def readValue : Scan Unit := do
  if ← keyStands (← get).flowLevel then
    let s ← get
    let k := s.keys.headD {}
    insertAt k.number ⟨.key, k.mark, k.mark⟩
    enterBlock k.mark.column (some k.number) .blockMappingStart k.mark
    modify fun s =>
      { s with
        keys := { k with possible := false } :: s.keys.drop 1
        watched := s.watched.filter (·.1 != k.number)
        keyAllowed := false }
  else
    let s ← get
    if s.flowLevel == 0 then
      if !s.keyAllowed then fail .valueNotAllowed s.cursor.mark
      enterBlock s.cursor.mark.column none .blockMappingStart s.cursor.mark
    allowKey (s.flowLevel == 0)
  readMark .value 1

/-- A token that may be a key or stand in front of one. -/
def readKeyPart (r : Read Token) : Scan Unit := do
  saveKey
  allowKey false
  push (← reading r)

/-- A plain scalar; a key may start after it when it ended with its line. -/
def readPlain : Scan Unit := do
  saveKey
  allowKey false
  let s ← get
  let (t, broken) ← reading (Scalar.readPlain (0 < s.flowLevel) (s.indent + 1))
  if broken then allowKey true
  push t

/-- A block scalar. -/
def readBlockScalar (literal : Bool) : Scan Unit := do
  dropKey
  allowKey true
  let (t, comment) ← reading (Scalar.readBlock literal (← get).indent)
  keep comment.toList
  push t

/-- A directive. -/
def readDirective : Scan Unit := do
  leaveDocument
  push (← reading Property.readDirective)

/-- A document marker. -/
def readDocumentMark (kind : TokenKind) : Scan Unit := do
  leaveDocument
  readMark kind 3

/-- The characters that start no plain scalar. -/
def indicators : List Char := "-?:,[]\x7b\x7d#&*!|>'\"%@\x60".toList

/-- Whether a plain scalar may start with `c` when `d` follows it. -/
def startsPlain (inFlow : Bool) (c d : Char) : Bool :=
  !(isGap c || indicators.contains c) || (c == '-' && !isSpaceOrTab d) ||
    (!inFlow && (c == '?' || c == ':') && !isGap d)

/-! ## Between tokens -/

/-- The token read last, or the one before it if that is the comma of a flow collection. -/
def commented (s : TokenStream) : Option Token :=
  match s.queue.reverse with
  | t :: u :: _ => some (if t.kind == .flowEntry then u else t)
  | [t] => some t
  | [] => none

/-- Read the comments at the cursor, after blanks that start at `origin`. -/
def readComments (origin : Mark) : Scan Unit := do
  let s ← get
  let token := s.commented
  let owner := (token.map (·.start.index)).getD 0
  let afterValue := token.any (·.kind == .value)
  keep (← reading
    (Comment.readAll origin owner afterValue (0 < s.flowLevel) (max s.indent 0).toNat))

/-- Whether the tokens read last are the start of a block sequence and its first dash. -/
def opensSequence (s : TokenStream) : Bool :=
  match s.queue.reverse with
  | t :: u :: _ => t.kind == .blockEntry && u.kind == .blockSequenceStart
  | _ => false

/-- A line comment in front of a block sequence becomes the head of its first entry, unless the line
of the dash is empty after it. -/
def adoptLineComment : Scan Unit :=
  modify fun s =>
    match s.comments.reverse with
    | c :: before =>
      if c.kind == .line && s.opensSequence && !isBreak (s.cursor.ahead 0) then
        let m := s.cursor.mark
        let owner := if c.start.line + 1 == m.line then m.index else c.owner
        { s with comments := before.reverse ++ [{ c with kind := .head, owner := owner }] }
      else s
    | [] => s

/-- Move to the next token, past blanks, line breaks and comments. In a block a new line allows a
key, and no tab may stand where a key may start. The first character of a line is passed over while
the stretch at hand began with a byte order mark. -/
def skipToToken (origin : Mark) : Nat → Scan Unit
  | 0 => pure ()
  | fuel + 1 => do
    reading (Read.need 1)
    let c := (← get).cursor
    if c.mark.column == 0 && c.marked then reading Read.skip
    let s ← get
    let tabs := 0 < s.flowLevel || !s.keyAllowed
    reading do
      let _ ← Read.takeWhile fun c => c == ' ' || (tabs && c == '\t')
    adoptLineComment
    if (← get).cursor.ahead 0 == '#' then readComments origin
    if isBreak ((← get).cursor.ahead 0) then
      reading Read.skipBreak
      if s.flowLevel == 0 then allowKey true
      skipToToken origin fuel

/-- Where a comment after the token that starts with `c` belongs: to the token, or to the one before
it if it is a colon in a block or a comma in a flow collection. -/
def commentOwner (c : Char) : Scan Nat := do
  let s ← get
  let toLast := if s.flowLevel == 0 then c == ':' else c == ','
  let owner := if toLast then (s.queue.getLast?.map (·.start)).getD s.cursor.mark else s.cursor.mark
  return owner.index

/-! ## The next token -/

/-- Read the token that starts with `c`, which `d` follows, and the comment after it on its line. A
comment after a dash belongs to what follows. -/
def readTokenAt (c d : Char) : Scan Unit := do
  let inFlow := decide (0 < (← get).flowLevel)
  if c == '-' && isGap d then readBlockEntry
  else
    let owner ← commentOwner c
    if c == '[' then readFlowStart .flowSequenceStart
    else if c == '\x7b' then readFlowStart .flowMappingStart
    else if c == ']' then readFlowEnd .flowSequenceEnd
    else if c == '\x7d' then readFlowEnd .flowMappingEnd
    else if c == ',' then readFlowEntry
    else if c == '?' && (inFlow || isGap d) then readKey
    else if c == ':' && (inFlow || isGap d) then readValue
    else if c == '*' then readKeyPart (Property.readAnchor .alias)
    else if c == '&' then readKeyPart (Property.readAnchor .anchor)
    else if c == '!' then readKeyPart Property.readTag
    else if c == '|' && !inFlow then readBlockScalar true
    else if c == '>' && !inFlow then readBlockScalar false
    else if c == '\'' || c == '"' then readKeyPart (Scalar.readQuoted c)
    else if startsPlain inFlow c d then readPlain
    else fail .noToken (← mark)
    keep (← reading (Comment.readLine owner)).toList

/-- Read the next token, and the ends of block collections in front of it. -/
def readToken : Scan Unit := do
  reading (Read.need 1)
  if !(← get).started then readStreamStart
  else
    let before ← mark
    skipToToken before (← get).cursor.bound
    leaveBlocks ((← mark).column : Int) before
    reading (Read.need 4)
    let cur := (← get).cursor
    let c := cur.ahead 0
    if c == endChar then readStreamEnd
    else if cur.mark.column == 0 && c == '%' then readDirective
    else if cur.atDocumentMark then
      readDocumentMark (if c == '-' then .documentStart else .documentEnd)
    else readTokenAt c (cur.ahead 1)

/-! ## Handing tokens out -/

/-- Read tokens until the first one can be handed out. -/
def readAhead : Nat → Scan Unit
  | 0 => throw .exhausted
  | fuel + 1 => do
    let s ← get
    let ready ← (match s.queue with
      | _ :: _ :: _ :: _ => do
        match s.watched.lookup s.taken with
        | none => return true
        | some level => return !(← keyStands level)
      | _ => return false)
    if !ready then
      readToken
      readAhead fuel

/-- The next token, which stays in the queue. -/
def peek : Scan Token := do
  readAhead (← get).cursor.bound
  match (← get).queue with
  | t :: _ => return t
  | [] => throw .exhausted

/-- Claim the comments in front of a token. The end of a block leaves a head to what follows. -/
def claim (t : Token) : Scan (List Comment) :=
  modifyGet fun s =>
    let (claimed, comments) := s.comments.span fun c =>
      c.owner ≤ t.start.index && !(c.kind == .head && t.kind == .blockEnd)
    (claimed, { s with comments := comments })

/-- Take the next token. -/
def skip : Scan Unit :=
  modify fun s =>
    { s with
      queue := s.queue.drop 1
      taken := s.taken + 1
      watched := s.watched.filter (s.taken < ·.1) }

end TokenStream

end TreeLang.Yaml
