import TreeLang.Yaml.Cursor

/-!
# Comments

A comment says nothing about the nodes of a document, but where it stands has an influence on the
marks of the tokens around it and on how far tokens are looked at before they are used. So comments
are kept until they are claimed by a token.

There are three kinds. A line comment follows a token on its line. Comments on lines of their own
form a group, which is the head of what follows it. But a group right below what precedes it, or
left of the indentation, is a foot when an empty line comes after it, and so is one that a comment
at another column left of the indentation or the end of a flow collection comes after.

The next comment is looked for in the 512 characters after the last one. That these characters
cannot all be read does not end the reading here, but no event outlives it.
-/

set_option autoImplicit false

namespace TreeLang.Yaml

/-- The kinds of comments. -/
inductive CommentKind where
  | head
  | line
  | foot
  deriving DecidableEq, Repr

/-- A comment, or a group of them. It is claimed by the first token that does not start before
`owner`. `origin` and `stop` are where the blanks around it start and end, both zero for a line
comment, and `spaced` tells whether an empty line comes after a head. The column of its start counts
from one when it is no line comment. -/
structure Comment where
  kind : CommentKind
  origin : Nat := 0
  owner : Nat
  start : Mark
  stop : Nat := 0
  spaced : Bool := false
  deriving DecidableEq, Repr

namespace Comment

open Read

/-- How far a comment is looked for. -/
def reach : Nat := 512

/-! ## Line comments -/

/-- Whether a comment starts after `ahead` blanks and at most `n` more. -/
def follows : Nat → Nat → Read Bool
  | 0, _ => return false
  | n + 1, ahead => do
    if ← has (ahead + 1) then
      let c ← peekAt ahead
      if isSpaceOrTab c then follows n (ahead + 1) else return c == '#'
    else return false

/-- Read the comment that follows the last token on its line, if there is one. -/
def readLine (owner : Nat) : Read (Option Comment) := do
  if (← get).newlines == 0 && (← follows reach 0) then
    skipBlanks
    let start ← mark
    skipToLineEnd
    return some { kind := .line, owner := owner, start := start }
  else return none

/-! ## Comments on lines of their own -/

/-- What surrounds a group of comments: the line on which the foot of the last token would stand,
whether that token is the colon before a value, the indentation of the block, and whether a flow
collection is open. -/
structure Surroundings where
  footLine : Option Nat
  afterValue : Bool
  indent : Nat
  inFlow : Bool

/-- Where the search for comments stands. `inGroup` tells whether a group has begun, at `start`;
`firstLines` holds until the first empty line, and `afterEmpty` right after one. `line` and `column`
tell where the search looks, and `groups` holds the groups that have ended, last first. -/
structure Search where
  origin : Nat
  owner : Nat
  start : Mark := {}
  inGroup : Bool := false
  spaced : Bool := false
  firstLines : Bool
  afterEmpty : Bool := false
  line : Nat
  column : Nat
  groups : List Comment := []

namespace Search

/-- Whether the group that has begun stands left of the indentation. -/
def isDedented (around : Surroundings) (s : Search) : Bool := s.start.column ≤ around.indent

/-- End the group that has begun, if one has, as a foot that `owner` claims. -/
def endFoot (owner index : Nat) (s : Search) : Search :=
  if s.inGroup then
    { s with
      origin := index
      owner := index
      inGroup := false
      groups := ⟨.foot, s.origin, owner, s.start, index, s.spaced⟩ :: s.groups }
  else s

/-- The search at the end of an empty line, at the end of the source, or, if `closes`, at the end of
a flow collection. -/
def atLineEnd (around : Surroundings) (closes atEnd : Bool) (index : Nat) (s : Search) : Search :=
  let belowToken := around.footLine == some s.start.line && !around.afterValue
  let s :=
    if !closes && s.afterEmpty then s
    else if closes || (s.firstLines && (belowToken || s.isDedented around)) then
      s.endFoot (if s.isDedented around then s.start.index else s.owner) index
    else { s with spaced := s.spaced || (s.inGroup && !atEnd) }
  { s with firstLines := false, afterEmpty := true, column := 0, line := s.line + 1 }

/-- The search at a character that is no blank, where a group at another indentation ends. -/
def atText (around : Surroundings) (index : Nat) (s : Search) : Search :=
  if s.column ≤ around.indent && s.column != s.start.column then s.endFoot s.owner index else s

/-- The search at the start of a comment. -/
def atComment (index : Nat) (s : Search) : Search :=
  let s := if s.inGroup then s else { s with start := ⟨index, s.line, s.column⟩ }
  { s with inGroup := true, spaced := false, afterEmpty := false }

/-- The groups that were found, where the last one is the head of what follows. -/
def result (index : Nat) (s : Search) : List Comment :=
  let head : Comment := ⟨.head, s.origin, s.start.index, s.start, index, s.spaced⟩
  ((if s.inGroup then [head] else []) ++ s.groups).reverse

end Search

/-- The character so many places ahead, as the search sees it: nothing can be found right after a
line break that takes more than one byte. -/
def seen (ahead : Nat) : Read Char := do
  if 0 < ahead && 0x80 ≤ (← peekAt (ahead - 1)).toNat then return Char.ofNat 0xFFFD
  else peekAt ahead

/-- Look for a comment from `ahead` characters after the cursor on. The answer is where the search
ended, and whether it was at a comment. -/
def seek (around : Surroundings) : Nat → Nat → Search → Read (Search × Nat × Bool)
  | 0, ahead, s => return (s, ahead, false)
  | n + 1, ahead, s => do
    if ← has (ahead + 1) then
      let s := { s with column := s.column + 1 }
      let c ← seen ahead
      let index := (← mark).index + ahead
      let closes := around.inFlow && (c == ']' || c == '\x7d')
      if isSpaceOrTab c then seek around n (ahead + 1) s
      else if closes || isLineEnd c then
        let s := s.atLineEnd around closes (c == endChar) index
        if isBreak c then seek around n (ahead + 1) s else return (s, ahead, false)
      else return (s.atText around index, ahead, c == '#')
    else return (s, ahead, false)

/-- Move to a place over blanks and line breaks. -/
def moveTo (index : Nat) : Nat → Read Unit
  | 0 => pure ()
  | fuel + 1 => do
    need 1
    if (← mark).index < index then
      if isBreak (← peek) then skipBreak else skip
      moveTo index fuel

/-- Read comment after comment, from `ahead` characters after the cursor on. The cursor is left at
the end of the last comment's line. -/
def readGroups (around : Surroundings) : Nat → Nat → Search → Read (List Comment)
  | 0, _, s => return s.result (← mark).index
  | fuel + 1, ahead, s => do
    let (s, ahead, found) ← seek around (reach - ahead) ahead s
    let index := (← mark).index + ahead
    if found then
      let s := s.atComment index
      moveTo index reach
      skipToLineEnd
      readGroups around fuel 1 { s with column := 0, line := (← mark).line }
    else return s.result (index - 1)

/-- The line on which a comment would be the foot of what was read before `origin`. -/
def footLine (origin : Mark) (c : Cursor) : Option Nat :=
  if origin.line == 0 then none
  else
    let line := c.mark.line + 1 - c.newlines
    some (if c.newlines == 0 && 1 < c.mark.column then line + 1 else line)

/-- Read the comments at the cursor, after blanks that start at `origin`. `owner` is where the last
token starts, and `afterValue` whether it is the colon before a value. -/
def readAll (origin : Mark) (owner : Nat) (afterValue inFlow : Bool) (indent : Nat) :
    Read (List Comment) := do
  let c ← get
  let around : Surroundings := ⟨footLine origin c, afterValue, indent, inFlow⟩
  readGroups around c.bound 0
    { origin := origin.index
      owner := owner
      firstLines := c.newlines ≤ 1
      line := c.mark.line
      column := c.mark.column }

end Comment

end TreeLang.Yaml
