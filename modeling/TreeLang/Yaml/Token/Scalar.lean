import TreeLang.Yaml.Token
import TreeLang.Yaml.Token.Comment

/-!
# Scalar tokens

A scalar is written plain, between single or double quotes, or as a block. In a plain or quoted
scalar a line break counts as a space, and `n + 1` line breaks in a row count as `n`; in a folded
block this holds between two lines that do not start with a blank; in a literal block every line
break stays.

Characters are collected in reverse.
-/

set_option autoImplicit false

namespace TreeLang.Yaml.Scalar

open Read

/-- A run of blanks and line breaks inside a scalar. `broken` tells whether it holds a line break,
`spaces` are the blanks before the first one, and `first` and `more` are the breaks. -/
structure Gap where
  spaces : List Char := []
  first : List Char := []
  more : List Char := []
  broken : Bool := false

namespace Gap

/-- Whether nothing has been read. -/
def isEmpty (g : Gap) : Bool := !g.broken && g.spaces.isEmpty

/-- What the run counts as inside the scalar: its blanks, or its line breaks folded. -/
def folded (g : Gap) : List Char :=
  if g.broken then
    if g.first == ['\n'] then (if g.more.isEmpty then [' '] else g.more)
    else g.first ++ g.more
  else g.spaces

end Gap

/-- Put characters onto a reversed list. -/
def onto (chars reversed : List Char) : List Char := chars.reverse ++ reversed

/-- Whether a mark lies left of a margin. -/
def isLeftOf (margin : Option Int) (m : Mark) : Bool :=
  margin.any fun n => decide ((m.column : Int) < n)

/-- Read a run of blanks and line breaks that follows `g`. With a `margin`, a tab left of it after a
line break is a fault of the scalar that starts at `start`. -/
def readGap (start : Mark) (margin : Option Int) : Nat → Gap → Read Gap
  | 0, g => return g
  | fuel + 1, g => do
    let c ← peek
    if isSpaceOrTab c then
      if g.broken && c == '\t' && isLeftOf margin (← mark) then fail .tabBeforeIndentation start
      skip
      need 1
      readGap start margin fuel (if g.broken then g else { g with spaces := g.spaces ++ [c] })
    else if isBreak c then
      let b ← takeBreak
      need 1
      readGap start margin fuel
        (if g.broken then { g with more := g.more ++ b }
          else { spaces := [], first := b, broken := true })
    else return g

/-! ## Quoted scalars -/

/-- What a backslash and a character stand for: a character, or a number with so many digits. -/
inductive Escape where
  | char (c : Char)
  | number (digits : Nat)

/-- The meaning of the character after a backslash. -/
def escape? (c : Char) : Option Escape :=
  match c with
  | '0' => some (.char (Char.ofNat 0))
  | 'a' => some (.char (Char.ofNat 7))
  | 'b' => some (.char (Char.ofNat 8))
  | 't' => some (.char '\t')
  | '\t' => some (.char '\t')
  | 'n' => some (.char '\n')
  | 'v' => some (.char (Char.ofNat 11))
  | 'f' => some (.char (Char.ofNat 12))
  | 'r' => some (.char '\r')
  | 'e' => some (.char (Char.ofNat 27))
  | ' ' => some (.char ' ')
  | '"' => some (.char '"')
  | '\'' => some (.char '\'')
  | '\\' => some (.char '\\')
  | 'N' => some (.char (Char.ofNat 0x85))
  | '_' => some (.char (Char.ofNat 0xA0))
  | 'L' => some (.char (Char.ofNat 0x2028))
  | 'P' => some (.char (Char.ofNat 0x2029))
  | 'x' => some (.number 2)
  | 'u' => some (.number 4)
  | 'U' => some (.number 8)
  | _ => none

/-- The number that hexadecimal digits write, after the value `n`, or nothing if one is none. -/
def hexNumber? : Nat → List Char → Option Nat
  | n, [] => some n
  | n, c :: r => do hexNumber? (n * 16 + (← hexValue? c)) r

/-- Read the escape at the cursor. -/
def readEscape (start : Mark) : Read Char := do
  match escape? (← peekAt 1) with
  | none => fail .unknownEscape start
  | some (.char c) =>
    skip
    skip
    return c
  | some (.number digits) =>
    skip
    skip
    need digits
    let c ← get
    match hexNumber? 0 ((List.range digits).map c.ahead) with
    | none => fail .noHexadecimal start
    | some n =>
      if (0xD800 ≤ n ∧ n ≤ 0xDFFF) ∨ 0x10FFFF < n then fail .badEscapedCharacter start
      skipMany digits
      return Char.ofNat n

/-- Read the characters of a quoted scalar up to a blank, a line break or the closing quote. The
flag of the answer tells that the run ended with an escaped line break. -/
def readQuotedRun (start : Mark) (quote : Char) : Nat → List Char → Read (List Char × Bool)
  | 0, acc => return (acc, false)
  | fuel + 1, acc => do
    let c ← peek
    if isGap c then return (acc, false)
    else if c == quote then
      if c == '\'' && (← peekAt 1) == '\'' then
        skip
        skip
        need 2
        readQuotedRun start quote fuel ('\'' :: acc)
      else return (acc, false)
    else if quote == '"' && c == '\\' then
      if isBreak (← peekAt 1) then
        need 3
        skip
        skipBreak
        return (acc, true)
      else
        let e ← readEscape start
        need 2
        readQuotedRun start quote fuel (e :: acc)
    else
      skip
      need 2
      readQuotedRun start quote fuel (c :: acc)

/-- Read the content of a quoted scalar up to its closing quote. -/
def readQuotedContent (start : Mark) (quote : Char) : Nat → List Char → Read (List Char)
  | 0, _ => throw .exhausted
  | fuel + 1, acc => do
    need 4
    if (← get).atDocumentMark then fail .documentMark start
    if (← peek) == endChar then fail .endOfStream start
    let (acc, escapedBreak) ← readQuotedRun start quote (← bound) acc
    need 1
    if (← peek) == quote then return acc
    let gap ← readGap start none (← bound) { broken := escapedBreak }
    readQuotedContent start quote fuel (onto gap.folded acc)

/-- Read the quoted scalar at the cursor. -/
def readQuoted (quote : Char) : Read Token := do
  let start ← mark
  skip
  let acc ← readQuotedContent start quote (← bound) []
  skip
  return ⟨.scalar (Utf8.encode acc.reverse) false, start, ← mark⟩

/-! ## Plain scalars -/

/-- Whether a plain scalar ends before the character `c` that is followed by `d`. -/
def endsPlain (inFlow : Bool) (c d : Char) : Bool :=
  (c == ':' && isGap d) ||
    (inFlow && (c == ',' || c == '?' || c == '[' || c == ']' || c == '\x7b' || c == '\x7d'))

/-- Where the reading of a plain scalar stands: its characters, the gap after them, and where the
last one stopped. -/
structure PlainState where
  acc : List Char := []
  gap : Gap := {}
  stop : Mark

/-- Read the characters of a plain scalar up to a gap or an indicator. -/
def readPlainRun (inFlow : Bool) : Nat → PlainState → Read PlainState
  | 0, s => return s
  | fuel + 1, s => do
    let c ← peek
    if isGap c || endsPlain inFlow c (← peekAt 1) then return s
    else
      skip
      let stop ← mark
      need 2
      readPlainRun inFlow fuel { acc := c :: onto s.gap.folded s.acc, stop := stop }

/-- Read the lines of a plain scalar. -/
def readPlainLines (start : Mark) (inFlow : Bool) (margin : Int) :
    Nat → PlainState → Read PlainState
  | 0, s => return s
  | fuel + 1, s => do
    need 4
    if (← get).atDocumentMark || (← peek) == '#' then return s
    let s ← readPlainRun inFlow (← bound) s
    let c ← peek
    if !(isSpaceOrTab c || isBreak c) then return s
    need 1
    let gap ← readGap start (some margin) (← bound) s.gap
    let s := { s with gap := gap }
    if !inFlow && isLeftOf (some margin) (← mark) then return s
    readPlainLines start inFlow margin fuel s

/-- Read the plain scalar at the cursor, and tell whether a line break was read after it. -/
def readPlain (inFlow : Bool) (margin : Int) : Read (Token × Bool) := do
  let start ← mark
  let s ← readPlainLines start inFlow margin (← bound) { stop := start }
  return (⟨.scalar (Utf8.encode s.acc.reverse) true, start, s.stop⟩, s.gap.broken)

/-! ## Block scalars -/

/-- What becomes of the line breaks at the end of a block. -/
inductive Chomping where
  | clip
  | strip
  | keep
  deriving DecidableEq

/-- The chomping that a character asks for. -/
def chomping? (c : Char) : Option Chomping :=
  if c == '+' then some .keep else if c == '-' then some .strip else none

/-- Read an indentation indicator, if there is one. -/
def readIncrement (start : Mark) : Read (Option Nat) := do
  need 1
  let c ← peek
  if c == '0' then fail .zeroIndentation start
  else if c.isDigit then
    skip
    return some (c.toNat - 48)
  else return none

/-- Read a chomping indicator, if there is one. -/
def readChomping : Read (Option Chomping) := do
  need 1
  match chomping? (← peek) with
  | some k =>
    skip
    return some k
  | none => return none

/-- What stands on the first line of a block: its indicators and a comment. -/
structure BlockHeader where
  chomping : Chomping
  increment : Option Nat
  comment : Option Comment

/-- Read the indicators after the block mark, in either order, to the end of the line. -/
def readBlockHeader (start : Mark) : Read BlockHeader := do
  let (chomping, increment) ← (do
    match ← readChomping with
    | some k => return (some k, ← readIncrement start)
    | none =>
      match ← readIncrement start with
      | some n => return (← readChomping, some n)
      | none => return (none, none))
  skipBlanks
  let comment ← if (← peek) == '#' then Comment.readLine start.index else pure none
  if !isLineEnd (← peek) then fail .noCommentOrBreak start
  skipBreak
  return ⟨chomping.getD .clip, increment, comment⟩

/-- Read the spaces and line breaks in front of a line of a block whose indentation is `indent`, or
zero when it is not yet known. The answer holds the breaks, the greatest column seen and where the
last break stopped. -/
def readBlockBreaks (start : Mark) (indent : Nat) :
    Nat → List Char → Nat → Mark → Read (List Char × Nat × Mark)
  | 0, breaks, widest, stop => return (breaks, widest, stop)
  | fuel + 1, breaks, widest, stop => do
    need 1
    let c ← get
    let reach := if indent = 0 then c.bound else indent - c.mark.column
    let _ ← takeOnto (· == ' ') reach []
    need 1
    let column := (← mark).column
    let widest := max widest column
    if (indent = 0 || column < indent) && (← peek) == '\t' then fail .tabInIndentation start
    if isBreak (← peek) then
      let b ← takeBreak
      readBlockBreaks start indent fuel (breaks ++ b) widest (← mark)
    else return (breaks, widest, stop)

/-- The indentation of a block whose first lines reach to column `widest`. -/
def blockIndent (outer : Int) (widest : Nat) : Nat := max widest (max (outer + 1).toNat 1)

/-- Where the reading of a block stands: its characters, the line break after the last line, the
breaks after that, whether the last line started with a blank, and where it all stopped. -/
structure BlockState where
  acc : List Char := []
  first : List Char := []
  more : List Char := []
  afterBlank : Bool := false
  stop : Mark

/-- The line breaks in front of the next line of a block, which starts with a blank or not. -/
def BlockState.joined (s : BlockState) (literal startsBlank : Bool) : List Char :=
  if !literal && !s.afterBlank && !startsBlank && s.first == ['\n'] then
    (if s.more.isEmpty then [' '] else []) ++ s.more
  else s.first ++ s.more

/-- Read the lines of a block with known indentation. -/
def readBlockLines (start : Mark) (literal : Bool) (indent : Nat) :
    Nat → BlockState → Read BlockState
  | 0, s => return s
  | fuel + 1, s => do
    let c ← peek
    if (← mark).column == indent && c != endChar then
      let startsBlank := isSpaceOrTab c
      let line ← takeWhile fun c => !isLineEnd c
      let first ← takeBreak
      let (more, _, stop) ← readBlockBreaks start indent (← bound) [] 0 (← mark)
      readBlockLines start literal indent fuel
        { acc := onto line (onto (s.joined literal startsBlank) s.acc)
          first := first, more := more, afterBlank := startsBlank, stop := stop }
    else return s

/-- Read the block scalar at the cursor, inside a block collection of indentation `outer`, and the
comment on its first line. -/
def readBlock (literal : Bool) (outer : Int) : Read (Token × Option Comment) := do
  let start ← mark
  skip
  let header ← readBlockHeader start
  let given := match header.increment with
    | some n => (max outer 0).toNat + n
    | none => 0
  let (more, widest, stop) ← readBlockBreaks start given (← bound) [] 0 (← mark)
  let indent := if given = 0 then blockIndent outer widest else given
  need 1
  let s ← readBlockLines start literal indent (← bound) { more := more, stop := stop }
  let tail := match header.chomping with
    | .strip => []
    | .clip => s.first
    | .keep => s.first ++ s.more
  let value := Utf8.encode (onto tail s.acc).reverse
  return (⟨.scalar value false, start, s.stop⟩, header.comment)

end TreeLang.Yaml.Scalar
