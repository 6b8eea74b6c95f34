import TreeLang.Yaml.Source

/-!
# Reading characters

A cursor is a place in a source: the characters at hand, the mark of the next one, and the blocks
that follow. `Read` is the monad of functions that move a cursor and may fail; a cursor stays where
the failure was met. Past the last character a cursor shows the character zero, which no source
holds.

How far a function looks ahead is part of its meaning. `need n` sees to it that `n` characters are
at hand: when there are fewer, blocks are taken until there are enough, and a damaged block is a
failure, which those of its characters before the fault survive. Each time this happens the stretch
of characters at hand begins anew at the cursor, and whether it begins with a byte order mark is
remembered until the next time.
-/

set_option autoImplicit false

namespace TreeLang.Yaml

/-! ## Classes of characters -/

/-- The character shown past the end of a source. -/
def endChar : Char := Char.ofNat 0

/-- The byte order mark as a character. -/
def orderMark : Char := Char.ofNat 0xFEFF

/-- Whether a character ends a line. -/
def isBreak (c : Char) : Bool :=
  c.toNat == 0x0A || c.toNat == 0x0D || c.toNat == 0x85 || c.toNat == 0x2028 || c.toNat == 0x2029

/-- Whether a character is a space or a tab. -/
def isSpaceOrTab (c : Char) : Bool := c == ' ' || c == '\t'

/-- Whether a character is a space or tab, ends a line, or lies past the end. -/
def isGap (c : Char) : Bool := isSpaceOrTab c || isBreak c || c == endChar

/-- Whether a character ends a line or lies past the end. -/
def isLineEnd (c : Char) : Bool := isBreak c || c == endChar

/-- Whether a character may stand in the name of an anchor, a directive or a tag handle. -/
def isWordChar (c : Char) : Bool := c.isAlphanum || c == '_' || c == '-'

/-- The value of a hexadecimal digit. -/
def hexValue? (c : Char) : Option Nat :=
  if c.isDigit then some (c.toNat - 48)
  else if 'a' ≤ c ∧ c ≤ 'f' then some (c.toNat - 87)
  else if 'A' ≤ c ∧ c ≤ 'F' then some (c.toNat - 55)
  else none

/-! ## Cursors -/

/-- A place in a source: the characters at hand and the blocks after them. `newlines` counts the
line breaks read since the last character other than a space or tab, `marked` tells whether the
stretch at hand began with a byte order mark, `trouble` is the failure met last, and `bound` is more
than the number of characters of the whole source. -/
structure Cursor where
  ready : List Char := []
  blocks : List (List Char)
  damage : Option Damage
  mark : Mark := {}
  newlines : Nat := 0
  marked : Bool := false
  trouble : Option Error := none
  bound : Nat
  deriving Repr

namespace Cursor

/-- The start of a source. -/
def ofSource (s : Source) : Cursor :=
  { blocks := s.blocks, damage := s.damage, bound := s.size + 8 }

/-- Whether a list has at least `n` elements. -/
def reaches (n : Nat) (cs : List Char) : Bool := n == 0 || !(cs.drop (n - 1)).isEmpty

/-- Put blocks after the characters at hand until there are `n`, as far as there are blocks. -/
def fill (n : Nat) : List Char → List (List Char) → List Char × List (List Char)
  | ready, [] => (ready, [])
  | ready, b :: bs => if reaches n ready then (ready, b :: bs) else fill n (ready ++ b) bs

/-- The cursor with `n` characters at hand, and the fault that was met on the way. After the last
block comes the character zero, and one more of it each time that there are too few. -/
def load (n : Nat) (c : Cursor) : Cursor × Option ReadFault :=
  if reaches n c.ready then (c, none)
  else
    let (ready, blocks) := fill n c.ready c.blocks
    let begun (ready : List Char) : Cursor :=
      { c with ready := ready, blocks := blocks, marked := ready.head? == some orderMark }
    if reaches n ready then (begun ready, none)
    else match c.damage with
      | none => (begun (ready ++ [endChar]), none)
      | some d =>
        ({ begun (ready ++ d.before) with damage := some { d with before := [] } }, some d.fault)

/-- The context of the failure met last. -/
def lastContext (c : Cursor) : Mark := (c.trouble.map Error.context).getD {}

/-- The place of the failure met last. -/
def lastPlace (c : Cursor) : Mark := (c.trouble.map Error.place).getD {}

/-- The character `n` places ahead. -/
def ahead (c : Cursor) (n : Nat) : Char := c.ready.getD n endChar

/-- The cursor after one character that ends no line. -/
def skip (c : Cursor) : Cursor :=
  match c.ready with
  | [] => c
  | ch :: r =>
    { c with
      ready := r
      mark := { c.mark with index := c.mark.index + 1, column := c.mark.column + 1 }
      newlines := if isSpaceOrTab ch then c.newlines else 0 }

/-- The cursor at the start of the next line, after `width` characters. -/
def nextLine (c : Cursor) (width : Nat) (r : List Char) : Cursor :=
  { c with
    ready := r
    mark := { index := c.mark.index + width, line := c.mark.line + 1, column := 0 }
    newlines := c.newlines + 1 }

/-- The line break at the cursor as it is kept in a scalar, and the cursor after it. A carriage
return, a line feed, both in this order, and the next-line character are all kept as a line feed. -/
def takeBreak (c : Cursor) : List Char × Cursor :=
  match c.ready with
  | '\r' :: '\n' :: r => (['\n'], c.nextLine 2 r)
  | ch :: r =>
    if isBreak ch then
      (if ch.toNat < 0x2028 then ['\n'] else [ch], c.nextLine 1 r)
    else ([], c)
  | [] => ([], c)

/-- Whether the cursor stands at a document marker: three dashes or dots that start a line and end
a word. -/
def atDocumentMark (c : Cursor) : Bool :=
  c.mark.column == 0 && isGap (c.ahead 3) &&
    (match c.ready with
      | '-' :: '-' :: '-' :: _ => true
      | '.' :: '.' :: '.' :: _ => true
      | _ => false)

end Cursor

/-- Functions that move a cursor and may fail. -/
abbrev Read := EStateM Error Cursor

namespace Read

/-- The next character. -/
def peek : Read Char := return (← get).ahead 0

/-- The character `n` places ahead. -/
def peekAt (n : Nat) : Read Char := return (← get).ahead n

/-- The mark of the next character. -/
def mark : Read Mark := return (← get).mark

/-- More than the number of characters of the source. -/
def bound : Read Nat := return (← get).bound

/-- Fail, and leave word of it. -/
def raise {α : Type} (e : Error) : Read α := do
  modify fun c => { c with trouble := some e }
  throw e

/-- Fail with a fault of the construct that starts at `context`. -/
def fail {α : Type} (fault : ScanFault) (context : Mark) : Read α := do
  raise (.scan fault context (← mark))

/-- See to it that `n` characters are at hand. -/
def need (n : Nat) : Read Unit := do
  let c ← get
  let (c, fault) := c.load n
  set c
  match fault with
  | none => pure ()
  | some f => raise (.read f c.lastContext c.lastPlace)

/-- Whether `n` characters can be had; that they cannot does not end the reading. -/
def has (n : Nat) : Read Bool := do
  try
    need n
    return true
  catch _ => return false

/-- Move past one character that ends no line. -/
def skip : Read Unit := modify Cursor.skip

/-- Move past `n` characters that end no line. -/
def skipMany : Nat → Read Unit
  | 0 => pure ()
  | n + 1 => do
    skip
    skipMany n

/-- Move past the line break at the cursor, if there is one, and give it as a scalar keeps it. -/
def takeBreak : Read (List Char) := do
  need 2
  modifyGet Cursor.takeBreak

/-- Move past the line break at the cursor, if there is one. -/
def skipBreak : Read Unit := do
  if isBreak (← peek) then
    let _ ← takeBreak

/-- Move past at most `n` characters that satisfy `p` and give them, last first, in front of
`taken`. -/
def takeOnto (p : Char → Bool) : Nat → List Char → Read (List Char)
  | 0, taken => return taken
  | n + 1, taken => do
    need 1
    let c ← peek
    if p c then
      skip
      takeOnto p n (c :: taken)
    else return taken

/-- Move past the longest run of characters that satisfy `p`, and give them. The character past the
end must not satisfy `p`. -/
def takeWhile (p : Char → Bool) : Read (List Char) := do
  return (← takeOnto p (← bound) []).reverse

/-- Move past spaces and tabs. -/
def skipBlanks : Read Unit := do
  let _ ← takeWhile isSpaceOrTab

/-- Move to the end of the line. -/
def skipToLineEnd : Read Unit := do
  let _ ← takeWhile fun c => !isLineEnd c

end Read

end TreeLang.Yaml
