import TreeLang.Text.Utf8
import TreeLang.Yaml.Cursor
import TreeLang.Yaml.Scalar

/-!
# How a scalar is written

A text is written plainly where that is possible. It stands between double quotes when plain it
would say something else than itself, between single quotes when it holds characters with a meaning
of their own, and between double quotes with escapes when it holds characters that cannot be written
as they are. A text with line feeds is a literal block, outside flow collections.

Which styles can hold a text is decided by the characters in it and by what is next to them.
-/

set_option autoImplicit false

namespace TreeLang.Yaml

/-- The ways to write a scalar. -/
inductive Style where
  | plain
  | single
  | double
  | literal
  deriving DecidableEq, Repr

namespace Style

/-! ## Indicators -/

/-- A character of a text and what is next to it: whether it is the first one, whether it comes
after a gap, and whether a space, a tab or the end of the text follows it. -/
structure Spot where
  char : Char
  isFirst : Bool
  afterGap : Bool
  endsWord : Bool

/-- The spots of a text. -/
def spotsFrom : Bool → Bool → List Char → List Spot
  | _, _, [] => []
  | isFirst, afterGap, c :: r =>
    ⟨c, isFirst, afterGap, (r.head?.map isSpaceOrTab).getD true⟩ :: spotsFrom false (isGap c) r

/-- The spots of a whole text. -/
def spots (cs : List Char) : List Spot := spotsFrom true true cs

/-- The characters that cannot start a plain scalar. -/
def leading : List Char := "#,[]\x7b\x7d&*!|>'\"%@\x60".toList

/-- The characters that cannot stand in a plain scalar inside a flow collection. -/
def enclosing : List Char := ",?[]\x7b\x7d".toList

/-- Whether a character has a meaning of its own inside a flow collection. -/
def Spot.isFlowIndicator (s : Spot) : Bool :=
  if s.isFirst then
    leading.contains s.char || s.char == '?' || s.char == ':' || (s.char == '-' && s.endsWord)
  else enclosing.contains s.char || s.char == ':' || (s.char == '#' && s.afterGap)

/-- Whether a character has a meaning of its own outside flow collections. -/
def Spot.isBlockIndicator (s : Spot) : Bool :=
  if s.isFirst then
    leading.contains s.char ||
      ((s.char == '?' || s.char == ':' || s.char == '-') && s.endsWord)
  else (s.char == ':' && s.endsWord) || (s.char == '#' && s.afterGap)

/-- Whether a text starts like a line that separates documents. -/
def startsLikeMarker : List Char → Bool
  | '-' :: '-' :: '-' :: _ => true
  | '.' :: '.' :: '.' :: _ => true
  | _ => false

/-! ## Characters and pairs of characters -/

/-- Whether a character is written as it is. -/
def isWritable (c : Char) : Bool :=
  let n := c.toNat
  n == 0x0A || (0x20 ≤ n && n ≤ 0x7E) || (0xA0 ≤ n && n ≤ 0xFFFD && n != 0xFEFF)

/-- Whether a character can only be written with an escape. -/
def isSpecial (c : Char) : Bool := c != '\t' && !isWritable c

/-- Whether somewhere in a text a character of the first kind comes right before one of the
second. -/
def adjacent (p q : Char → Bool) : List Char → Bool
  | a :: b :: r => (p a && q b) || adjacent p q (b :: r)
  | _ => false

/-- Whether a character is a space. -/
def isSpace (c : Char) : Bool := c == ' '

/-- Whether the last character of a text is of a kind. -/
def endsIn (p : Char → Bool) (cs : List Char) : Bool := (cs.getLast?.map p).getD false

/-- Whether the first character of a text is of a kind. -/
def startsIn (p : Char → Bool) (cs : List Char) : Bool := (cs.head?.map p).getD false

/-! ## Which styles can hold a text -/

/-- Whether a text can be written plainly, inside a flow collection or outside. -/
def allowsPlain (inFlow : Bool) (cs : List Char) : Bool :=
  !(startsLikeMarker cs ||
    (spots cs).any (if inFlow then Spot.isFlowIndicator else Spot.isBlockIndicator) ||
    startsIn isSpace cs || endsIn isSpace cs || cs.any isBreak || cs.contains '\t' ||
    cs.any isSpecial || (inFlow && cs.isEmpty))

/-- Whether a text can stand between single quotes. -/
def allowsSingle (cs : List Char) : Bool :=
  !(adjacent isBreak isSpace cs || adjacent isSpace isBreak cs || cs.contains '\t' ||
    cs.any isSpecial)

/-- Whether a text can be a literal block. -/
def allowsLiteral (cs : List Char) : Bool :=
  !(cs.isEmpty || endsIn isSpace cs || adjacent isSpace isBreak cs || cs.any isSpecial)

/-- The style of a scalar with a tag and a text. -/
def choose (inFlow : Bool) (tag : Text) (cs : List Char) : Style :=
  if cs.contains '\n' then
    if allowsLiteral cs && !inFlow then .literal else .double
  else if tag = Tag.str ∧ (Scalar.meaning (Utf8.encode cs)).tag ≠ Tag.str then .double
  else if allowsPlain inFlow cs then .plain
  else if allowsSingle cs then .single
  else .double

/-! ## Written forms -/

/-- So many spaces. -/
def spaces (n : Nat) : List Char := List.replicate n ' '

/-- The lines of a text, with `indent` spaces at the start of each line that is not empty. -/
def indented (indent : Nat) : Bool → List Char → List Char
  | _, [] => []
  | atStart, c :: r =>
    if isBreak c then c :: indented indent true r
    else (if atStart then spaces indent else []) ++ c :: indented indent false r

/-- A text with every single quote doubled. -/
def doubleQuotes (cs : List Char) : List Char :=
  cs.flatMap fun c => if c == '\'' then ['\'', '\''] else [c]

/-- The letter of an escape. -/
def escapeLetter? (c : Char) : Option Char :=
  [(0x00, '0'), (0x07, 'a'), (0x08, 'b'), (0x09, 't'), (0x0A, 'n'), (0x0B, 'v'), (0x0C, 'f'),
    (0x0D, 'r'), (0x1B, 'e'), (0x22, '"'), (0x5C, '\\'), (0x85, 'N'), (0xA0, '_'), (0x2028, 'L'),
    (0x2029, 'P')].lookup c.toNat

/-- The upper case hexadecimal digits of a character. -/
def hexDigits (width : Nat) (c : Char) : List Char :=
  (Text.hexUpper width c.toNat).map fun b => Char.ofNat b.toNat

/-- The escape of a character. -/
def escape (c : Char) : List Char :=
  match escapeLetter? c with
  | some l => ['\\', l]
  | none =>
    if c.toNat ≤ 0xFF then '\\' :: 'x' :: hexDigits 2 c
    else if c.toNat ≤ 0xFFFF then '\\' :: 'u' :: hexDigits 4 c
    else '\\' :: 'U' :: hexDigits 8 c

/-- A character between double quotes. -/
def inDouble (c : Char) : List Char :=
  if !isWritable c || isBreak c || c == '"' || c == '\\' then escape c else [c]

/-- A text between double quotes. One that starts with a byte order mark is escaped throughout. -/
def doubled (cs : List Char) : List Char :=
  cs.flatMap (if cs.head? == some orderMark then escape else inDouble)

/-- What follows the bar of a literal block: how its lines are indented if they start with a gap,
and what becomes of the breaks at its end. -/
def literalHints (cs : List Char) : List Char :=
  let start := if startsIn (fun c => isSpace c || isBreak c) cs then ['2'] else []
  let finish := match cs.reverse with
    | [] => ['-']
    | [c] => if isBreak c then ['+'] else ['-']
    | c :: d :: _ => if !isBreak c then ['-'] else if isBreak d then ['+'] else []
  start ++ finish

/-- A text as a literal block. The bar ends its line with the first break of the text, if the text
starts with one. -/
def literalForm (indent : Nat) (cs : List Char) : List Char :=
  '|' :: literalHints cs ++ (if startsIn isBreak cs then [] else ['\n']) ++ indented indent true cs

/-- A text in a style, inside a collection whose lines are indented by `indent`. -/
def write (indent : Nat) : Style → List Char → List Char
  | .plain, cs => cs
  | .single, cs => '\'' :: doubleQuotes (indented indent false cs) ++ ['\'']
  | .double, cs => '"' :: doubled cs ++ ['"']
  | .literal, cs => literalForm indent cs

end Style

end TreeLang.Yaml
