import TreeLang.Yaml.Cursor
import TreeLang.Yaml.Token

/-!
# Anchors, aliases, tags and directives

The tokens in front of a node and in front of a document. A tag is written in full between angle
brackets after an exclamation mark, or as a handle and a suffix; directives give handles a meaning
and state the version.
-/

set_option autoImplicit false

namespace TreeLang.Yaml.Property

open Read

/-! ## Anchors and aliases -/

/-- Whether a character may follow the name of an anchor or alias. -/
def endsAnchor (c : Char) : Bool :=
  isGap c || c == '?' || c == ':' || c == ',' || c == ']' || c == '\x7d' || c == '%' || c == '@' ||
    c.toNat == 96

/-- Read the anchor or alias at the cursor. -/
def readAnchor (kind : Text → TokenKind) : Read Token := do
  let start ← mark
  skip
  let name ← takeWhile isWordChar
  let stop ← mark
  if name.isEmpty || !endsAnchor (← peek) then fail .noAnchorName start
  return ⟨kind (Utf8.encode name), start, stop⟩

/-! ## Tags -/

/-- Whether a character may stand in a tag. -/
def isUriChar (c : Char) : Bool :=
  isWordChar c || ";/?:@&=+$,.!~*'()[]%".toList.contains c

/-- The number of bytes of a character whose encoding starts with the byte `n`. -/
def leadWidth? (n : Nat) : Option Nat :=
  if n < 0x80 then some 1
  else if n / 32 = 6 then some 2
  else if n / 16 = 14 then some 3
  else if n / 8 = 30 then some 4
  else none

/-- The byte that is written as a percent sign and two digits at the cursor. -/
def octet (start : Mark) : Read Nat := do
  need 3
  match ← peek, hexValue? (← peekAt 1), hexValue? (← peekAt 2) with
  | '%', some h, some l => return h * 16 + l
  | _, _, _ => fail .noEscapedOctet start

/-- Read `n` escaped continuation bytes. -/
def readOctets (start : Mark) : Nat → Read Text
  | 0 => return []
  | n + 1 => do
    let b ← octet start
    if b / 64 ≠ 2 then fail .badEscapedTail start
    skipMany 3
    return b.toUInt8 :: (← readOctets start n)

/-- Read the bytes of one escaped character. -/
def readEscaped (start : Mark) : Read Text := do
  let b ← octet start
  match leadWidth? b with
  | none => fail .badEscapedLead start
  | some width =>
    skipMany 3
    return b.toUInt8 :: (← readOctets start (width - 1))

/-- Read the characters of a tag, escapes decoded. -/
def readUriChars (start : Mark) : Nat → Read Text
  | 0 => return []
  | fuel + 1 => do
    need 1
    let c ← peek
    if c == '%' then return (← readEscaped start) ++ (← readUriChars start fuel)
    else if isUriChar c then
      skip
      return Utf8.encode [c] ++ (← readUriChars start fuel)
    else return []

/-- Read the rest of a tag of which `front` is already read; there has to be something of it. -/
def readUri (start : Mark) (front : Text) : Read Text := do
  let rest ← readUriChars start (← bound)
  if front.isEmpty && rest.isEmpty then fail .noTagUri start
  return front.drop 1 ++ rest

/-- Read a handle: an exclamation mark, and a word and a second mark if they follow. -/
def readHandle (inDirective : Bool) (start : Mark) : Read Text := do
  need 1
  if (← peek) != '!' then fail .noHandleMark start
  skip
  let word ← takeWhile isWordChar
  if (← peek) == '!' then
    skip
    return Utf8.encode ('!' :: word ++ ['!'])
  else
    if inDirective && !word.isEmpty then fail .noHandleMark start
    return Utf8.encode ('!' :: word)

/-- Read the parts of the tag at the cursor: its handle, empty for a full tag, and its suffix. -/
def readTagParts (start : Mark) : Read (Text × Text) := do
  need 2
  if (← peekAt 1) == '<' then
    skip
    skip
    let suffix ← readUri start []
    if (← peek) != '>' then fail .noTagEnd start
    skip
    return ([], suffix)
  else
    let handle ← readHandle false start
    if 1 < handle.length && handle.getLast? == some 33 then
      return (handle, ← readUri start [])
    else
      let suffix ← readUri start handle
      if suffix.isEmpty then return ([], [33]) else return ([33], suffix)

/-- Read the tag at the cursor. -/
def readTag : Read Token := do
  let start ← mark
  let (handle, suffix) ← readTagParts start
  need 1
  if !isGap (← peek) then fail .noBlankOrBreak start
  return ⟨.tag handle suffix, start, ← mark⟩

/-! ## Directives -/

/-- Read a number of the version, of at most two digits. -/
def readVersionNumber (start : Mark) : Read Nat := do
  let digits ← takeOnto Char.isDigit 2 []
  need 1
  if (← peek).isDigit then fail .longVersionNumber start
  if digits.isEmpty then fail .noVersionNumber start
  return digits.foldr (fun c n => n * 10 + (c.toNat - 48)) 0

/-- Read the version after its directive's name. -/
def readVersion (start : Mark) : Read TokenKind := do
  skipBlanks
  let major ← readVersionNumber start
  if (← peek) != '.' then fail .noVersionDot start
  skip
  let minor ← readVersionNumber start
  return .versionDirective major minor

/-- Read the handle and its meaning after the tag directive's name. -/
def readTagDirective (start : Mark) : Read TokenKind := do
  skipBlanks
  let handle ← readHandle true start
  need 1
  if !isSpaceOrTab (← peek) then fail .noBlank start
  skipBlanks
  let uri ← readUri start []
  need 1
  if !isGap (← peek) then fail .noBlankOrBreak start
  return .tagDirective handle uri

/-- Read the directive at the cursor and the rest of its line. -/
def readDirective : Read Token := do
  let start ← mark
  skip
  let name ← takeWhile isWordChar
  if name.isEmpty then fail .noDirectiveName start
  if !isGap (← peek) then fail .badDirectiveName start
  let kind ←
    if name == "YAML".toList then readVersion start
    else if name == "TAG".toList then readTagDirective start
    else fail .unknownDirective start
  let stop ← mark
  skipBlanks
  if (← peek) == '#' then skipToLineEnd
  if !isLineEnd (← peek) then fail .noCommentOrBreak start
  skipBreak
  return ⟨kind, start, stop⟩

end TreeLang.Yaml.Property
