import TreeLang.Text.Basic

/-!
# Faults of a YAML stream

A stream can fail at four places: its bytes are no characters, its characters are no tokens, its
tokens follow no grammar rule, or an alias names no anchor. Each fault is a cause; the wording is in
the `message` functions alone.

A message names a line when there is one to name. Lines count from zero here. A fault of a token
names the line of the construct it lies in, counted from one; if that is the first line, it names
the line where scanning stopped, unless that is the first line too. A fault of the grammar does the
same without adding one. A fault of the bytes has no marks of its own: it takes those of the fault
met before it, which reading may have gone past, and is told like a fault of the grammar.
-/

set_option autoImplicit false

namespace TreeLang.Yaml

/-- A place in the source: characters before it, line breaks before it, characters since the
last. -/
structure Mark where
  index : Nat := 0
  line : Nat := 0
  column : Nat := 0
  deriving DecidableEq, Repr, Inhabited

/-- Why bytes are no characters. -/
inductive ReadFault where
  | badLeadingByte
  | badTrailingByte
  | incompleteSequence
  | badSequenceLength
  | badCharacter
  | incompleteUnit
  | incompletePair
  | unexpectedLowSurrogate
  | expectedLowSurrogate
  | controlCharacter
  | unreadable (reason : Text)
  deriving DecidableEq, Repr

/-- The wording of a fault of the bytes. -/
def ReadFault.message : ReadFault → Text
  | .badLeadingByte => utf8 "invalid leading UTF-8 octet"
  | .badTrailingByte => utf8 "invalid trailing UTF-8 octet"
  | .incompleteSequence => utf8 "incomplete UTF-8 octet sequence"
  | .badSequenceLength => utf8 "invalid length of a UTF-8 sequence"
  | .badCharacter => utf8 "invalid Unicode character"
  | .incompleteUnit => utf8 "incomplete UTF-16 character"
  | .incompletePair => utf8 "incomplete UTF-16 surrogate pair"
  | .unexpectedLowSurrogate => utf8 "unexpected low surrogate area"
  | .expectedLowSurrogate => utf8 "expected low surrogate area"
  | .controlCharacter => utf8 "control characters are not allowed"
  | .unreadable reason => utf8 "input error: " ++ reason

/-- Why characters are no tokens. -/
inductive ScanFault where
  | noToken
  | keyWithoutColon
  | tooDeep
  | entryNotAllowed
  | keyNotAllowed
  | valueNotAllowed
  | noDirectiveName
  | badDirectiveName
  | unknownDirective
  | noVersionNumber
  | longVersionNumber
  | noVersionDot
  | noCommentOrBreak
  | noHandleMark
  | noBlank
  | noBlankOrBreak
  | noTagUri
  | noTagEnd
  | noEscapedOctet
  | badEscapedLead
  | badEscapedTail
  | noAnchorName
  | zeroIndentation
  | tabInIndentation
  | tabBeforeIndentation
  | documentMark
  | endOfStream
  | unknownEscape
  | noHexadecimal
  | badEscapedCharacter
  deriving DecidableEq, Repr

/-- The wording of a fault of a token. -/
def ScanFault.message : ScanFault → Text
  | .noToken => utf8 "found character that cannot start any token"
  | .keyWithoutColon => utf8 "could not find expected ':'"
  | .tooDeep => utf8 "exceeded max depth of 10000"
  | .entryNotAllowed => utf8 "block sequence entries are not allowed in this context"
  | .keyNotAllowed => utf8 "mapping keys are not allowed in this context"
  | .valueNotAllowed => utf8 "mapping values are not allowed in this context"
  | .noDirectiveName => utf8 "could not find expected directive name"
  | .badDirectiveName => utf8 "found unexpected non-alphabetical character"
  | .unknownDirective => utf8 "found unknown directive name"
  | .noVersionNumber => utf8 "did not find expected version number"
  | .longVersionNumber => utf8 "found extremely long version number"
  | .noVersionDot => utf8 "did not find expected digit or '.' character"
  | .noCommentOrBreak => utf8 "did not find expected comment or line break"
  | .noHandleMark => utf8 "did not find expected '!'"
  | .noBlank => utf8 "did not find expected whitespace"
  | .noBlankOrBreak => utf8 "did not find expected whitespace or line break"
  | .noTagUri => utf8 "did not find expected tag URI"
  | .noTagEnd => utf8 "did not find the expected '>'"
  | .noEscapedOctet => utf8 "did not find URI escaped octet"
  | .badEscapedLead => utf8 "found an incorrect leading UTF-8 octet"
  | .badEscapedTail => utf8 "found an incorrect trailing UTF-8 octet"
  | .noAnchorName => utf8 "did not find expected alphabetic or numeric character"
  | .zeroIndentation => utf8 "found an indentation indicator equal to 0"
  | .tabInIndentation => utf8 "found a tab character where an indentation space is expected"
  | .tabBeforeIndentation => utf8 "found a tab character that violates indentation"
  | .documentMark => utf8 "found unexpected document indicator"
  | .endOfStream => utf8 "found unexpected end of stream"
  | .unknownEscape => utf8 "found unknown escape character"
  | .noHexadecimal => utf8 "did not find expected hexdecimal number"
  | .badEscapedCharacter => utf8 "found invalid Unicode character escape code"

/-- Why tokens follow no grammar rule. -/
inductive GrammarFault where
  | noStreamStart
  | noDocumentStart
  | noNodeContent
  | noDash
  | noKey
  | noFlowSequenceEnd
  | noFlowMappingEnd
  | undefinedHandle
  | duplicateVersion
  | duplicateHandle
  | incompatibleVersion
  deriving DecidableEq, Repr

/-- The wording of a fault of the grammar. -/
def GrammarFault.message : GrammarFault → Text
  | .noStreamStart => utf8 "did not find expected <stream-start>"
  | .noDocumentStart => utf8 "did not find expected <document start>"
  | .noNodeContent => utf8 "did not find expected node content"
  | .noDash => utf8 "did not find expected '-' indicator"
  | .noKey => utf8 "did not find expected key"
  | .noFlowSequenceEnd => utf8 "did not find expected ',' or ']'"
  | .noFlowMappingEnd => utf8 "did not find expected ',' or '\x7d'"
  | .undefinedHandle => utf8 "found undefined tag handle"
  | .duplicateVersion => utf8 "found duplicate %YAML directive"
  | .duplicateHandle => utf8 "found duplicate %TAG directive"
  | .incompatibleVersion => utf8 "found incompatible YAML document"

/-- What can go wrong in a stream. `exhausted` ends a loop whose bound was too small; the bounds are
chosen so that none is. -/
inductive Error where
  | read (fault : ReadFault) (context place : Mark)
  | scan (fault : ScanFault) (context place : Mark)
  | grammar (fault : GrammarFault) (context place : Mark)
  | unknownAnchor (name : Text)
  | exhausted
  deriving DecidableEq, Repr

/-- Where the construct around a failure starts. -/
def Error.context : Error → Mark
  | .read _ context _ | .scan _ context _ | .grammar _ context _ => context
  | .unknownAnchor _ | .exhausted => {}

/-- Where a failure was met. -/
def Error.place : Error → Mark
  | .read _ _ place | .scan _ _ place | .grammar _ _ place => place
  | .unknownAnchor _ | .exhausted => {}

/-- The line a fault names, or zero for none: that of the context, or else of the place, plus
`base`. -/
def faultLine (base : Nat) (context place : Mark) : Nat :=
  if context.line ≠ 0 then context.line + base
  else if place.line ≠ 0 then place.line + base
  else 0

/-- The words in front of a fault that names a line. -/
def lineText (line : Nat) : Text :=
  if line = 0 then [] else utf8 "line " ++ Text.ofNat line ++ utf8 ": "

/-- The wording of a failure of the stream. -/
def Error.message : Error → Text
  | .read fault context place =>
    utf8 "yaml: " ++ lineText (faultLine 0 context place) ++ fault.message
  | .scan fault context place =>
    utf8 "yaml: " ++ lineText (faultLine 1 context place) ++ fault.message
  | .grammar fault context place =>
    utf8 "yaml: " ++ lineText (faultLine 0 context place) ++ fault.message
  | .unknownAnchor name => utf8 "yaml: unknown anchor '" ++ name ++ utf8 "' referenced"
  | .exhausted => utf8 "yaml: unknown problem parsing YAML content"

end TreeLang.Yaml
