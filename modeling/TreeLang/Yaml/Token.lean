import TreeLang.Yaml.Error

/-!
# Tokens

The words of a YAML stream. Most tokens are marks of the notation; scalars, anchors, aliases, tags
and directives carry what they say. Some are not written at all: the starts and ends of block
collections follow from indentation, and a key token is set in front of a key once its colon is
seen.
-/

set_option autoImplicit false

namespace TreeLang.Yaml

/-- The kinds of tokens. A scalar tells whether it was written plain, without quotes or block
indicator. -/
inductive TokenKind where
  | streamStart
  | streamEnd
  | versionDirective (major minor : Nat)
  | tagDirective (handle uri : Text)
  | documentStart
  | documentEnd
  | blockSequenceStart
  | blockMappingStart
  | blockEnd
  | flowSequenceStart
  | flowSequenceEnd
  | flowMappingStart
  | flowMappingEnd
  | blockEntry
  | flowEntry
  | key
  | value
  | alias (name : Text)
  | anchor (name : Text)
  | tag (handle suffix : Text)
  | scalar (value : Text) (plain : Bool)
  deriving DecidableEq, Repr

/-- A token and where it starts and stops. -/
structure Token where
  kind : TokenKind
  start : Mark
  stop : Mark
  deriving DecidableEq, Repr

end TreeLang.Yaml
