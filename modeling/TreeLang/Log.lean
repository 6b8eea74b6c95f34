import TreeLang.Eval.Machine
import TreeLang.Text.Quoted

/-!
# Log entries

An entry is a line of keys and values: its level, its message, and what it is about. A value stands
between quotes if it is empty or has a character that would blur the line.
-/

set_option autoImplicit false

namespace TreeLang.Log

/-- Whether a part of a value calls for quotes. -/
def isBlurring : Utf8.Piece → Bool
  | .stray _ => true
  | .char c =>
    if c.toNat < 0x80 then c.toNat ≤ 0x20 || c == '=' || c == '"'
    else c.toNat == 0xFFFD || !isPrintable c

/-- A value, between quotes if need be. -/
def value (t : Text) : Text :=
  if t.isEmpty || (Utf8.pieces t).any isBlurring then Quoted.quote t else t

/-- A key with its value. -/
def item (key : String) (t : Text) : Text := utf8 key ++ utf8 "=" ++ value t

/-- An entry. -/
def entry (level : String) (message : String) (items : List Text) : Text :=
  Text.join (utf8 " ") (item "level" (utf8 level) :: item "msg" (utf8 message) :: items) ++
    Text.newline

/-- The entry of a call. -/
def call (c : CallRecord) : Text :=
  entry "DEBUG" "call"
    [item "func" c.func, item "args" (Text.ofNat c.args), item "depth" (Text.ofNat c.depth)]

/-- The entries of calls that are recorded last first. -/
def calls (cs : List CallRecord) : Text := cs.reverse.flatMap call

/-- The entry of an error. -/
def failure (message : String) (items : List Text) (error : Text) : Text :=
  entry "ERROR" message (items ++ [item "error" error])

end TreeLang.Log
