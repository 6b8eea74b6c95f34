import TreeLang.Text.Printable
import TreeLang.Text.Utf8

/-!
# Quoted texts

A quoted text stands between double quotes on one line. Printable characters stand for themselves, a
quote and a backslash get a backslash in front, the usual control characters have a letter, and all
else is written by its number: two digits for a byte below the space, the delete character or a
stray byte, four for a code point of the basic plane, eight above it.
-/

set_option autoImplicit false

namespace TreeLang.Quoted

/-- The letter that follows the backslash for a control character that has one. -/
def letter? (c : Char) : Option UInt8 :=
  match c.toNat with
  | 7 => some 97
  | 8 => some 98
  | 9 => some 116
  | 10 => some 110
  | 11 => some 118
  | 12 => some 102
  | 13 => some 114
  | _ => none

/-- The escape of a byte by its number. -/
def escapeByte (b : Nat) : Text := utf8 "\\x" ++ Text.hexLower 2 b

/-- A character between the quotes. -/
def escapeChar (c : Char) : Text :=
  if c.toNat = 34 ∨ c.toNat = 92 then 92 :: Utf8.encode [c]
  else if isPrintable c then Utf8.encode [c]
  else match letter? c with
    | some l => [92, l]
    | none =>
      if c.toNat < 0x20 ∨ c.toNat = 0x7F then escapeByte c.toNat
      else if c.toNat < 0x10000 then utf8 "\\u" ++ Text.hexLower 4 c.toNat
      else utf8 "\\U" ++ Text.hexLower 8 c.toNat

/-- A piece between the quotes. -/
def escape : Utf8.Piece → Text
  | .char c => escapeChar c
  | .stray b => escapeByte b.toNat

/-- A text between double quotes. -/
def quote (t : Text) : Text := 34 :: (Utf8.pieces t).flatMap escape ++ [34]

end TreeLang.Quoted
