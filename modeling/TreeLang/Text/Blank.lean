import TreeLang.Text.Utf8

/-!
# Blank characters

The white space of Unicode, and texts without the white space at their ends.
-/

set_option autoImplicit false

namespace TreeLang.Blank

/-- Whether a character is white space. -/
def isBlank (c : Char) : Bool :=
  let n := c.toNat
  (9 ≤ n && n ≤ 13) || n == 0x20 || n == 0x85 || n == 0xA0 || n == 0x1680 ||
    (0x2000 ≤ n && n ≤ 0x200A) || n == 0x2028 || n == 0x2029 || n == 0x202F || n == 0x205F ||
    n == 0x3000

/-- Whether a piece of a text is white space; a stray byte is not. -/
def isBlankPiece : Utf8.Piece → Bool
  | .char c => isBlank c
  | .stray _ => false

/-- The bytes of a piece. -/
def pieceBytes : Utf8.Piece → Text
  | .char c => Utf8.encode [c]
  | .stray b => [b]

/-- A text without the white space at its two ends. -/
def trim (t : Text) : Text :=
  let front := (Utf8.pieces t).dropWhile isBlankPiece
  (front.reverse.dropWhile isBlankPiece).reverse.flatMap pieceBytes

end TreeLang.Blank
