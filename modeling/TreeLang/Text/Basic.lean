/-!
# Texts

A text is a list of bytes. Names and messages are texts and not strings, because a name handed in
by a caller may hold any bytes, and a message repeats the name it is about. Everything that is read
from a document is UTF-8.

The module also holds the decimal and hexadecimal forms of numbers, and the bytewise order by which
names are listed.
-/

set_option autoImplicit false

namespace TreeLang

/-- A text is its sequence of bytes. -/
abbrev Text := List UInt8

/-- The bytes of a string, in UTF-8. -/
def utf8 (s : String) : Text := s.toUTF8.data.toList

namespace Text

/-- The line feed that ends a printed line. -/
def newline : Text := [10]

/-- The texts one after the other, with a separator between neighbours. -/
def join (separator : Text) : List Text → Text
  | [] => []
  | [t] => t
  | t :: rest => t ++ separator ++ join separator rest

/-- Whether the first text comes before the second, or is equal to it, byte by byte. -/
def le : Text → Text → Bool
  | [], _ => true
  | _ :: _, [] => false
  | a :: as, b :: bs => a < b || (a == b && le as bs)

/-! ## Decimal and hexadecimal digits -/

/-- The byte of a decimal digit. -/
def digit (d : Nat) : UInt8 := (48 + d).toUInt8

/-- The decimal digits of `n` in front of `tail`; the first argument bounds their number. -/
def digitsOnto : Nat → Nat → Text → Text
  | 0, _, tail => tail
  | fuel + 1, n, tail =>
    if n < 10 then digit n :: tail else digitsOnto fuel (n / 10) (digit (n % 10) :: tail)

/-- The decimal form of a natural number. -/
def ofNat (n : Nat) : Text := digitsOnto (n + 1) n []

/-- The decimal form of an integer, with a minus sign when it is negative. -/
def ofInt : Int → Text
  | .ofNat n => ofNat n
  | .negSucc n => 45 :: ofNat (n + 1)

/-- The decimal form of a machine integer. -/
def ofInt64 (v : Int64) : Text := ofInt v.toInt

/-- The byte of a hexadecimal digit, with the letters starting at `ten`. -/
def hexDigit (ten : Nat) (d : Nat) : UInt8 := if d < 10 then digit d else (ten + (d - 10)).toUInt8

/-- The last `width` hexadecimal digits of `n`, with the letters starting at `ten`. -/
def hex (ten : Nat) : Nat → Nat → Text
  | 0, _ => []
  | width + 1, n => hex ten width (n / 16) ++ [hexDigit ten (n % 16)]

/-- The last `width` hexadecimal digits of `n`, in lower case. -/
def hexLower (width n : Nat) : Text := hex 97 width n

/-- The last `width` hexadecimal digits of `n`, in upper case. -/
def hexUpper (width n : Nat) : Text := hex 65 width n

end Text

end TreeLang
