import TreeLang.Text.Basic

/-!
# Written integers

An integer is written with an optional sign and in base ten, or in base two, eight or sixteen after
`0b`, `0o` or `0x`; a leading zero alone also means base eight. Underscores may stand between
digits.

A reading fails for one of two reasons, and the first one met from the left counts: a byte that is
no digit of the base, or a value that has grown past the bound.
-/

set_option autoImplicit false

namespace TreeLang.Integer

/-- Why a text is not an integer. -/
inductive Fault where
  | malformed
  | outOfRange
  deriving DecidableEq, Repr

/-- The greatest value of an unsigned machine word. -/
def maxUnsigned : Nat := 18446744073709551615

/-- The least number above all signed machine integers. -/
def signedBound : Nat := 9223372036854775808

/-- The value of a digit, where letters count on from ten in either case. -/
def digitValue? (b : UInt8) : Option Nat :=
  if 48 ≤ b ∧ b ≤ 57 then some (b.toNat - 48)
  else if 97 ≤ b ∧ b ≤ 122 then some (b.toNat - 87)
  else if 65 ≤ b ∧ b ≤ 90 then some (b.toNat - 55)
  else none

/-- The value of digits after a value already read, underscores left out. -/
def readDigits (base : Nat) : Nat → Text → Except Fault Nat
  | n, [] => .ok n
  | n, b :: r =>
    if b = 95 then readDigits base n r
    else match digitValue? b with
      | none => .error .malformed
      | some d =>
        if base ≤ d then .error .malformed
        else if maxUnsigned < n * base + d then .error .outOfRange
        else readDigits base (n * base + d) r

/-- The base of a text without sign, and the digits that follow what announces it. -/
def splitBase : Text → Nat × Text
  | 48 :: b :: c :: r =>
    if b = 98 ∨ b = 66 then (2, c :: r)
    else if b = 111 ∨ b = 79 then (8, c :: r)
    else if b = 120 ∨ b = 88 then (16, c :: r)
    else (8, b :: c :: r)
  | 48 :: r => (8, r)
  | t => (10, t)

/-- Whether every underscore stands between two digits; `afterDigit` tells what came before. -/
def underscoresFit (hexadecimal : Bool) : Bool → Bool → Text → Bool
  | _, afterUnderscore, [] => !afterUnderscore
  | afterDigit, afterUnderscore, b :: r =>
    if (48 ≤ b && b ≤ 57) || (hexadecimal && ((97 ≤ b && b ≤ 102) || (65 ≤ b && b ≤ 70))) then
      underscoresFit hexadecimal true false r
    else if b = 95 then afterDigit && underscoresFit hexadecimal false true r
    else !afterUnderscore && underscoresFit hexadecimal false false r

/-- Whether the underscores of a text without sign are well placed; a base counts as a digit. -/
def underscoresWellPlaced : Text → Bool
  | 48 :: b :: r =>
    if b = 120 ∨ b = 88 then underscoresFit true true false r
    else if b = 98 ∨ b = 66 ∨ b = 111 ∨ b = 79 then underscoresFit false true false r
    else underscoresFit false false false (48 :: b :: r)
  | t => underscoresFit false false false t

/-- The unsigned integer that a text writes. -/
def readNat (t : Text) : Except Fault Nat :=
  if t.isEmpty then .error .malformed
  else do
    let (base, digits) := splitBase t
    let n ← readDigits base 0 digits
    if digits.contains 95 && !underscoresWellPlaced t then .error .malformed else .ok n

/-- The unsigned integer that a text writes in a given base, with no underscores. -/
def readNatIn (base : Nat) (t : Text) : Except Fault Nat :=
  if t.isEmpty ∨ t.contains 95 then .error .malformed else readDigits base 0 t

/-- The signed machine integer with a given sign and size. -/
def withSign (negative : Bool) (n : Nat) : Except Fault Int :=
  if negative then
    if signedBound < n then .error .outOfRange else .ok (-(n : Int))
  else if signedBound ≤ n then .error .outOfRange else .ok n

/-- Read a text with an optional sign, leaving what follows the sign to `read`. -/
def readSigned (read : Text → Except Fault Nat) : Text → Except Fault Int
  | 43 :: r => do withSign false (← read r)
  | 45 :: r => do withSign true (← read r)
  | t => do withSign false (← read t)

/-- The signed machine integer that a text writes. -/
def readInt (t : Text) : Except Fault Int := readSigned readNat t

/-- The signed machine integer that a text writes in a given base. -/
def readIntIn (base : Nat) (t : Text) : Except Fault Int := readSigned (readNatIn base) t

end TreeLang.Integer
