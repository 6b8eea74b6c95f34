import TreeLang.Text.Basic

/-!
# Characters of a text

A text is cut into pieces: a piece is a character in well-formed UTF-8, or a single stray byte where
no character starts. `pieces` never fails and loses no byte; `chars?` gives the characters of a text
that has no stray byte.

Well-formed means the shortest encoding of a Unicode scalar value, so surrogates, values above
`0x10FFFF` and overlong forms are strays.
-/

set_option autoImplicit false

namespace TreeLang.Utf8

/-- A character, or a byte that belongs to none. -/
inductive Piece where
  | char (c : Char)
  | stray (b : UInt8)
  deriving DecidableEq, Repr

/-- The encoding of characters, one after the other. -/
def encode (cs : List Char) : Text := cs.flatMap String.utf8EncodeChar

/-- The six low bits of a continuation byte. -/
def tail? (b : UInt8) : Option Nat :=
  if 0x80 ≤ b ∧ b ≤ 0xBF then some (b.toNat % 64) else none

/-- The character of the scalar value `n`, when `n` lies between the bounds of its encoding. -/
def scalar? (low high n : Nat) (rest : Text) : Option (Char × Text) :=
  if low ≤ n ∧ n ≤ high ∧ ¬ (0xD800 ≤ n ∧ n ≤ 0xDFFF) then some (Char.ofNat n, rest) else none

/-- The first character of a text and what follows it. -/
def first? : Text → Option (Char × Text)
  | [] => none
  | a :: r =>
    if a < 0x80 then some (Char.ofNat a.toNat, r)
    else if a < 0xE0 then
      match r with
      | b :: r => do
        let b ← tail? b
        scalar? 0x80 0x7FF ((a.toNat - 0xC0) * 64 + b) r
      | _ => none
    else if a < 0xF0 then
      match r with
      | b :: c :: r => do
        let b ← tail? b
        let c ← tail? c
        scalar? 0x800 0xFFFF (((a.toNat - 0xE0) * 64 + b) * 64 + c) r
      | _ => none
    else if a < 0xF8 then
      match r with
      | b :: c :: d :: r => do
        let b ← tail? b
        let c ← tail? c
        let d ← tail? d
        scalar? 0x10000 0x10FFFF ((((a.toNat - 0xF0) * 64 + b) * 64 + c) * 64 + d) r
      | _ => none
    else none

/-- The pieces of a text; the first argument bounds their number. -/
def piecesUpTo : Nat → Text → List Piece
  | _, [] => []
  | 0, _ => []
  | fuel + 1, b :: r =>
    match first? (b :: r) with
    | some (c, rest) => .char c :: piecesUpTo fuel rest
    | none => .stray b :: piecesUpTo fuel r

/-- The pieces of a text. -/
def pieces (t : Text) : List Piece := piecesUpTo t.length t

/-- The characters among pieces, when there is no stray byte. -/
def charsOf? : List Piece → Option (List Char)
  | [] => some []
  | .char c :: rest => (charsOf? rest).map (c :: ·)
  | .stray _ :: _ => none

/-- The characters of a text in well-formed UTF-8. -/
def chars? (t : Text) : Option (List Char) := charsOf? (pieces t)

/-- Whether a text is well-formed UTF-8. -/
def isValid (t : Text) : Bool := (chars? t).isSome

end TreeLang.Utf8
