import TreeLang.Text.Utf8
import TreeLang.Yaml.Error

/-!
# The characters of a source

A source is the list of its characters, block by block, and, when its bytes go wrong somewhere, the
damaged block that ends it.

Bytes are UTF-8, or UTF-16 when a byte order mark says so. They are taken in blocks of 512, and a
block is decoded as a whole: a fault anywhere in a block is met as soon as one of its characters is
wanted, whichever. A character that a block cuts in two is carried into the next block, which is
then as much longer at its front; one that the end cuts in two is a block of its own, unless the
source is so short that its end is in sight from the start.
-/

set_option autoImplicit false

namespace TreeLang.Yaml

/-- A block that cannot be decoded: the characters before its fault, and the fault. -/
structure Damage where
  before : List Char
  fault : ReadFault
  deriving Repr

/-- The characters of the blocks of a source, and the damaged block after them, if there is one. -/
structure Source where
  blocks : List (List Char)
  damage : Option Damage := none
  deriving Repr

namespace Source

/-- The encodings a source can have. -/
inductive Encoding where
  | utf8
  | utf16Little
  | utf16Big
  deriving DecidableEq, Repr

/-- The encoding that the first bytes announce, and the bytes after the announcement, with their
number. -/
def announced : Text → Encoding × Text × Nat
  | 0xFF :: 0xFE :: r => (.utf16Little, r, 2)
  | 0xFE :: 0xFF :: r => (.utf16Big, r, 2)
  | 0xEF :: 0xBB :: 0xBF :: r => (.utf8, r, 3)
  | t => (.utf8, t, 0)

/-- What stands at the front of the bytes of a block. -/
inductive Front where
  /-- A character and the number of bytes it takes. -/
  | char (n width : Nat)
  /-- The beginning of a character that the block cuts off. -/
  | cut (atEnd : ReadFault)
  | fault (f : ReadFault)

/-- Whether a source may hold the character numbered `n`. -/
def isAllowed (n : Nat) : Bool :=
  n == 0x09 || n == 0x0A || n == 0x0D || (0x20 ≤ n && n ≤ 0x7E) || n == 0x85 ||
    (0xA0 ≤ n && n ≤ 0xD7FF) || (0xE000 ≤ n && n ≤ 0xFFFD) || (0x10000 ≤ n && n ≤ 0x10FFFF)

/-- The value of a lead byte's low bits followed by continuation bytes. -/
def continued : Nat → List UInt8 → Except ReadFault Nat
  | n, [] => .ok n
  | n, b :: r =>
    if b.toNat / 64 = 2 then continued (n * 64 + b.toNat % 64) r else .error .badTrailingByte

/-- A character of `width` bytes whose lead byte has the low bits `lead` and whose value is at least
`low`. -/
def frontWide (width lead low : Nat) (available : Nat) (r : Text) : Front :=
  if available < width then .cut .incompleteSequence
  else match continued lead (r.take (width - 1)) with
    | .error f => .fault f
    | .ok n =>
      if n < low then .fault .badSequenceLength
      else if (0xD800 ≤ n ∧ n ≤ 0xDFFF) ∨ 0x10FFFF < n then .fault .badCharacter
      else .char n width

/-- The front of bytes in UTF-8, of which `available` are in the block. -/
def frontUtf8 (available : Nat) : Text → Front
  | [] => .cut .incompleteSequence
  | a :: r =>
    if a < 0x80 then .char a.toNat 1
    else if 0xC0 ≤ a ∧ a < 0xE0 then frontWide 2 (a.toNat - 0xC0) 0x80 available r
    else if 0xE0 ≤ a ∧ a < 0xF0 then frontWide 3 (a.toNat - 0xE0) 0x800 available r
    else if 0xF0 ≤ a ∧ a < 0xF8 then frontWide 4 (a.toNat - 0xF0) 0x10000 available r
    else .fault .badLeadingByte

/-- The number of a sixteen-bit unit. -/
def unit (big : Bool) (a b : UInt8) : Nat :=
  if big then a.toNat * 256 + b.toNat else b.toNat * 256 + a.toNat

/-- The front of bytes in UTF-16, of which `available` are in the block. -/
def frontUtf16 (big : Bool) (available : Nat) (t : Text) : Front :=
  if available < 2 then .cut .incompleteUnit
  else
    let n := unit big (t.getD 0 0) (t.getD 1 0)
    if n / 0x400 = 0x37 then .fault .unexpectedLowSurrogate
    else if n / 0x400 = 0x36 then
      if available < 4 then .cut .incompletePair
      else
        let m := unit big (t.getD 2 0) (t.getD 3 0)
        if m / 0x400 = 0x37 then .char (0x10000 + (n % 0x400) * 0x400 + m % 0x400) 4
        else .fault .expectedLowSurrogate
    else .char n 2

/-- The front of bytes in a given encoding. -/
def front : Encoding → Nat → Text → Front
  | .utf8 => frontUtf8
  | .utf16Little => frontUtf16 false
  | .utf16Big => frontUtf16 true

/-- How decoding one block ends: with bytes carried over, of which `carried` are in the block, or
with a fault. -/
inductive BlockEnd where
  | rest (t : Text) (carried : Nat) (atEnd : ReadFault)
  | fault (f : ReadFault)

/-- Decode a block of which `available` bytes are left, onto characters in reverse order. -/
def block (e : Encoding) : Nat → Nat → Text → List Char → List Char × BlockEnd
  | 0, _, t, chars => (chars, .rest t 0 .incompleteSequence)
  | fuel + 1, available, t, chars =>
    if available = 0 then (chars, .rest t 0 .incompleteSequence)
    else match front e available t with
      | .cut f => (chars, .rest t available f)
      | .fault f => (chars, .fault f)
      | .char n width =>
        if isAllowed n then block e fuel (available - width) (t.drop width) (Char.ofNat n :: chars)
        else (chars, .fault .controlCharacter)

/-- The number of bytes in a block. -/
def blockSize : Nat := 512

/-- Decode block after block. `available` bytes of the text are in the next block, and `carried` of
them were already in the block before. -/
def decode (e : Encoding) : Nat → Nat → Nat → ReadFault → Text → Source
  | 0, _, _, _, _ => ⟨[], none⟩
  | fuel + 1, available, carried, atEnd, t =>
    if available = carried then ⟨[], if carried = 0 then none else some ⟨[], atEnd⟩⟩
    else match block e (available + 1) available t [] with
      | (chars, .fault f) => ⟨[], some ⟨chars.reverse, f⟩⟩
      | (chars, .rest t' carried' f) =>
        let s := decode e fuel (t'.take blockSize).length carried' f t'
        { s with blocks := chars.reverse :: s.blocks }

/-- The source with its last block and its damaged one as one block. -/
def joined (s : Source) : Source :=
  match s.damage with
  | none => s
  | some d => ⟨[], some { d with before := s.blocks.flatten ++ d.before }⟩

/-- The number of bytes that are awaited before anything is decoded. -/
def announcementSize : Nat := 3

/-- The source with given bytes. -/
def ofBytes (t : Text) : Source :=
  let (e, body, skipped) := announced t
  let first := min body.length (blockSize - skipped)
  let s := decode e (t.length + 2) first 0 .incompleteSequence body
  if t.length < announcementSize then s.joined else s

/-- A source that cannot be read at all. -/
def unreadable (reason : Text) : Source := ⟨[], some ⟨[], .unreadable reason⟩⟩

/-- The number of characters of a source. -/
def size (s : Source) : Nat :=
  s.blocks.foldl (fun n b => n + b.length) ((s.damage.map (·.before.length)).getD 0)

end Source

end TreeLang.Yaml
