import TreeLang.Text.Integer
import TreeLang.Yaml.Node

/-!
# What a plain scalar is

A plain scalar without a tag is an integer, another number, a truth value, a point in time or absent
when its text says so, and a text otherwise. The first byte decides what is tried at all.

Integers lie between the least signed and the greatest unsigned machine word. Underscores in them
are left out first. Other numbers are decimal and within the range of double precision.
-/

set_option autoImplicit false

namespace TreeLang.Yaml.Scalar

/-- What the text of a scalar says. -/
inductive Meaning where
  | null
  | bool
  | int (n : Int)
  | float
  | timestamp
  | str
  deriving DecidableEq, Repr

/-- The tag of a meaning. -/
def Meaning.tag : Meaning → Text
  | .null => Tag.null
  | .bool => Tag.bool
  | .int _ => Tag.int
  | .float => Tag.float
  | .timestamp => Tag.timestamp
  | .str => Tag.str

/-! ## Decimal numbers -/

/-- Whether a byte is a decimal digit. -/
def isDigit (b : UInt8) : Bool := 48 ≤ b && b ≤ 57

/-- The value of decimal digits. -/
def digitsValue (t : Text) : Nat := t.foldl (fun n b => n * 10 + (b.toNat - 48)) 0

/-- An exponent at the end of a decimal number: nothing, or a mark, a sign and digits. -/
def exponent? : Text → Option Int
  | [] => some 0
  | e :: r =>
    if e = 101 ∨ e = 69 then
      let (negative, digits) := match r with
        | 45 :: d => (true, d)
        | 43 :: d => (false, d)
        | d => (false, d)
      if digits.isEmpty || !digits.all isDigit then none
      else some (if negative then -(digitsValue digits : Int) else digitsValue digits)
    else none

/-- The digits of a decimal number without their point, and the power of ten they are scaled by. -/
def decimal? (t : Text) : Option (Text × Int) :=
  let t := match t with
    | 45 :: r => r
    | 43 :: r => r
    | r => r
  let whole := t.takeWhile isDigit
  let rest := t.dropWhile isDigit
  let (fraction, tail) := match rest with
    | 46 :: r => (r.takeWhile isDigit, r.dropWhile isDigit)
    | r => ([], r)
  if whole.isEmpty && fraction.isEmpty then none
  else (exponent? tail).map fun e => (whole ++ fraction, e - (fraction.length : Int))

/-- Twice the greatest double precision number plus the distance from there to the next power of
two: a number rounds to infinity when twice it is at least this. -/
def twiceOverflow : Nat := Nat.pow 2 1025 - Nat.pow 2 971

/-- Whether digits scaled by a power of ten are within the range of double precision. -/
def isInRange (digits : Text) (scale : Int) : Bool :=
  let digits := digits.dropWhile (· == 48)
  let size : Int := digits.length + scale
  if digits.isEmpty || size < 300 then true
  else if 320 < size then false
  else if 0 ≤ scale then 2 * (digitsValue digits * Nat.pow 10 scale.toNat) < twiceOverflow
  else 2 * digitsValue digits < twiceOverflow * Nat.pow 10 (-scale).toNat

/-- Whether a text is a decimal number in range. -/
def isFloat (t : Text) : Bool :=
  match decimal? t with
  | some (digits, scale) => isInRange digits scale
  | none => false

/-- Whether a text that starts with a point is a decimal number in range, where underscores may
stand between digits. -/
def isPointFloat (t : Text) : Bool :=
  Integer.underscoresWellPlaced t && isFloat (t.filter (· != 95))

/-! ## Points in time -/

/-- Read a number of one or two digits. -/
def shortNumber? : Text → Option (Nat × Text)
  | a :: b :: r =>
    if isDigit a then
      if isDigit b then some ((a.toNat - 48) * 10 + (b.toNat - 48), r)
      else some (a.toNat - 48, b :: r)
    else none
  | [a] => if isDigit a then some (a.toNat - 48, []) else none
  | [] => none

/-- Read a given byte. -/
def byte? (b : UInt8) : Text → Option Text
  | a :: r => if a = b then some r else none
  | [] => none

/-- The number of days of a month. -/
def daysIn (year month : Nat) : Nat :=
  if month = 2 then
    if year % 4 = 0 ∧ (year % 100 ≠ 0 ∨ year % 400 = 0) then 29 else 28
  else if month = 4 ∨ month = 6 ∨ month = 9 ∨ month = 11 then 30
  else 31

/-- Read a date: a year of four digits, a month and a day. -/
def date? (t : Text) : Option Text := do
  let year := t.takeWhile isDigit
  if year.length ≠ 4 then none
  let r ← byte? 45 (t.drop 4)
  let (month, r) ← shortNumber? r
  let r ← byte? 45 r
  let (day, r) ← shortNumber? r
  if 1 ≤ month ∧ month ≤ 12 ∧ 1 ≤ day ∧ day ≤ daysIn (digitsValue year) month then some r else none

/-- Skip a fraction of a second, if there is one. -/
def skipFraction : Text → Text
  | p :: d :: r =>
    if (p = 46 ∨ p = 44) ∧ isDigit d then r.dropWhile isDigit else p :: d :: r
  | t => t

/-- Read a time of day with an optional fraction of a second. -/
def time? (t : Text) : Option Text := do
  let (hour, r) ← shortNumber? t
  let r ← byte? 58 r
  let (minute, r) ← shortNumber? r
  let r ← byte? 58 r
  let (second, r) ← shortNumber? r
  if hour < 24 ∧ minute < 60 ∧ second < 60 then some (skipFraction r) else none

/-- Whether a text is a time zone: the letter for universal time, or a signed offset. -/
def isZone : Text → Bool
  | [90] => true
  | [s, a, b, 58, c, d] =>
    (s == 43 || s == 45) && isDigit a && isDigit b && isDigit c && isDigit d &&
      digitsValue [a, b] ≤ 24 && digitsValue [c, d] ≤ 60
  | _ => false

/-- Whether a text is a point in time: a date alone, a date and a time with a zone, or a date and a
time after spaces. -/
def isTimestamp (t : Text) : Bool :=
  match date? t with
  | none => false
  | some [] => true
  | some (s :: r) =>
    if s = 84 ∨ s = 116 then ((time? r).map isZone).getD false
    else if s = 32 then ((time? (r.dropWhile (· == 32))).map List.isEmpty).getD false
    else false

/-! ## Integers -/

/-- Read an integer of the range of both kinds of machine words. -/
def machineInt? (signed : Except Integer.Fault Int) (unsigned : Except Integer.Fault Nat) :
    Option Int :=
  match signed, unsigned with
  | .ok n, _ => some n
  | .error _, .ok n => some n
  | .error _, .error _ => none

/-- Read an integer after a prefix for its base, where a sign may follow the prefix. -/
def basedInt? (base : Nat) (t : Text) : Option Int :=
  machineInt? (Integer.readIntIn base t) (Integer.readNatIn base t)

/-- Read an integer after a minus sign and a prefix for its base. -/
def negativeBasedInt? (base : Nat) (t : Text) : Option Int :=
  (Integer.readIntIn base (45 :: t)).toOption

/-- What the text of a number without underscores says, when no usual notation fits: bases two and
eight may have the sign after the prefix. -/
def oddInt? (t : Text) : Option Int :=
  match t with
  | 48 :: 98 :: r => basedInt? 2 r
  | 48 :: 111 :: r => basedInt? 8 r
  | 45 :: 48 :: 98 :: r => negativeBasedInt? 2 r
  | 45 :: 48 :: 111 :: r => negativeBasedInt? 8 r
  | _ => none

/-- What a text that starts like a number says, underscores left out. -/
def number (t : Text) : Meaning :=
  let plain := t.filter (· != 95)
  match machineInt? (Integer.readInt plain) (Integer.readNat plain) with
  | some n => .int n
  | none =>
    if isFloat plain then .float
    else match oddInt? plain with
      | some n => .int n
      | none => .str

/-! ## All scalars -/

/-- The words that stand for something other than themselves. -/
def words : List (Text × Meaning) :=
  [([], .null), (utf8 "~", .null), (utf8 "null", .null), (utf8 "Null", .null), (utf8 "NULL", .null),
    (utf8 "true", .bool), (utf8 "True", .bool), (utf8 "TRUE", .bool),
    (utf8 "false", .bool), (utf8 "False", .bool), (utf8 "FALSE", .bool),
    (utf8 ".nan", .float), (utf8 ".NaN", .float), (utf8 ".NAN", .float),
    (utf8 ".inf", .float), (utf8 ".Inf", .float), (utf8 ".INF", .float),
    (utf8 "+.inf", .float), (utf8 "+.Inf", .float), (utf8 "+.INF", .float),
    (utf8 "-.inf", .float), (utf8 "-.Inf", .float), (utf8 "-.INF", .float)]

/-- What a text says. Points in time are looked for only when `dated`. -/
def meaningWith (dated : Bool) (t : Text) : Meaning :=
  match words.lookup t with
  | some m => m
  | none =>
    match t with
    | [] => .str
    | b :: _ =>
      if b = 46 then (if isPointFloat t then .float else .str)
      else if isDigit b ∨ b = 43 ∨ b = 45 then
        if dated && isTimestamp t then .timestamp else number t
      else .str

/-- What the text of a plain scalar without a tag says. -/
def meaning (t : Text) : Meaning := meaningWith true t

/-! ## Integers of the tree language -/

/-- Why a scalar tagged as an integer is not a signed machine integer. -/
inductive IntFault where
  /-- Its text says something else. -/
  | notInt (tag value : Text)
  /-- It is greater than the greatest signed machine integer. -/
  | tooGreat (line : Nat) (value : Text)
  deriving DecidableEq, Repr

/-- A text cut to seven bytes when it has more than ten. -/
def cut (t : Text) : Text := if 10 < t.length then t.take 7 ++ utf8 "..." else t

/-- The wording of a fault. -/
def IntFault.message : IntFault → Text
  | .notInt tag value =>
    utf8 "yaml: cannot decode " ++ tag ++ utf8 " \x60" ++ value ++ utf8 "\x60 as a !!int"
  | .tooGreat line value =>
    utf8 "yaml: unmarshal errors:\n  line " ++ Text.ofNat line ++
      utf8 ": cannot unmarshal !!int \x60" ++ cut value ++ utf8 "\x60 into int64"

/-- The machine integer that a scalar tagged as an integer says. -/
def toInt64 (place : Place) (value : Text) : Except IntFault Int64 :=
  match meaningWith false value with
  | .int n =>
    if n < Integer.signedBound then .ok (Int64.ofInt n) else .error (.tooGreat place.line value)
  | m => .error (.notInt m.tag value)

end TreeLang.Yaml.Scalar
