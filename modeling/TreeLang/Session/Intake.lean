import TreeLang.Text.Blank

/-!
# Lines of a session

A session takes lines until they close as many brackets as they open, and then submits them together
as one source. A line that is a command is carried out when no lines are waiting. An interrupt drops
the lines that wait.
-/

set_option autoImplicit false

namespace TreeLang

/-- What happens at the input of a session. -/
inductive InputEvent where
  | line (t : Text)
  | interrupt
  | endOfInput
  deriving DecidableEq, Repr

namespace InputEvent

/-- The events of an input, where `typed` holds the current line, last byte first. Line feeds and
carriage returns end lines. The third control character interrupts, and the fourth one ends the
input on an empty line. -/
def ofInputFrom : Text → Text → List InputEvent
  | [], [] => [.endOfInput]
  | b :: typed, [] => [.line (b :: typed).reverse, .endOfInput]
  | typed, b :: r =>
    if b = 10 ∨ b = 13 then .line typed.reverse :: ofInputFrom [] r
    else if b = 3 then .interrupt :: ofInputFrom [] r
    else if b = 4 then (if typed.isEmpty then [.endOfInput] else ofInputFrom typed r)
    else ofInputFrom (b :: typed) r

/-- The events of an input. -/
def ofInput (t : Text) : List InputEvent := ofInputFrom [] t

end InputEvent

/-- The number of brackets that a text opens less the number of those that it closes. -/
def bracketDepth (t : Text) : Int :=
  (t.count 123 + t.count 91 : Int) - t.count 125 - t.count 93

/-- What a session does after an event. -/
inductive Action where
  /-- Wait for more lines. -/
  | wait
  /-- Evaluate a source. -/
  | submit (source : Text)
  /-- Skip a blank source. -/
  | skip
  /-- List the variables. -/
  | showVars
  /-- List the functions. -/
  | showFuncs
  /-- Drop the lines that wait. -/
  | discard
  /-- Tell how to leave. -/
  | hint
  /-- Leave on request. -/
  | leave
  /-- Leave because the input has ended. -/
  | finish
  deriving DecidableEq, Repr

/-- The lines that wait, as one text, and the brackets that are open in them. -/
structure Intake where
  waiting : Text := []
  depth : Int := 0
  deriving DecidableEq, Repr

namespace Intake

/-- The action of a line that is a command. -/
def command? (line : Text) : Option Action :=
  [(utf8 "exit", Action.leave), (utf8 ":vars", .showVars), (utf8 ":funcs", .showFuncs)].lookup
    (Blank.trim line)

/-- Add a line to those that wait, and submit them if no bracket is open any more. -/
def addLine (s : Intake) (line : Text) : Intake × Action :=
  let depth := s.depth + bracketDepth line
  let waiting := s.waiting ++ line ++ Text.newline
  if 0 < depth then (⟨waiting, depth⟩, .wait)
  else if (Blank.trim waiting).isEmpty then ({}, .skip)
  else ({}, .submit waiting)

/-- Take an event. -/
def take (s : Intake) : InputEvent → Intake × Action
  | .line t =>
    if s.depth = 0 then
      match command? t with
      | some a => (s, a)
      | none => s.addLine t
    else s.addLine t
  | .interrupt => if 0 < s.depth then ({}, .discard) else (s, .hint)
  | .endOfInput => (s, .finish)

end Intake

end TreeLang
