import TreeLang.Batch
import TreeLang.Eval.Source
import TreeLang.Log
import TreeLang.Session.Intake

/-!
# Interactive sessions

A session evaluates one source after the other in one root frame, so that what a source declares and
defines is there for the next ones. Values and what is printed go to the output, errors and the log
to the diagnostics.
-/

set_option autoImplicit false

namespace TreeLang

/-- How the sources of a session are evaluated. -/
structure EvalSettings where
  /-- The library is loaded. -/
  library : Bool := false
  /-- The greatest number of trees that one evaluation visits, if positive. -/
  maxSteps : Int := 0
  /-- Calls are logged. -/
  verbose : Bool := false
  deriving DecidableEq, Repr

/-- The options of a run. -/
def EvalSettings.options (s : EvalSettings) : Options :=
  { limit := if 0 < s.maxSteps then some s.maxSteps.toNat else none, recorded := s.verbose }

/-- What is asked for a run. -/
def EvalSettings.requests (s : EvalSettings) (canceled : Bool) : List Request :=
  [.context (checksWhen canceled), .logger s.verbose, .maxSteps s.maxSteps]

/-- What a command or a session wrote. -/
structure Transcript where
  output : Text := []
  diagnostics : Text := []
  deriving DecidableEq, Repr

namespace Transcript

/-- Write to the output. -/
def write (t : Transcript) (s : Text) : Transcript := { t with output := t.output ++ s }

/-- Write to the diagnostics. -/
def warn (t : Transcript) (s : Text) : Transcript := { t with diagnostics := t.diagnostics ++ s }

end Transcript

/-- The lines that list the variables of a frame. -/
def Frame.listVars (f : Frame) : Text :=
  f.vars.sortedNames.flatMap fun x =>
    match f.vars.get? x with
    | some v => x ++ utf8 " = " ++ Text.ofInt64 v ++ Text.newline
    | none => []

/-- The lines that list the functions of a frame. -/
def Frame.listFuncs (f : Frame) : Text :=
  f.funcs.sortedNames.flatMap fun x =>
    match f.funcs.get? x with
    | some g => x ++ utf8 "(" ++ Text.join (utf8 ", ") g.params ++ utf8 ")" ++ Text.newline
    | none => []

/-- A session: the lines that wait, the scope, and what was written so far. -/
structure Session where
  intake : Intake := {}
  chain : Chain
  transcript : Transcript := {}
  deriving Repr

namespace Session

/-! ## Colours -/

/-- A text in a colour. -/
def colored (code : String) (t : Text) : Text :=
  utf8 "\x1b[" ++ utf8 code ++ utf8 "m" ++ t ++ utf8 "\x1b[0m"

/-- A text in the colour of remarks. -/
def gray (t : Text) : Text := colored "90" t

/-- A text in the colour of errors. -/
def red (t : Text) : Text := colored "31" t

/-- The greeting. -/
def banner : Text :=
  utf8 "\x1b[1m" ++ colored "36" (utf8 "minexp REPL") ++ utf8 " " ++
    gray (utf8 "(one tree per entry, :vars, :funcs, 'exit' or Ctrl+D to quit)") ++ utf8 "\n\n"

/-- How to leave. -/
def hint : Text := utf8 "\n" ++ gray (utf8 "(use 'exit' or Ctrl+D to quit)") ++ utf8 "\n"

/-! ## Steps -/

/-- A session at its start. -/
def start (s : EvalSettings) : Session :=
  { chain := Library.root s.library, transcript := { output := banner } }

/-- The current frame. -/
def frame (s : Session) : Frame := s.chain.head?.getD {}

/-- Evaluate a source. -/
def submit (set : EvalSettings) (canceled : Bool) (s : Session) (source : Text) : Session :=
  let setup := Setup.ofRequests (set.requests canceled)
  match evalText setup.options source { chain := s.chain, checks := setup.checks } with
  | .ok v m =>
    { s with
      chain := m.chain
      transcript := (s.transcript.write ((m.sinks.get 0).text ++
        gray (utf8 "=> " ++ Text.ofInt64 v) ++ Text.newline)).warn (Log.calls m.calls) }
  | .error e m =>
    { s with
      chain := m.chain
      transcript := (s.transcript.write (m.sinks.get 0).text).warn
        (Log.calls m.calls ++ red (utf8 "error: " ++ e.message) ++ Text.newline) }

/-- Carry out an action. -/
def act (set : EvalSettings) (canceled : Bool) (s : Session) : Action → Session
  | .wait | .skip | .discard | .leave => s
  | .submit source => s.submit set canceled source
  | .showVars => { s with transcript := s.transcript.write s.frame.listVars }
  | .showFuncs => { s with transcript := s.transcript.write s.frame.listFuncs }
  | .hint => { s with transcript := s.transcript.write hint }
  | .finish => { s with transcript := s.transcript.write Text.newline }

/-- Whether an action ends a session. -/
def isLast : Action → Bool
  | .leave | .finish => true
  | _ => false

/-- Take one event, and tell whether it ends the session. -/
def advance (set : EvalSettings) (canceled : Bool) (s : Session) (e : InputEvent) :
    Session × Bool :=
  let (intake, action) := s.intake.take e
  (act set canceled { s with intake := intake } action, isLast action)

/-- Go on with events until one ends the session. -/
def resume (set : EvalSettings) (canceled : Bool) : Session → List InputEvent → Session
  | s, [] => s
  | s, e :: es =>
    let (s, ended) := s.advance set canceled e
    if ended then s else resume set canceled s es

/-- What a session with the given input writes. -/
def run (set : EvalSettings) (canceled : Bool) (input : Text) : Transcript :=
  (resume set canceled (start set) (InputEvent.ofInput input)).transcript

end Session

end TreeLang
