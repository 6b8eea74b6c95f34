import TreeLang.Batch
import TreeLang.Command.Files
import TreeLang.Command.Flags
import TreeLang.Tree.Encode

/-!
# The command line

A command line names what to do: run files, write a file in its canonical form, list the library,
run a demonstration, or start a session. Without arguments the standard input is run. A command
gives what it writes to the standard output and to the standard error, and an exit code: zero for
success, one for a failure, and two for a command line that cannot be understood.
-/

set_option autoImplicit false

namespace TreeLang.Command

/-- What a command did. -/
structure Report where
  code : Nat
  output : Text := []
  diagnostics : Text := []
  deriving DecidableEq, Repr

/-- What a command works on: the standard input, what paths lead to, and whether it is canceled. -/
structure World where
  input : Text := []
  find : Text → Found
  canceled : Bool := false

/-- A line of text. -/
def line (t : Text) : Text := t ++ Text.newline

/-- The list of commands. -/
def usage : Text :=
  utf8 "Usage:\n" ++
  utf8 "  minexp run [-lib] [-max-steps N] [-j N] [-v] <file>...\n" ++
  utf8 "  minexp fmt  <file>\n" ++
  utf8 "  minexp lib\n" ++
  utf8 "  minexp demo\n" ++
  utf8 "  minexp repl [-lib] [-v]\n"

/-! ## Running programs -/

/-- The log entry of a program that could not be read. -/
def parseFailed (message : Text) : Text := Log.failure "parse failed" [] message

/-- The log entry of a program that was halted. -/
def evaluationFailed (name : Text) (h : Halt) : Text :=
  Log.failure "evaluation failed" [Log.item "file" name] h.message

/-- Run one program. -/
def runProgram (s : EvalSettings) (canceled : Bool) (p : Program) : Report :=
  let (r, m) := p.runWith (s.requests canceled)
  match r.halt with
  | none => ⟨0, r.output ++ line (Text.ofInt64 r.value), Log.calls m.calls⟩
  | some h => ⟨1, r.output, Log.calls m.calls ++ evaluationFailed p.name h⟩

/-- The line above the output of a program in a batch. -/
def heading (name : Text) : Text := utf8 "==> " ++ name ++ utf8 " <==\n"

/-- The output of a program in a batch. -/
def resultOutput (r : Result) : Text :=
  heading r.name ++ r.output ++
    (if r.halt.isSome then [] else line (Text.ofInt64 r.value))

/-- The log entry of a program in a batch, if it was halted. -/
def resultEntry (r : Result) : Text :=
  match r.halt with
  | none => []
  | some h => evaluationFailed r.name h

/-- Run several programs. -/
def runPrograms (s : EvalSettings) (canceled : Bool) (ps : List Program) : Report :=
  let b := Batch.runWith (s.requests canceled) canceled ps
  let log := Log.calls b.calls
  if b.canceled then ⟨1, [], log ++ Log.failure "batch aborted" [] Batch.canceledMessage⟩
  else
    ⟨if b.results.any fun r => r.halt.isSome then 1 else 0, b.results.flatMap resultOutput,
      log ++ b.results.flatMap resultEntry⟩

/-- The programs of files. -/
def programs (w : World) (library : Bool) : List Text → Except FileError (List Program)
  | [] => .ok []
  | path :: paths => do
    let ts ← (w.find path).trees path
    let ps ← programs w library paths
    return ⟨path, ts.map some, library⟩ :: ps

/-- The report on flags that cannot be read. -/
def flagReport (command : Text) (known : List Flag) (f : FlagFault) : Report :=
  ⟨if f = .help then 0 else 2, [], f.message ++ flagUsage command known⟩

/-- The flags for running files. -/
def runFlags : List Flag := [.jobs, .library, .maxSteps, .verbose]

/-- Run files. -/
def runFiles (w : World) (args : List Text) : Report :=
  match readFlags runFlags {} args with
  | .error f => flagReport (utf8 "run") runFlags f
  | .ok (_, []) => ⟨2, [], utf8 "error: missing file argument\n"⟩
  | .ok (s, paths) =>
    match programs w s.eval.library paths with
    | .error e => ⟨1, [], parseFailed e.message⟩
    | .ok [p] => runProgram s.eval w.canceled p
    | .ok ps => runPrograms s.eval w.canceled ps

/-- Run the standard input. -/
def runInput (w : World) : Report :=
  match Tree.parse w.input with
  | .error e => ⟨1, [], parseFailed e.message⟩
  | .ok ts => runProgram {} w.canceled ⟨utf8 "<stdin>", ts.map some, false⟩

/-! ## Other commands -/

/-- Write a file in its canonical form. -/
def formatFile (w : World) : List Text → Report
  | [path] =>
    match (w.find path).trees path with
    | .error e => ⟨1, [], line e.message⟩
    | .ok ts =>
      match Tree.format ts with
      | .error f => ⟨1, [], line f.message⟩
      | .ok t => ⟨0, t, []⟩
  | _ => ⟨2, [], utf8 "error: fmt takes exactly one file\n"⟩

/-- List the functions of the library. -/
def listLibrary : Report := ⟨0, ((Library.root true).head?.getD {}).listFuncs, []⟩

open Library in
/-- The demonstration prints ten Fibonacci numbers, the greatest first. -/
def demo : Tree :=
  .seq [
    define "fib" ["i"] (.seq [
      .cond (.binary .lt (var "i") (num 3)) (num 1)
        (.binary .add (call "fib" [.binary .add (var "i") (num (-1))])
          (call "fib" [.binary .add (var "i") (num (-2))]))]),
    .declare (utf8 "i") (num 10),
    .loop (.binary .gt (var "i") (num 0)) (.seq [
      .print (call "fib" [var "i"]),
      assign "i" (.binary .add (var "i") (num (-1)))])]

/-- Run the demonstration. -/
def runDemo : Report :=
  let (r, _) := Program.runWith [] ⟨[], [some demo], false⟩
  match r.halt with
  | none => ⟨0, r.output ++ line (Text.ofInt64 r.value), []⟩
  | some h => ⟨1, r.output, line h.message⟩

/-- The flags for a session. -/
def sessionFlags : List Flag := [.library, .maxSteps, .verbose]

/-- Hold a session with the standard input. -/
def holdSession (w : World) (args : List Text) : Report :=
  match readFlags sessionFlags {} args with
  | .error f => flagReport (utf8 "repl") sessionFlags f
  | .ok (s, _) =>
    let t := Session.run s.eval w.canceled w.input
    ⟨0, t.output, t.diagnostics⟩

/-- Carry out a command line. -/
def run (w : World) : List Text → Report
  | [] => runInput w
  | command :: args =>
    if command = utf8 "run" then runFiles w args
    else if command = utf8 "fmt" then formatFile w args
    else if command = utf8 "lib" then listLibrary
    else if command = utf8 "demo" then runDemo
    else if command = utf8 "repl" then holdSession w args
    else if [utf8 "help", utf8 "-h", utf8 "-help", utf8 "--help"].contains command then
      ⟨0, usage, []⟩
    else ⟨2, [], utf8 "error: unknown command '" ++ command ++ utf8 "'\n" ++ usage⟩

end TreeLang.Command
