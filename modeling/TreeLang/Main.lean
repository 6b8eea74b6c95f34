import TreeLang.Command.Basic

/-!
# The program

The program hands its arguments, the standard input and the files that the arguments name to the
command line, writes what the command gives, and exits with its code. At a terminal and without
arguments it holds a session line by line.
-/

set_option autoImplicit false

namespace TreeLang

/-- The bytes of a text. -/
def toBytes (t : Text) : ByteArray := ⟨t.toArray⟩

/-- Read a stream to its end, after what was read already. -/
partial def readToEnd (s : IO.FS.Stream) (acc : ByteArray) : IO ByteArray := do
  let chunk ← s.read 65536
  if chunk.isEmpty then return acc else readToEnd s (acc ++ chunk)

/-- Whether a code of the system, with either sign, says that a path is too long. -/
def isTooLong (code : UInt32) : Bool := code == 36 || code + 36 == 0

/-- What a path leads to. An error of the wrong type names the path when it is met at opening, and
does not when it is met at reading. -/
def probe (path : String) : IO Command.Found := do
  try
    return .file (← IO.FS.readBinFile path).data.toList
  catch e =>
    match e with
    | .noFileOrDirectory .. => return .missing
    | .inappropriateType (some _) .. => return .notDirectory
    | .inappropriateType none .. => return .directory
    | .permissionDenied .. => return .unopened (utf8 "permission denied")
    | .invalidArgument _ code _ => return if isTooLong code then .tooLong else .invalid
    | _ => return .invalid

/-- What the arguments lead to, taken as paths. -/
def probeAll (args : List String) : IO (List (Text × Command.Found)) :=
  args.mapM fun path => return (utf8 path, ← probe path)

/-- Write what a command or a session wrote. -/
def emit (t : Transcript) : IO Unit := do
  let out ← IO.getStdout
  out.write (toBytes t.output)
  out.flush
  let err ← IO.getStderr
  err.write (toBytes t.diagnostics)
  err.flush

/-- Hold a session with the lines of a terminal. -/
partial def converse (input : IO.FS.Stream) (s : Session) : IO Unit := do
  emit s.transcript
  let line ← input.getLine
  let event := if line.isEmpty then InputEvent.endOfInput
    else .line ((utf8 line).filter fun b => b != 10 && b != 13)
  let (s, ended) := Session.advance {} false { s with transcript := {} } event
  if ended then emit s.transcript else converse input s

/-- Run the program. -/
def runMain (args : List String) : IO UInt32 := do
  let input ← IO.getStdin
  if args.isEmpty && (← input.isTty) then
    converse input (Session.start {})
    return 0
  let readsInput := args.isEmpty || args.head? == some "repl"
  let bytes ← if readsInput then readToEnd input .empty else pure .empty
  let found ← probeAll args.tail
  let world : Command.World :=
    { input := bytes.data.toList, find := fun path => (found.lookup path).getD .missing }
  let r := Command.run world (args.map utf8)
  emit ⟨r.output, r.diagnostics⟩
  return r.code.toUInt32

end TreeLang

/-- The entry of the program. -/
def main (args : List String) : IO UInt32 := TreeLang.runMain args
