import TreeLang.Session.Basic
import TreeLang.Text.Integer

/-!
# Flags

Flags come before the other arguments, with one dash or two. A switch is turned on by its name
alone, or set to a truth value after an equals sign. A number is given after an equals sign or as
the next argument. Two dashes alone end the flags.
-/

set_option autoImplicit false

namespace TreeLang.Command

/-- What flags set: how programs are evaluated, and how many at once. -/
structure Settings where
  eval : EvalSettings := {}
  jobs : Int := 4
  deriving DecidableEq, Repr

/-- The flags. -/
inductive Flag where
  | jobs
  | library
  | maxSteps
  | verbose
  deriving DecidableEq, Repr

namespace Flag

/-- The name of a flag. -/
def name : Flag → Text
  | .jobs => utf8 "j"
  | .library => utf8 "lib"
  | .maxSteps => utf8 "max-steps"
  | .verbose => utf8 "v"

/-- What the list of flags says about a flag. -/
def help : Flag → Text
  | .jobs => utf8 "  -j int\n    \tevaluate at most this many files at once (default 4)\n"
  | .library => utf8 "  -lib\n    \tpreload the bundled library functions\n"
  | .maxSteps =>
    utf8 "  -max-steps int\n    \tabort after evaluating this many nodes (0 means no limit)\n"
  | .verbose => utf8 "  -v\tlog function calls\n"

/-- The texts of truth values. -/
def switches : List (Text × Bool) :=
  [(utf8 "1", true), (utf8 "t", true), (utf8 "T", true), (utf8 "TRUE", true), (utf8 "true", true),
    (utf8 "True", true), (utf8 "0", false), (utf8 "f", false), (utf8 "F", false),
    (utf8 "FALSE", false), (utf8 "false", false), (utf8 "False", false)]

end Flag

/-- Why flags cannot be read. -/
inductive FlagFault where
  /-- The list of flags is asked for. -/
  | help
  /-- The argument has no name of a flag. -/
  | badSyntax (arg : Text)
  /-- No flag has this name. -/
  | unknown (name : Text)
  /-- The value of the flag is missing. -/
  | noValue (flag : Flag)
  /-- The value of the switch is not a truth value. -/
  | badSwitch (flag : Flag) (value : Text)
  /-- The value of the flag is not a machine integer. -/
  | badNumber (flag : Flag) (value : Text) (fault : Integer.Fault)
  deriving DecidableEq, Repr

/-- The wording of what is wrong with a number. -/
def numberFault : Integer.Fault → Text
  | .malformed => utf8 "parse error"
  | .outOfRange => utf8 "value out of range"

/-- The line that says what is wrong. -/
def FlagFault.message : FlagFault → Text
  | .help => []
  | .badSyntax arg => utf8 "bad flag syntax: " ++ arg ++ Text.newline
  | .unknown name => utf8 "flag provided but not defined: -" ++ name ++ Text.newline
  | .noValue flag => utf8 "flag needs an argument: -" ++ flag.name ++ Text.newline
  | .badSwitch flag value =>
    utf8 "invalid boolean value " ++ Quoted.quote value ++ utf8 " for -" ++ flag.name ++
      utf8 ": parse error" ++ Text.newline
  | .badNumber flag value fault =>
    utf8 "invalid value " ++ Quoted.quote value ++ utf8 " for flag -" ++ flag.name ++ utf8 ": " ++
      numberFault fault ++ Text.newline

namespace Settings

/-- Set a switch. -/
def setSwitch (s : Settings) (flag : Flag) (value : Text) : Except FlagFault Settings :=
  match Flag.switches.lookup value with
  | none => .error (.badSwitch flag value)
  | some b =>
    match flag with
    | .library => .ok { s with eval := { s.eval with library := b } }
    | _ => .ok { s with eval := { s.eval with verbose := b } }

/-- Set a number. -/
def setNumber (s : Settings) (flag : Flag) (value : Text) : Except FlagFault Settings :=
  match Integer.readInt value with
  | .error f => .error (.badNumber flag value f)
  | .ok n =>
    match flag with
    | .jobs => .ok { s with jobs := n }
    | _ => .ok { s with eval := { s.eval with maxSteps := n } }

/-- Whether a flag is a switch. -/
def isSwitch : Flag → Bool
  | .library | .verbose => true
  | .jobs | .maxSteps => false

end Settings

/-- How an argument reads: as a flag with a name and maybe a value, as the end of the flags, or as
the first of the other arguments. -/
inductive Argument where
  | flag (name : Text) (value : Option Text)
  | endOfFlags
  | other
  | malformed

/-- The name and the value of a flag. -/
def splitValue (t : Text) : Text × Option Text :=
  match t with
  | [] => ([], none)
  | b :: r =>
    let name := b :: r.takeWhile (· != 61)
    match r.dropWhile (· != 61) with
    | [] => (name, none)
    | _ :: value => (name, some value)

/-- How the name of a flag reads, after its dashes. -/
def flagNamed : Text → Argument
  | [] => .malformed
  | b :: r =>
    if b = 45 ∨ b = 61 then .malformed
    else
      let (name, value) := splitValue (b :: r)
      .flag name value

/-- How an argument reads. -/
def argument : Text → Argument
  | [45, 45] => .endOfFlags
  | 45 :: 45 :: r => flagNamed r
  | 45 :: b :: r => flagNamed (b :: r)
  | _ => .other

/-- Read flags, of those that are known. What is left are the other arguments. -/
def readFlags (known : List Flag) : Settings → List Text → Except FlagFault (Settings × List Text)
  | s, [] => .ok (s, [])
  | s, arg :: rest =>
    match argument arg with
    | .other => .ok (s, arg :: rest)
    | .endOfFlags => .ok (s, rest)
    | .malformed => .error (.badSyntax arg)
    | .flag name value =>
      match known.find? fun f => f.name = name with
      | none =>
        if name = utf8 "help" ∨ name = utf8 "h" then .error .help else .error (.unknown name)
      | some f =>
        if Settings.isSwitch f then do
          readFlags known (← s.setSwitch f (value.getD (utf8 "true"))) rest
        else
          match value, rest with
          | some v, rest => do readFlags known (← s.setNumber f v) rest
          | none, v :: rest => do readFlags known (← s.setNumber f v) rest
          | none, [] => .error (.noValue f)

/-- The list of flags of a command. -/
def flagUsage (command : Text) (known : List Flag) : Text :=
  utf8 "Usage of " ++ command ++ utf8 ":\n" ++ known.flatMap Flag.help

end TreeLang.Command
