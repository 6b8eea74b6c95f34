import TreeLang.Eval.Source
import TreeLang.Library

/-!
# The texts of the library

The library is bundled as texts. Loading takes one file after the other: it reads all trees of the
file, and then evaluates them on their own. What goes wrong in a file is reported with its name, and
the files behind it are not loaded.
-/

set_option autoImplicit false

namespace TreeLang.Library

/-- A text of lines. -/
def lines (ls : List String) : Text := ls.flatMap fun l => utf8 l ++ Text.newline

/-- The text of the file for comparisons. -/
def cmpText : Text :=
  lines [
    "def: [max, [a, b], \x7bif: [\x7bgt: [\x7bvar: a\x7d, \x7bvar: b\x7d]\x7d, \x7bvar: a\x7d, \x7bvar: b\x7d]\x7d]",
    "---",
    "def: [min, [a, b], \x7bif: [\x7blt: [\x7bvar: a\x7d, \x7bvar: b\x7d]\x7d, \x7bvar: a\x7d, \x7bvar: b\x7d]\x7d]",
    "---",
    "def: [abs, [x], \x7bif: [\x7blt: [\x7bvar: x\x7d, 0]\x7d, \x7bmul: [\x7bvar: x\x7d, -1]\x7d, \x7bvar: x\x7d]\x7d]"]

/-- The text of the file for printing. -/
def ioText : Text :=
  lines [
    "# countdown(n) prints n down to 1.",
    "def:",
    "  - countdown",
    "  - [n]",
    "  - while:",
    "      - \x7bgt: [\x7bvar: n\x7d, 0]\x7d",
    "      - seq:",
    "          - \x7bprint: \x7bvar: n\x7d\x7d",
    "          - \x7bassign: [n, \x7badd: [\x7bvar: n\x7d, -1]\x7d]\x7d"]

/-- The text of the file for arithmetic. -/
def mathText : Text :=
  lines [
    "# fib(i) is 1 for i < 3.",
    "def:",
    "  - fib",
    "  - [i]",
    "  - if:",
    "      - \x7blt: [\x7bvar: i\x7d, 3]\x7d",
    "      - 1",
    "      - add:",
    "          - \x7bcall: [fib, \x7badd: [\x7bvar: i\x7d, -1]\x7d]\x7d",
    "          - \x7bcall: [fib, \x7badd: [\x7bvar: i\x7d, -2]\x7d]\x7d",
    "---",
    "def:",
    "  - fact",
    "  - [n]",
    "  - if:",
    "      - \x7blt: [\x7bvar: n\x7d, 2]\x7d",
    "      - 1",
    "      - mul:",
    "          - \x7bvar: n\x7d",
    "          - \x7bcall: [fact, \x7badd: [\x7bvar: n\x7d, -1]\x7d]\x7d",
    "---",
    "def:",
    "  - pow",
    "  - [b, e]",
    "  - if:",
    "      - \x7blt: [\x7bvar: e\x7d, 1]\x7d",
    "      - 1",
    "      - mul:",
    "          - \x7bvar: b\x7d",
    "          - \x7bcall: [pow, \x7bvar: b\x7d, \x7badd: [\x7bvar: e\x7d, -1]\x7d]\x7d",
    "---",
    "# sum(n) adds 1..n.",
    "def:",
    "  - sum",
    "  - [n]",
    "  - seq:",
    "      - \x7blet: [acc, 0]\x7d",
    "      - \x7blet: [k, 1]\x7d",
    "      - while:",
    "          - \x7blt: [\x7bvar: k\x7d, \x7badd: [\x7bvar: n\x7d, 1]\x7d]\x7d",
    "          - seq:",
    "              - \x7bassign: [acc, \x7badd: [\x7bvar: acc\x7d, \x7bvar: k\x7d]\x7d]\x7d",
    "              - \x7bassign: [k, \x7badd: [\x7bvar: k\x7d, 1]\x7d]\x7d",
    "      - \x7bvar: acc\x7d"]

/-- The files of the library, by name, with their texts. -/
def texts : List (Text × Text) :=
  [(utf8 "cmp.yaml", cmpText), (utf8 "io.yaml", ioText), (utf8 "math.yaml", mathText)]

/-- Why a file cannot be loaded. -/
structure LoadError where
  file : Text
  cause : SourceError
  deriving DecidableEq, Repr

/-- The wording of an error. -/
def LoadError.message (e : LoadError) : Text := e.file ++ utf8 ": " ++ e.cause.message

/-- Load a file. -/
def loadText (f : Text × Text) : EStateM LoadError Machine Unit := fun m =>
  match evalText {} f.2 m with
  | .ok _ m => .ok () m
  | .error e m => .error ⟨f.1, e⟩ m

/-- Load files one after the other. -/
def loadTexts (fs : List (Text × Text)) : EStateM LoadError Machine Unit := fs.forM loadText

end TreeLang.Library
