import TreeLang.Eval.Tree

/-!
# The bundled library

The library defines eight functions, in three files: comparisons, printing and arithmetic. Loading
it evaluates the definitions in a scope.
-/

set_option autoImplicit false

namespace TreeLang.Library

/-- The variable of a name. -/
def var (x : String) : Tree := .var (utf8 x)

/-- A number. -/
def num (k : Int64) : Tree := .literal k

/-- The definition of a function. -/
def define (f : String) (params : List String) (body : Tree) : Tree :=
  .define (utf8 f) (params.map utf8) body

/-- The call of a function. -/
def call (f : String) (args : List Tree) : Tree := .call (utf8 f) args

/-- The assignment to a variable. -/
def assign (x : String) (e : Tree) : Tree := .assign (utf8 x) e

/-! ## Comparisons -/

/-- The greater one of two numbers. -/
def max : Tree :=
  define "max" ["a", "b"] (.cond (.binary .gt (var "a") (var "b")) (var "a") (var "b"))

/-- The lesser one of two numbers. -/
def min : Tree :=
  define "min" ["a", "b"] (.cond (.binary .lt (var "a") (var "b")) (var "a") (var "b"))

/-- A number without its sign. -/
def abs : Tree :=
  define "abs" ["x"]
    (.cond (.binary .lt (var "x") (num 0)) (.binary .mul (var "x") (num (-1))) (var "x"))

/-! ## Printing -/

/-- Prints a number and those below it down to one. -/
def countdown : Tree :=
  define "countdown" ["n"]
    (.loop (.binary .gt (var "n") (num 0))
      (.seq [.print (var "n"), assign "n" (.binary .add (var "n") (num (-1)))]))

/-! ## Arithmetic -/

/-- A Fibonacci number, where those below the third are one. -/
def fib : Tree :=
  define "fib" ["i"]
    (.cond (.binary .lt (var "i") (num 3)) (num 1)
      (.binary .add (call "fib" [.binary .add (var "i") (num (-1))])
        (call "fib" [.binary .add (var "i") (num (-2))])))

/-- A factorial. -/
def fact : Tree :=
  define "fact" ["n"]
    (.cond (.binary .lt (var "n") (num 2)) (num 1)
      (.binary .mul (var "n") (call "fact" [.binary .add (var "n") (num (-1))])))

/-- A power. -/
def pow : Tree :=
  define "pow" ["b", "e"]
    (.cond (.binary .lt (var "e") (num 1)) (num 1)
      (.binary .mul (var "b") (call "pow" [var "b", .binary .add (var "e") (num (-1))])))

/-- The sum of the numbers from one up to a number. -/
def sum : Tree :=
  define "sum" ["n"]
    (.seq [.declare (utf8 "acc") (num 0), .declare (utf8 "k") (num 1),
      .loop (.binary .lt (var "k") (.binary .add (var "n") (num 1)))
        (.seq [assign "acc" (.binary .add (var "acc") (var "k")),
          assign "k" (.binary .add (var "k") (num 1))]),
      var "acc"])

/-! ## Loading -/

/-- The files of the library, by name, with the trees in them. -/
def files : List (Text × List Tree) :=
  [(utf8 "cmp.yaml", [max, min, abs]), (utf8 "io.yaml", [countdown]),
    (utf8 "math.yaml", [fib, fact, pow, sum])]

/-- The names of the files. -/
def fileNames : List Text := files.map (·.1)

/-- The trees of all files. -/
def trees : List Tree := files.flatMap (·.2)

/-- Evaluate the definitions in a scope. -/
def load (m : Machine) : EStateM.Result Halt Machine Int64 := evalAll {} (trees.map some) m

/-- A scope with the definitions. -/
def loadInto (c : Chain) : Chain :=
  match load { chain := c } with
  | .ok _ m => m.chain
  | .error _ m => m.chain

/-- A root frame, with or without the library. -/
def root (loaded : Bool) : Chain := if loaded then loadInto [{}] else [{}]

end TreeLang.Library
