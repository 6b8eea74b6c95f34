import TreeLang.Tree.Stream

/-!
# Files

A command opens files by their paths. What a path leads to is asked of the world around the command,
and `Files` is such a world with a working directory: there, a path is followed name by name, where
all but the last one must be directories.
-/

set_option autoImplicit false

namespace TreeLang.Command

/-! ## Reading -/

/-- What a path leads to: a file with its content, a directory, or the reason why nothing can be
opened. -/
inductive Found where
  | file (content : Text)
  | directory
  | unopened (reason : Text)
  deriving DecidableEq, Repr

namespace Found

/-- There is nothing. -/
def missing : Found := .unopened (utf8 "no such file or directory")

/-- The path goes on after a file. -/
def notDirectory : Found := .unopened (utf8 "not a directory")

/-- The path cannot be that of a file. -/
def invalid : Found := .unopened (utf8 "invalid argument")

/-- The path, or a name in it, is longer than can be followed. -/
def tooLong : Found := .unopened (utf8 "file name too long")

end Found

/-- Why the trees of a file cannot be read. -/
inductive FileError where
  /-- The file cannot be opened. -/
  | unopened (path : Text) (reason : Text)
  /-- The file does not hold trees. -/
  | unread (path : Text) (e : ReadError)
  deriving DecidableEq, Repr

/-- The wording of an error. -/
def FileError.message : FileError → Text
  | .unopened path reason => utf8 "open " ++ path ++ utf8 ": " ++ reason
  | .unread path e => path ++ utf8 ": " ++ e.message

/-- What an opened file gives to read. A directory can be opened, but gives nothing. -/
def Found.source (path : Text) : Found → Except FileError Yaml.Source
  | .file content => .ok (Yaml.Source.ofBytes content)
  | .directory => .ok (Yaml.Source.unreadable (utf8 "read " ++ path ++ utf8 ": is a directory"))
  | .unopened reason => .error (.unopened path reason)

/-- The trees of what a path leads to. -/
def Found.trees (path : Text) (f : Found) : Except FileError (List Tree) := do
  match Tree.readAll (← f.source path) with
  | .ok ts => return ts
  | .error e => throw (.unread path e)

/-! ## A working directory -/

/-- The files of a working directory: their paths and contents. A path that ends in a slash is that
of an empty directory. -/
abbrev Files := List (Text × Text)

/-- The names in a path, with empty ones where slashes meet. -/
def splitPath : Text → List Text
  | [] => [[]]
  | b :: r =>
    if b = 47 then [] :: splitPath r
    else match splitPath r with
      | [] => [[b]]
      | name :: names => (b :: name) :: names

/-- Whether a name stands for the directory it is in. -/
def isHere (name : Text) : Bool := name.isEmpty || name == utf8 "."

/-- Whether a name stands for the directory above. -/
def isAbove (name : Text) : Bool := name == utf8 ".."

/-- The greatest number of bytes of a name in a path. -/
def maxName : Nat := 255

/-- The greatest number of bytes of a path. -/
def maxPath : Nat := 4095

/-- What a name leads to that is not there. -/
def absent (name : Text) : Found := if maxName < name.length then .tooLong else .missing

/-- What a path outside the working directory leads to, where nothing but directories above it is
known. -/
def findOutside (names : List Text) : Found :=
  match names.find? fun n => !(isHere n || isAbove n) with
  | none => .directory
  | some name => absent name

namespace Files

/-- Whether a path is that of a directory, which is a proper part of the path of something in it. -/
def hasDirectory (files : Files) (path : List Text) : Bool :=
  files.any fun (name, _) =>
    path.isPrefixOf (splitPath name) && path.length < (splitPath name).length

/-- The content of a file. -/
def content? (files : Files) (path : List Text) : Option Text :=
  (files.find? fun (name, _) => splitPath name == path).map (·.2)

/-- What names lead to from a directory. -/
def findFrom (files : Files) : List Text → List Text → Found
  | _, [] => .directory
  | dir, name :: rest =>
    if isHere name then findFrom files dir rest
    else if isAbove name then
      if dir.isEmpty then findOutside rest else findFrom files dir.dropLast rest
    else
      let path := dir ++ [name]
      if files.hasDirectory path then findFrom files path rest
      else match files.content? path with
        | none => absent name
        | some content => if rest.isEmpty then .file content else .notDirectory

/-- What a path leads to. -/
def find (files : Files) (path : Text) : Found :=
  if path.contains 0 then .invalid
  else if maxPath < path.length then .tooLong
  else match path with
    | [] => .missing
    | 47 :: r => findOutside (splitPath r)
    | _ => files.findFrom [] (splitPath path)

end Files

end TreeLang.Command
