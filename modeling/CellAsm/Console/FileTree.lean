import CellAsm.Console.Job

set_option autoImplicit false

/-! # Working directories

A file tree holds what a command can see of the file system: the files and folders below the
working directory. A path is resolved component by component; `.` and an empty component stay,
`..` goes up, and nothing that is named above the working directory exists. Reading gives the
text of a file, or the reason why there is none in the words of the operating system.
-/

namespace CellAsm

/-- The names on the way from the working directory to a file or folder. -/
abbrev Route := List (List Char)

/-- The components of a path, which are separated by slashes. -/
def Route.components : List Char → Route
  | [] => [[]]
  | '/' :: s => [] :: components s
  | c :: s =>
    match components s with
    | [] => [[c]]
    | name :: rest => (c :: name) :: rest

/-- The files below a working directory, with their bytes, and the folders. The folders that a
file or folder lies in exist too. -/
structure FileTree where
  files : List (Route × List UInt8) := []
  folders : List Route := []

namespace FileTree

/-- Where a path leads. -/
inductive Place where
  /-- To a folder below the working directory or to that itself. -/
  | folder (route : Route)
  /-- To a file. -/
  | file (bytes : List UInt8)
  /-- To a folder that holds the working directory. -/
  | above

/-- Whether there is a folder at a route. -/
def hasFolder (tree : FileTree) (route : Route) : Bool :=
  route.isEmpty || tree.folders.any route.isPrefixOf
    || tree.files.any fun file => route.isPrefixOf file.1

/-- The longest name that a file can have, in bytes. -/
def maxName : Nat := 255

/-- The longest path that can be resolved, in bytes. -/
def maxPath : Nat := 4095

/-- The number of bytes that encode a text. -/
def byteCount (s : List Char) : Nat := (String.ofList s).utf8ByteSize

/-- The place that a component leads to. -/
def enter (tree : FileTree) : Place → List Char → Except ReadFault Place
  | .file _, _ => .error (.failed "Not a directory (os error 20)")
  | place, [] | place, ['.'] => .ok place
  | .above, ['.', '.'] => .ok .above
  | .folder [], ['.', '.'] => .ok .above
  | .folder route, ['.', '.'] => .ok (.folder route.dropLast)
  | place, name =>
    if byteCount name > maxName then .error (.failed "File name too long (os error 36)")
    else
      match place with
      | .folder route =>
        match tree.files.lookup (route ++ [name]) with
        | some bytes => .ok (.file bytes)
        | none =>
          if tree.hasFolder (route ++ [name]) then .ok (.folder (route ++ [name]))
          else .error .notFound
      | _ => .error .notFound

/-- The place that a path leads to. -/
def resolve (tree : FileTree) (path : List Char) : Except ReadFault Place :=
  if path = [] then .error .notFound
  else if '\x00' ∈ path then
    .error (.failed "file name contained an unexpected NUL byte")
  else if byteCount path > maxPath then .error (.failed "File name too long (os error 36)")
  else
    match Route.components path with
    | [] :: rest => rest.foldlM tree.enter .above
    | route => route.foldlM tree.enter (.folder [])

/-- The text of the file at a path. -/
def read (tree : FileTree) (path : String) : Except ReadFault String := do
  match ← tree.resolve path.toList with
  | .file bytes => Console.textOf bytes
  | _ => .error (.failed "Is a directory (os error 21)")

/-- Everything that the files of the tree can import, directly or through each other. -/
def importable (tree : FileTree) : Files :=
  let paths := tree.files.flatMap fun file =>
    match Console.textOf file.2 with
    | .ok text => Console.directives text
    | .error _ => []
  ⟨paths.map fun path => (path, tree.read path)⟩

end FileTree

end CellAsm
