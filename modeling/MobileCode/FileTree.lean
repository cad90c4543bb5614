import MobileCode.Bytes
import MobileCode.Text.Blank

/-! # Files

A tree of directories and files, as far as storing modules needs one. Path names are resolved from
a working directory; a name with a slash in front starts at the root. A name can be used only if
each of its components is short enough and free of the null character.
-/
namespace MobileCode

/-- The components of a path from the root. -/
abbrev Place := List String

structure FileTree where
  /-- In ascending order of their places. -/
  files : List (Place × Bytes) := []
  /-- All directories but the root. -/
  directories : List Place := []
  workingDirectory : Place := []
  deriving Inhabited

/-- The path name of an entry below a directory. -/
def joinPath (directory name : String) : String :=
  if name.startsWith "/" || directory.isEmpty then name
  else if directory.endsWith "/" then directory ++ name
  else directory ++ "/" ++ name

/-- The last component of a path name, if it is a name. Behind it there may be slashes and single dots. -/
def fileName? (path : String) : Option String :=
  ((Text.split '/' path).reverse.find? fun c => c ≠ "" && c ≠ ".").filter (· ≠ "..")

/-- The name of an entry of a directory, whatever that directory is. -/
def isPlainFileName (name : String) : Bool :=
  !name.isEmpty && name != "." && name != ".." && fileName? name = some name

namespace FileTree

def isUsable (component : String) : Bool := component.utf8ByteSize ≤ 255 && !component.toList.contains '\x00'

def isDirectory (t : FileTree) (p : Place) : Bool := p.isEmpty || t.directories.contains p

def fileAt? (t : FileTree) (p : Place) : Option Bytes := t.files.lookup p

def insertFile (p : Place) (data : Bytes) : List (Place × Bytes) → List (Place × Bytes)
  | [] => [(p, data)]
  | (q, old) :: rest =>
    if p < q then (p, data) :: (q, old) :: rest
    else if p = q then (p, data) :: rest
    else (q, old) :: insertFile p data rest

/-- One component further, from a directory. -/
def stepTo (t : FileTree) (p : Place) (component : String) : Option Place :=
  if component = "" || component = "." then some p
  else if component = ".." then some p.dropLast
  else
    let q := p ++ [component]
    if t.isDirectory q then some q else none

/-- Where the walk along a path name starts. -/
def start (t : FileTree) (path : String) : Place :=
  if path.startsWith "/" then [] else t.workingDirectory

/-- The directory that an entry is in, and the entry's own name. -/
def locate? (t : FileTree) (path : String) : Option (Place × String) :=
  match (path.splitOn "/").reverse with
  | [] => none
  | last :: front =>
    if last = "" || last = "." || last = ".." || !isUsable last then none
    else (front.reverse.foldlM t.stepTo (t.start path)).map (·, last)

def read? (t : FileTree) (path : String) : Option Bytes := do
  let (p, name) ← t.locate? path
  t.fileAt? (p ++ [name])

def isFile (t : FileTree) (path : String) : Bool := (t.read? path).isSome

/-- Creates a file or replaces what it holds. -/
def write? (t : FileTree) (path : String) (data : Bytes) : Option FileTree := do
  let (p, name) ← t.locate? path
  if t.isDirectory (p ++ [name]) then none
  else return { t with files := insertFile (p ++ [name]) data t.files }

/-- Goes one component further and makes it a directory if there is nothing yet. -/
def enterOrCreate (s : FileTree × Place) (component : String) : Option (FileTree × Place) :=
  let (t, p) := s
  match t.stepTo p component with
  | some q => some (t, q)
  | none =>
    let q := p ++ [component]
    if !isUsable component || (t.fileAt? q).isSome then none
    else some ({ t with directories := q :: t.directories }, q)

def createDirectories? (t : FileTree) (path : String) : Option FileTree :=
  ((path.splitOn "/").foldlM enterOrCreate (t, t.start path)).map (·.1)

/-- The files below a place, each with its path from there. -/
def below (t : FileTree) (p : Place) : List (String × Bytes) :=
  t.files.filterMap fun (q, data) =>
    if p.isPrefixOf q then some (String.intercalate "/" (q.drop p.length), data) else none

end FileTree

/-- The operations that a program does on files, where they may have any effect. A result of
`none` or `false` says that the operation failed. -/
structure FileAccess (m : Type → Type) where
  read : String → m (Option Bytes)
  write : String → Bytes → m Bool
  createDirectories : String → m Bool

/-- An operation that leaves things as they are when it fails. -/
def FileTree.attempt (change : FileTree → Option FileTree) : StateM FileTree Bool := fun t =>
  match change t with
  | some t => (true, t)
  | none => (false, t)

def FileAccess.onTree : FileAccess (StateM FileTree) where
  read path := fun t => (t.read? path, t)
  write path data := FileTree.attempt (·.write? path data)
  createDirectories path := FileTree.attempt (·.createDirectories? path)

end MobileCode
