/-!
# Files

What a command may do with files, and a directory tree as a value on which it can be run. Paths are
relative to the root of the tree; nothing outside the tree can be reached.
-/

namespace Stencil

/-- The file operations of a command. Each tells whether it was possible. -/
class FileStore (m : Type → Type) where
  /-- The text of a file, if it is there and is text. -/
  readText? (path : String) : m (Option String)
  /-- Creates a directory and those above it. -/
  createDirs (path : String) : m Bool
  writeText (path text : String) : m Bool

instance {ε : Type} {m : Type → Type} [Monad m] [FileStore m] : FileStore (ExceptT ε m) where
  readText? path := ExceptT.lift (FileStore.readText? path)
  createDirs path := ExceptT.lift (FileStore.createDirs path)
  writeText path text := ExceptT.lift (FileStore.writeText path text)

namespace Path

/-- The parts between slashes. -/
def parts (path : String) : List String :=
  (path.toList.splitOn '/').map String.ofList

/-- The most bytes that a path may have. -/
def maxSize : Nat := 4095

/-- The most bytes that a part of a path may have. -/
def maxPartSize : Nat := 255

/-- Whether a path can name anything: it holds no null character, and neither it nor any of its
parts is too long. -/
def isNameable (path : String) : Bool :=
  path.toList.all (· != '\x00') && path.utf8ByteSize ≤ maxSize
    && (parts path).all (·.utf8ByteSize ≤ maxPartSize)

/-- Drops slashes, and single dots after slashes, from a reversed path. A lone slash stays. -/
def dropEmptyTail : List Char → List Char
  | ['/'] => ['/']
  | '/' :: rest => dropEmptyTail rest
  | '.' :: '/' :: rest => dropEmptyTail ('/' :: rest)
  | rest => rest

/-- The path without its last part, as it is written; absent for the empty path and for `/`. -/
def parent? (path : String) : Option String :=
  match dropEmptyTail path.toList.reverse with
  | [] => none
  | ['/'] => none
  | reversed =>
    some (String.ofList (dropEmptyTail (reversed.dropWhile (· != '/'))).reverse)

end Path

inductive Content where
  | text (value : String)
  /-- Bytes that are not the UTF-8 form of a text. -/
  | binary (bytes : List UInt8)
deriving DecidableEq, Repr

/-- Files by the parts of their paths, and the directories that were created. A file makes every
path above it a directory. -/
structure FileTree where
  files : List (List String × Content)
  dirs : List (List String)

namespace FileTree

def file? (t : FileTree) (path : List String) : Option Content :=
  t.files.lookup path

def isDir (t : FileTree) (path : List String) : Bool :=
  path.isEmpty || t.dirs.contains path
    || t.files.any fun (file, _) => path.isPrefixOf file && path.length < file.length

def put (t : FileTree) (path : List String) (content : Content) : FileTree :=
  { t with files := (path, content) :: t.files.filter (·.1 ≠ path) }

/-- The directory that parts lead to from a directory. -/
def walk (t : FileTree) (dir : List String) : List String → Option (List String)
  | [] => some dir
  | part :: parts =>
    if part = "" ∨ part = "." then t.walk dir parts
    else if part = ".." then
      if dir.isEmpty then none else t.walk dir.dropLast parts
    else if t.isDir (dir ++ [part]) then t.walk (dir ++ [part]) parts
    else none

/-- Where a path puts a file: it has to be nameable, and its directory has to be there. -/
def locate (t : FileTree) (path : String) : Option (List String) :=
  let parts := Path.parts path
  let last := parts.getLastD ""
  if path.startsWith "/" || last == "" || last == "." || last == ".." then none
  else if !Path.isNameable path then none
  else (t.walk [] parts.dropLast).map (· ++ [last])

/-- The tree in which the directories on a path are there. -/
def makeDirs (t : FileTree) (dir : List String) : List String → Option FileTree
  | [] => some t
  | part :: parts =>
    let next := dir ++ [part]
    if part = "" ∨ part = "." then t.makeDirs dir parts
    else if part = ".." then
      if dir.isEmpty then none else t.makeDirs dir.dropLast parts
    else if t.isDir next then t.makeDirs next parts
    else if (t.file? next).isSome then none
    else makeDirs { t with dirs := next :: t.dirs } next parts

def read? (t : FileTree) (path : String) : Option String :=
  match (t.locate path).bind t.file? with
  | some (.text value) => some value
  | _ => none

def create? (t : FileTree) (path : String) : Option FileTree :=
  if path.startsWith "/" || !Path.isNameable path then none
  else t.makeDirs [] (Path.parts path)

def write? (t : FileTree) (path text : String) : Option FileTree :=
  match t.locate path with
  | none => none
  | some location => if t.isDir location then none else some (t.put location (.text text))

/-- Puts the changed tree in place, if there is one. -/
def commit (changed : Option FileTree) : StateM FileTree Bool :=
  match changed with
  | some t => do
    set t
    return true
  | none => return false

instance : FileStore (StateM FileTree) where
  readText? path := return (← get).read? path
  createDirs path := do commit ((← get).create? path)
  writeText path text := do commit ((← get).write? path text)

end FileTree
end Stencil
