import ClassWeave.File.Error
import ClassWeave.File.Path

/-!
# Trees of files

Directories and files in memory. Paths start at the working directory, which is there, as are all
directories above it and the root directory.
-/

namespace ClassWeave

/-- A place in a tree: the names that lead to it from the working directory. The names `..` and `/`
stand only in front. -/
abbrev Place := List String

inductive FileEntry where
  | file (bytes : List UInt8)
  | directory
deriving Repr, DecidableEq, Inhabited

structure FileTree where
  /-- What is where, the latest first. -/
  entries : List (Place × FileEntry)
deriving Repr, Inhabited

namespace FileTree

/-- Only the working directory. -/
def empty : FileTree := ⟨[]⟩

variable (t : FileTree)

def entry? (p : Place) : Option FileEntry := t.entries.lookup p

/-- Puts an entry in its place. -/
def insert (p : Place) (e : FileEntry) : FileTree :=
  ⟨(p, e) :: t.entries.filter fun (q, _) => q != p⟩

/-- There is a directory at a place. Directories of files that are there need no entries. -/
def isDirectory (p : Place) : Bool :=
  p.all (fun s => s = ".." ∨ s = "/") ||
    t.entries.any fun (q, e) => (p.isPrefixOf q && p != q) || (p == q && e == .directory)

/-- The directory above a place. -/
def above (p : Place) : Place :=
  if p = ["/"] then p
  else if p.all (· = "..") then ".." :: p
  else p.dropLast

/-- Where a segment leads from a directory. -/
def step (p : Place) (segment : String) : Except FileError Place :=
  if segment = "" ∨ segment = "." then .ok p
  else if segment = ".." then .ok (above p)
  else if 255 < segment.utf8ByteSize then .error .nameTooLong
  else .ok (p ++ [segment])

/-- Where the segments of a path lead. All but the last must lead to directories. -/
def follow (p : Place) : List String → Except FileError Place
  | [] => .ok p
  | [s] => step p s
  | s :: rest => do
    let q ← step p s
    if t.isDirectory q then follow q rest
    else if (t.entry? q).isSome then throw .notDirectory
    else throw .notFound

/-- Checks what can be said about a path before anything is looked up, and tells where it starts. -/
def start (path : String) : Except FileError Place :=
  if path.toList.contains '\x00' then .error .nulCharacter
  else if path = "" then .error .notFound
  else if 4096 ≤ path.utf8ByteSize then .error .nameTooLong
  else if path.toList.head? = some '/' then .ok ["/"]
  else .ok []

/-- Where a path leads. -/
def locate (path : String) : Except FileError Place := do
  t.follow (← start path) (Path.segments path)

/-- There is something at a path. -/
def contains (path : String) : Bool :=
  match t.locate path with
  | .ok p => t.isDirectory p || (t.entry? p).isSome
  | .error _ => false

/-- The bytes of a file. -/
def read (path : String) : Except FileError (List UInt8) := do
  let p ← t.locate path
  if t.isDirectory p then throw .isDirectory
  match t.entry? p with
  | some (.file bytes) => return bytes
  | _ => throw .notFound

/-- Writes a file into a directory that is there. -/
def write (path : String) (bytes : List UInt8) : Except FileError FileTree := do
  let p ← t.locate path
  if t.isDirectory p then throw .isDirectory
  return t.insert p (.file bytes)

/-- Makes the directories that segments lead through. -/
def makeSteps (t : FileTree) (p : Place) : List String → Except FileError FileTree
  | [] => .ok t
  | s :: rest => do
    let q ← step p s
    if t.isDirectory q then makeSteps t q rest
    else if (t.entry? q).isSome then
      throw (if rest.isEmpty then .alreadyExists else .notDirectory)
    else makeSteps (t.insert q .directory) q rest

/-- Makes a directory and those that it is in, unless they are there. -/
def makeDirectories (path : String) : Except FileError FileTree := do
  if path = "" then return t
  makeSteps t (← start path) (Path.segments path)

/-- Writes a file, and makes the directories that it is in. -/
def save (path : String) (bytes : List UInt8) : Except FileError FileTree := do
  (← t.makeDirectories (Path.parent path)).write path bytes

/-- Removes a directory and all that is in it. -/
def removeDirectory (path : String) : Except FileError FileTree := do
  let p ← t.locate path
  if t.isDirectory p then return ⟨t.entries.filter fun (q, _) => !p.isPrefixOf q⟩
  else throw .notDirectory

/-- The way from a directory to a place below it. -/
def below? (p q : Place) : Option Place :=
  let rest := q.drop p.length
  if p.isPrefixOf q ∧ rest ≠ [] ∧ rest.all (fun s => s ≠ ".." ∧ s ≠ "/") then some rest else none

/-- The files in a directory, by their paths in it. -/
def filesIn (p : Place) : List (String × List UInt8) :=
  t.entries.filterMap fun (q, e) =>
    match e with
    | .file bytes => (below? p q).map fun rest => ("/".intercalate rest, bytes)
    | .directory => none

end FileTree
end ClassWeave
