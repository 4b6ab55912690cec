import ClassWeave.File.Tree
import ClassWeave.Transform.Log

/-!
# Resources

Where the bytes of replacements come from. Slashes at the front of a path do not count.
-/

namespace ClassWeave

structure Resources where
  /-- The bytes at a path, given the files there are, and what is told on the way. -/
  load : FileTree → String → Except FileError (List UInt8) × List LogEntry

namespace Resources

/-- Resources in memory. -/
def inMemory (table : List (String × List UInt8)) : Resources where
  load _ path :=
    match table.lookup (Path.relative path) with
    | some bytes => (.ok bytes, [])
    | none => (.error (.noResource path), [])

/-- Resources that are files in a directory, read in a given way. -/
def inDirectory (directory : String)
    (read : FileTree → String → Except FileError (List UInt8)) : Resources where
  load t path :=
    let path := Path.join directory (Path.relative path)
    (read t path, [⟨.debug, "Loading resource " ++ path⟩])

end Resources
end ClassWeave
