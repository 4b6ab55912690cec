import ClassWeave.File.Tree

/-!
# Exported classes

Woven classes can be written to a directory. A class goes to the path that its name says; a name
that would lead anywhere else is refused, and then nothing is touched. The directory is emptied
before the first class is written.
-/

namespace ClassWeave.Export

/-- Where the file of a class goes. -/
def classPath (directory cls : String) : Except FileError String :=
  if (Path.segments cls).all Path.isName then .ok (Path.join directory (cls ++ ".class"))
  else .error (.badClassName cls)

/-- The directory, empty. -/
def clear (directory : String) (t : FileTree) : Except FileError FileTree := do
  let t ← if t.contains directory then t.removeDirectory directory else pure t
  t.makeDirectories directory

end ClassWeave.Export
