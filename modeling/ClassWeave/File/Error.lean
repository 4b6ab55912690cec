/-!
# Errors of files

Why a file cannot be read or written.
-/

namespace ClassWeave

inductive FileError where
  | notFound
  /-- A directory should be made where there is a file. -/
  | alreadyExists
  | notDirectory
  | isDirectory
  | nameTooLong
  /-- The path holds a NUL character. -/
  | nulCharacter
  /-- There is no such resource in memory. -/
  | noResource (path : String)
  /-- The name of a class is not a path below a directory. -/
  | badClassName (name : String)
deriving Repr, DecidableEq, Inhabited

def FileError.message : FileError → String
  | notFound => "No such file or directory (os error 2)"
  | alreadyExists => "File exists (os error 17)"
  | notDirectory => "Not a directory (os error 20)"
  | isDirectory => "Is a directory (os error 21)"
  | nameTooLong => "File name too long (os error 36)"
  | nulCharacter => "file name contained an unexpected NUL byte"
  | noResource path => "No resource '" ++ path ++ "'"
  | badClassName name => "'" ++ name ++ "' is not a class name that can be exported"

end ClassWeave
