import ClassWeave.Build.Error
import ClassWeave.File.Error

/-!
# Errors of transformations

Why a class cannot be transformed. A load goes on with the class as it was, unless it is to be
replaced by something that cannot be found.
-/

namespace ClassWeave

/-- Why a writer cannot make its change. -/
inductive WriterFlaw where
  /-- The method, with its descriptor, has no code to inject into. -/
  | noCode (method : String)
  /-- The method, with its descriptor, has no place to return from. -/
  | neverReturns (method : String)
  | other (message : String)
deriving Repr, DecidableEq, Inhabited

def WriterFlaw.message : WriterFlaw → String
  | noCode method => method ++ " has no code"
  | neverReturns method => method ++ " never returns"
  | other message => message

inductive TransformError where
  /-- The replacement of a class cannot be read. -/
  | resource (cls path : String) (cause : FileError)
  /-- Registering failed. -/
  | setup (message : String)
  | writer (cls : String) (flaw : WriterFlaw)
  | cls (cause : ClassError)
  | build (cause : BuildError)
deriving Repr, DecidableEq, Inhabited

def TransformError.message : TransformError → String
  | resource name path cause =>
    "could not load replacement '" ++ path ++ "' for " ++ name ++ ": " ++ cause.message
  | setup message => "setup failed: " ++ message
  | writer name flaw => "writer for " ++ name ++ " failed: " ++ flaw.message
  | cls cause => cause.message
  | build cause => cause.message

/-- Results of what can fail for one of these reasons. -/
abbrev TransformResult := Except TransformError

end ClassWeave
