import ClassWeave.Error

/-!
# Mistakes in building code

Building code fails where it is asked for something that no code can say. What is wrong with labels
and descriptors is told by the errors of classes.
-/

namespace ClassWeave

inductive BuildError where
  | emptySwitch
  | duplicateKey (key : Int32)
  /-- The keys of a switch are too far apart for a table. -/
  | switchTooWide (low high : Int32)
  /-- The class does not have the method to build into. -/
  | noSuchMethod (method : MemberRef)
  | cls (cause : ClassError)
deriving Repr, DecidableEq, Inhabited

def BuildError.message : BuildError → String
  | emptySwitch => "switch has no cases"
  | duplicateKey key => "duplicate switch key " ++ toString key.toInt
  | switchTooWide low high =>
    "table switch from " ++ toString low.toInt ++ " to " ++ toString high.toInt ++
      " is too wide, use a lookup switch"
  | noSuchMethod m => "no method " ++ m.owner ++ "." ++ m.name ++ m.descriptor
  | cls cause => cause.message

/-- Results of what can fail for one of these mistakes. -/
abbrev BuildResult := Except BuildError

end ClassWeave
