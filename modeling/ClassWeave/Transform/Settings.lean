/-!
# Settings

Which classes are never touched, and what is done with those that were woven.
-/

namespace ClassWeave

/-- The internal form of a class name, with slashes for dots. -/
def slashed (name : String) : String := name.map fun c => if c = '.' then '/' else c

structure Settings where
  /-- Classes whose names begin so are never touched. -/
  protectedPrefixes : List String
  /-- The package of the transformer itself, which is never touched either. -/
  ownNamespace : String
  /-- Woven classes are verified. -/
  verify : Bool
  /-- Woven classes are also written to this directory. -/
  exportDirectory : Option String
deriving Repr, DecidableEq, Inhabited

namespace Settings

/-- The core library and the transformer are protected; nothing is verified or exported. -/
def standard : Settings := ⟨["java/", "jdk/", "sun/", "kotlin/"], "classpatch/", false, none⟩

/-- A text begins with another one. -/
def begins (start text : String) : Bool := start.toList.isPrefixOf text.toList

/-- The class, by its internal name, is never touched. -/
def isProtected (s : Settings) (cls : String) : Bool :=
  begins s.ownNamespace cls || s.protectedPrefixes.any fun p => begins p cls

end Settings
end ClassWeave
