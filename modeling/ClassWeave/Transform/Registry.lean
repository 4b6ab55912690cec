import ClassWeave.Transform.Writer

/-!
# The registry

Which classes are woven, and by what, and which are replaced. The registry is filled once, by a
setup; what a setup registers before it fails stays.
-/

namespace ClassWeave

structure Registry where
  /-- The writers in the order in which they were added. -/
  writers : List ClassWriter
  /-- The paths of replacements by class, the latest first. -/
  replacements : List (String × String)

namespace Registry

def empty : Registry := ⟨[], []⟩

instance : Inhabited Registry := ⟨empty⟩

variable (r : Registry)

/-- Adds a writer behind those of its class. -/
def addWriter (w : ClassWriter) : Registry :=
  { r with writers := r.writers ++ [{ w with target := slashed w.target }] }

/-- Replaces a class with a resource. -/
def replace (cls path : String) : Registry :=
  { r with replacements := (slashed cls, path) :: r.replacements }

/-- The writers of a class, by its internal name, in the order in which they were added. -/
def writersFor (cls : String) : List ClassWriter := r.writers.filter (·.target = cls)

/-- The replacement of a class, by its internal name. -/
def replacement? (cls : String) : Option String := r.replacements.lookup cls

def isEmpty : Bool := r.writers.isEmpty && r.replacements.isEmpty

end Registry

/-- Why a setup ends early. -/
inductive Interruption where
  | failed (cause : TransformError)
  /-- It broke down, with or without a message. -/
  | crashed (message : Option String)
deriving Repr, DecidableEq, Inhabited

def Interruption.message : Interruption → String
  | failed cause => "Transformer setup failed, continuing without the rest: " ++ cause.message
  | crashed message =>
    "Transformer setup panicked, continuing without the rest: " ++ message.getD "<non-string panic>"

/-- Computations that fill a registry. -/
abbrev Setup := ExceptT Interruption (StateM Registry)

namespace Setup

/-- Runs a setup on a registry. -/
def on (x : Setup Unit) (r : Registry) : Except Interruption Unit × Registry := x.run.run r

def replace (cls path : String) : Setup Unit := modify fun r => r.replace cls path

def addWriter (w : ClassWriter) : Setup Unit := modify fun r => r.addWriter w

def fail (message : String) : Setup Unit := throw (.failed (.setup message))

def crash (message : Option String) : Setup Unit := throw (.crashed message)

end Setup
end ClassWeave
