import ClassWeave.ClassFile.Basic
import ClassWeave.Constant.Link
import ClassWeave.Instr.List

/-!
# Classes to edit

A class in terms of names, with the code of its methods as lists of instructions. It keeps the
constants and bootstrap methods of the class file that it comes from: what is written later only
adds to them, so attributes that are kept in their raw form stay valid.
-/

namespace ClassWeave

structure FieldModel where
  access : UInt16
  name : String
  descriptor : String
  attributes : List Attribute
deriving Repr, DecidableEq, Inhabited

/-- The code of a method. The declared sizes only tell what the class file said; both are found anew
when the class is written. -/
structure MethodBody where
  list : InstrList
  maxStack : UInt16
  maxLocals : UInt16
  /-- Attributes that do not depend on the layout of the code. -/
  attributes : List Attribute
deriving Repr, DecidableEq, Inhabited

structure MethodModel where
  access : UInt16
  name : String
  descriptor : String
  /-- The code, unless the method has none. -/
  body : Option MethodBody
  /-- Attributes other than the code. -/
  attributes : List Attribute
deriving Repr, DecidableEq, Inhabited

/-- No code yet. -/
def MethodBody.empty : MethodBody := ⟨.empty, 0, 0, []⟩

structure ClassModel where
  version : Version
  access : UInt16
  name : String
  /-- The super class; only the root class has none. -/
  super : Option String
  interfaces : List String
  fields : List FieldModel
  methods : List MethodModel
  /-- Attributes other than the bootstrap methods. -/
  attributes : List Attribute
  /-- The constants and bootstrap methods that are already there. -/
  links : Links

instance : Inhabited ClassModel := ⟨⟨.java8, 0, "", none, [], [], [], [], default⟩⟩

namespace MethodModel

/-- The method with a given name and descriptor. -/
def isNamed (name descriptor : String) (m : MethodModel) : Bool :=
  m.name == name && m.descriptor == descriptor

def isStatic (m : MethodModel) : Bool := Access.isStatic m.access

end MethodModel

namespace ClassModel

/-- A class without members. -/
def new (name : String) (super : Option String) : ClassModel :=
  ⟨.java8, Access.publicSuper, name, super, [], [], [], [], default⟩

variable (c : ClassModel)

/-- The first method with a given name and descriptor. -/
def method? (name descriptor : String) : Option MethodModel :=
  c.methods.find? (·.isNamed name descriptor)

end ClassModel

/-- Changes the first element at which a test holds. -/
def modifyFirst {α : Type} (test : α → Bool) (f : α → α) : List α → List α
  | [] => []
  | a :: rest => if test a then f a :: rest else a :: modifyFirst test f rest

/-- Changes the first method with a given name and descriptor. -/
def ClassModel.modifyMethod (name descriptor : String) (f : MethodModel → MethodModel)
    (c : ClassModel) : ClassModel :=
  { c with methods := modifyFirst (·.isNamed name descriptor) f c.methods }

end ClassWeave
