import ClassWeave.Build.Basic

/-!
# Members

Access to fields and methods. All names that are written go through the renaming of the computation.
-/

namespace ClassWeave

/-- What is done with a field. -/
inductive FieldAccess where
  | getStatic
  | putStatic
  | getField
  | putField
deriving Repr, DecidableEq, Inhabited

def FieldAccess.opcode : FieldAccess → UInt8
  | getStatic => Opcode.getstatic
  | putStatic => Opcode.putstatic
  | getField => Opcode.getfield
  | putField => Opcode.putfield

/-- How a method is called. -/
inductive CallKind where
  | virtual
  | special
  | static
  | interface
deriving Repr, DecidableEq, Inhabited

def CallKind.opcode : CallKind → UInt8
  | virtual => Opcode.invokevirtual
  | special => Opcode.invokespecial
  | static => Opcode.invokestatic
  | interface => Opcode.invokeinterface

namespace Build

def field (access : FieldAccess) (m : MemberRef) : Build Unit := do
  emit (.field access.opcode ((← read).renameField m))

def invoke (kind : CallKind) (m : MemberRef) : Build Unit := do
  emit (.method kind.opcode ((← read).renameMethod m) (kind == .interface))

/-- A handle of a member. -/
def handle (kind : HandleKind) (m : MemberRef) (isInterface : Bool) : Build Handle := do
  return ⟨kind, (← read).renameFor kind m, isInterface⟩

/-- A call that is linked by a bootstrap method. Its name is taken for that of a method of the class
that links it. -/
def invokeDynamic (name descriptor : String) (bootstrap : Handle) (arguments : List Loadable) :
    Build Unit := do
  let name := (← read).method ⟨bootstrap.member.owner, name, descriptor⟩
  emit (.invokeDynamic ⟨name, descriptor, bootstrap, arguments⟩)

/-- Reads a field of the object in a local. -/
def getLocalField (object : Slot) (m : MemberRef) : Build Unit := do
  loadSlot object
  field .getField m

/-- Writes a field of the object in a local; the body gives the value. -/
def setLocalField (object : Slot) (m : MemberRef) (value : Build Unit) : Build Unit := do
  loadSlot object
  value
  field .putField m

/-- Changes a field of the object in a local; the body makes the new value of the old one. -/
def updateLocalField (object : Slot) (m : MemberRef) (update : Build Unit) : Build Unit := do
  loadSlot object
  plain Opcode.dup
  field .getField m
  update
  field .putField m

/-- The field that holds the only object of a class. -/
def singletonField (owner : String) : MemberRef := ⟨owner, "INSTANCE", "L" ++ owner ++ ";"⟩

/-- Loads the only object of a class. -/
def getSingleton (owner : String) : Build Unit := field .getStatic (singletonField owner)

/-- Calls a method of the only object of a class; the body gives the arguments. -/
def invokeSingleton (m : MemberRef) (arguments : Build Unit) : Build Unit := do
  getSingleton m.owner
  arguments
  invoke .virtual m

end Build
end ClassWeave
