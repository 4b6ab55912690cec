import ClassWeave.Build.Member

/-!
# Arrays and objects

Arrays that are filled in as they are made, and objects that are made and initialised at once.
-/

namespace ClassWeave

/-- The number that stands for the type of the elements of a new array. -/
def BaseType.arrayCode : BaseType → Int32
  | boolean => 4
  | char => 5
  | float => 6
  | double => 7
  | byte => 8
  | short => 9
  | int => 10
  | long => 11

/-- The instruction that stores into an array of elements of a type. -/
def FieldType.arrayStore : FieldType → UInt8
  | base .boolean | base .byte => 0x54
  | base .char => 0x55
  | base .short => 0x56
  | t => Opcode.iastore + UInt8.ofNat (ValueKind.ofType t).rank

namespace Build

def newArray (element : BaseType) : Build Unit := emit (.int Opcode.newarray element.arrayCode)

/-- Makes an array of elements of a type, its length on the stack. -/
def newArrayOf : FieldType → Build Unit
  | .base b => newArray b
  | t => emit (.type Opcode.anewarray (t.className?.getD ""))

/-- Stores elements from an index on; each is given by a body. -/
def storeElements (store : UInt8) : Nat → List (Build Unit) → Build Unit
  | _, [] => return
  | i, element :: rest => do
    plain Opcode.dup
    int (Int32.ofNat i)
    element
    plain store
    storeElements store (i + 1) rest

/-- Makes an array of elements of a type, given by its descriptor. The bodies give the elements. -/
def array (descriptor : String) (elements : List (Build Unit)) : Build Unit := do
  match FieldType.parse descriptor with
  | .error e => throw (.cls e)
  | .ok t =>
    int (Int32.ofNat elements.length)
    newArrayOf t
    storeElements t.arrayStore 0 elements

/-- Makes an object; the body gives the arguments of its constructor. -/
def createInstance (cls descriptor : String) (arguments : Build Unit) : Build Unit := do
  emit (.type Opcode.new cls)
  plain Opcode.dup
  arguments
  invoke .special ⟨cls, "<init>", descriptor⟩

end Build
end ClassWeave
