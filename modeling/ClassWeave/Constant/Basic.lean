import ClassWeave.SlotVec

/-!
# Constants of a class file

A class refers to texts, numbers, classes, members and call sites through the indices of a table of
constants. A constant is a number, a text, or a combination of indices of other constants. Floats
are kept as their bits, so that no `NaN` loses its payload and the zeros stay apart.
-/

namespace ClassWeave

/-- A place in the table of constants. The first place is 1. -/
abbrev PoolIndex := UInt16

/-- What a method handle does with the member it refers to. -/
inductive HandleKind where
  | getField
  | getStatic
  | putField
  | putStatic
  | invokeVirtual
  | invokeStatic
  | invokeSpecial
  | newInvokeSpecial
  | invokeInterface
deriving Repr, DecidableEq, Hashable, Inhabited

namespace HandleKind

/-- The number that stands for a kind in a class file. -/
def tag : HandleKind → UInt8
  | getField => 1
  | getStatic => 2
  | putField => 3
  | putStatic => 4
  | invokeVirtual => 5
  | invokeStatic => 6
  | invokeSpecial => 7
  | newInvokeSpecial => 8
  | invokeInterface => 9

/-- The kind that a number stands for. -/
def ofTag? : UInt8 → Option HandleKind
  | 1 => some getField
  | 2 => some getStatic
  | 3 => some putField
  | 4 => some putStatic
  | 5 => some invokeVirtual
  | 6 => some invokeStatic
  | 7 => some invokeSpecial
  | 8 => some newInvokeSpecial
  | 9 => some invokeInterface
  | _ => none

/-- Whether the member is a field. -/
def isField : HandleKind → Bool
  | getField | getStatic | putField | putStatic => true
  | _ => false

/-- The name of a kind in listings. -/
def name : HandleKind → String
  | getField => "GetField"
  | getStatic => "GetStatic"
  | putField => "PutField"
  | putStatic => "PutStatic"
  | invokeVirtual => "InvokeVirtual"
  | invokeStatic => "InvokeStatic"
  | invokeSpecial => "InvokeSpecial"
  | newInvokeSpecial => "NewInvokeSpecial"
  | invokeInterface => "InvokeInterface"

end HandleKind

/-- One entry of the table of constants. -/
inductive Constant where
  | utf8 (text : String)
  | integer (value : Int32)
  | float (bits : UInt32)
  | long (value : Int64)
  | double (bits : UInt64)
  /-- A class by its name, or an array class by its descriptor. -/
  | classInfo (name : PoolIndex)
  | string (text : PoolIndex)
  | fieldRef (cls nameAndType : PoolIndex)
  | methodRef (cls nameAndType : PoolIndex) (isInterface : Bool)
  | nameAndType (name descriptor : PoolIndex)
  | methodHandle (kind : HandleKind) (member : PoolIndex)
  | methodType (descriptor : PoolIndex)
  /-- A constant computed by a bootstrap method. -/
  | dynamic (bootstrap : UInt16) (nameAndType : PoolIndex)
  /-- A call site linked by a bootstrap method. -/
  | invokeDynamic (bootstrap : UInt16) (nameAndType : PoolIndex)
  | moduleInfo (name : PoolIndex)
  | packageInfo (name : PoolIndex)
deriving Repr, DecidableEq, Hashable, Inhabited

/-- Numbers of 64 bits take up two places, all other constants one. -/
def Constant.slots : Constant → Nat
  | long _ | double _ => 2
  | _ => 1

instance : Width Constant where
  width := Constant.slots
  width_pos c := by cases c <;> simp [Constant.slots]

end ClassWeave
