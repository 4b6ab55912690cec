import ClassWeave.Bytes.Reader
import ClassWeave.Bytes.Writer
import ClassWeave.Constant.Basic
import ClassWeave.ValueKind

/-!
# Verification types

What is known about a value on the operand stack or in a local variable. Classes and fresh objects
are left open: while code is analysed a class is a name and a fresh object is known by the place
of the instruction that made it; in a class file they are an index and an offset.
-/

namespace ClassWeave

inductive VType (γ ω : Type) where
  /-- Nothing can be done with the value: the second half of a wide one, a local that was never set,
  or values of different types that meet. -/
  | top
  | int
  | float
  | long
  | double
  | null
  /-- `this` in a constructor, before another constructor was called. -/
  | freshThis
  | object (cls : γ)
  /-- An object between its creation and its constructor call. -/
  | fresh (site : ω)
deriving Repr, DecidableEq, Inhabited

namespace VType

variable {γ γ' ω ω' : Type}

/-- Replaces the class and the place of creation. -/
def map (f : γ → γ') (g : ω → ω') : VType γ ω → VType γ' ω'
  | top => top
  | int => int
  | float => float
  | long => long
  | double => double
  | null => null
  | freshThis => freshThis
  | object cls => object (f cls)
  | fresh site => fresh (g site)

/-- Replaces the class and the place of creation, in a computation. -/
def mapM {m : Type → Type} [Monad m] (f : γ → m γ') (g : ω → m ω') : VType γ ω → m (VType γ' ω')
  | top => pure top
  | int => pure int
  | float => pure float
  | long => pure long
  | double => pure double
  | null => pure null
  | freshThis => pure freshThis
  | object cls => return object (← f cls)
  | fresh site => return fresh (← g site)

/-- How many local variables or stack slots a value takes up. -/
def slots : VType γ ω → Nat
  | long | double => 2
  | _ => 1

instance : Width (VType γ ω) where
  width := slots
  width_pos t := by cases t <;> simp [slots]

/-- The value takes up two slots. -/
def isWide : VType γ ω → Bool
  | long | double => true
  | _ => false

/-- The value refers to an object. -/
def isReference : VType γ ω → Bool
  | null | freshThis | object _ | fresh _ => true
  | _ => false

/-- What messages call a type. -/
def text (cls : γ → String) (site : ω → String) : VType γ ω → String
  | top => "top"
  | int => "int"
  | float => "float"
  | long => "long"
  | double => "double"
  | null => "null"
  | freshThis => "uninitialized this"
  | object c => cls c
  | fresh s => "uninitialized (new at " ++ site s ++ ")"

/-- The type of the values of a field, parameter or result. -/
def ofField : FieldType → VType String ω
  | .base .float => float
  | .base .long => long
  | .base .double => double
  | .base _ => int
  | .object name => object name
  | .array element => object (FieldType.array element).text

/-- A type of a value of a kind; for a reference, the one that tells least. -/
def ofKind : ValueKind → VType String ω
  | .int => int
  | .long => long
  | .float => float
  | .double => double
  | .reference => object "java/lang/Object"

/-- The type is one of values of this kind. -/
def hasKind : ValueKind → VType γ ω → Bool
  | .int, int => true
  | .long, long => true
  | .float, float => true
  | .double, double => true
  | .reference, t => t.isReference
  | _, _ => false

end VType

/-- A type as code analysis knows it: classes by name, fresh objects by the place of creation. -/
abbrev NamedType := VType String Nat

/-- What messages call an analysed type. -/
def NamedType.text (t : NamedType) : String := VType.text id toString t

/-- A type as a class file holds it: classes by index, fresh objects by offset. -/
abbrev RawType := VType PoolIndex UInt16

namespace RawType

/-- The written form of a type. -/
def encode : RawType → List UInt8
  | .top => [0]
  | .int => [1]
  | .float => [2]
  | .double => [3]
  | .long => [4]
  | .null => [5]
  | .freshThis => [6]
  | .object cls => 7 :: Bytes.u16 cls
  | .fresh offset => 8 :: Bytes.u16 offset

/-- Reads a type. -/
def reader : Reader RawType := do
  match ← Reader.u8 with
  | 0 => return .top
  | 1 => return .int
  | 2 => return .float
  | 3 => return .double
  | 4 => return .long
  | 5 => return .null
  | 6 => return .freshThis
  | 7 => return .object (← Reader.u16)
  | 8 => return .fresh (← Reader.u16)
  | tag => throw (.unknownTypeTag tag)

end RawType
end ClassWeave
