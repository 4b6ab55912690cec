import ClassWeave.Descriptor

/-!
# Kinds of values

Instructions tell five kinds of values apart. Integers of all sizes, characters and truth values
are one kind, and so are all references.
-/

namespace ClassWeave

inductive ValueKind where
  | int
  | long
  | float
  | double
  | reference
deriving Repr, DecidableEq, Inhabited

namespace ValueKind

/-- The kind of the values of a type. -/
def ofType : FieldType → ValueKind
  | .base .float => float
  | .base .long => long
  | .base .double => double
  | .base _ => int
  | .object _ | .array _ => reference

/-- How many local variables or stack slots a value takes up. -/
def slots : ValueKind → Nat
  | long | double => 2
  | _ => 1

/-- What messages call a value. -/
def describe : ValueKind → String
  | int => "int"
  | long => "long"
  | float => "float"
  | double => "double"
  | reference => "reference"

/-- Families of instructions come in this order: one for each kind. -/
def ofRank : Nat → ValueKind
  | 0 => int
  | 1 => long
  | 2 => float
  | 3 => double
  | _ => reference

/-- The place of a kind in a family of instructions. -/
def rank : ValueKind → Nat
  | int => 0
  | long => 1
  | float => 2
  | double => 3
  | reference => 4

end ValueKind
end ClassWeave
