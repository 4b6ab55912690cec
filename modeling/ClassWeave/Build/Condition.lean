import ClassWeave.Instr.Opcode

/-!
# Conditions of jumps

A condition takes one or two values off the stack and compares them: an integer with zero, a
reference with `null`, or two values with each other. Every condition has a negation.
-/

namespace ClassWeave

inductive Condition where
  | eq
  | ne
  | lt
  | ge
  | gt
  | le
  /-- The conditions named `int` compare two integers. -/
  | intEq
  | intNe
  | intLt
  | intGe
  | intGt
  | intLe
  /-- The conditions named `ref` compare two references. -/
  | refEq
  | refNe
  | null
  | nonNull
deriving Repr, DecidableEq, Inhabited

namespace Condition

/-- All conditions, in the order of their jumps. -/
def all : List Condition :=
  [eq, ne, lt, ge, gt, le, intEq, intNe, intLt, intGe, intGt, intLe, refEq, refNe, null, nonNull]

/-- The jump that is taken when the condition holds. -/
def opcode : Condition → UInt8
  | eq => 0x99
  | ne => 0x9a
  | lt => 0x9b
  | ge => 0x9c
  | gt => 0x9d
  | le => 0x9e
  | intEq => 0x9f
  | intNe => 0xa0
  | intLt => 0xa1
  | intGe => 0xa2
  | intGt => 0xa3
  | intLe => 0xa4
  | refEq => 0xa5
  | refNe => 0xa6
  | null => 0xc6
  | nonNull => 0xc7

/-- The condition that holds exactly when this one does not. -/
def negate : Condition → Condition
  | eq => ne
  | ne => eq
  | lt => ge
  | ge => lt
  | gt => le
  | le => gt
  | intEq => intNe
  | intNe => intEq
  | intLt => intGe
  | intGe => intLt
  | intGt => intLe
  | intLe => intGt
  | refEq => refNe
  | refNe => refEq
  | null => nonNull
  | nonNull => null

/-- The jump of the negation is the inverted jump. -/
theorem invertJump?_opcode (c : Condition) :
    Opcode.invertJump? c.opcode = some c.negate.opcode := by
  cases c <;> decide

end Condition
end ClassWeave
