import ClassWeave.Error

/-!
# What plain instructions do

Instructions without operands fall into a few groups by what they do to the stack and the local
variables. `Effect.ofOpcode?` sorts them, after which a step of the analysis has few cases.
-/

namespace ClassWeave

/-- Instructions that move values on the stack without looking at them. -/
inductive Shuffle where
  | pop
  | pop2
  | dup
  | dupX1
  | dupX2
  | dup2
  | dup2X1
  | dup2X2
  | swap
deriving Repr, DecidableEq, Inhabited

namespace Shuffle

/-- The topmost value and the rest of the stack. -/
def takeAny : List NamedType → Except VerifyError (NamedType × List NamedType)
  | [] => .error .emptyStack
  | t :: rest => .ok (t, rest)

/-- The topmost value, which takes up one slot, and the rest of the stack. -/
def takeNarrow (stack : List NamedType) : Except VerifyError (NamedType × List NamedType) := do
  let (t, rest) ← takeAny stack
  if t.slots = 1 then return (t, rest) else throw (.unexpectedWidth t.slots)

/-- The stack after the instruction, its top first. -/
def run (shuffle : Shuffle) (stack : List NamedType) : Except VerifyError (List NamedType) :=
  match shuffle with
  | pop => do
    let (_, s) ← takeNarrow stack
    return s
  | pop2 => do
    let (a, s) ← takeAny stack
    if a.isWide then return s
    let (_, s) ← takeNarrow s
    return s
  | dup => do
    let (a, s) ← takeNarrow stack
    return a :: a :: s
  | dupX1 => do
    let (a, s) ← takeNarrow stack
    let (b, s) ← takeNarrow s
    return a :: b :: a :: s
  | dupX2 => do
    let (a, s) ← takeNarrow stack
    let (b, s) ← takeAny s
    if b.isWide then return a :: b :: a :: s
    let (c, s) ← takeNarrow s
    return a :: b :: c :: a :: s
  | dup2 => do
    let (a, s) ← takeAny stack
    if a.isWide then return a :: a :: s
    let (b, s) ← takeNarrow s
    return a :: b :: a :: b :: s
  | dup2X1 => do
    let (a, s) ← takeAny stack
    let (b, s) ← takeNarrow s
    if a.isWide then return a :: b :: a :: s
    let (c, s) ← takeNarrow s
    return a :: b :: c :: a :: b :: s
  | dup2X2 => do
    let (a, s) ← takeAny stack
    if a.isWide then
      let (b, s) ← takeAny s
      if b.isWide then return a :: b :: a :: s
      let (c, s) ← takeNarrow s
      return a :: b :: c :: a :: s
    let (b, s) ← takeNarrow s
    let (c, s) ← takeAny s
    if c.isWide then return a :: b :: c :: a :: b :: s
    let (d, s) ← takeNarrow s
    return a :: b :: c :: d :: a :: b :: s
  | swap => do
    let (a, s) ← takeNarrow stack
    let (b, s) ← takeNarrow s
    return b :: a :: s

end Shuffle

/-- What an instruction without operands does. -/
inductive Effect where
  | nothing
  | push (type : NamedType)
  | load (kind : ValueKind) (slot : UInt16)
  | store (kind : ValueKind) (slot : UInt16)
  | arrayLoad (elements : PrimitiveArray)
  | arrayStore (elements : PrimitiveArray)
  | referenceLoad
  | referenceStore
  | shuffle (shuffle : Shuffle)
  /-- Takes operands off the stack, the first one listed being on top, and pushes a result. -/
  | compute (operands : List ValueKind) (result : ValueKind)
  | returnValue (kind : ValueKind)
  | returnNothing
  | arrayLength
  /-- Takes a reference off the stack. -/
  | consume
deriving Repr, DecidableEq, Inhabited

namespace Effect

/-- The arrays of primitive elements in the order of the instructions that access them; the place
between is that of references. -/
def arrayOfRank : Nat → Option PrimitiveArray
  | 0 => some .int
  | 1 => some .long
  | 2 => some .float
  | 3 => some .double
  | 5 => some .byteOrBoolean
  | 6 => some .char
  | 7 => some .short
  | _ => none

/-- The moves of values in the order of their opcodes. -/
def shuffles : List Shuffle := [.pop, .pop2, .dup, .dupX1, .dupX2, .dup2, .dup2X1, .dup2X2, .swap]

/-- Instructions on integers and on longs take turns. -/
def alternate (n : Nat) : ValueKind := if n % 2 = 0 then .int else .long

/-- Every kind of number has a conversion to each of the other three. -/
def conversion (n : Nat) : Effect :=
  let source := n / 3
  let result := if n % 3 < source then n % 3 else n % 3 + 1
  compute [.ofRank source] (.ofRank result)

/-- What the instruction with a given opcode does, if it is one without operands. -/
def ofOpcode? (op : UInt8) : Option Effect :=
  let n := op.toNat
  if n < 0x2e then
    if n = 0x00 then some nothing
    else if n = 0x01 then some (push .null)
    else if n ≤ 0x08 then some (push .int)
    else if n ≤ 0x0a then some (push .long)
    else if n ≤ 0x0d then some (push .float)
    else if n ≤ 0x0f then some (push .double)
    else if n < 0x1a then none
    else some (load (.ofRank ((n - 0x1a) / 4)) (UInt16.ofNat ((n - 0x1a) % 4)))
  else if n ≤ 0x35 then some ((arrayOfRank (n - 0x2e)).elim referenceLoad arrayLoad)
  else if n < 0x3b then none
  else if n ≤ 0x4e then some (store (.ofRank ((n - 0x3b) / 4)) (UInt16.ofNat ((n - 0x3b) % 4)))
  else if n ≤ 0x56 then some ((arrayOfRank (n - 0x4f)).elim referenceStore arrayStore)
  else if n ≤ 0x5f then (shuffles[n - 0x57]?).map shuffle
  else if n ≤ 0x73 then
    let kind := ValueKind.ofRank ((n - 0x60) % 4)
    some (compute [kind, kind] kind)
  else if n ≤ 0x77 then
    let kind := ValueKind.ofRank (n - 0x74)
    some (compute [kind] kind)
  else if n ≤ 0x7d then some (compute [.int, alternate n] (alternate n))
  else if n ≤ 0x83 then some (compute [alternate n, alternate n] (alternate n))
  else if n < 0x85 then none
  else if n ≤ 0x90 then some (conversion (n - 0x85))
  else if n ≤ 0x93 then some (compute [.int] .int)
  else if n = 0x94 then some (compute [.long, .long] .int)
  else if n ≤ 0x96 then some (compute [.float, .float] .int)
  else if n ≤ 0x98 then some (compute [.double, .double] .int)
  else if n < 0xac then none
  else if n ≤ 0xb0 then some (returnValue (.ofRank (n - 0xac)))
  else if n = 0xb1 then some returnNothing
  else if n = 0xbe then some arrayLength
  else if n = 0xbf ∨ n = 0xc2 ∨ n = 0xc3 then some consume
  else none

end Effect
end ClassWeave
