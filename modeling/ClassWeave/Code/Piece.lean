import ClassWeave.Constant.Link
import ClassWeave.Instr.List

/-!
# Instructions ready for layout

A piece is an entry of a list in which everything that does not depend on the layout is settled:
constants have indices and the short or the long form is chosen. What is left open is where
jumps and switches go to.
-/

namespace ClassWeave.Code

inductive Piece where
  | bytes (bytes : List UInt8)
  | jump (opcode : UInt8) (target : Label)
  | tableSwitch (low high : Int32) (otherwise : Label) (targets : List Label)
  /-- The pairs are in ascending order of their keys. -/
  | lookupSwitch (otherwise : Label) (pairs : List (Int32 × Label))
  | label (l : Label)
  | line (number : UInt16)
deriving Repr, DecidableEq, Inhabited

namespace Piece

/-- An opcode with an operand of one byte. -/
def withByte (op n : UInt8) : Piece := bytes [op, n]

/-- An opcode with an operand of two bytes. -/
def withShort (op : UInt8) (n : UInt16) (rest : List UInt8) : Piece :=
  bytes (op :: (Bytes.u16 n ++ rest))

/-- A small number, if it fits. Only the two forms that push numbers take negative ones. -/
def ofInt (op : UInt8) (n : Int32) : ClassResult Piece :=
  let misfit := ClassError.malformed (.operandRange n op)
  if op = Opcode.bipush then
    if -128 ≤ n.toInt ∧ n.toInt ≤ 127 then .ok (withByte op n.toInt8.toUInt8) else .error misfit
  else if op = Opcode.sipush then
    if -32768 ≤ n.toInt ∧ n.toInt ≤ 32767 then .ok (withShort op n.toInt16.toUInt16 [])
    else .error misfit
  else if 0 ≤ n.toInt ∧ n.toInt ≤ 255 then .ok (withByte op (UInt8.ofNat n.toInt.toNat))
  else .error misfit

/-- The opcode of an access to one of the first four local variables, without the variable. -/
def shortForm (op : UInt8) : UInt8 :=
  if Opcode.istore ≤ op then Opcode.istore_0 + (op - Opcode.istore) * 4
  else Opcode.iload_0 + (op - Opcode.iload) * 4

/-- An access to a local variable in its shortest form. -/
def ofVar (op : UInt8) (i : UInt16) : Piece :=
  if i ≤ 3 ∧ op ≠ Opcode.ret then bytes [shortForm op + i.toUInt8]
  else if i ≤ 255 then withByte op i.toUInt8
  else bytes (Opcode.wide :: op :: Bytes.u16 i)

/-- An increment in its shortest form. -/
def ofIncrement (i : UInt16) (n : Int16) : Piece :=
  if i ≤ 255 ∧ -128 ≤ n.toInt ∧ n.toInt ≤ 127 then
    bytes [Opcode.iinc, i.toUInt8, n.toInt8.toUInt8]
  else bytes (Opcode.wide :: Opcode.iinc :: (Bytes.u16 i ++ Bytes.i16 n))

/-- The load of a constant at an index in its shortest form. -/
def ofLoad (isWide : Bool) (i : PoolIndex) : Piece :=
  if isWide then withShort Opcode.ldc2_w i []
  else if i ≤ 255 then withByte Opcode.ldc i.toUInt8
  else withShort Opcode.ldc_w i []

/-- The bytes behind the index of the method of a call: how many slots the arguments take up, for a
call of an interface method. -/
def callTail (op : UInt8) (descriptor : String) : ClassResult (List UInt8) := do
  if op = Opcode.invokeinterface then
    let m ← MethodType.parse descriptor
    return [UInt8.ofNat (1 + m.parameterSlots), 0]
  else return []

open Linking in
/-- Settles an instruction; its constants are added to the pool in the order of its operands. -/
def ofInstr : Instr Label → Linking Piece
  | .plain op => return bytes [op]
  | .int op n => ofResult (ofInt op n)
  | .type op cls => return withShort op (← ofInterning (.cls cls)) []
  | .var op i => return ofVar op i
  | .increment i n => return ofIncrement i n
  | .field op m => return withShort op (← ofInterning (.fieldRef m)) []
  | .method op m isInterface => do
    let i ← ofInterning (.methodRef m isInterface)
    return withShort op i (← ofResult (callTail op m.descriptor))
  | .load c => do
    let i ← ofInterning (.loadable c)
    return ofLoad (← ofInterning (.ofPool (·.isWide c))) i
  | .jump op t => return jump op t
  | .tableSwitch low high d ts =>
    if low ≤ high ∧ high.toInt - low.toInt + 1 = ts.length then return tableSwitch low high d ts
    else throw (.malformed (.switchTargets low high ts.length))
  | .lookupSwitch d ps => return lookupSwitch d (ps.mergeSort fun a b => a.1 ≤ b.1)
  | .newMultiArray cls n => return withShort Opcode.multianewarray (← ofInterning (.cls cls)) [n]
  | .invokeDynamic site => return withShort Opcode.invokedynamic (← Linking.callSite site) [0, 0]

/-- Settles an entry of a list. -/
def ofNode : Node → Linking Piece
  | .instr i => ofInstr i
  | .label l => return label l
  | .line n => return line n

/-- The labels that the piece goes to. -/
def targets : Piece → List Label
  | jump _ t => [t]
  | tableSwitch _ _ d ts => d :: ts
  | lookupSwitch d ps => d :: ps.map Prod.snd
  | _ => []

end Piece
end ClassWeave.Code
