import Std.Data.HashMap
import Std.Data.HashSet
import ClassWeave.ClassFile.Attribute
import ClassWeave.Constant.Pool
import ClassWeave.Instr.List

/-!
# From bytecode to instructions

Decoding reads instructions whose jumps go to offsets, one after the other, and then puts a label
in front of every instruction that a jump or an exception range refers to. Labels are numbered by
their offsets; short and long forms of an instruction become the same.
-/

namespace ClassWeave.Code

/-- What some code is decoded with. -/
structure Context where
  pool : Pool
  bootstraps : Array BootstrapMethod

/-- The rest of some code, and its offset. -/
structure Cursor where
  offset : Nat
  rest : List UInt8
deriving Repr, DecidableEq, Inhabited

/-- A computation that reads on in some code. -/
abbrev Scanner (α : Type) := StateT Cursor ClassResult α

namespace Scanner

/-- Reads a value of `n` bytes. -/
def ofReader {α : Type} (n : Nat) (r : Reader α) : Scanner α := fun c =>
  match r.runOn c.rest with
  | .ok (a, rest) => .ok (a, ⟨c.offset + n, rest⟩)
  | .error e => .error (.format e)

def u8 : Scanner UInt8 := ofReader 1 Reader.u8

def u16 : Scanner UInt16 := ofReader 2 Reader.u16

def i8 : Scanner Int8 := ofReader 1 Reader.i8

def i16 : Scanner Int16 := ofReader 2 Reader.i16

def i32 : Scanner Int32 := ofReader 4 Reader.i32

/-- Leaves out `n` bytes. -/
def skip : Nat → Scanner Unit
  | 0 => pure ()
  | n + 1 => do
    let _ ← u8
    skip n

/-- Reads items behind those read so far, which are kept last first. -/
def timesOnto {α : Type} (item : Scanner α) : Nat → List α → Scanner (List α)
  | 0, found => pure found.reverse
  | n + 1, found => do
    let a ← item
    timesOnto item n (a :: found)

/-- `n` items, one after the other. -/
def times {α : Type} (n : Nat) (item : Scanner α) : Scanner (List α) := timesOnto item n []

/-- What can fail without reading on. -/
def ofResult {α : Type} : ClassResult α → Scanner α
  | .ok a => pure a
  | .error e => throw e

end Scanner

/-- How many bytes stand between the opcode of a switch and its operands, whose offset is a multiple
of four. -/
def switchPadding (offset : Nat) : Nat := (4 - (offset + 1) % 4) % 4

/-- The offset that a jump goes to, which lies inside the code. -/
def jumpTarget (length offset : Nat) (relative : Int) : ClassResult Nat :=
  let target := offset + relative
  if 0 ≤ target ∧ target < length then .ok target.toNat
  else .error (.badJumpTarget offset target)

variable (ctx : Context) (length : Nat)

/-- The call site at an index. -/
def callSite (i : PoolIndex) : ClassResult CallSite := do
  match ← ctx.pool.get i with
  | .invokeDynamic bootstrap nt =>
    let (name, descriptor) ← ctx.pool.nameAndType nt
    match ctx.bootstraps[bootstrap.toNat]? with
    | none => .error (.malformed (.missingBootstrapMethod bootstrap))
    | some method =>
      let arguments ← method.arguments.mapM ctx.pool.loadable
      return ⟨name, descriptor, ← ctx.pool.handle method.handle, arguments⟩
  | _ => .error (.badConstant i .callSite)

open Scanner

/-- Reads a distance of four bytes and the offset that it leads to. -/
def scanTarget (offset : Nat) : Scanner Nat := do
  ofResult (jumpTarget length offset (← i32).toInt)

/-- Reads what stands behind the opcode of a switch over a range. -/
def scanTableSwitch (offset : Nat) : Scanner (Instr Nat) := do
  skip (switchPadding offset)
  let otherwise ← scanTarget length offset
  let low ← i32
  let high ← i32
  if high < low then throw (.malformed (.switchRange offset low high))
  else
    let count := (high.toInt - low.toInt + 1).toNat
    return .tableSwitch low high otherwise (← times count (scanTarget length offset))

/-- Reads a key and the offset that it leads to. -/
def scanPair (offset : Nat) : Scanner (Int32 × Nat) := do
  let key ← i32
  return (key, ← scanTarget length offset)

/-- Reads what stands behind the opcode of a switch over keys. -/
def scanLookupSwitch (offset : Nat) : Scanner (Instr Nat) := do
  skip (switchPadding offset)
  let otherwise ← scanTarget length offset
  let count ← i32
  if count < 0 then throw (.malformed (.switchCount offset))
  else return .lookupSwitch otherwise (← times count.toInt.toNat (scanPair length offset))

/-- Reads what stands behind the opcode that makes the operands of the next one wider. -/
def scanWide (offset : Nat) : Scanner (Instr Nat) := do
  let op ← u8
  if op = Opcode.iinc then
    let index ← u16
    return .increment index (← i16)
  else if Opcode.isLoad op || Opcode.isStore op || op == Opcode.ret then
    return .var op (← u16)
  else throw (.unknownOpcode (offset + 1) op)

/-- Reads a class. -/
def scanClass : Scanner String := do ofResult (ctx.pool.className (← u16))

/-- Reads what stands behind the opcode of an instruction at an offset. -/
def scanOperands (offset : Nat) (op : UInt8) : Scanner (Instr Nat) := do
  if Opcode.isPlain op then return .plain op
  else if op = Opcode.bipush then return .int op (← i8).toInt32
  else if op = Opcode.sipush then return .int op (← i16).toInt32
  else if op = Opcode.newarray then return .int op (← u8).toUInt32.toInt32
  else if op = Opcode.ldc then
    return .load (← ofResult (ctx.pool.loadable (← u8).toUInt16))
  else if op = Opcode.ldc_w || op = Opcode.ldc2_w then
    return .load (← ofResult (ctx.pool.loadable (← u16)))
  else if Opcode.isLoad op || Opcode.isStore op || op == Opcode.ret then
    return .var op (← u8).toUInt16
  else if Opcode.isShortLoad op then
    let n := op - Opcode.iload_0
    return .var (Opcode.iload + n / 4) (n % 4).toUInt16
  else if Opcode.isShortStore op then
    let n := op - Opcode.istore_0
    return .var (Opcode.istore + n / 4) (n % 4).toUInt16
  else if op = Opcode.iinc then
    let index ← u8
    return .increment index.toUInt16 (← i8).toInt16
  else if op = Opcode.wide then scanWide offset
  else if Opcode.within Opcode.ifeq Opcode.jsr op || Opcode.isNullTest op then
    return .jump op (← ofResult (jumpTarget length offset (← i16).toInt))
  else if op = Opcode.goto_w then return .jump Opcode.goto (← scanTarget length offset)
  else if op = Opcode.jsr_w then return .jump Opcode.jsr (← scanTarget length offset)
  else if op = Opcode.tableswitch then scanTableSwitch length offset
  else if op = Opcode.lookupswitch then scanLookupSwitch length offset
  else if Opcode.within Opcode.getstatic Opcode.putfield op then
    let (member, _) ← ofResult (ctx.pool.memberRef (← u16))
    return .field op member
  else if Opcode.within Opcode.invokevirtual Opcode.invokeinterface op then
    let index ← u16
    if op = Opcode.invokeinterface then skip 2
    let (member, isInterface) ← ofResult (ctx.pool.memberRef index)
    return .method op member isInterface
  else if op = Opcode.invokedynamic then
    let index ← u16
    skip 2
    return .invokeDynamic (← ofResult (callSite ctx index))
  else if op = Opcode.new || op = Opcode.anewarray || op = Opcode.checkcast ||
      op = Opcode.instanceof then
    return .type op (← scanClass ctx)
  else if op = Opcode.multianewarray then
    let index ← u16
    let dimensions ← u8
    return .newMultiArray (← ofResult (ctx.pool.className index)) dimensions
  else throw (.unknownOpcode offset op)

/-- Reads an instruction. -/
def scanInstr : Scanner (Instr Nat) := do
  let offset := (← get).offset
  scanOperands ctx length offset (← u8)

/-- Reads instructions, each with its offset, behind those read so far, which are kept last
first. Every instruction takes at least one byte, so as many steps as there are bytes are
enough. -/
def scanOnto : Nat → List (Nat × Instr Nat) → Cursor → ClassResult (List (Nat × Instr Nat))
  | 0, found, _ => .ok found.reverse
  | fuel + 1, found, c =>
    if c.rest.isEmpty then .ok found.reverse
    else
      match (scanInstr ctx length).run c with
      | .ok (i, next) => scanOnto fuel ((c.offset, i) :: found) next
      | .error e => .error e

/-- The instructions of some code, each with its offset. -/
def scan (code : List UInt8) : ClassResult (List (Nat × Instr Nat)) :=
  scanOnto ctx code.length code.length [] ⟨0, code⟩

/-! ## Labels in place of offsets -/

/-- The offsets that an exception handler refers to. -/
def handlerOffsets (h : HandlerEntry) : List Nat :=
  [h.start.toNat, h.stop.toNat, h.handler.toNat]

/-- The offsets that get a label, in ascending order. -/
def labelOffsets (instrs : List (Nat × Instr Nat)) (handlers : List HandlerEntry) : List Nat :=
  ((instrs.flatMap fun (_, i) => i.targets) ++ handlers.flatMap handlerOffsets)
    |>.mergeSort |>.eraseReps

/-- The labels of offsets in ascending order. -/
def labelTable (offsets : List Nat) : Std.HashMap Nat Label :=
  offsets.zipIdx.foldl (fun table (offset, i) => table.insert offset ⟨i⟩) ∅

/-- The lines that start at each offset. -/
def lineTable (lines : List LineEntry) : Std.HashMap Nat (List UInt16) :=
  lines.reverse.foldl (fun table l =>
    table.insert l.start.toNat (l.line :: table.getD l.start.toNat [])) ∅

/-- The first offset that is neither that of an instruction nor the end of the code. -/
def strayOffset? (instrs : List (Nat × Instr Nat)) (offsets : List Nat) : Option Nat :=
  let starts : Std.HashSet Nat := instrs.foldl (fun set (offset, _) => set.insert offset) ∅
  offsets.find? fun offset => !starts.contains offset && offset != length

/-- The label of an offset. -/
def labelOf (labels : Std.HashMap Nat Label) (offset : Nat) : Label := labels.getD offset ⟨0⟩

/-- The entries at the offset of an instruction: its label, its lines and the instruction. -/
def nodesAt (labels : Std.HashMap Nat Label) (lines : Std.HashMap Nat (List UInt16))
    (offset : Nat) (i : Instr Nat) : List (Node × Nat) :=
  (labels[offset]?.toList.map fun l => (.label l, offset)) ++
    ((lines.getD offset []).map fun n => (.line n, offset)) ++
    [(.instr (i.map (labelOf labels)), offset)]

/-- The entries of some code with their offsets, and the label behind the last instruction, if there
is one. -/
def entries (labels : Std.HashMap Nat Label) (lines : Std.HashMap Nat (List UInt16))
    (instrs : List (Nat × Instr Nat)) : List (Node × Nat) :=
  (instrs.flatMap fun (offset, i) => nodesAt labels lines offset i) ++
    labels[length]?.toList.map fun l => (.label l, length)

/-- An exception handler in terms of labels. -/
def tryBlock (labels : Std.HashMap Nat Label) (h : HandlerEntry) : ClassResult TryBlock := do
  let catchType ← ctx.pool.optionalClass h.catchType
  return ⟨labelOf labels h.start.toNat, labelOf labels h.stop.toNat,
    labelOf labels h.handler.toNat, catchType⟩

/-- The list of instructions of some code, and the offset of each of its entries. Labels and lines
have the offset of the instruction that they stand in front of. -/
def decode (code : List UInt8) (handlers : List HandlerEntry) (lines : List LineEntry) :
    ClassResult (InstrList × List Nat) := do
  let instrs ← scan ctx code
  let offsets := labelOffsets instrs handlers
  match strayOffset? code.length instrs offsets with
  | some target => .error (.badJumpTarget 0 target)
  | none =>
    let labels := labelTable offsets
    let nodes := entries code.length labels (lineTable lines) instrs
    let blocks ← handlers.mapM (tryBlock ctx labels)
    return (InstrList.ofNodes (nodes.map Prod.fst) offsets.length blocks, nodes.map Prod.snd)

end ClassWeave.Code
