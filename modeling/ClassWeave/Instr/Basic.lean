import ClassWeave.Constant.Basic
import ClassWeave.Instr.Opcode

/-!
# Instructions

Instructions refer to classes, members and constants by name. Where an instruction goes to is left
open: in bytecode it is an offset, in a list of instructions a label. The forms are
more regular than in bytecode: locals are always named by an operand, and one form stands for the
short and the long encodings of the same instruction.
-/

namespace ClassWeave

/-- A place in a list of instructions, known by its number. -/
structure Label where
  id : Nat
deriving Repr, DecidableEq, Inhabited, Hashable

namespace Label

/-- The label once its list stands behind `n` other labels. -/
def shift (n : Nat) (l : Label) : Label := ⟨l.id + n⟩

def text (l : Label) : String := "l" ++ toString l.id

end Label

/-- A field or a method by name. -/
structure MemberRef where
  owner : String
  name : String
  descriptor : String
deriving Repr, DecidableEq, Inhabited, Hashable

/-- A method handle by name. -/
structure Handle where
  kind : HandleKind
  member : MemberRef
  /-- The owner of the member is an interface. -/
  isInterface : Bool
deriving Repr, DecidableEq, Inhabited

/-- A constant that can be loaded or passed to a bootstrap method. -/
inductive Loadable where
  | int (value : Int32)
  | float (bits : UInt32)
  | long (value : Int64)
  | double (bits : UInt64)
  | string (text : String)
  /-- A class by name, or an array class by descriptor. -/
  | cls (name : String)
  | methodType (descriptor : String)
  | handle (handle : Handle)
  /-- An entry of the class's own table of constants, as it stands. -/
  | pooled (index : PoolIndex)
deriving Repr, DecidableEq, Inhabited

/-- A call that is linked by a bootstrap method. -/
structure CallSite where
  name : String
  descriptor : String
  bootstrap : Handle
  arguments : List Loadable
deriving Repr, DecidableEq, Inhabited

/-- An instruction that goes to places of type `τ`. -/
inductive Instr (τ : Type) where
  /-- No operands. -/
  | plain (opcode : UInt8)
  /-- A small number to push, or the code of the elements of a new array. -/
  | int (opcode : UInt8) (value : Int32)
  /-- An instruction on a class: creation, cast or test. -/
  | type (opcode : UInt8) (cls : String)
  /-- A load, a store or `ret`. -/
  | var (opcode : UInt8) (index : UInt16)
  | increment (index : UInt16) (amount : Int16)
  | field (opcode : UInt8) (member : MemberRef)
  | method (opcode : UInt8) (member : MemberRef) (isInterface : Bool)
  | load (constant : Loadable)
  | jump (opcode : UInt8) (target : τ)
  | tableSwitch (low high : Int32) (otherwise : τ) (targets : List τ)
  | lookupSwitch (otherwise : τ) (pairs : List (Int32 × τ))
  | newMultiArray (cls : String) (dimensions : UInt8)
  | invokeDynamic (site : CallSite)
deriving Repr, DecidableEq, Inhabited

namespace Instr

variable {τ τ' : Type}

/-- Replaces the places that the instruction goes to. -/
def map (f : τ → τ') : Instr τ → Instr τ'
  | plain op => plain op
  | int op n => int op n
  | type op cls => type op cls
  | var op i => var op i
  | increment i n => increment i n
  | field op m => field op m
  | method op m i => method op m i
  | load c => load c
  | jump op t => jump op (f t)
  | tableSwitch low high d ts => tableSwitch low high (f d) (ts.map f)
  | lookupSwitch d ps => lookupSwitch (f d) (ps.map fun (key, t) => (key, f t))
  | newMultiArray cls n => newMultiArray cls n
  | invokeDynamic site => invokeDynamic site

/-- The places that the instruction may go to, that of a switch without a matching key first. -/
def targets : Instr τ → List τ
  | jump _ t => [t]
  | tableSwitch _ _ d ts => d :: ts
  | lookupSwitch d ps => d :: ps.map Prod.snd
  | _ => []

/-- The number that the instruction begins with; one number stands for all ways to load a
constant. -/
def opcode : Instr τ → UInt8
  | plain op | int op _ | type op _ | var op _ | field op _ | method op _ _ | jump op _ => op
  | increment .. => Opcode.iinc
  | load _ => Opcode.ldc
  | tableSwitch .. => Opcode.tableswitch
  | lookupSwitch .. => Opcode.lookupswitch
  | newMultiArray .. => Opcode.multianewarray
  | invokeDynamic _ => Opcode.invokedynamic

/-- Control can go on to the next instruction. -/
def fallsThrough : Instr τ → Bool
  | plain op => !Opcode.endsBlock op
  | var op _ => op != Opcode.ret
  | jump op _ => op != Opcode.goto && op != Opcode.goto_w
  | tableSwitch .. | lookupSwitch .. => false
  | _ => true

end Instr

/-- An entry in a list of instructions. -/
inductive Node where
  | instr (i : Instr Label)
  /-- The place of a label. -/
  | label (l : Label)
  /-- The source line of the instructions that follow. -/
  | line (number : UInt16)
deriving Repr, DecidableEq, Inhabited

namespace Node

/-- The entry is an instruction. -/
def isReal : Node → Bool
  | instr _ => true
  | _ => false

/-- The instruction, if the entry is one. -/
def instr? : Node → Option (Instr Label)
  | instr i => some i
  | _ => none

def opcode? : Node → Option UInt8
  | instr i => some i.opcode
  | _ => none

/-- The labels that the entry may go to. -/
def targets : Node → List Label
  | instr i => i.targets
  | _ => []

/-- Control can go on to the next entry. -/
def fallsThrough : Node → Bool
  | instr i => i.fallsThrough
  | _ => true

/-- The entry once its list stands behind `n` other labels. -/
def shift (n : Nat) : Node → Node
  | instr i => instr (i.map (Label.shift n))
  | label l => label (l.shift n)
  | line number => line number

end Node

/-- A range of instructions whose exceptions go to a handler. -/
structure TryBlock where
  /-- The first instruction in the range. -/
  start : Label
  /-- The first instruction behind the range. -/
  stop : Label
  handler : Label
  /-- The class of the exceptions; all of them if there is none. -/
  catchType : Option String
deriving Repr, DecidableEq, Inhabited

namespace TryBlock

/-- The block once its list stands behind `n` other labels. -/
def shift (n : Nat) (b : TryBlock) : TryBlock :=
  { b with start := b.start.shift n, stop := b.stop.shift n, handler := b.handler.shift n }

/-- The labels that the block uses. -/
def labels (b : TryBlock) : List Label := [b.start, b.stop, b.handler]

end TryBlock
end ClassWeave
