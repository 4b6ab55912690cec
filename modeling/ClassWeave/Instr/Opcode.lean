import ClassWeave.ValueKind

/-!
# Opcodes

The numbers that instructions begin with, the families that they come in, and what the
instructions without operands do to the stack. Families are ranges of numbers, and most
have one member for each kind of value.
-/

namespace ClassWeave.Opcode

/-! ## Single opcodes -/

def iconst_m1 : UInt8 := 0x02
def iconst_0 : UInt8 := 0x03
def lconst_0 : UInt8 := 0x09
def fconst_0 : UInt8 := 0x0b
def dconst_0 : UInt8 := 0x0e
def bipush : UInt8 := 0x10
def sipush : UInt8 := 0x11
def ldc : UInt8 := 0x12
def ldc_w : UInt8 := 0x13
def ldc2_w : UInt8 := 0x14
def iload : UInt8 := 0x15
def aload : UInt8 := 0x19
def iload_0 : UInt8 := 0x1a
def iaload : UInt8 := 0x2e
def istore : UInt8 := 0x36
def astore : UInt8 := 0x3a
def istore_0 : UInt8 := 0x3b
def iastore : UInt8 := 0x4f
def pop : UInt8 := 0x57
def dup : UInt8 := 0x59
def iinc : UInt8 := 0x84
def ifeq : UInt8 := 0x99
def goto : UInt8 := 0xa7
def jsr : UInt8 := 0xa8
def ret : UInt8 := 0xa9
def tableswitch : UInt8 := 0xaa
def lookupswitch : UInt8 := 0xab
def ireturn : UInt8 := 0xac
def vreturn : UInt8 := 0xb1
def getstatic : UInt8 := 0xb2
def putstatic : UInt8 := 0xb3
def getfield : UInt8 := 0xb4
def putfield : UInt8 := 0xb5
def invokevirtual : UInt8 := 0xb6
def invokespecial : UInt8 := 0xb7
def invokestatic : UInt8 := 0xb8
def invokeinterface : UInt8 := 0xb9
def invokedynamic : UInt8 := 0xba
def new : UInt8 := 0xbb
def newarray : UInt8 := 0xbc
def anewarray : UInt8 := 0xbd
def arraylength : UInt8 := 0xbe
def athrow : UInt8 := 0xbf
def checkcast : UInt8 := 0xc0
def instanceof : UInt8 := 0xc1
def monitorenter : UInt8 := 0xc2
def monitorexit : UInt8 := 0xc3
def wide : UInt8 := 0xc4
def multianewarray : UInt8 := 0xc5
def ifnull : UInt8 := 0xc6
def ifnonnull : UInt8 := 0xc7
def goto_w : UInt8 := 0xc8
def jsr_w : UInt8 := 0xc9

/-! ## Names -/

/-- The names of the opcodes from zero on. -/
def mnemonics : Array String := #[
  "nop", "aconst_null", "iconst_m1", "iconst_0", "iconst_1", "iconst_2", "iconst_3", "iconst_4",
  "iconst_5", "lconst_0", "lconst_1", "fconst_0", "fconst_1", "fconst_2", "dconst_0", "dconst_1",
  "bipush", "sipush", "ldc", "ldc_w", "ldc2_w", "iload", "lload", "fload", "dload", "aload",
  "iload_0", "iload_1", "iload_2", "iload_3", "lload_0", "lload_1", "lload_2", "lload_3", "fload_0",
  "fload_1", "fload_2", "fload_3", "dload_0", "dload_1", "dload_2", "dload_3", "aload_0", "aload_1",
  "aload_2", "aload_3", "iaload", "laload", "faload", "daload", "aaload", "baload", "caload",
  "saload", "istore", "lstore", "fstore", "dstore", "astore", "istore_0", "istore_1", "istore_2",
  "istore_3", "lstore_0", "lstore_1", "lstore_2", "lstore_3", "fstore_0", "fstore_1", "fstore_2",
  "fstore_3", "dstore_0", "dstore_1", "dstore_2", "dstore_3", "astore_0", "astore_1", "astore_2",
  "astore_3", "iastore", "lastore", "fastore", "dastore", "aastore", "bastore", "castore",
  "sastore", "pop", "pop2", "dup", "dup_x1", "dup_x2", "dup2", "dup2_x1", "dup2_x2", "swap", "iadd",
  "ladd", "fadd", "dadd", "isub", "lsub", "fsub", "dsub", "imul", "lmul", "fmul", "dmul", "idiv",
  "ldiv", "fdiv", "ddiv", "irem", "lrem", "frem", "drem", "ineg", "lneg", "fneg", "dneg", "ishl",
  "lshl", "ishr", "lshr", "iushr", "lushr", "iand", "land", "ior", "lor", "ixor", "lxor", "iinc",
  "i2l", "i2f", "i2d", "l2i", "l2f", "l2d", "f2i", "f2l", "f2d", "d2i", "d2l", "d2f", "i2b", "i2c",
  "i2s", "lcmp", "fcmpl", "fcmpg", "dcmpl", "dcmpg", "ifeq", "ifne", "iflt", "ifge", "ifgt", "ifle",
  "if_icmpeq", "if_icmpne", "if_icmplt", "if_icmpge", "if_icmpgt", "if_icmple", "if_acmpeq",
  "if_acmpne", "goto", "jsr", "ret", "tableswitch", "lookupswitch", "ireturn", "lreturn", "freturn",
  "dreturn", "areturn", "return", "getstatic", "putstatic", "getfield", "putfield", "invokevirtual",
  "invokespecial", "invokestatic", "invokeinterface", "invokedynamic", "new", "newarray",
  "anewarray", "arraylength", "athrow", "checkcast", "instanceof", "monitorenter", "monitorexit",
  "wide", "multianewarray", "ifnull", "ifnonnull", "goto_w", "jsr_w"]

/-- The name of an opcode. -/
def mnemonic (op : UInt8) : String := mnemonics.getD op.toNat "<unknown>"

/-- The opcode with a name. -/
def ofMnemonic? (name : String) : Option UInt8 :=
  (mnemonics.toList.findIdx? (· = name)).map UInt8.ofNat

/-! ## Families -/

/-- The opcode lies in a family, both ends included. -/
def within (first last : UInt8) (op : UInt8) : Bool := first ≤ op && op ≤ last

/-- An instruction with no operands that does not name a local variable either. -/
def isPlain (op : UInt8) : Bool :=
  op ≤ 0x0f || within 0x2e 0x35 op || within 0x4f 0x83 op || within 0x85 0x98 op ||
    within 0xac 0xb1 op || op == arraylength || op == athrow || op == monitorenter ||
    op == monitorexit

/-- Loads a local variable that an operand names. -/
def isLoad (op : UInt8) : Bool := within iload aload op

/-- Stores to a local variable that an operand names. -/
def isStore (op : UInt8) : Bool := within istore astore op

/-- Loads one of the first four local variables. -/
def isShortLoad (op : UInt8) : Bool := within 0x1a 0x2d op

/-- Stores to one of the first four local variables. -/
def isShortStore (op : UInt8) : Bool := within 0x3b 0x4e op

/-- The instruction leaves the method. -/
def isReturn (op : UInt8) : Bool := within ireturn vreturn op

/-- Control never goes on behind the instruction. -/
def endsBlock (op : UInt8) : Bool :=
  isReturn op || op == athrow || op == goto || op == goto_w || op == ret

/-- Conditions come in pairs, each the negation of the other. -/
def invertJump? (op : UInt8) : Option UInt8 :=
  if within 0x99 0xa6 op then some (((op - 0x99) ^^^ 1) + 0x99)
  else if op == ifnull then some ifnonnull
  else if op == ifnonnull then some ifnull
  else none

/-- Takes one integer off the stack and compares it with zero. -/
def isZeroTest (op : UInt8) : Bool := within 0x99 0x9e op

/-- Takes two integers off the stack and compares them. -/
def isIntTest (op : UInt8) : Bool := within 0x9f 0xa4 op

/-- Takes two references off the stack and compares them. -/
def isReferenceTest (op : UInt8) : Bool := within 0xa5 0xa6 op

/-- Takes one reference off the stack and compares it with `null`. -/
def isNullTest (op : UInt8) : Bool := within 0xc6 0xc7 op

/-- The load of a kind of value. -/
def load (kind : ValueKind) : UInt8 := iload + UInt8.ofNat kind.rank

/-- The store of a kind of value. -/
def store (kind : ValueKind) : UInt8 := istore + UInt8.ofNat kind.rank

/-- The return of a kind of value. -/
def returnOf (kind : ValueKind) : UInt8 := ireturn + UInt8.ofNat kind.rank

end ClassWeave.Opcode
