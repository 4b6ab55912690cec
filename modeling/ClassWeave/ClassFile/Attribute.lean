import ClassWeave.Bytes.Writer
import ClassWeave.Error

/-!
# Attributes

An attribute is a name and bytes whose meaning depends on the name. Attributes with a meaning of
their own are code, its exception handlers and line numbers, and the table of bootstrap methods. All
others are carried along as they are.
-/

namespace ClassWeave

/-- An attribute in its raw form. -/
structure Attribute where
  name : PoolIndex
  info : List UInt8
deriving Repr, DecidableEq, Inhabited

namespace Attribute

def encode (a : Attribute) : List UInt8 := Bytes.u16 a.name ++ Bytes.longBlock a.info

def reader : Reader Attribute := do
  let name ← Reader.u16
  let length ← Reader.u32
  return ⟨name, ← Reader.bytes length.toNat⟩

end Attribute

/-- An exception handler of some code, all places given by offsets. -/
structure HandlerEntry where
  /-- The first instruction in the range. -/
  start : UInt16
  /-- The first offset behind the range. -/
  stop : UInt16
  handler : UInt16
  /-- The class of the exceptions; index 0 stands for all of them. -/
  catchType : PoolIndex
deriving Repr, DecidableEq, Inhabited

namespace HandlerEntry

def encode (h : HandlerEntry) : List UInt8 :=
  Bytes.u16 h.start ++ Bytes.u16 h.stop ++ Bytes.u16 h.handler ++ Bytes.u16 h.catchType

def reader : Reader HandlerEntry := do
  let start ← Reader.u16
  let stop ← Reader.u16
  let handler ← Reader.u16
  return ⟨start, stop, handler, ← Reader.u16⟩

end HandlerEntry

/-- The source line of the instructions from an offset on. -/
structure LineEntry where
  start : UInt16
  line : UInt16
deriving Repr, DecidableEq, Inhabited

namespace LineEntry

/-- The name of the attribute that holds line numbers. -/
def tableName : String := "LineNumberTable"

def encode (l : LineEntry) : List UInt8 := Bytes.u16 l.start ++ Bytes.u16 l.line

def reader : Reader LineEntry := do
  let start ← Reader.u16
  return ⟨start, ← Reader.u16⟩

def encodeTable (table : List LineEntry) : List UInt8 := Bytes.counted encode table

def tableReader : Reader (List LineEntry) := Reader.counted reader

end LineEntry

/-- A method that links call sites, and what it is given. -/
structure BootstrapMethod where
  handle : PoolIndex
  arguments : List PoolIndex
deriving Repr, DecidableEq, Inhabited

namespace BootstrapMethod

/-- The name of the attribute that holds bootstrap methods. -/
def tableName : String := "BootstrapMethods"

def encode (b : BootstrapMethod) : List UInt8 :=
  Bytes.u16 b.handle ++ Bytes.counted Bytes.u16 b.arguments

def reader : Reader BootstrapMethod := do
  let handle ← Reader.u16
  return ⟨handle, ← Reader.counted Reader.u16⟩

def encodeTable (table : List BootstrapMethod) : List UInt8 := Bytes.counted encode table

def tableReader : Reader (List BootstrapMethod) := Reader.counted reader

end BootstrapMethod

/-- The code of a method. -/
structure CodeAttribute where
  maxStack : UInt16
  maxLocals : UInt16
  code : List UInt8
  handlers : List HandlerEntry
  attributes : List Attribute
deriving Repr, DecidableEq, Inhabited

namespace CodeAttribute

/-- The name of the attribute that holds code. -/
def name : String := "Code"

/-- Reads the bytes of some code. -/
def bytecodeReader : Reader (List UInt8) := do
  let length ← Reader.u32
  if length = 0 ∨ 65535 < length then throw (.badCodeLength length)
  else Reader.bytes length.toNat

def encode (c : CodeAttribute) : List UInt8 :=
  Bytes.u16 c.maxStack ++ Bytes.u16 c.maxLocals ++ Bytes.longBlock c.code ++
    Bytes.counted HandlerEntry.encode c.handlers ++ Bytes.counted Attribute.encode c.attributes

def reader : Reader CodeAttribute := do
  let maxStack ← Reader.u16
  let maxLocals ← Reader.u16
  let code ← bytecodeReader
  let handlers ← Reader.counted HandlerEntry.reader
  return ⟨maxStack, maxLocals, code, handlers, ← Reader.counted Attribute.reader⟩

end CodeAttribute
end ClassWeave
