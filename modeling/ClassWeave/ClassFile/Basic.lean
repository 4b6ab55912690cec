import ClassWeave.ClassFile.Attribute
import ClassWeave.Constant.Pool

/-!
# Class files

A class file is a header, a version, the table of constants, and the class with its fields, methods
and attributes, all of them in terms of indices. Reading accepts nothing behind the class.
-/

namespace ClassWeave

/-- The version of a class file. -/
structure Version where
  major : UInt16
  minor : UInt16
deriving Repr, DecidableEq, Inhabited

namespace Version

def java8 : Version := ⟨52, 0⟩

/-- The class stores frames for its code. -/
def hasStackMaps (v : Version) : Bool := 50 ≤ v.major

/-- The minor part comes first. -/
def encode (v : Version) : List UInt8 := Bytes.u16 v.minor ++ Bytes.u16 v.major

def reader : Reader Version := do
  let minor ← Reader.u16
  return ⟨← Reader.u16, minor⟩

end Version

/-! ## Access flags

A flag is a bit; bits without a meaning for the kind of declaration are dropped. -/

namespace Access

/-- The flags of classes. -/
def ofClass (bits : UInt16) : UInt16 := bits &&& 0xf631

/-- The flags of methods. -/
def ofMethod (bits : UInt16) : UInt16 := bits &&& 0x1dff

/-- The flags of fields. -/
def ofField (bits : UInt16) : UInt16 := bits &&& 0x50df

/-- Public, and calls of methods of the super class follow the newer rules. -/
def publicSuper : UInt16 := 0x0021

/-- The declaration belongs to the class and not to its objects. -/
def isStatic (bits : UInt16) : Bool := bits &&& 0x0008 != 0

end Access

/-- A field or a method. The code of a method is one of its attributes. -/
structure MemberInfo where
  access : UInt16
  name : PoolIndex
  descriptor : PoolIndex
  attributes : List Attribute
deriving Repr, DecidableEq, Inhabited

namespace MemberInfo

def encode (m : MemberInfo) : List UInt8 :=
  Bytes.u16 m.access ++ Bytes.u16 m.name ++ Bytes.u16 m.descriptor ++
    Bytes.counted Attribute.encode m.attributes

/-- Reads a member whose flags are cut down by `access`. -/
def reader (access : UInt16 → UInt16) : Reader MemberInfo := do
  let bits ← Reader.u16
  let name ← Reader.u16
  let descriptor ← Reader.u16
  return ⟨access bits, name, descriptor, ← Reader.counted Attribute.reader⟩

def fieldReader : Reader MemberInfo := reader Access.ofField

def methodReader : Reader MemberInfo := reader Access.ofMethod

end MemberInfo

structure ClassFile where
  version : Version
  pool : Pool
  access : UInt16
  this : PoolIndex
  /-- The super class; index 0 if there is none. -/
  super : PoolIndex
  interfaces : List PoolIndex
  fields : List MemberInfo
  methods : List MemberInfo
  attributes : List Attribute

instance : Inhabited ClassFile := ⟨⟨.java8, .empty, 0, 0, 0, [], [], [], []⟩⟩

namespace ClassFile

/-- The bytes that every class file begins with. -/
def magic : List UInt8 := [0xca, 0xfe, 0xba, 0xbe]

def encode (c : ClassFile) : List UInt8 :=
  magic ++ c.version.encode ++ c.pool.encode ++ Bytes.u16 c.access ++ Bytes.u16 c.this ++
    Bytes.u16 c.super ++ Bytes.counted Bytes.u16 c.interfaces ++
    Bytes.counted MemberInfo.encode c.fields ++ Bytes.counted MemberInfo.encode c.methods ++
    Bytes.counted Attribute.encode c.attributes

def reader : Reader ClassFile := do
  let header ← Reader.bytes 4
  if header ≠ magic then throw (.badMagic header)
  let version ← Version.reader
  let pool ← Pool.reader
  let access ← Reader.u16
  let this ← Reader.u16
  let super ← Reader.u16
  let interfaces ← Reader.counted Reader.u16
  let fields ← Reader.counted MemberInfo.fieldReader
  let methods ← Reader.counted MemberInfo.methodReader
  let attributes ← Reader.counted Attribute.reader
  return ⟨version, pool, Access.ofClass access, this, super, interfaces, fields, methods,
    attributes⟩

/-- The class that bytes stand for. -/
def parse (bytes : List UInt8) : ClassResult ClassFile :=
  match reader.runOn bytes with
  | .error e => .error (.format e)
  | .ok (c, []) => .ok c
  | .ok (_, rest) => .error (.malformed (.trailingBytes rest.length))

/-- The name of the class. -/
def name (c : ClassFile) : ClassResult String := c.pool.className c.this

end ClassFile
end ClassWeave
