import ClassWeave.Bytes.Reader
import ClassWeave.Bytes.Writer
import ClassWeave.Constant.Basic
import ClassWeave.Text.ModifiedUtf8

/-!
# Constants as bytes

A constant is written as a tag and its parts. The number of bytes of a text stands in front of it in
two bytes, which is why a text that is written in more than 65535 bytes cannot be read back.
-/

namespace ClassWeave

def HandleKind.encode (k : HandleKind) : List UInt8 := [k.tag]

def HandleKind.reader : Reader HandleKind := do
  let tag ← Reader.u8
  match HandleKind.ofTag? tag with
  | some kind => pure kind
  | none => throw (.unknownHandleKind tag)

namespace Constant

/-- The written form of a constant. -/
def encode : Constant → List UInt8
  | utf8 text => 1 :: Bytes.shortBlock (ModifiedUtf8.encode text)
  | integer n => 3 :: Bytes.i32 n
  | float bits => 4 :: Bytes.u32 bits
  | long n => 5 :: Bytes.i64 n
  | double bits => 6 :: Bytes.u64 bits
  | classInfo name => 7 :: Bytes.u16 name
  | string text => 8 :: Bytes.u16 text
  | fieldRef owner nt => 9 :: (Bytes.u16 owner ++ Bytes.u16 nt)
  | methodRef owner nt isInterface =>
    (if isInterface then 11 else 10) :: (Bytes.u16 owner ++ Bytes.u16 nt)
  | nameAndType name descriptor => 12 :: (Bytes.u16 name ++ Bytes.u16 descriptor)
  | methodHandle kind member => 15 :: (kind.encode ++ Bytes.u16 member)
  | methodType descriptor => 16 :: Bytes.u16 descriptor
  | dynamic bootstrap nt => 17 :: (Bytes.u16 bootstrap ++ Bytes.u16 nt)
  | invokeDynamic bootstrap nt => 18 :: (Bytes.u16 bootstrap ++ Bytes.u16 nt)
  | moduleInfo name => 19 :: Bytes.u16 name
  | packageInfo name => 20 :: Bytes.u16 name

open Reader in
/-- Reads what stands behind a tag. -/
def bodyReader : UInt8 → Reader Constant
  | 1 => do
    let n ← u16
    let text ← bytes n.toNat
    return utf8 (← ofExcept (ModifiedUtf8.decode text))
  | 3 => return integer (← i32)
  | 4 => return float (← u32)
  | 5 => return long (← i64)
  | 6 => return double (← u64)
  | 7 => return classInfo (← u16)
  | 8 => return string (← u16)
  | 9 => do
    let c ← u16
    return fieldRef c (← u16)
  | 10 => do
    let c ← u16
    return methodRef c (← u16) false
  | 11 => do
    let c ← u16
    return methodRef c (← u16) true
  | 12 => do
    let name ← u16
    return nameAndType name (← u16)
  | 15 => do
    let kind ← HandleKind.reader
    return methodHandle kind (← u16)
  | 16 => return methodType (← u16)
  | 17 => do
    let bootstrap ← u16
    return dynamic bootstrap (← u16)
  | 18 => do
    let bootstrap ← u16
    return invokeDynamic bootstrap (← u16)
  | 19 => return moduleInfo (← u16)
  | 20 => return packageInfo (← u16)
  | tag => throw (.unknownConstantTag tag)

/-- Reads a constant. -/
def reader : Reader Constant := do bodyReader (← Reader.u8)

end Constant
end ClassWeave
