/-!
# Writing big-endian bytes

Writers are functions to byte lists, so that the written form of a compound value is the
concatenation of the written forms of its parts. Lengths and counts are written in fields of a
fixed width, which keep the low bits of a number that is too large.
-/

namespace ClassWeave.Bytes

/-- Two bytes, the high one first. -/
def u16 (n : UInt16) : List UInt8 := [(n >>> 8).toUInt8, n.toUInt8]

/-- Four bytes, the high ones first. -/
def u32 (n : UInt32) : List UInt8 := u16 (n >>> 16).toUInt16 ++ u16 n.toUInt16

/-- Eight bytes, the high ones first. -/
def u64 (n : UInt64) : List UInt8 := u32 (n >>> 32).toUInt32 ++ u32 n.toUInt32

def i8 (n : Int8) : List UInt8 := [n.toUInt8]

def i16 (n : Int16) : List UInt8 := u16 n.toUInt16

def i32 (n : Int32) : List UInt8 := u32 n.toUInt32

def i64 (n : Int64) : List UInt8 := u64 n.toUInt64

/-- A sequence after its number of items, in two bytes. -/
def counted {α : Type} (item : α → List UInt8) (items : List α) : List UInt8 :=
  u16 (UInt16.ofNat items.length) ++ items.flatMap item

/-- Bytes after their number, in two bytes. -/
def shortBlock (bytes : List UInt8) : List UInt8 := u16 (UInt16.ofNat bytes.length) ++ bytes

/-- Bytes after their number, in four bytes. -/
def longBlock (bytes : List UInt8) : List UInt8 := u32 (UInt32.ofNat bytes.length) ++ bytes

end ClassWeave.Bytes
