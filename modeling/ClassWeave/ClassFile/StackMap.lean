import ClassWeave.ClassFile.Attribute

/-!
# Stored frames

A class file stores frames as differences: each says how its locals come from those of the frame
before it, and how far its offset lies behind. The kinds of difference have short forms for
small steps.
-/

namespace ClassWeave

/-- A frame as a difference to the one before it. -/
inductive StackMapFrame where
  /-- The same locals and an empty stack. -/
  | same (delta : UInt16)
  /-- The same locals and one value on the stack. -/
  | sameOne (delta : UInt16) (stack : RawType)
  /-- Without the last one to three locals, and an empty stack. -/
  | chop (delta : UInt16) (count : UInt8)
  /-- With one to three locals more, and an empty stack. -/
  | append (delta : UInt16) (locals : List RawType)
  | full (delta : UInt16) (locals stack : List RawType)
deriving Repr, DecidableEq, Inhabited

namespace StackMapFrame

/-- How far the offset lies behind that of the frame before. -/
def delta : StackMapFrame → UInt16
  | same d | sameOne d _ | chop d _ | append d _ | full d _ _ => d

/-- The written form, if the number of locals that come or go is one to three. -/
def encode : StackMapFrame → Except FormatError (List UInt8)
  | same d => .ok (if d ≤ 63 then [d.toUInt8] else 251 :: Bytes.u16 d)
  | sameOne d t =>
    .ok ((if d ≤ 63 then [64 + d.toUInt8] else 247 :: Bytes.u16 d) ++ t.encode)
  | chop d k => if 1 ≤ k ∧ k ≤ 3 then .ok ((251 - k) :: Bytes.u16 d) else .error .badChop
  | append d ts =>
    if 1 ≤ ts.length ∧ ts.length ≤ 3 then
      .ok ((251 + UInt8.ofNat ts.length) :: (Bytes.u16 d ++ ts.flatMap RawType.encode))
    else .error .badAppend
  | full d locals stack =>
    .ok (255 :: (Bytes.u16 d ++ Bytes.counted RawType.encode locals ++
      Bytes.counted RawType.encode stack))

/-- Reads what stands behind a tag. -/
def bodyReader (tag : UInt8) : Reader StackMapFrame := do
  if tag ≤ 63 then return same tag.toUInt16
  else if tag ≤ 127 then return sameOne (tag - 64).toUInt16 (← RawType.reader)
  else if tag < 247 then throw (.reservedFrameTag tag)
  else
    let d ← Reader.u16
    if tag = 247 then return sameOne d (← RawType.reader)
    else if tag < 251 then return chop d (251 - tag)
    else if tag = 251 then return same d
    else if tag < 255 then return append d (← Reader.times (tag - 251).toNat RawType.reader)
    else
      let locals ← Reader.counted RawType.reader
      return full d locals (← Reader.counted RawType.reader)

def reader : Reader StackMapFrame := do bodyReader (← Reader.u8)

/-- The name of the attribute that holds frames. -/
def tableName : String := "StackMapTable"

def encodeTable (table : List StackMapFrame) : Except FormatError (List UInt8) := do
  return Bytes.u16 (UInt16.ofNat table.length) ++ (← table.mapM encode).flatten

def tableReader : Reader (List StackMapFrame) := Reader.counted reader

end StackMapFrame
end ClassWeave
