/-!
# Reading big-endian bytes

A reader takes a value off the front of a byte list and hands on the rest. It fails either
because the list ends early or because the bytes in front are not the written form of a value;
`FormatError` lists every such cause. Readers are plain functions, so that a law about them is a
law about lists: `read (write v ++ rest) = (v, rest)`.
-/

namespace ClassWeave

/-- Why bytes are not the written form of a value, or a value has no written form. -/
inductive FormatError where
  /-- The bytes end inside a value. -/
  | unexpectedEnd
  /-- The constants take up more slots than a pool can have. -/
  | poolTooLong
  /-- The last constant takes up more slots than the declared count leaves. -/
  | poolOverrun
  | unknownConstantTag (tag : UInt8)
  /-- A character of several bytes is not followed by its continuation bytes. -/
  | truncatedText
  /-- A byte that starts no character. -/
  | badTextByte (byte : UInt8)
  /-- The text holds half of a surrogate pair. -/
  | loneSurrogate
  | unknownHandleKind (tag : UInt8)
  | badMagic (bytes : List UInt8)
  /-- Code is at least one and at most 65535 bytes long. -/
  | badCodeLength (length : UInt32)
  /-- A chop frame removes one to three locals. -/
  | badChop
  /-- An append frame adds one to three locals. -/
  | badAppend
  | reservedFrameTag (tag : UInt8)
  | unknownTypeTag (tag : UInt8)
deriving Repr, DecidableEq, Inhabited

/-- A computation that takes bytes off the front of a list. -/
abbrev Reader (α : Type) := StateT (List UInt8) (Except FormatError) α

namespace Reader

/-- The next byte. -/
def u8 : Reader UInt8
  | [] => .error .unexpectedEnd
  | b :: rest => .ok (b, rest)

/-- Two bytes, the high one first. -/
def u16 : Reader UInt16 := do
  let hi ← u8
  let lo ← u8
  pure (hi.toUInt16 <<< 8 ||| lo.toUInt16)

/-- Four bytes, the high ones first. -/
def u32 : Reader UInt32 := do
  let hi ← u16
  let lo ← u16
  pure (hi.toUInt32 <<< 16 ||| lo.toUInt32)

/-- Eight bytes, the high ones first. -/
def u64 : Reader UInt64 := do
  let hi ← u32
  let lo ← u32
  pure (hi.toUInt64 <<< 32 ||| lo.toUInt64)

def i8 : Reader Int8 := do return (← u8).toInt8

def i16 : Reader Int16 := do return (← u16).toInt16

def i32 : Reader Int32 := do return (← u32).toInt32

def i64 : Reader Int64 := do return (← u64).toInt64

/-- Exactly `n` bytes as they stand. -/
def bytes (n : Nat) : Reader (List UInt8) := fun s =>
  let taken := s.take n
  if taken.length = n then .ok (taken, s.drop n) else .error .unexpectedEnd

/-- The items still to be read are put in front of those read so far, which are kept last first. -/
def timesOnto {α : Type} (item : Reader α) : Nat → List α → Reader (List α)
  | 0, found => pure found.reverse
  | n + 1, found => do
    let a ← item
    timesOnto item n (a :: found)

/-- `n` items, one after the other. -/
def times {α : Type} (n : Nat) (item : Reader α) : Reader (List α) := timesOnto item n []

/-- A sequence with its number of items in front, in two bytes. -/
def counted {α : Type} (item : Reader α) : Reader (List α) := do
  let n ← u16
  times n.toNat item

/-- Runs a reader on bytes that may go on after the value. -/
def runOn {α : Type} (r : Reader α) (s : List UInt8) : Except FormatError (α × List UInt8) := r s

/-- Runs a reader and drops the bytes after the value. -/
def read {α : Type} (r : Reader α) (s : List UInt8) : Except FormatError α := (r s).map Prod.fst

end Reader
end ClassWeave
