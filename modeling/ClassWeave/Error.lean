import ClassWeave.Constant.Printer
import ClassWeave.Frame.VType
import ClassWeave.Instr.Printer

/-!
# Errors

Why bytes are not a class, why a class cannot be written, and why code cannot be trusted. Every
error is a cause with what belongs to it; its wording is given by `message`.
-/

namespace ClassWeave

/-- The wording of a failure to read or write a value. -/
def FormatError.message : FormatError → String
  | unexpectedEnd => "failed to fill whole buffer"
  | poolTooLong => "constant pool overflows its declared count"
  | poolOverrun => "wide constant overruns the constant pool count"
  | unknownConstantTag tag => "unknown constant tag " ++ toString tag.toNat
  | truncatedText => "truncated modified UTF-8 sequence"
  | badTextByte byte => "invalid modified UTF-8 byte 0x" ++ Hex.ofNat byte.toNat
  | loneSurrogate => "unpaired surrogate in UTF-8 constant"
  | unknownHandleKind tag => "unknown method handle kind " ++ toString tag.toNat
  | badMagic bytes => "bad magic [" ++ ", ".intercalate (bytes.map Hex.byte) ++ "]"
  | badCodeLength length => "invalid code length " ++ toString length.toNat
  | badChop => "chop frames remove 1-3 locals"
  | badAppend => "append frames add 1-3 locals"
  | reservedFrameTag tag => "reserved stack map frame tag " ++ toString tag.toNat
  | unknownTypeTag tag => "unknown verification type tag " ++ toString tag.toNat

/-- Arrays of primitive elements, by the instructions that access them. -/
inductive PrimitiveArray where
  | int
  | long
  | float
  | double
  /-- Bytes and truth values share their instructions. -/
  | byteOrBoolean
  | char
  | short
deriving Repr, DecidableEq, Inhabited

namespace PrimitiveArray

/-- The descriptors of the arrays that the instructions take. -/
def descriptors : PrimitiveArray → List String
  | int => ["[I"]
  | long => ["[J"]
  | float => ["[F"]
  | double => ["[D"]
  | byteOrBoolean => ["[B", "[Z"]
  | char => ["[C"]
  | short => ["[S"]

/-- The kind of the elements. -/
def element : PrimitiveArray → ValueKind
  | long => .long
  | float => .float
  | double => .double
  | _ => .int

def describe : PrimitiveArray → String
  | int => "int array"
  | long => "long array"
  | float => "float array"
  | double => "double array"
  | byteOrBoolean => "byte or boolean array"
  | char => "char array"
  | short => "short array"

end PrimitiveArray

/-- What an instruction asks of a value. -/
inductive Expectation where
  | kind (kind : ValueKind)
  | array (elements : PrimitiveArray)
  | arrayOfReferences
  /-- The method returns a value of another kind, or none. -/
  | returnType
  /-- The method returns a value. -/
  | returnValue
  | resultOfNew
  | freshObject
deriving Repr, DecidableEq, Inhabited

def Expectation.describe : Expectation → String
  | kind k => k.describe
  | array a => a.describe
  | arrayOfReferences => "array of references"
  | returnType => "value matching the method return type"
  | returnValue => "a return value"
  | resultOfNew => "result of new"
  | freshObject => "uninitialized object"

/-- Why code cannot be trusted. -/
inductive VerifyError where
  | emptyStack
  | unexpectedWidth (slots : Nat)
  | invalidLocal (index : UInt16)
  | unexpectedType (found : NamedType) (expected : Expectation)
  /-- Types that meet on the stack and have nothing in common. -/
  | incompatible (first second : NamedType)
  /-- Stacks of different heights meet. -/
  | heightMismatch (first second : Nat)
  | fallsOffEnd
  | badDescriptor (descriptor : String)
  | subroutine
  | unsupportedOpcode (opcode : UInt8)
  | maxStackExceeded (declared : UInt16) (needed : Nat)
  | maxLocalsExceeded (declared : UInt16) (needed : Nat)
  /-- No frame is stored at an offset that needs one. -/
  | missingFrame (offset : Nat)
  /-- A frame is stored at an offset where no instruction starts. -/
  | misplacedFrame (offset : Nat)
  | frameHeight (offset found recorded : Nat)
  | frameMismatch (offset : Nat) (found recorded : NamedType)
  /-- Classes of the hierarchy that each take the place of the other keep the frames from settling.
  -/
  | unsettled
deriving Repr, DecidableEq, Inhabited

/-- The wording of a doubt about code. -/
def VerifyError.message : VerifyError → String
  | emptyStack => "pop from an empty stack"
  | unexpectedWidth slots => "operand has unexpected width " ++ toString slots
  | invalidLocal index => "invalid local variable " ++ toString index.toNat
  | unexpectedType found expected => "expected " ++ expected.describe ++ " but found " ++ found.text
  | incompatible first second => "incompatible types " ++ first.text ++ " and " ++ second.text
  | heightMismatch first second =>
    "stack heights " ++ toString first ++ " and " ++ toString second ++ " do not match"
  | fallsOffEnd => "execution falls off the end of the code"
  | badDescriptor descriptor => "bad descriptor '" ++ descriptor ++ "'"
  | subroutine => "jsr/ret subroutines are not supported"
  | unsupportedOpcode opcode => "unsupported opcode 0x" ++ Hex.byte opcode
  | maxStackExceeded declared needed =>
    "max stack is " ++ toString declared.toNat ++ " but " ++ toString needed ++ " is needed"
  | maxLocalsExceeded declared needed =>
    "max locals is " ++ toString declared.toNat ++ " but " ++ toString needed ++ " is needed"
  | missingFrame offset => "no stack map frame at offset " ++ toString offset
  | misplacedFrame offset =>
    "stack map frame at offset " ++ toString offset ++ " is not at an instruction"
  | frameHeight offset found recorded =>
    "stack map frame at offset " ++ toString offset ++ " has " ++ toString recorded ++
      " stack entries but the code has " ++ toString found
  | frameMismatch offset found recorded =>
    "stack map frame at offset " ++ toString offset ++ " expects " ++ recorded.text ++
      " but found " ++ found.text
  | unsettled => "stack map frames do not settle"

/-- What an index of the table of constants should refer to. -/
inductive ConstantRole where
  | any
  | utf8
  | cls
  | nameAndType
  | member
  | handle
  | loadable
  | callSite
deriving Repr, DecidableEq, Inhabited

def ConstantRole.describe : ConstantRole → String
  | any => "constant"
  | utf8 => "Utf8"
  | cls => "Class"
  | nameAndType => "NameAndType"
  | member => "member reference"
  | handle => "MethodHandle"
  | loadable => "loadable constant"
  | callSite => "InvokeDynamic"

/-- What is wrong with a class beyond the form of its parts. -/
inductive Flaw where
  | trailingBytes (count : Nat)
  | tooManyBootstrapMethods
  /-- The operand of an instruction does not fit into its byte. -/
  | operandRange (value : Int32) (opcode : UInt8)
  /-- A switch over a range has another number of targets than the range has keys. -/
  | switchTargets (low high : Int32) (count : Nat)
  | switchRange (offset : Nat) (low high : Int32)
  | switchCount (offset : Nat)
  | missingBootstrapMethod (index : UInt16)
  /-- A fresh object does not come from an instruction of the list. -/
  | missingNew (index : Nat)
  | chopTooMany
  | frameBeyondCode (position : Nat)
  | noInstructionAfter (position : Nat)
deriving Repr, DecidableEq, Inhabited

def Flaw.message : Flaw → String
  | trailingBytes count => toString count ++ " unexpected bytes after the class file"
  | tooManyBootstrapMethods => "too many bootstrap methods"
  | operandRange value opcode =>
    "operand " ++ toString value.toInt ++ " out of range for " ++ Opcode.mnemonic opcode
  | switchTargets low high count =>
    "tableswitch " ++ toString low.toInt ++ "..=" ++ toString high.toInt ++ " has " ++
      toString count ++ " targets"
  | switchRange offset low high =>
    "tableswitch at " ++ toString offset ++ " has low " ++ toString low.toInt ++ " above high " ++
      toString high.toInt
  | switchCount offset => "lookupswitch at " ++ toString offset ++ " has negative pair count"
  | missingBootstrapMethod index => "missing bootstrap method " ++ toString index.toNat
  | missingNew index => "uninitialized value from missing new #" ++ toString index
  | chopTooMany => "chop frame removes too many"
  | frameBeyondCode position => "frame position " ++ toString position ++ " is past the code"
  | noInstructionAfter position => "no instruction follows position " ++ toString position

/-- Why a class cannot be read, written or trusted. -/
inductive ClassError where
  | format (cause : FormatError)
  | malformed (flaw : Flaw)
  | poolOverflow (constant : Constant) (offset : Nat)
  /-- An index refers to nothing, or to another kind of constant than it should. -/
  | badConstant (index : PoolIndex) (expected : ConstantRole)
  | badDescriptor (descriptor : String)
  | unknownOpcode (offset : Nat) (opcode : UInt8)
  /-- A jump, a switch or an exception range goes to no instruction. -/
  | badJumpTarget (offset : Nat) (target : Int)
  | codeTooLong (length : Nat)
  | maxStackTooLarge (slots : Nat)
  | maxLocalsTooLarge (slots : Nat)
  /-- Labels that are used but have no place. -/
  | unplacedLabels (labels : List Label)
  | labelPlacedTwice (label : Label)
  /-- A label of another list. -/
  | unknownLabel (label : Label)
  /-- The entry of a list at which its code cannot be trusted. -/
  | verify (index : Nat) (cause : VerifyError)
deriving Repr, DecidableEq, Inhabited

def ClassError.message : ClassError → String
  | format cause => "I/O error: " ++ cause.message
  | malformed flaw => "malformed class file: " ++ flaw.message
  | poolOverflow constant offset =>
    "constant pool overflow at #" ++ toString offset ++ " adding " ++ constant.detailed
  | badConstant index expected =>
    "constant #" ++ toString index.toNat ++ " is not a valid " ++ expected.describe
  | badDescriptor descriptor => "bad descriptor '" ++ descriptor ++ "'"
  | unknownOpcode offset opcode =>
    "unknown opcode 0x" ++ Hex.byte opcode ++ " at offset " ++ toString offset
  | badJumpTarget offset target =>
    "bad jump target " ++ toString target ++ " from offset " ++ toString offset
  | codeTooLong length => "method code is too long (" ++ toString length ++ " bytes)"
  | maxStackTooLarge slots => "max stack " ++ toString slots ++ " is too large"
  | maxLocalsTooLarge slots => "max locals " ++ toString slots ++ " is too large"
  | unplacedLabels labels =>
    "labels never placed: [" ++ ", ".intercalate (labels.map Label.text) ++ "]"
  | labelPlacedTwice label => "label " ++ label.text ++ " placed twice"
  | unknownLabel label => "label " ++ label.text ++ " is not from this list"
  | verify index cause => "at instruction " ++ toString index ++ ": " ++ cause.message

/-- Results of what can fail for one of these causes. -/
abbrev ClassResult := Except ClassError

/-- Runs a reader on bytes that may go on behind the value. -/
def ClassError.reading {α : Type} (r : Reader α) (bytes : List UInt8) : ClassResult α :=
  (r.read bytes).mapError .format

/-- The type that a whole string describes. -/
def FieldType.parse (s : String) : ClassResult FieldType :=
  match parse? s with
  | some t => .ok t
  | none => .error (.badDescriptor s)

/-- The parameters and the result that a whole string describes. -/
def MethodType.parse (s : String) : ClassResult MethodType :=
  match parse? s with
  | some m => .ok m
  | none => .error (.badDescriptor s)

end ClassWeave
