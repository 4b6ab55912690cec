import ClassWeave.Constant.Pool
import ClassWeave.Frame.Effect
import ClassWeave.Frame.Merge

/-!
# One instruction

What an instruction does to a frame. The shape of the stack is always checked; the types of the
operands only if the code is not trusted. A step looks at nothing but the frame, the instruction and
its method, so it can be followed along any path.
-/

namespace ClassWeave

/-- Some code, and what is known about the world around it. -/
structure Program where
  method : MethodContext
  nodes : Array Node
  pool : Pool
  hierarchy : Hierarchy
  mode : Mode
  /-- The type of the result of the method. -/
  result : Option FieldType

/-- A computation that changes a frame. -/
abbrev Step (α : Type) := StateT Frame (Except VerifyError) α

namespace Step

/-- Pushes a value. -/
def push (t : NamedType) : Step Unit := modify fun f => { f with stack := t :: f.stack }

/-- Takes the topmost value off the stack. -/
def popAny : Step NamedType := do
  let f ← get
  let (t, stack) ← Shuffle.takeAny f.stack
  set { f with stack }
  return t

/-- Takes a value of a given width off the stack. -/
def popSlots (slots : Nat) : Step NamedType := do
  let t ← popAny
  if t.slots = slots then return t else throw (.unexpectedWidth t.slots)

variable (p : Program)

/-- A check that is only made if the code is not trusted. -/
def check (holds : Bool) (found : NamedType) (expected : Expectation) : Step Unit :=
  if p.mode = .strict ∧ holds = false then throw (.unexpectedType found expected) else pure ()

/-- Takes a value of a kind off the stack. -/
def pop (kind : ValueKind) : Step NamedType := do
  let t ← popSlots kind.slots
  check p (VType.hasKind kind t) t (.kind kind)
  return t

/-- Takes a reference to an array of primitive elements off the stack. -/
def popArray (elements : PrimitiveArray) : Step Unit := do
  let t ← pop p .reference
  let fits : Bool :=
    match t with
    | .null => true
    | .object cls => cls ∈ elements.descriptors
    | _ => false
  check p fits t (.array elements)

/-- The value of a local variable. -/
def readLocal (index : UInt16) (kind : ValueKind) : Step NamedType := do
  let locals := (← get).locals
  match locals[index.toNat]? with
  | none => throw (.invalidLocal index)
  | some t =>
    if kind.slots = 2 ∧ locals.length ≤ index.toNat + 1 then throw (.invalidLocal index)
    check p (VType.hasKind kind t) t (.kind kind)
    return if kind = .reference ∧ t.isReference then t else VType.ofKind kind

/-- Pushes the value of a local variable. -/
def load (index : UInt16) (kind : ValueKind) : Step Unit := do push (← readLocal p index kind)

/-- Takes a value off the stack and stores it in a local variable. -/
def store (index : UInt16) (kind : ValueKind) : Step Unit := do
  let t ← pop p kind
  modify fun f => { f with locals := Frame.store f.locals index.toNat t }

/-- The type of the elements of an array of references. -/
def componentType (t : NamedType) : Step NamedType := do
  let other : Step NamedType := do
    check p false t .arrayOfReferences
    return .object rootClass
  match t with
  | .null => return .null
  | .object cls =>
    match cls.toList with
    | '[' :: '[' :: rest => return .object (String.ofList ('[' :: rest))
    | '[' :: 'L' :: rest =>
      if rest.getLast? = some ';' then return .object (String.ofList rest.dropLast) else other
    | _ => other
  | _ => other

/-- What an object is once its constructor has run, if it is a fresh one. -/
def constructed? (receiver : NamedType) : Step (Option NamedType) :=
  match receiver with
  | .freshThis => return some (.object p.method.cls)
  | .fresh site =>
    match p.nodes[site]? with
    | some (.instr (.type op cls)) =>
      if op = Opcode.new then return some (.object cls)
      else throw (.unexpectedType receiver .resultOfNew)
    | _ => throw (.unexpectedType receiver .resultOfNew)
  | _ => do
    check p false receiver .freshObject
    return none

/-- Marks an object whose constructor has run, wherever it stands. -/
def construct (receiver : NamedType) : Step Unit := do
  match ← constructed? p receiver with
  | some done => modify fun f => f.replace receiver done
  | none => pure ()

/-- Runs an instruction without operands. -/
def effect : Effect → Step Unit
  | .nothing => pure ()
  | .push t => push t
  | .load kind slot => load p slot kind
  | .store kind slot => store p slot kind
  | .arrayLoad elements => do
    let _ ← pop p .int
    popArray p elements
    push (VType.ofKind elements.element)
  | .arrayStore elements => do
    let _ ← pop p elements.element
    let _ ← pop p .int
    popArray p elements
  | .referenceLoad => do
    let _ ← pop p .int
    let array ← pop p .reference
    push (← componentType p array)
  | .referenceStore => do
    let _ ← pop p .reference
    let _ ← pop p .int
    let array ← pop p .reference
    let _ ← componentType p array
  | .shuffle s => do
    let f ← get
    let stack ← s.run f.stack
    set { f with stack }
  | .compute operands result => do
    operands.forM fun kind => do
      let _ ← pop p kind
    push (VType.ofKind result)
  | .returnValue kind => do
    let t ← pop p kind
    check p (p.result.map ValueKind.ofType = some kind) t .returnType
  | .returnNothing => check p p.result.isNone .top .returnValue
  | .arrayLength => do
    let _ ← pop p .reference
    push .int
  | .consume => do
    let _ ← pop p .reference

/-- The class of the values of a constant that is no number. -/
def constantClass (name : String) : NamedType := .object name

/-- The type of the field or value that a descriptor describes. -/
def described (descriptor : String) : Step FieldType :=
  match FieldType.parse? descriptor with
  | some t => return t
  | none => throw (.badDescriptor descriptor)

/-- The type of a constant of the pool. -/
def pooledType (i : PoolIndex) : Step NamedType :=
  let bad := VerifyError.badDescriptor ("constant #" ++ toString i.toNat)
  match p.pool.get i with
  | .error _ => throw bad
  | .ok c =>
    match c with
    | .integer _ => return .int
    | .float _ => return .float
    | .long _ => return .long
    | .double _ => return .double
    | .string _ => return .object "java/lang/String"
    | .classInfo _ => return .object "java/lang/Class"
    | .methodType _ => return .object "java/lang/invoke/MethodType"
    | .methodHandle .. => return .object "java/lang/invoke/MethodHandle"
    | .dynamic _ nt =>
      match p.pool.nameAndType nt with
      | .ok (_, descriptor) => do return VType.ofField (← described descriptor)
      | .error _ => throw bad
    | _ => throw bad

/-- The type of a constant. -/
def constantType : Loadable → Step NamedType
  | .int _ => return .int
  | .float _ => return .float
  | .long _ => return .long
  | .double _ => return .double
  | .string _ => return .object "java/lang/String"
  | .cls _ => return .object "java/lang/Class"
  | .methodType _ => return .object "java/lang/invoke/MethodType"
  | .handle _ => return .object "java/lang/invoke/MethodHandle"
  | .pooled i => pooledType p i

/-- The descriptor of the elements of a new array, given by their code. -/
def elementDescriptor? (code : Int32) : Option String :=
  match (code.toInt % 256).toNat with
  | 4 => some "Z"
  | 5 => some "C"
  | 6 => some "F"
  | 7 => some "D"
  | 8 => some "B"
  | 9 => some "S"
  | 10 => some "I"
  | 11 => some "J"
  | _ => none

/-- Takes the arguments of a call off the stack, the last one first. -/
def popArguments (parameters : List FieldType) : Step Unit :=
  parameters.reverse.forM fun t => do
    let _ ← pop p (.ofType t)

/-- The parameters and the result that a descriptor describes. -/
def describedMethod (descriptor : String) : Step MethodType :=
  match MethodType.parse? descriptor with
  | some m => return m
  | none => throw (.badDescriptor descriptor)

/-- Pushes the result of a call. -/
def pushResult (m : MethodType) : Step Unit :=
  match m.result with
  | some t => push (VType.ofField t)
  | none => pure ()

/-- Runs an access to a field. -/
def field (op : UInt8) (m : MemberRef) : Step Unit := do
  let t ← described m.descriptor
  if op = Opcode.getstatic then push (VType.ofField t)
  else if op = Opcode.putstatic then
    let _ ← pop p (.ofType t)
  else if op = Opcode.getfield then
    let _ ← pop p .reference
    push (VType.ofField t)
  else if op = Opcode.putfield then
    let _ ← pop p (.ofType t)
    let _ ← pop p .reference
  else throw (.unsupportedOpcode op)

/-- Runs a call of a method. -/
def call (op : UInt8) (m : MemberRef) : Step Unit := do
  let type ← describedMethod m.descriptor
  popArguments p type.parameters
  if op ≠ Opcode.invokestatic then
    let receiver ← pop p .reference
    if op = Opcode.invokespecial ∧ m.name = "<init>" then construct p receiver
  pushResult type

/-- Runs an instruction on a class; `index` is its place in the code. -/
def onClass (index : Nat) (op : UInt8) (cls : String) : Step Unit := do
  if op = Opcode.new then push (.fresh index)
  else if op = Opcode.anewarray then
    let _ ← pop p .int
    push (.object (arrayOf cls))
  else if op = Opcode.checkcast then
    let _ ← pop p .reference
    push (.object cls)
  else if op = Opcode.instanceof then
    let _ ← pop p .reference
    push .int
  else throw (.unsupportedOpcode op)

/-- Runs an access to a local variable. -/
def variableAccess (op : UInt8) (index : UInt16) : Step Unit :=
  if op = Opcode.ret then throw .subroutine
  else if Opcode.isLoad op then load p index (.ofRank (op - Opcode.iload).toNat)
  else if Opcode.isStore op then store p index (.ofRank (op - Opcode.istore).toNat)
  else throw (.unsupportedOpcode op)

/-- Runs a jump; where it goes to does not matter to the frame. -/
def jump (op : UInt8) : Step Unit := do
  if Opcode.isZeroTest op then
    let _ ← pop p .int
  else if Opcode.isIntTest op then
    let _ ← pop p .int
    let _ ← pop p .int
  else if Opcode.isReferenceTest op then
    let _ ← pop p .reference
    let _ ← pop p .reference
  else if Opcode.isNullTest op then
    let _ ← pop p .reference
  else if op = Opcode.goto ∨ op = Opcode.goto_w then pure ()
  else if op = Opcode.jsr ∨ op = Opcode.jsr_w then throw .subroutine
  else throw (.unsupportedOpcode op)

/-- Runs an instruction; `index` is its place in the code. -/
def instr {τ : Type} (index : Nat) : Instr τ → Step Unit
  | .plain op =>
    match Effect.ofOpcode? op with
    | some e => effect p e
    | none => throw (.unsupportedOpcode op)
  | .int op n =>
    if op = Opcode.bipush ∨ op = Opcode.sipush then push .int
    else if op = Opcode.newarray then do
      let _ ← pop p .int
      match elementDescriptor? n with
      | some element => push (.object ("[" ++ element))
      | none => throw (.unsupportedOpcode op)
    else throw (.unsupportedOpcode op)
  | .type op cls => onClass p index op cls
  | .var op i => variableAccess p op i
  | .increment i _ => do
    let _ ← readLocal p i .int
  | .field op m => field p op m
  | .method op m _ => call p op m
  | .load c => do push (← constantType p c)
  | .jump op _ => jump p op
  | .tableSwitch .. | .lookupSwitch .. => do
    let _ ← pop p .int
  | .newMultiArray cls n => do
    (List.replicate n.toNat ()).forM fun _ => do
      let _ ← pop p .int
    push (.object cls)
  | .invokeDynamic site => do
    let type ← describedMethod site.descriptor
    popArguments p type.parameters
    pushResult type

end Step

/-- The frame behind an instruction. -/
def Program.step {τ : Type} (p : Program) (index : Nat) (i : Instr τ) (f : Frame) :
    Except VerifyError Frame := do
  let ((), after) ← (Step.instr p index i).run f
  return after

end ClassWeave
