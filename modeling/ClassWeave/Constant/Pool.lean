import Std.Data.HashMap
import ClassWeave.Constant.Codec
import ClassWeave.Error

/-!
# The table of constants

A pool only grows: a constant keeps the index that it got when it was added, and the constants of a
class that was read keep theirs, so that attributes that are never taken apart stay valid. Asking
for a constant gives the index of its first occurrence, and adds it only if there is none.
-/

namespace ClassWeave

structure Pool where
  constants : SlotVec Constant
  /-- The first occurrence of every constant. -/
  index : Std.HashMap Constant PoolIndex

namespace Pool

/-- No constants. Index 0 is never used. -/
def empty : Pool := ⟨.empty 1, ∅⟩

instance : Inhabited Pool := ⟨empty⟩

variable (p : Pool)

/-- The first index that is not taken. -/
def count : Nat := p.constants.next

/-- The constants with their indices. -/
def entries : List (Nat × Constant) := p.constants.entries

/-- There is a place for a constant. No constant reaches index 65535. -/
def hasRoom (c : Constant) : Bool := p.count + c.slots ≤ 65535

/-- Puts a constant behind the others. -/
def add (c : Constant) : PoolIndex × Pool :=
  let i := UInt16.ofNat p.count
  (i, { constants := p.constants.push c, index := p.index.insertIfNew c i })

/-- Puts a constant behind the others, if there is a place for it. -/
def push (c : Constant) : ClassResult (PoolIndex × Pool) :=
  if p.hasRoom c then .ok (p.add c) else .error (.poolOverflow c p.count)

/-! ## Looking constants up -/

/-- The constant at an index. -/
def get (i : PoolIndex) : ClassResult Constant :=
  match p.constants.get? i.toNat with
  | some c => .ok c
  | none => .error (.badConstant i .any)

/-- The text at an index. -/
def utf8 (i : PoolIndex) : ClassResult String := do
  match ← p.get i with
  | .utf8 text => .ok text
  | _ => .error (.badConstant i .utf8)

/-- The name of the class at an index, or the descriptor of an array class. -/
def className (i : PoolIndex) : ClassResult String := do
  match ← p.get i with
  | .classInfo name => p.utf8 name
  | _ => .error (.badConstant i .cls)

/-- The name of the class at an index, if there is one; index 0 stands for none. -/
def optionalClass (i : PoolIndex) : ClassResult (Option String) :=
  if i = 0 then pure none else some <$> p.className i

/-- The name and the descriptor at an index. -/
def nameAndType (i : PoolIndex) : ClassResult (String × String) := do
  match ← p.get i with
  | .nameAndType name descriptor =>
    let name ← p.utf8 name
    let descriptor ← p.utf8 descriptor
    .ok (name, descriptor)
  | _ => .error (.badConstant i .nameAndType)

/-- The member of a class, given the indices of its parts. -/
def member (owner nt : PoolIndex) : ClassResult MemberRef := do
  let owner ← p.className owner
  let (name, descriptor) ← p.nameAndType nt
  .ok ⟨owner, name, descriptor⟩

/-- The field or method at an index, and whether its owner is an interface. -/
def memberRef (i : PoolIndex) : ClassResult (MemberRef × Bool) := do
  match ← p.get i with
  | .fieldRef owner nt => return (← p.member owner nt, false)
  | .methodRef owner nt isInterface => return (← p.member owner nt, isInterface)
  | _ => .error (.badConstant i .member)

/-- The method handle at an index. -/
def handle (i : PoolIndex) : ClassResult Handle := do
  match ← p.get i with
  | .methodHandle kind member =>
    let (member, isInterface) ← p.memberRef member
    .ok ⟨kind, member, isInterface⟩
  | _ => .error (.badConstant i .handle)

/-- The constant at an index as one that can be loaded. -/
def loadable (i : PoolIndex) : ClassResult Loadable := do
  match ← p.get i with
  | .integer n => .ok (.int n)
  | .float bits => .ok (.float bits)
  | .long n => .ok (.long n)
  | .double bits => .ok (.double bits)
  | .string text => return .string (← p.utf8 text)
  | .classInfo name => return .cls (← p.utf8 name)
  | .methodType descriptor => return .methodType (← p.utf8 descriptor)
  | .methodHandle .. => return .handle (← p.handle i)
  | .dynamic .. => .ok (.pooled i)
  | _ => .error (.badConstant i .loadable)

/-- Loading the constant pushes a value of two slots. -/
def isWide : Loadable → ClassResult Bool
  | .long _ | .double _ => .ok true
  | .pooled i => do
    match ← p.get i with
    | .long _ | .double _ => .ok true
    | .dynamic _ nt =>
      let (_, descriptor) ← p.nameAndType nt
      .ok (descriptor == "J" || descriptor == "D")
    | _ => .ok false
  | _ => .ok false

/-! ## As bytes -/

/-- The written form: the count, and the constants in order. -/
def encode : List UInt8 :=
  Bytes.u16 (UInt16.ofNat p.count) ++ p.constants.values.flatMap Constant.encode

/-- Reads constants until a pool has a given count; every constant takes at least one place, so
`fuel` places are enough. -/
def readUpTo (count : Nat) : Nat → Pool → Reader Pool
  | 0, p => pure p
  | fuel + 1, p =>
    if p.count < count then do
      let c ← Constant.reader
      match p.push c with
      | .ok (_, p) => readUpTo count fuel p
      | .error _ => throw .poolTooLong
    else pure p

/-- Reads a pool. -/
def reader : Reader Pool := do
  let count ← Reader.u16
  let p ← readUpTo count.toNat count.toNat empty
  if p.count = count.toNat then pure p else throw .poolOverrun

end Pool
end ClassWeave
