import ClassWeave.Constant.Pool

/-!
# Asking for constants

`Interning` computations ask a pool for constants by what they mean. What a computation adds stays
in the pool even if it fails later on; a failure means that a constant is missing and has no place.
-/

namespace ClassWeave

/-- Computations on a pool that may fail and keep what they added. -/
abbrev Interning (α : Type) := ExceptT ClassError (StateM Pool) α

namespace Interning

/-- Runs a computation on a pool. -/
def on {α : Type} (x : Interning α) (p : Pool) : ClassResult α × Pool := x.run.run p

/-- What can be read off the pool as it is. -/
def ofPool {α : Type} (f : Pool → ClassResult α) : Interning α :=
  ExceptT.mk fun p => (f p, p)

/-- The index of a constant, which is added if it is not there. -/
def intern (c : Constant) : Interning PoolIndex :=
  ExceptT.mk fun p =>
    match p.index[c]? with
    | some i => (.ok i, p)
    | none =>
      if p.hasRoom c then
        let (i, p) := p.add c
        (.ok i, p)
      else (.error (.poolOverflow c p.count), p)

def utf8 (text : String) : Interning PoolIndex := intern (.utf8 text)

/-- A class by name, or an array class by descriptor. -/
def cls (name : String) : Interning PoolIndex := do intern (.classInfo (← utf8 name))

def string (text : String) : Interning PoolIndex := do intern (.string (← utf8 text))

def integer (n : Int32) : Interning PoolIndex := intern (.integer n)

def float (bits : UInt32) : Interning PoolIndex := intern (.float bits)

def long (n : Int64) : Interning PoolIndex := intern (.long n)

def double (bits : UInt64) : Interning PoolIndex := intern (.double bits)

def nameAndType (name descriptor : String) : Interning PoolIndex := do
  let name ← utf8 name
  let descriptor ← utf8 descriptor
  intern (.nameAndType name descriptor)

def fieldRef (m : MemberRef) : Interning PoolIndex := do
  let owner ← cls m.owner
  let nt ← nameAndType m.name m.descriptor
  intern (.fieldRef owner nt)

def methodRef (m : MemberRef) (isInterface : Bool) : Interning PoolIndex := do
  let owner ← cls m.owner
  let nt ← nameAndType m.name m.descriptor
  intern (.methodRef owner nt isInterface)

def methodHandle (kind : HandleKind) (member : PoolIndex) : Interning PoolIndex :=
  intern (.methodHandle kind member)

def methodType (descriptor : String) : Interning PoolIndex := do
  intern (.methodType (← utf8 descriptor))

def invokeDynamic (bootstrap : UInt16) (name descriptor : String) : Interning PoolIndex := do
  intern (.invokeDynamic bootstrap (← nameAndType name descriptor))

/-- A method handle and the member that it refers to. -/
def handle (h : Handle) : Interning PoolIndex := do
  let member ← if h.kind.isField then fieldRef h.member else methodRef h.member h.isInterface
  methodHandle h.kind member

/-- A constant to load. One that names an index has to be there. -/
def loadable : Loadable → Interning PoolIndex
  | .int n => integer n
  | .float bits => float bits
  | .long n => long n
  | .double bits => double bits
  | .string text => string text
  | .cls name => cls name
  | .methodType descriptor => methodType descriptor
  | .handle h => handle h
  | .pooled i => do
    let _ ← ofPool (·.get i)
    pure i

end Interning
end ClassWeave
