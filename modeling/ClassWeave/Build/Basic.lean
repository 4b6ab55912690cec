import ClassWeave.Build.Condition
import ClassWeave.Build.Error
import ClassWeave.Build.Renaming
import ClassWeave.Model.Basic

/-!
# Building code

Code is built by a computation that adds one instruction after the other to a list. The computation
knows which local variable is the next free one, what names it has given to labels, variables and
handles, and what members are called in the class that the code is for. Nothing about the stack is
checked while building.

A computation that fails keeps what it built up to there, so a caller that goes on sees the list as
it was left.
-/

namespace ClassWeave

/-- A local variable and the kind of its values. -/
structure Slot where
  index : UInt16
  kind : ValueKind
deriving Repr, DecidableEq, Inhabited

/-- Code under construction. -/
structure Builder where
  list : InstrList
  /-- The next local variable to hand out. -/
  nextLocal : UInt16
  /-- The labels that were given a name, the latest first; so for slots and handles. -/
  labels : List (String × Label)
  slots : List (String × Slot)
  handles : List (String × Handle)

namespace Builder

/-- Nothing is built yet, and the locals from `firstLocal` on are free. -/
def startingAt (firstLocal : UInt16) : Builder := ⟨.empty, firstLocal, [], [], []⟩

instance : Inhabited Builder := ⟨startingAt 0⟩

/-- The first slot behind those that an instruction names. -/
def slotsUsed : Node → Nat
  | .instr (.var op i) =>
    i.toNat +
      if op = Opcode.load .long ∨ op = Opcode.load .double ∨ op = Opcode.store .long ∨
        op = Opcode.store .double then 2 else 1
  | .instr (.increment i _) => i.toNat + 1
  | _ => 0

/-- The first slot behind all that a body declares or names. -/
def MethodBody.slotsUsed (b : MethodBody) : Nat :=
  b.list.nodes.foldl (fun n node => max n (Builder.slotsUsed node)) b.maxLocals.toNat

/-- The first slot that a method leaves free: behind `this` and the parameters, and behind all that
its code declares or names. -/
def firstFree (m : MethodModel) : BuildResult Nat :=
  match MethodType.parse m.descriptor with
  | .error e => .error (.cls e)
  | .ok t =>
    let parameters := (if m.isStatic then 0 else 1) + t.parameterSlots
    .ok (max parameters (m.body.elim 0 MethodBody.slotsUsed))

/-- A builder of code that goes into a method. -/
def forMethod (m : MethodModel) : BuildResult Builder := do
  let first ← firstFree m
  if first ≤ 65535 then return startingAt (UInt16.ofNat first)
  else throw (.cls (.maxLocalsTooLarge first))

end Builder

/-- Computations that build code. -/
abbrev Build := ReaderT Renaming (ExceptT BuildError (StateM Builder))

namespace Build

/-- Runs a computation on code under construction. -/
def on {α : Type} (x : Build α) (r : Renaming) (b : Builder) : BuildResult α × Builder :=
  (x.run r).run.run b

theorem on_bind {α β : Type} {x : Build α} {f : α → Build β} {r : Renaming} {b b' : Builder} {a : α}
    (hx : x.on r b = (.ok a, b')) : (x >>= f).on r b = (f a).on r b' := by
  unfold on at hx ⊢
  simp only [ReaderT.run_bind, ExceptT.run_bind, StateT.run_bind, hx]
  rfl

/-- What is built, if all its labels are placed. -/
def listOn (x : Build Unit) (r : Renaming) (b : Builder) : BuildResult InstrList :=
  match x.on r b with
  | (.ok (), b) => b.list.finish.mapError .cls
  | (.error e, _) => .error e

/-! ## Single instructions -/

/-- Adds an entry. -/
def push (n : Node) : Build Unit := modify fun b => { b with list := b.list.push n }

/-- Adds an instruction. -/
def emit (i : Instr Label) : Build Unit := push (.instr i)

/-- Adds an instruction without operands. -/
def plain (opcode : UInt8) : Build Unit := emit (.plain opcode)

/-- Adds finished code. Its labels come behind those there are. -/
def insert (l : InstrList) : Build Unit := modify fun b => { b with list := b.list.append l }

/-- The next local variable to hand out. -/
def nextLocal : Build UInt16 := return (← get).nextLocal

/-! ## Constants -/

def load (c : Loadable) : Build Unit := emit (.load c)

/-- Loads an integer, in the shortest way but for -128. -/
def int (n : Int32) : Build Unit :=
  if -1 ≤ n.toInt ∧ n.toInt ≤ 5 then plain (UInt8.ofNat (Opcode.iconst_0.toNat + n.toInt).toNat)
  else if -127 ≤ n.toInt ∧ n.toInt ≤ 127 then emit (.int Opcode.bipush n)
  else if -32768 ≤ n.toInt ∧ n.toInt ≤ 32767 then emit (.int Opcode.sipush n)
  else load (.int n)

def long (n : Int64) : Build Unit :=
  if n = 0 ∨ n = 1 then plain (Opcode.lconst_0 + n.toInt8.toUInt8) else load (.long n)

/-- Loads a number by its bits: negative zero is not zero. -/
def float (bits : UInt32) : Build Unit :=
  if bits = 0 then plain Opcode.fconst_0
  else if bits = 0x3f800000 then plain (Opcode.fconst_0 + 1)
  else if bits = 0x40000000 then plain (Opcode.fconst_0 + 2)
  else load (.float bits)

/-- Loads a number by its bits: negative zero is not zero. -/
def double (bits : UInt64) : Build Unit :=
  if bits = 0 then plain Opcode.dconst_0
  else if bits = 0x3ff0000000000000 then plain (Opcode.dconst_0 + 1)
  else load (.double bits)

/-! ## Labels -/

/-- A label without a place. -/
def freshLabel : Build Label :=
  modifyGet fun b =>
    let (lab, l) := b.list.freshLabel
    (lab, { b with list := l })

def placeLabel (lab : Label) : Build Unit :=
  fun _ => ExceptT.mk fun b =>
    match b.list.refusal? lab with
    | some e => (.error (.cls e), b)
    | none => (.ok (), { b with list := b.list.mark lab })

def jump (c : Condition) (target : Label) : Build Unit := emit (.jump c.opcode target)

def goto (target : Label) : Build Unit := emit (.jump Opcode.goto target)

/-- Adds an exception handler inside those there are. -/
def addBlock (block : TryBlock) : Build Unit :=
  modify fun b => { b with list := b.list.addBlock block }

/-! ## Local variables -/

/-- Hands out a fresh local variable. -/
def allocate (kind : ValueKind) : Build Slot :=
  modifyGet fun b =>
    (⟨b.nextLocal, kind⟩, { b with nextLocal := b.nextLocal + UInt16.ofNat kind.slots })

def loadSlot (s : Slot) : Build Unit := emit (.var (Opcode.load s.kind) s.index)

def storeSlot (s : Slot) : Build Unit := emit (.var (Opcode.store s.kind) s.index)

/-- Moves the top of the stack to a fresh local variable. -/
def storeNew (kind : ValueKind) : Build Slot := do
  let s ← allocate kind
  storeSlot s
  return s

/-- Returns the top of the stack, or nothing. -/
def returnValue (kind : Option ValueKind) : Build Unit :=
  plain (kind.elim Opcode.vreturn Opcode.returnOf)

end Build
end ClassWeave
