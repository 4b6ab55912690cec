import ClassWeave.Error

/-!
# Frames

A frame is what is known before an instruction: the type of every local variable and of every value
on the stack. Locals are counted in slots, so a wide value is followed by a slot that nothing can be
done with.
-/

namespace ClassWeave

/-- The method that some code belongs to. -/
structure MethodContext where
  cls : String
  name : String
  descriptor : String
  isStatic : Bool
deriving Repr, DecidableEq, Inhabited

structure Frame where
  /-- The local variables, slot by slot. -/
  locals : List NamedType
  /-- The stack, its top first. -/
  stack : List NamedType
deriving Repr, DecidableEq, Inhabited

namespace Frame

/-- How many slots the stack takes up. -/
def depth (f : Frame) : Nat := f.stack.foldl (fun n t => n + t.slots) 0

/-- The slots that a value takes up. -/
def slotsOf (t : NamedType) : List NamedType := if t.isWide then [t, .top] else [t]

/-- The local variable that holds `this`, if there is one. -/
def receiver (m : MethodContext) : List NamedType :=
  if m.isStatic then []
  else if m.name = "<init>" ∧ m.cls ≠ "java/lang/Object" then [.freshThis]
  else [.object m.cls]

/-- The frame at the first instruction of a method. -/
def entry (m : MethodContext) : Except VerifyError Frame :=
  match MethodType.parse? m.descriptor with
  | none => .error (.badDescriptor m.descriptor)
  | some type =>
    .ok ⟨receiver m ++ type.parameters.flatMap fun t => slotsOf (VType.ofField t), []⟩

/-- Takes slots off the back that nothing can be done with, the back being first here, except for
the second half of a wide value. -/
def trimReversed : List NamedType → List NamedType
  | .top :: t :: rest => if t.isWide then .top :: t :: rest else trimReversed (t :: rest)
  | [.top] => []
  | locals => locals

/-- Local variables without those at the end that nothing can be done with. -/
def trim (locals : List NamedType) : List NamedType := (trimReversed locals.reverse).reverse

/-- Sets the slot in front of `slot` to unusable, if it holds the first half of a wide value. -/
def breakWide (locals : List NamedType) (slot : Nat) : List NamedType :=
  match slot with
  | 0 => locals
  | before + 1 =>
    if (locals.getD before .top).isWide then locals.set before .top else locals

/-- Stores a value in a local variable. A wide value that loses one of its halves cannot be used any
more. -/
def store (locals : List NamedType) (slot : Nat) (t : NamedType) : List NamedType :=
  let padded := locals ++ List.replicate (slot + t.slots - locals.length) .top
  let stored := (breakWide padded slot).set slot t
  if t.isWide then stored.set (slot + 1) .top else stored

/-- Replaces a type wherever it stands. -/
def replace (f : Frame) (old new : NamedType) : Frame :=
  let subst (t : NamedType) := if t = old then new else t
  ⟨f.locals.map subst, f.stack.map subst⟩

end Frame
end ClassWeave
