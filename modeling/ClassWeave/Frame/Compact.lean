import ClassWeave.ClassFile.StackMap
import ClassWeave.Constant.Intern
import ClassWeave.Frame.Basic

/-!
# Frames in a class file

In a class file a wide local variable takes up one entry instead of two, and unusable ones at the
end are left out. Frames are stored as differences: `StackMapFrame.between` gives the shortest
difference between two frames, and `CompactFrame.follow` applies one.
-/

namespace ClassWeave

/-- A frame with one entry for every value, the bottom of the stack first. -/
structure CompactFrame (τ : Type) where
  locals : List τ
  stack : List τ
deriving Repr, DecidableEq, Inhabited

/-- A frame in terms of indices and offsets. -/
abbrev RawFrame := CompactFrame RawType

/-- A frame in terms of names and offsets. -/
abbrev NamedFrame := CompactFrame NamedType

namespace Frame

/-- Leaves out the second halves of wide values. The values found so far are kept last first. -/
def wholeOnto (found : List NamedType) : List NamedType → List NamedType
  | [] => found
  | t :: rest =>
    if t.isWide then
      match rest with
      | [] => t :: found
      | _ :: rest => wholeOnto (t :: found) rest
    else wholeOnto (t :: found) rest

/-- Local variables with one entry for every value, without the unusable ones at the end. -/
def compactLocals (locals : List NamedType) : List NamedType :=
  ((wholeOnto [] locals).dropWhile (· == .top)).reverse

/-- The frame with one entry for every value. -/
def compact (f : Frame) : NamedFrame := ⟨compactLocals f.locals, f.stack.reverse⟩

end Frame

namespace CompactFrame

/-- Replaces every type in a computation, that of the local variables first. -/
def mapM {m : Type → Type} [Monad m] {τ τ' : Type} (f : τ → m τ') (c : CompactFrame τ) :
    m (CompactFrame τ') := do
  let locals ← c.locals.mapM f
  let stack ← c.stack.mapM f
  return ⟨locals, stack⟩

/-- The offset of the instruction that made a fresh object. -/
def freshOffset (offset? : Nat → Option Nat) (i : Nat) : ClassResult Nat :=
  match offset? i with
  | some offset => .ok offset
  | none => .error (.malformed (.missingNew i))

/-- The frame in terms of names and offsets. -/
def relocate (offset? : Nat → Option Nat) (c : NamedFrame) : ClassResult NamedFrame :=
  c.mapM (VType.mapM pure (freshOffset offset?))

/-- The frame in terms of indices and offsets; its classes are added to the pool. -/
def intern (offset? : Nat → Option Nat) (c : NamedFrame) : Interning RawFrame :=
  c.mapM (VType.mapM .cls fun i => .ofPool fun _ =>
    (freshOffset offset? i).map UInt16.ofNat)

/-- The difference from one frame to another. Only if there is no shorter one are all types listed.
-/
def difference (delta : UInt16) (previous next : RawFrame) : StackMapFrame :=
  let before := previous.locals.length
  let after := next.locals.length
  let full := StackMapFrame.full delta next.locals next.stack
  match next.stack with
  | [] =>
    if next.locals = previous.locals then .same delta
    else if after ≤ before ∧ before - after ≤ 3 ∧ next.locals.isPrefixOf previous.locals then
      .chop delta (UInt8.ofNat (before - after))
    else if before ≤ after ∧ after - before ≤ 3 ∧ previous.locals.isPrefixOf next.locals then
      .append delta (next.locals.drop before)
    else full
  | [t] => if next.locals = previous.locals then .sameOne delta t else full
  | _ => full

/-- Puts the difference to the frame behind those found so far, which are kept last first. The first
frame of a table counts its offset from the start of the code, all others from behind the frame
before. -/
def tableOnto (found : List StackMapFrame) (previous : RawFrame) (last : Option Nat) :
    List (Nat × RawFrame) → List StackMapFrame
  | [] => found.reverse
  | (offset, c) :: rest =>
    let delta := last.elim offset fun l => offset - l - 1
    tableOnto (difference (UInt16.ofNat delta) previous c :: found) c (some offset) rest

/-- The table of frames at ascending offsets, given the frame at entry. -/
def table (entry : RawFrame) (frames : List (Nat × RawFrame)) : List StackMapFrame :=
  tableOnto [] entry none frames

/-- A stored type in terms of names and offsets. -/
def resolve (pool : Pool) : RawType → ClassResult NamedType :=
  VType.mapM pool.className fun offset => pure offset.toNat

/-- The frame that a difference leads to. -/
def follow (pool : Pool) (previous : NamedFrame) : StackMapFrame → ClassResult NamedFrame
  | .same _ => .ok ⟨previous.locals, []⟩
  | .sameOne _ t => return ⟨previous.locals, [← resolve pool t]⟩
  | .chop _ k =>
    if k.toNat ≤ previous.locals.length then
      .ok ⟨previous.locals.take (previous.locals.length - k.toNat), []⟩
    else .error (.malformed .chopTooMany)
  | .append _ ts => return ⟨previous.locals ++ (← ts.mapM (resolve pool)), []⟩
  | .full _ locals stack => do
    let locals ← locals.mapM (resolve pool)
    return ⟨locals, ← stack.mapM (resolve pool)⟩

/-- Puts the frames of a table behind those found so far, which are kept last first. -/
def readOnto (pool : Pool) (found : List (Nat × NamedFrame)) (previous : NamedFrame)
    (last : Option Nat) : List StackMapFrame → ClassResult (List (Nat × NamedFrame))
  | [] => .ok found.reverse
  | d :: rest => do
    let c ← follow pool previous d
    let offset := last.elim d.delta.toNat fun l => l + d.delta.toNat + 1
    readOnto pool ((offset, c) :: found) c (some offset) rest

/-- The frames of a table with their offsets, given the frame at entry. -/
def ofTable (pool : Pool) (entry : NamedFrame) (table : List StackMapFrame) :
    ClassResult (List (Nat × NamedFrame)) :=
  readOnto pool [] entry none table

/-- Local variables slot by slot. -/
def slots (locals : List NamedType) : List NamedType := locals.flatMap Frame.slotsOf

end CompactFrame
end ClassWeave
