import ClassWeave.ClassFile.Basic
import ClassWeave.Code.Decode
import ClassWeave.Frame.Analysis
import ClassWeave.Frame.Compact

/-!
# Verification

Verifying a class decodes the code of every method, analyses it without trusting it, and compares
the result with what the class declares: how much room the code needs, and the frames that are
stored with it. A frame is needed wherever a jump or a handler leads to and behind every instruction
that control does not pass, and a stored frame has to accept what the code brings.
-/

namespace ClassWeave

/-- Something wrong with a method. -/
structure Finding where
  /-- The name of the method and its descriptor. -/
  method : String
  error : ClassError
deriving Repr, DecidableEq, Inhabited

def Finding.text (f : Finding) : String := f.method ++ ": " ++ f.error.message

namespace Verify

/-- A class may be a subclass of another one. The hierarchy may not know, in which case both meet at
the root class; only a lower class in common tells them apart. -/
def mayBeSubclass (h : Hierarchy) (cls super : List Char) : Bool :=
  if String.ofList cls = rootClass ∨ String.ofList super = rootClass then true
  else
    match cls, super with
    | '[' :: as, '[' :: bs =>
      match _ha : elementClass? as, elementClass? bs with
      | some x, some y => mayBeSubclass h x y
      | _, _ => as = bs
    | '[' :: _, s =>
      String.ofList s = "java/lang/Cloneable" ∨ String.ofList s = "java/io/Serializable"
    | _, '[' :: _ => false
    | c, s =>
      let common := h.commonSuper (String.ofList c) (String.ofList s)
      common = String.ofList s ∨ common = rootClass
termination_by cls.length
decreasing_by
  have := length_elementClass? ‹elementClass? as = some x›
  simp only [List.length_cons]
  omega

/-- A stored type accepts a type that the code brings. -/
def accepts (h : Hierarchy) (recorded found : NamedType) : Bool :=
  if recorded = .top ∨ found = recorded then true
  else
    match found, recorded with
    | .null, .object _ => true
    | .object c, .object d => mayBeSubclass h c.toList d.toList
    | _, _ => false

/-- Fills slots that are missing. -/
def pad (count : Nat) (locals : List NamedType) : List NamedType :=
  locals ++ List.replicate (count - locals.length) .top

/-- A stored frame accepts the frame that the analysis found. -/
def checkFrame (h : Hierarchy) (offset : Nat) (found recorded : NamedFrame) :
    Except VerifyError Unit :=
  if found.stack.length ≠ recorded.stack.length then
    .error (.frameHeight offset found.stack.length recorded.stack.length)
  else
    let ours := CompactFrame.slots found.locals
    let theirs := CompactFrame.slots recorded.locals
    let count := max ours.length theirs.length
    let pairs := (pad count ours).zip (pad count theirs) ++ found.stack.zip recorded.stack
    match pairs.find? fun (f, r) => !accepts h r f with
    | some (f, r) => .error (.frameMismatch offset f r)
    | none => .ok ()

/-- Some code, its frames, and where everything is. -/
structure Subject where
  list : InstrList
  /-- The offset of every entry. -/
  offsets : Array Nat
  codeLength : Nat
  analysis : Analysis
  hierarchy : Hierarchy

namespace Subject

variable (s : Subject)

/-- The first entry at each offset. -/
def nodeTable : Std.HashMap Nat Nat :=
  s.offsets.toList.zipIdx.foldl (fun table (offset, i) => table.insertIfNew offset i) ∅

/-- The offsets that an entry asks for a frame at. -/
def neededBy (positions : Array (Option Nat)) (n : Node) (i : Nat) : List Nat :=
  let labelOffset? (l : Label) : Option Nat := (l.position? positions).bind fun j => s.offsets[j]?
  let next := if n.isReal && !n.fallsThrough then s.offsets[i + 1]?.toList else []
  n.targets.filterMap labelOffset? ++ next.filter (· < s.codeLength)

/-- The offsets that need a frame, in ascending order. -/
def needed : List Nat :=
  let positions := s.list.labelPositions
  let labelOffset? (l : Label) : Option Nat := (l.position? positions).bind fun j => s.offsets[j]?
  let byNodes := s.list.nodes.toList.zipIdx.flatMap fun (n, i) => s.neededBy positions n i
  let byBlocks := s.list.blocks.filterMap fun b => labelOffset? b.handler
  (byNodes ++ byBlocks).mergeSort.eraseReps

/-- An error at the entry at an offset. -/
def errorAt (nodes : Std.HashMap Nat Nat) (offset : Nat) (e : VerifyError) : ClassError :=
  .verify (nodes.getD offset 0) e

/-- What is wrong with a stored frame. -/
def checkStored (nodes : Std.HashMap Nat Nat) (offset : Nat) (recorded : NamedFrame) :
    Option ClassError :=
  let misplaced := errorAt nodes 0 (.misplacedFrame offset)
  if offset < s.codeLength then
    match nodes[offset]? with
    | none => some misplaced
    | some i =>
      match s.analysis.frameAt? s.list.nodes i with
      | none => none
      | some f =>
        match f.compact.relocate fun j => s.offsets[j]? with
        | .error e => some e
        | .ok found =>
          match checkFrame s.hierarchy offset found recorded with
          | .error e => some (.verify i e)
          | .ok () => none
  else some misplaced

/-- What is wrong with the stored frames. -/
def check (recorded : List (Nat × NamedFrame)) : List ClassError :=
  let nodes := s.nodeTable
  let stored : Std.HashSet Nat := recorded.foldl (fun set (offset, _) => set.insert offset) ∅
  ((s.needed.filter fun offset => !stored.contains offset).map fun offset =>
    errorAt nodes offset (.missingFrame offset)) ++
  recorded.filterMap fun (offset, c) => s.checkStored nodes offset c

end Subject

/-- Reads every attribute with a given name, and gives the value of the last one. -/
def readAttribute {α : Type} (pool : Pool) (name : String) (r : Reader α)
    (attributes : List Attribute) : ClassResult (Option α) :=
  attributes.foldlM (fun found a => do
    if (← pool.utf8 a.name) = name then return some (← ClassError.reading r a.info)
    else return found) none

variable (c : ClassFile) (h : Hierarchy)

/-- What is wrong with the frames that are stored with some code. -/
def storedFrames (m : MethodContext) (code : CodeAttribute) (list : InstrList) (offsets : List Nat)
    (analysis : Analysis) : ClassResult (List ClassError) := do
  let table ← readAttribute c.pool StackMapFrame.tableName StackMapFrame.tableReader code.attributes
  let recorded : ClassResult (List (Nat × NamedFrame)) := do
    let entry ← FlowGraph.failure 0 (Frame.entry m)
    CompactFrame.ofTable c.pool (← entry.compact.relocate fun _ => none) (table.getD [])
  match recorded with
  | .error e => return [e]
  | .ok recorded =>
    return Subject.check ⟨list, offsets.toArray, code.code.length, analysis, h⟩ recorded

/-- What is wrong with some code. -/
def checkCode (bootstraps : Array BootstrapMethod) (m : MethodContext) (code : CodeAttribute) :
    ClassResult (List ClassError) := do
  let (list, offsets) ← Code.decode ⟨c.pool, bootstraps⟩ code.code code.handlers []
  match analyze m list c.pool h .strict with
  | .error e => return [e]
  | .ok analysis =>
    let room :=
      (if code.maxStack.toNat < analysis.maxStack then
        [.verify 0 (.maxStackExceeded code.maxStack analysis.maxStack)] else []) ++
      (if code.maxLocals.toNat < analysis.maxLocals then
        [.verify 0 (.maxLocalsExceeded code.maxLocals analysis.maxLocals)] else [])
    if c.version.hasStackMaps then
      return room ++ (← storedFrames c h m code list offsets analysis)
    else return room

/-- What is wrong with a method. -/
def checkMethod (cls : String) (bootstraps : Array BootstrapMethod) (info : MemberInfo) :
    ClassResult (List Finding) := do
  match ← readAttribute c.pool CodeAttribute.name CodeAttribute.reader info.attributes with
  | none => return []
  | some code =>
    let name ← c.pool.utf8 info.name
    let descriptor ← c.pool.utf8 info.descriptor
    let m : MethodContext := ⟨cls, name, descriptor, Access.isStatic info.access⟩
    return (← checkCode c h bootstraps m code).map fun e => ⟨name ++ descriptor, e⟩

end Verify

/-- What is wrong with a class. Only a class that cannot be read is an error. -/
def verifyClass (bytes : List UInt8) (h : Hierarchy) : ClassResult (List Finding) := do
  let c ← ClassFile.parse bytes
  let cls ← c.name
  let bootstraps ←
    Verify.readAttribute c.pool BootstrapMethod.tableName BootstrapMethod.tableReader c.attributes
  let findings ← c.methods.mapM (Verify.checkMethod c h cls (bootstraps.getD []).toArray)
  return findings.flatten

end ClassWeave
