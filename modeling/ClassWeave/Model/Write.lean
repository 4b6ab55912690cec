import ClassWeave.Code.Encode
import ClassWeave.Frame.Analysis
import ClassWeave.Frame.Compact
import ClassWeave.Model.Basic

/-!
# Writing a class

Writing lays the code of every method out anew. The frames of the code are found first; instructions
that are never reached have none and are left out. A frame is stored wherever control comes
by a jump or an exception. All constants are added behind those that are there.
-/

namespace ClassWeave

/-- An attribute with a name and bytes. The name is asked for first. -/
def Interning.attribute (name : String) (info : Except FormatError (List UInt8)) :
    Interning Attribute := do
  let i ← utf8 name
  match info with
  | .ok bytes => return ⟨i, bytes⟩
  | .error e => throw (.format e)

/-- What the code of a method is written with. -/
structure WriteContext where
  method : MethodContext
  hierarchy : Hierarchy
  hasStackMaps : Bool

namespace WriteContext

open Linking

variable (ctx : WriteContext)

/-- The frames of some code, which is taken to be sound. -/
def analysis (l : InstrList) : Linking Analysis :=
  ExceptT.mk fun s => (analyze ctx.method l s.pool ctx.hierarchy .lenient, s)

/-- An instruction that is never reached. -/
def isDead (frames : Array (Option Frame)) (i : Nat) (n : Node) : Bool :=
  n.isReal && frames[i]?.join.isNone

/-- The code without the instructions that are never reached, and its frames. -/
def prune (l : InstrList) : Linking (InstrList × Analysis) := do
  let a ← ctx.analysis l
  if l.nodes.toList.zipIdx.any fun (n, i) => isDead a.frames i n then
    let pruned := l.filterIdx fun i n => !isDead a.frames i n
    return (pruned, ← ctx.analysis pruned)
  else return (l, a)

/-- The entry of an exception table for a block, unless its range is empty. -/
def handlerEntry (e : Code.Encoded) (b : TryBlock) : Linking (Option HandlerEntry) := do
  let start ← ofResult (e.labelOffset b.start)
  let stop ← ofResult (e.labelOffset b.stop)
  if stop ≤ start then return none
  let catchType ← optionalClass b.catchType
  let handler ← ofResult (e.labelOffset b.handler)
  return some ⟨UInt16.ofNat start, UInt16.ofNat stop, UInt16.ofNat handler, catchType⟩

/-- The entries that are stored, each with the label of its handler. -/
def keptEntries (entries : List (Option HandlerEntry × Label)) : List (HandlerEntry × Label) :=
  entries.filterMap fun (entry, handler) => entry.map (·, handler)

/-- An attribute with a name and bytes. -/
def namedAttribute (name : String) (info : Except FormatError (List UInt8)) : Linking Attribute :=
  ofInterning (.attribute name info)

/-- The frame at an entry and its offset, unless there is a frame at that offset already. -/
def addFrame (l : InstrList) (a : Analysis) (e : Code.Encoded)
    (frames : Std.HashMap Nat RawFrame) (i : Nat) : Linking (Std.HashMap Nat RawFrame) := do
  match e.offsets[i]? with
  | none => throw (.malformed (.frameBeyondCode i))
  | some offset =>
    if frames.contains offset then return frames
    match a.frameAt? l.nodes i with
    | none => throw (.malformed (.noInstructionAfter i))
    | some f =>
      let raw ← ofInterning (f.compact.intern fun j => e.offsets[j]?)
      return frames.insert offset raw

/-- The entries that need a frame: those behind wide conditional jumps, the handlers of ranges that
are not empty, and the targets of jumps and switches. -/
def framePoints (l : InstrList) (e : Code.Encoded) (handlers : List Label) :
    ClassResult (List Nat) := do
  let positions := l.labelPositions
  let labels := handlers ++ l.nodes.toList.flatMap Node.targets
  return e.wideFallthroughs ++ (← labels.mapM (FlowGraph.position positions))

/-- The attribute that stores the frames of some code, unless it needs none. -/
def stackMap (l : InstrList) (a : Analysis) (e : Code.Encoded) (handlers : List Label) :
    Linking (List Attribute) := do
  let points ← ofResult (framePoints l e handlers)
  let frames ← points.foldlM (addFrame l a e) ∅
  if frames.isEmpty then return []
  let entry ← ofResult (FlowGraph.failure 0 (Frame.entry ctx.method))
  let entry ← ofInterning (entry.compact.intern fun j => e.offsets[j]?)
  let sorted := frames.toList.mergeSort fun x y => x.1 ≤ y.1
  let table := CompactFrame.table entry sorted
  return [← namedAttribute StackMapFrame.tableName (StackMapFrame.encodeTable table)]

/-- The attribute that stores line numbers, unless there are none. -/
def lineTable (lines : List LineEntry) : Linking (List Attribute) := do
  if lines.isEmpty then return []
  return [← namedAttribute LineEntry.tableName (.ok (LineEntry.encodeTable lines))]

/-- A size that has to fit into two bytes. -/
def sized (n : Nat) (e : Nat → ClassError) : Linking UInt16 :=
  if n ≤ 65535 then return UInt16.ofNat n else throw (e n)

/-- The code of a method as an attribute. -/
def code (body : MethodBody) : Linking CodeAttribute := do
  let (l, a) ← ctx.prune body.list
  let e ← Code.encode l.nodes.toList l.labelCount
  let entries ← l.blocks.mapM fun b => do return (← handlerEntry e b, b.handler)
  let kept := keptEntries entries
  let maxStack ← sized a.maxStack .maxStackTooLarge
  let maxLocals ← sized a.maxLocals .maxLocalsTooLarge
  let lines ← lineTable e.lines
  let frames ← if ctx.hasStackMaps then ctx.stackMap l a e (kept.map Prod.snd) else pure []
  return ⟨maxStack, maxLocals, e.bytes, kept.map Prod.fst, lines ++ frames ++ body.attributes⟩

end WriteContext

namespace ClassModel

open Linking

variable (h : Hierarchy) (c : ClassModel)

/-- A field in terms of indices. -/
def writeField (f : FieldModel) : Linking MemberInfo := do
  let name ← ofInterning (.utf8 f.name)
  let descriptor ← ofInterning (.utf8 f.descriptor)
  return ⟨f.access, name, descriptor, f.attributes⟩

/-- A method in terms of indices. -/
def writeMethod (m : MethodModel) : Linking MemberInfo := do
  let name ← ofInterning (.utf8 m.name)
  let descriptor ← ofInterning (.utf8 m.descriptor)
  let code ← match m.body with
    | none => pure []
    | some body => do
      let method : MethodContext := ⟨c.name, m.name, m.descriptor, m.isStatic⟩
      let code ← WriteContext.code ⟨method, h, c.version.hasStackMaps⟩ body
      pure [← WriteContext.namedAttribute CodeAttribute.name (.ok code.encode)]
  return ⟨m.access, name, descriptor, code ++ m.attributes⟩

/-- The attribute that stores the bootstrap methods, unless there are none. -/
def bootstrapTable : Linking (List Attribute) := do
  let table := (← get).bootstraps
  if table.isEmpty then return []
  return [← WriteContext.namedAttribute BootstrapMethod.tableName
    (.ok (BootstrapMethod.encodeTable table.toList))]

/-- The class in terms of indices, its pool apart. -/
def write : Linking ClassFile := do
  let this ← ofInterning (.cls c.name)
  let super ← optionalClass c.super
  let interfaces ← ofInterning (c.interfaces.mapM .cls)
  let fields ← c.fields.mapM writeField
  let methods ← c.methods.mapM (c.writeMethod h)
  let attributes := c.attributes ++ (← bootstrapTable)
  return ⟨c.version, .empty, c.access, this, super, interfaces, fields, methods, attributes⟩

/-- The class file of a class. -/
def toClassFile : ClassResult ClassFile :=
  match (c.write h).on c.links with
  | (.ok file, links) => .ok { file with pool := links.pool }
  | (.error e, _) => .error e

/-- The bytes of a class. -/
def toBytes : ClassResult (List UInt8) := do return (← c.toClassFile h).encode

end ClassModel
end ClassWeave
