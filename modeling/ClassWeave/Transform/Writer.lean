import ClassWeave.Build.Basic
import ClassWeave.Transform.Error
import ClassWeave.Transform.Settings

/-!
# Writers

A writer changes one class. The writers of a class run one after the other, each on what the one in
front has made of it. Writers are edits of a class as a whole, or inject code into one of its
methods.
-/

namespace ClassWeave

structure ClassWriter where
  /-- The internal name of the class. -/
  target : String
  apply : ClassModel → TransformResult ClassModel

/-! ## Edits -/

/-- A change of a class. -/
inductive Edit where
  | addField (field : FieldModel)
  /-- Changes nothing, but fails if there is no field with the name. -/
  | requireField (name : String)
  /-- Adds a method, unless making it failed for a reason. -/
  | addMethod (method : Except String MethodModel)
  | addInterface (name : String)
  | rename (name : String)
  | setSuper (name : Option String)
  | setVersion (major : UInt16)
  /-- Gives a method other code. -/
  | replaceCode (name descriptor : String) (list : InstrList)

namespace Edit

/-- The class after a change, or why it cannot be made. -/
def apply (c : ClassModel) : Edit → Except String ClassModel
  | addField f => .ok { c with fields := c.fields ++ [f] }
  | requireField name =>
    if c.fields.any (·.name = name) then .ok c else .error ("no field " ++ name)
  | addMethod (.ok m) => .ok { c with methods := c.methods ++ [m] }
  | addMethod (.error reason) => .error reason
  | addInterface name => .ok { c with interfaces := c.interfaces ++ [name] }
  | rename name => .ok { c with name }
  | setSuper name => .ok { c with super := name }
  | setVersion major => .ok { c with version := { c.version with major } }
  | replaceCode name descriptor list =>
    match c.method? name descriptor with
    | none => .error "no method"
    | some _ => .ok <| c.modifyMethod name descriptor fun m =>
      { m with body := some { m.body.getD .empty with list } }

end Edit

/-- The writer that makes a change. -/
def ClassWriter.ofEdit (cls : String) (e : Edit) : ClassWriter where
  target := slashed cls
  apply c := (e.apply c).mapError fun reason => .writer cls (.other reason)

/-! ## Injections -/

/-- Changes of a class in place. A change that fails leaves what was changed up to there. -/
abbrev ClassChange := ExceptT TransformError (StateM ClassModel)

/-- Makes a change. -/
def ClassChange.on {α : Type} (x : ClassChange α) (c : ClassModel) :
    TransformResult α × ClassModel :=
  x.run.run c

/-- Where code is injected. -/
inductive InjectionPoint where
  /-- In front of the first instruction. -/
  | head
  /-- In front of every return. -/
  | beforeReturn
  /-- In front of the last return. -/
  | tail
deriving Repr, DecidableEq, Inhabited

/-- The entry is a return. -/
def Node.isReturn : Node → Bool
  | .instr (.plain op) => Opcode.isReturn op
  | _ => false

/-- The places of the returns, in order. -/
def InstrList.returns (l : InstrList) : List Nat :=
  (l.nodes.toList.zipIdx.filter fun (n, _) => n.isReturn).map Prod.snd

/-- The places to inject at, in order. -/
def InjectionPoint.places (l : InstrList) : InjectionPoint → List Nat
  | head => [0]
  | beforeReturn => l.returns
  | tail => l.returns.getLast?.toList

/-- Code that goes into a method. It is built anew for every class that it is injected into. -/
structure Injection where
  /-- The method, its owner by the internal name. -/
  method : MemberRef
  point : InjectionPoint
  names : Renaming
  code : Build Unit

namespace Injection

variable (i : Injection)

/-- The code that goes into a method. -/
def build (m : MethodModel) : BuildResult InstrList := do
  i.code.listOn i.names (← Builder.forMethod m)

/-- Inserts a list into the code of the method. -/
def spliceAt (injected : InstrList) (p : Nat) : ClassChange Unit :=
  modify <| ClassModel.modifyMethod i.method.name i.method.descriptor fun m =>
    { m with body := m.body.map fun b => { b with list := b.list.splice p injected } }

/-- Injects the code. The last place comes first, so that those in front of it stay where they
are. -/
def inject : ClassChange Unit := do
  match (← get).method? i.method.name i.method.descriptor with
  | none => throw (.build (.noSuchMethod i.method))
  | some m =>
    let injected ← (i.build m).mapError TransformError.build
    let method := i.method.name ++ i.method.descriptor
    match m.body with
    | none => throw (.writer i.method.owner (.noCode method))
    | some body =>
      match i.point.places body.list with
      | [] => throw (.writer i.method.owner (.neverReturns method))
      | places => places.reverse.forM (i.spliceAt injected)

/-- A class with the code injected. -/
def apply (c : ClassModel) : TransformResult ClassModel :=
  match i.inject.on c with
  | (.ok (), c) => .ok c
  | (.error e, _) => .error e

end Injection

/-- The writer that injects code. -/
def ClassWriter.ofInjection (i : Injection) : ClassWriter where
  target := slashed i.method.owner
  apply := { i with method := { i.method with owner := slashed i.method.owner } }.apply

end ClassWeave
