import ClassWeave.Code.Decode
import ClassWeave.Frame.Verify
import ClassWeave.Model.Basic

/-!
# Reading a class to edit

The parts of a class file that tell something about the layout of code are either turned into
entries of the list of instructions or left out, since they have to be made anew anyway.
-/

namespace ClassWeave

namespace MethodBody

/-- Attributes of code that do not survive a new layout. -/
def layoutAttributes : List String :=
  ["LineNumberTable", "StackMapTable", "LocalVariableTable", "LocalVariableTypeTable",
    "RuntimeVisibleTypeAnnotations", "RuntimeInvisibleTypeAnnotations"]

/-- Takes the line numbers out of the attributes of some code. The attributes kept so far are kept
last first. -/
def sortAttributesOnto (pool : Pool) (lines : List LineEntry) (kept : List Attribute) :
    List Attribute → ClassResult (List LineEntry × List Attribute)
  | [] => .ok (lines, kept.reverse)
  | a :: rest => do
    let name ← pool.utf8 a.name
    if name = LineEntry.tableName then
      let more ← ClassError.reading LineEntry.tableReader a.info
      sortAttributesOnto pool (lines ++ more) kept rest
    else if name ∈ layoutAttributes then sortAttributesOnto pool lines kept rest
    else sortAttributesOnto pool lines (a :: kept) rest

/-- The code of a method to edit. -/
def ofAttribute (links : Links) (code : CodeAttribute) : ClassResult MethodBody := do
  let (lines, attributes) ← sortAttributesOnto links.pool [] [] code.attributes
  let sorted := lines.mergeSort fun a b => a.start ≤ b.start
  let (list, _) ← Code.decode ⟨links.pool, links.bootstraps⟩ code.code code.handlers sorted
  return ⟨list, code.maxStack, code.maxLocals, attributes⟩

end MethodBody

/-- A field to edit. -/
def FieldModel.ofInfo (pool : Pool) (info : MemberInfo) : ClassResult FieldModel := do
  let name ← pool.utf8 info.name
  let descriptor ← pool.utf8 info.descriptor
  return ⟨info.access, name, descriptor, info.attributes⟩

namespace MethodModel

/-- Takes the code out of the attributes of a method. The attributes kept so far are kept last
first. -/
def sortAttributesOnto (links : Links) (body : Option MethodBody) (kept : List Attribute) :
    List Attribute → ClassResult (Option MethodBody × List Attribute)
  | [] => .ok (body, kept.reverse)
  | a :: rest => do
    if (← links.pool.utf8 a.name) = CodeAttribute.name then
      let code ← ClassError.reading CodeAttribute.reader a.info
      let body ← MethodBody.ofAttribute links code
      sortAttributesOnto links (some body) kept rest
    else sortAttributesOnto links body (a :: kept) rest

/-- A method to edit. -/
def ofInfo (links : Links) (info : MemberInfo) : ClassResult MethodModel := do
  let name ← links.pool.utf8 info.name
  let descriptor ← links.pool.utf8 info.descriptor
  let (body, attributes) ← sortAttributesOnto links none [] info.attributes
  return ⟨info.access, name, descriptor, body, attributes⟩

end MethodModel

namespace ClassModel

/-- Takes the bootstrap methods out of the attributes of a class. The attributes kept so far are
kept last first. -/
def sortAttributesOnto (pool : Pool) (bootstraps : List BootstrapMethod) (kept : List Attribute) :
    List Attribute → ClassResult (List BootstrapMethod × List Attribute)
  | [] => .ok (bootstraps, kept.reverse)
  | a :: rest => do
    if (← pool.utf8 a.name) = BootstrapMethod.tableName then
      let bootstraps ← ClassError.reading BootstrapMethod.tableReader a.info
      sortAttributesOnto pool bootstraps kept rest
    else sortAttributesOnto pool bootstraps (a :: kept) rest

/-- The class that a class file holds. -/
def ofClassFile (c : ClassFile) : ClassResult ClassModel := do
  let pool := c.pool
  let name ← pool.className c.this
  let super ← pool.optionalClass c.super
  let interfaces ← c.interfaces.mapM pool.className
  let (bootstraps, attributes) ← sortAttributesOnto pool [] [] c.attributes
  let links : Links := ⟨pool, bootstraps.toArray⟩
  let fields ← c.fields.mapM (FieldModel.ofInfo pool)
  let methods ← c.methods.mapM (MethodModel.ofInfo links)
  return ⟨c.version, c.access, name, super, interfaces, fields, methods, attributes, links⟩

/-- The class that bytes stand for. -/
def parse (bytes : List UInt8) : ClassResult ClassModel := do
  ofClassFile (← ClassFile.parse bytes)

end ClassModel
end ClassWeave
