import ClassWeave.Constant.Basic
import ClassWeave.Decimal.Text
import ClassWeave.Text.Quoted

/-!
# Constants in messages

The detailed form of a constant that an error message shows: the kind of constant, and its parts
with the kind of index that each one is.
-/

namespace ClassWeave.Constant

/-- What an index refers to. -/
inductive IndexRole where
  | any
  | utf8
  | cls
  | nameAndType

/-- An index with what it refers to. -/
def IndexRole.show (role : IndexRole) (i : PoolIndex) : String :=
  let plain := "ConstantIndex(" ++ toString i.toNat ++ ")"
  match role with
  | .any => plain
  | .utf8 => "Utf8ConstantIndex(" ++ plain ++ ")"
  | .cls => "ClassConstantIndex(" ++ plain ++ ")"
  | .nameAndType => "NameAndTypeConstantIndex(" ++ plain ++ ")"

/-- Parts by position. -/
def call (kind : String) (parts : List String) : String :=
  kind ++ "(" ++ ", ".intercalate parts ++ ")"

/-- Parts by name. -/
def block (kind : String) (parts : List (String × String)) : String :=
  let inner := parts.map fun (name, part) => name ++ ": " ++ part
  kind ++ " \x7b " ++ ", ".intercalate inner ++ " \x7d"

/-- The detailed form of a constant. -/
def detailed : Constant → String
  | utf8 text => call "Utf8" [Quoted.encode text]
  | integer n => call "Integer" [toString n.toInt]
  | float bits => call "Float" [Decimal.Style.marked.float .single bits.toNat]
  | long n => call "Long" [toString n.toInt]
  | double bits => call "Double" [Decimal.Style.marked.float .double bits.toNat]
  | classInfo name => call "Class" [IndexRole.utf8.show name]
  | string text => call "String" [IndexRole.utf8.show text]
  | fieldRef owner nt => call "FieldRef" [IndexRole.cls.show owner, IndexRole.nameAndType.show nt]
  | methodRef owner nt isInterface =>
    block "MethodRef" [("class", IndexRole.cls.show owner),
      ("name_and_type", IndexRole.nameAndType.show nt), ("is_interface", toString isInterface)]
  | nameAndType name descriptor =>
    block "NameAndType" [("name", IndexRole.utf8.show name),
      ("descriptor", IndexRole.utf8.show descriptor)]
  | methodHandle kind member =>
    block "MethodHandle" [("handle_kind", kind.name), ("member", IndexRole.any.show member)]
  | methodType descriptor => block "MethodType" [("descriptor", IndexRole.utf8.show descriptor)]
  | dynamic bootstrap nt =>
    block "Dynamic" [("bootstrap_method", toString bootstrap.toNat),
      ("name_and_type", IndexRole.nameAndType.show nt)]
  | invokeDynamic bootstrap nt =>
    block "InvokeDynamic" [("bootstrap_method", toString bootstrap.toNat),
      ("name_and_type", IndexRole.nameAndType.show nt)]
  | moduleInfo name => call "Module" [IndexRole.utf8.show name]
  | packageInfo name => call "Package" [IndexRole.utf8.show name]

end ClassWeave.Constant
