import ClassWeave.ClassFile.Attribute
import ClassWeave.Constant.Intern

/-!
# Linking call sites

A call site refers to an entry of the class's table of bootstrap methods. `Linking` computations
add constants to a pool and entries to that table; equal entries are shared.
-/

namespace ClassWeave

/-- What the code of a class refers to. -/
structure Links where
  pool : Pool
  bootstraps : Array BootstrapMethod

instance : Inhabited Links := ⟨⟨default, #[]⟩⟩

/-- Computations that may fail and keep what they added. -/
abbrev Linking (α : Type) := ExceptT ClassError (StateM Links) α

namespace Linking

/-- Runs a computation. -/
def on {α : Type} (x : Linking α) (s : Links) : ClassResult α × Links := x.run.run s

/-- A computation on the pool alone. -/
def ofInterning {α : Type} (x : Interning α) : Linking α :=
  ExceptT.mk fun ⟨pool, bootstraps⟩ =>
    let (result, pool) := x.on pool
    (result, ⟨pool, bootstraps⟩)

/-- A class that may be missing, which index 0 stands for. -/
def optionalClass : Option String → Linking PoolIndex
  | some name => ofInterning (.cls name)
  | none => pure 0

/-- What can fail without looking anything up. -/
def ofResult {α : Type} (x : ClassResult α) : Linking α := ExceptT.mk fun s => (x, s)

/-- The place of an entry in the table of bootstrap methods, which is added if it is not there. -/
def bootstrapPosition (entry : BootstrapMethod) : Linking Nat :=
  ExceptT.mk fun ⟨pool, bootstraps⟩ =>
    match bootstraps.findIdx? (· == entry) with
    | some i => (.ok i, ⟨pool, bootstraps⟩)
    | none => (.ok bootstraps.size, ⟨pool, bootstraps.push entry⟩)

/-- The constant of a call site. -/
def callSite (site : CallSite) : Linking PoolIndex := do
  let handle ← ofInterning (.handle site.bootstrap)
  let arguments ← ofInterning (site.arguments.mapM .loadable)
  let position ← bootstrapPosition ⟨handle, arguments⟩
  if position ≤ 65535 then
    ofInterning (.invokeDynamic (UInt16.ofNat position) site.name site.descriptor)
  else throw (.malformed .tooManyBootstrapMethods)

end Linking
end ClassWeave
