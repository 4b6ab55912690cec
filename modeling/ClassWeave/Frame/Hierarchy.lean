import Std.Data.HashMap

/-!
# Super classes

When values of two classes meet, the class that they have in common has to be known. A hierarchy
answers that question: it knows nothing, or it has a table that gives some classes their super
class, or it finds its answer in some other way. A class that is not in the table is taken for a
direct subclass of the root class.
-/

namespace ClassWeave

/-- The class that all others come from. -/
def rootClass : String := "java/lang/Object"

/-- Classes with their super class. -/
abbrev SuperTable := Std.HashMap String String

namespace SuperTable

/-- A class and its super classes in order, up to one that is not in the table or is among those
seen so far. -/
def chain (table : SuperTable) (seen : List String) (cls : String) : Nat → List String
  | 0 => [cls]
  | fuel + 1 =>
    match table[cls]? with
    | none => [cls]
    | some parent =>
      if parent ∈ seen then [cls] else cls :: chain table (parent :: seen) parent fuel

/-- A class and all of its super classes. No class comes twice, so the chain has at most one class
more than the table has entries. -/
def ancestors (table : SuperTable) (cls : String) : List String :=
  chain table [cls] cls table.size

/-- The first class in the chain of `b` that is also in that of `a`. -/
def commonSuper (table : SuperTable) (a b : String) : String :=
  let first := table.ancestors a
  ((table.ancestors b).find? fun cls => cls ∈ first).getD rootClass

end SuperTable

inductive Hierarchy where
  /-- Nothing is known, so all classes meet at the root class. -/
  | unknown
  | known (table : SuperTable)
  | other (commonSuper : String → String → String)

namespace Hierarchy

instance : Inhabited Hierarchy := ⟨unknown⟩

/-- A class that two classes have in common. -/
def commonSuper : Hierarchy → String → String → String
  | unknown, _, _ => rootClass
  | known table, a, b => table.commonSuper a b
  | other commonSuper, a, b => commonSuper a b

end Hierarchy
end ClassWeave
