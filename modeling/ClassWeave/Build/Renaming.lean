import ClassWeave.Instr.Basic

/-!
# Renamings of members

Code can be written against names that a class does not use: a renaming tells, for every member that
the code mentions, the name to write. Owners and descriptors stay as they are.
-/

namespace ClassWeave

structure Renaming where
  /-- The name to write for a field. -/
  field : MemberRef → String
  /-- The name to write for a method. -/
  method : MemberRef → String

namespace Renaming

/-- All members keep their names. -/
def identity : Renaming := ⟨MemberRef.name, MemberRef.name⟩

instance : Inhabited Renaming := ⟨identity⟩

/-- The name that a table gives a member. The last entry for a member counts; members that are
not in the table keep their names. -/
def look (table : List (MemberRef × String)) (m : MemberRef) : String :=
  (table.reverse.lookup m).getD m.name

/-- Renames the members that are in a table. -/
def ofTables (fields methods : List (MemberRef × String)) : Renaming := ⟨look fields, look methods⟩

variable (r : Renaming)

/-- A field with the name to write. -/
def renameField (m : MemberRef) : MemberRef := { m with name := r.field m }

/-- A method with the name to write. -/
def renameMethod (m : MemberRef) : MemberRef := { m with name := r.method m }

/-- The member of a handle with the name to write: a field or a method, as its kind says. -/
def renameFor (kind : HandleKind) (m : MemberRef) : MemberRef :=
  if kind.isField then r.renameField m else r.renameMethod m

end Renaming
end ClassWeave
