import ClassWeave.Proofs.Switches

/-!
# Structured integer code

Programs on integers, put together from single instructions, branches and switches, to any depth.
Such a program can be built, and it has a direct meaning that knows nothing of labels and places.
Building always succeeds, and running what was built, one instruction after the other, comes to
what is meant.
-/

namespace ClassWeave

/-- Programs on integers. A switch without a default has `skip` for one. -/
inductive IntCode where
  | skip
  | int (n : Int32)
  | load (i : UInt16)
  | store (i : UInt16)
  | increment (i : UInt16) (n : Int16)
  | op (o : IntOp)
  | seq (first second : IntCode)
  | ifClause (skipIf : List Condition) (body : IntCode)
  | ifElse (conditions : List Condition) (body otherwise : IntCode)
  | tableSwitch (cases : List (Case IntCode)) (otherwise : IntCode)
  | lookupSwitch (cases : List (Case IntCode)) (otherwise : IntCode)

namespace IntCode

mutual

/-- Builds the code of a program. -/
def build : IntCode → Build Unit
  | skip => return
  | int n => Build.int n
  | load i => Build.loadSlot ⟨i, .int⟩
  | store i => Build.storeSlot ⟨i, .int⟩
  | increment i n => Build.emit (.increment i n)
  | op o => Build.plain o.opcode
  | seq first second => do
    first.build
    second.build
  | ifClause skipIf body => Build.ifClause skipIf body.build
  | ifElse conditions body otherwise => Build.ifElse conditions body.build otherwise.build
  | tableSwitch cases otherwise => Build.tableSwitch (buildCases cases) otherwise.build
  | lookupSwitch cases otherwise => Build.lookupSwitch (buildCases cases) otherwise.build

def buildCases : List (Case IntCode) → List (Case (Build Unit))
  | [] => []
  | ⟨key, fallsThrough, body⟩ :: rest => ⟨key, fallsThrough, body.build⟩ :: buildCases rest

end

mutual

/-- What a program means. -/
def meaning : IntCode → Meaning
  | skip => some
  | int n => fun s => some (s.push n)
  | load i => fun s => some (s.push (s.locals i))
  | store i => fun s => s.pop?.map fun (n, s) => s.set i n
  | increment i n => fun s => some (s.set i (s.locals i + n.toInt32))
  | op o => fun s => (o.apply s.stack).map ({ s with stack := · })
  | seq first second => fun s => (first.meaning s).bind second.meaning
  | ifClause skipIf body => Meaning.ifClause skipIf body.meaning
  | ifElse conditions body otherwise => Meaning.ifElse conditions body.meaning otherwise.meaning
  | tableSwitch cases otherwise => Meaning.switch (meaningCases cases) otherwise.meaning
  | lookupSwitch cases otherwise => Meaning.switch (meaningCases cases) otherwise.meaning

def meaningCases : List (Case IntCode) → List (Case Meaning)
  | [] => []
  | ⟨key, fallsThrough, body⟩ :: rest => ⟨key, fallsThrough, body.meaning⟩ :: meaningCases rest

end

mutual

/-- The keys of all switches differ, and tables are not too wide. -/
def WellFormed : IntCode → Prop
  | skip | int _ | load _ | store _ | increment _ _ | op _ => True
  | seq first second => first.WellFormed ∧ second.WellFormed
  | ifClause _ body => body.WellFormed
  | ifElse _ body otherwise => body.WellFormed ∧ otherwise.WellFormed
  | tableSwitch cases otherwise =>
    Build.Distinct (cases.map Case.key) ∧ Build.Dense (cases.map Case.key) ∧
      WellFormedCases cases ∧ otherwise.WellFormed
  | lookupSwitch cases otherwise =>
    Build.Distinct (cases.map Case.key) ∧ WellFormedCases cases ∧ otherwise.WellFormed

def WellFormedCases : List (Case IntCode) → Prop
  | [] => True
  | ⟨_, _, body⟩ :: rest => body.WellFormed ∧ WellFormedCases rest

end

theorem keys_buildCases (cases : List (Case IntCode)) :
    (buildCases cases).map Case.key = cases.map Case.key := by
  induction cases with
  | nil => rfl
  | cons c cases ih =>
    obtain ⟨key, fallsThrough, body⟩ := c
    rw [buildCases, List.map_cons, List.map_cons, ih]

mutual

/-- Programs are built into what they mean, whatever was built before. -/
theorem implements (c : IntCode) (h : c.WellFormed) : Implements c.build c.meaning := by
  cases c with
  | skip => exact .skip
  | int n => exact .int n
  | load i => exact .load i
  | store i => exact .store i
  | increment i n => exact .increment i n
  | op o => exact .op o
  | seq first second => exact (first.implements h.1).seq (second.implements h.2)
  | ifClause skipIf body => exact .ifClause skipIf (body.implements h)
  | ifElse conditions body otherwise =>
    exact .ifElse conditions (body.implements h.1) (otherwise.implements h.2)
  | tableSwitch cases otherwise =>
    obtain ⟨hdistinct, hdense, hcases, hotherwise⟩ := h
    rw [← keys_buildCases] at hdistinct hdense
    exact .tableSwitch (implements_cases cases hcases) (otherwise.implements hotherwise) hdistinct
      hdense
  | lookupSwitch cases otherwise =>
    obtain ⟨hdistinct, hcases, hotherwise⟩ := h
    rw [← keys_buildCases] at hdistinct
    exact .lookupSwitch (implements_cases cases hcases) (otherwise.implements hotherwise) hdistinct

theorem implements_cases (cases : List (Case IntCode)) (h : WellFormedCases cases) :
    List.Forall₂ Case.Implements (buildCases cases) (meaningCases cases) := by
  cases cases with
  | nil => exact .nil
  | cons c rest =>
    obtain ⟨key, fallsThrough, body⟩ := c
    exact .cons ⟨rfl, rfl, body.implements h.1⟩ (implements_cases rest h.2)

end

/-- **Structured code runs as it is meant.** Every program whose keys are in order is built without
errors into a list in which every label has one marker. From every state, a run of the list halts
with the state that the program means, and is stuck exactly where the program means nothing. -/
theorem runs_as_meant (c : IntCode) (h : c.WellFormed) (names : Renaming) (firstLocal : UInt16) :
    ∃ l, c.build.listOn names (.startingAt firstLocal) = .ok l ∧ l.Complete ∧
      ∀ s o, l.Halts s o ↔ o = c.meaning s :=
  (c.implements h).listOn names firstLocal

/-- A table with a hole and keys out of order, whose first case falls into the second. Inside the
cases are a branch and another switch, whose last case falls into its default. -/
def nested : IntCode :=
  .seq (.load 0) (.tableSwitch
    [⟨2, true, .seq (.load 1) (.ifElse [.gt] (.increment 2 1) (.increment 2 10))⟩,
      ⟨-1, false, .seq (.load 1)
        (.lookupSwitch [⟨100000, true, .increment 2 100⟩] (.increment 2 1000))⟩]
    (.seq (.seq (.load 1) (.load 0)) (.ifClause [.intLt] (.seq (.int 7) (.store 2)))))

/-- With 2 and 5 in the first two locals, control goes through both cases and past the key of the
inner switch. -/
theorem nested_runs_as_meant :
    nested.WellFormed ∧ ∃ l, nested.build.listOn .identity (.startingAt 3) = .ok l ∧ l.Complete ∧
      (∀ s o, l.Halts s o ↔ o = nested.meaning s) ∧
      (nested.meaning ⟨fun i => if i = 0 then 2 else if i = 1 then 5 else 0, []⟩).map
        (fun s => (s.locals 2, s.stack)) = some (1001, []) := by
  have h : nested.WellFormed := by
    simp [nested, WellFormed, WellFormedCases, Build.Distinct, Build.Dense, Build.maxTableEntries]
  obtain ⟨l, hbuilt, hcomplete, hruns⟩ := runs_as_meant nested h .identity 3
  exact ⟨h, l, hbuilt, hcomplete, hruns, by decide⟩

end IntCode

end ClassWeave
