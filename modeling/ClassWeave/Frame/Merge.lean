import ClassWeave.Frame.Basic
import ClassWeave.Frame.Hierarchy

/-!
# Where paths meet

An instruction that can be reached on several paths has a frame that covers all of them. Types that
meet give the least type above both, as far as the hierarchy tells: `null` is below every class, an
array is above arrays of smaller classes, and types without anything in common give the type of
values that cannot be used.
-/

namespace ClassWeave

/-- How much the analysis asks of code. -/
inductive Mode where
  /-- Code is taken to be sound; only the shape of the stack is followed. -/
  | lenient
  /-- Every operand is checked. -/
  | strict
deriving Repr, DecidableEq, Inhabited

/-- The class of the elements of an array, given the descriptor of their type. Primitive elements
have none. -/
def elementClass? : List Char → Option (List Char)
  | '[' :: rest => some ('[' :: rest)
  | 'L' :: rest => if rest.getLast? = some ';' then some rest.dropLast else none
  | _ => none

theorem length_elementClass? {cs name : List Char} (h : elementClass? cs = some name) :
    name.length ≤ cs.length := by
  unfold elementClass? at h
  split at h
  · simp only [Option.some.injEq] at h
    simp [← h]
  · split at h
    · simp only [Option.some.injEq] at h
      simp only [← h, List.length_dropLast, List.length_cons]
      omega
    · contradiction
  · contradiction

/-- The array class whose elements have a given class. -/
def arrayOf (cls : String) : String :=
  if cls.startsWith "[" then "[" ++ cls else "[L" ++ cls ++ ";"

namespace Hierarchy

/-- The least class above two classes, their names given by their characters. -/
def mergeChars (h : Hierarchy) (a b : List Char) : String :=
  match a, b with
  | '[' :: as, '[' :: bs =>
    match _ha : elementClass? as, elementClass? bs with
    | some x, some y => arrayOf (mergeChars h x y)
    | _, _ => rootClass
  | '[' :: _, _ => rootClass
  | _, '[' :: _ => rootClass
  | a, b => h.commonSuper (String.ofList a) (String.ofList b)
termination_by a.length
decreasing_by
  have := length_elementClass? ‹elementClass? as = some x›
  simp only [List.length_cons]
  omega

/-- The least class above two classes. -/
def mergeClasses (h : Hierarchy) (a b : String) : String := h.mergeChars a.toList b.toList

/-- The least type above two types. -/
def mergeTypes (h : Hierarchy) (a b : NamedType) : NamedType :=
  if a = b then a
  else
    match a, b with
    | .null, .object c => .object c
    | .object c, .null => .object c
    | .object c, .object d => .object (h.mergeClasses c d)
    | _, _ => .top

/-- Types that meet on the stack. A value that cannot be used may only come out of it if the code is
trusted and both values are equally wide. -/
def mergeEntries (h : Hierarchy) (mode : Mode) (a b : NamedType) : Except VerifyError NamedType :=
  let merged := h.mergeTypes a b
  if merged = .top ∧ a ≠ b ∧ (mode = .strict ∨ a.slots ≠ b.slots) then .error (.incompatible a b)
  else .ok merged

end Hierarchy

namespace Frame

/-- A wide value can only be used as long as its second half is untouched. -/
def repairWide (locals : List NamedType) : List NamedType :=
  List.zipWith (fun t next => if t.isWide ∧ next ≠ some .top then .top else t) locals
    (locals.tail.map some ++ [none])

/-- Local variables that meet. Slots that only one side has cannot be used. -/
def mergeLocals (h : Hierarchy) (a b : List NamedType) : List NamedType :=
  trim (repairWide (List.zipWith h.mergeTypes a b))

/-- Stacks that meet, their tops first. The lowest entries are merged first. -/
def mergeStacks (h : Hierarchy) (mode : Mode) (a b : List NamedType) :
    Except VerifyError (List NamedType) := do
  return (← (a.zip b).reverse.mapM fun (x, y) => h.mergeEntries mode x y).reverse

/-- Merges a frame into the one that is kept, and tells whether that one changed. -/
def mergeInto (h : Hierarchy) (mode : Mode) (incoming : Frame) :
    StateM Frame (Except VerifyError Bool) := do
  let f ← get
  if f.stack.length ≠ incoming.stack.length then
    return .error (.heightMismatch f.depth incoming.depth)
  match mergeStacks h mode f.stack incoming.stack with
  | .error e => return .error e
  | .ok stack =>
    let locals := mergeLocals h f.locals incoming.locals
    if stack = f.stack ∧ locals = trim f.locals then return .ok false
    set (Frame.mk locals stack)
    return .ok true

/-- The frame that covers a frame and another one that meets it, or nothing if the other one changes
nothing. -/
def merge (h : Hierarchy) (mode : Mode) (f incoming : Frame) : Except VerifyError (Option Frame) :=
  let (result, after) := (mergeInto h mode incoming).run f
  result.map fun changed => if changed then some after else none

variable {h : Hierarchy} {mode : Mode} {f incoming : Frame}

/-- What merging leaves behind: the frame that was there, unless the types that meet are others. -/
theorem run_mergeInto : (mergeInto h mode incoming).run f =
    if f.stack.length ≠ incoming.stack.length then
      (.error (.heightMismatch f.depth incoming.depth), f)
    else
      match mergeStacks h mode f.stack incoming.stack with
      | .error e => (.error e, f)
      | .ok stack =>
        if stack = f.stack ∧ mergeLocals h f.locals incoming.locals = trim f.locals then
          (.ok false, f)
        else (.ok true, ⟨mergeLocals h f.locals incoming.locals, stack⟩) := by
  unfold mergeInto
  simp only [StateT.run_bind, StateT.run_get, pure_bind]
  by_cases hlen : f.stack.length ≠ incoming.stack.length
  · rw [if_pos hlen, if_pos hlen]
    rfl
  · rw [if_neg hlen, if_neg hlen]
    cases mergeStacks h mode f.stack incoming.stack with
    | error e => rfl
    | ok stack =>
      dsimp only
      split <;> rfl

theorem merge_eq : f.merge h mode incoming = do
    if f.stack.length ≠ incoming.stack.length then
      throw (.heightMismatch f.depth incoming.depth)
    let stack ← mergeStacks h mode f.stack incoming.stack
    let locals := mergeLocals h f.locals incoming.locals
    return if stack = f.stack ∧ locals = trim f.locals then none else some ⟨locals, stack⟩ := by
  unfold merge
  simp only [run_mergeInto]
  by_cases hlen : f.stack.length ≠ incoming.stack.length
  · rw [if_pos hlen, if_pos hlen]
    rfl
  · rw [if_neg hlen, if_neg hlen]
    cases mergeStacks h mode f.stack incoming.stack with
    | error e => rfl
    | ok stack =>
      simp only [bind, Except.bind]
      split <;> rfl

end Frame
end ClassWeave
