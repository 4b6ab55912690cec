/-!
# Descriptors of fields and methods

A descriptor spells a type out in a few characters: a letter for each primitive type,
`L` *name* `;` for a class, and `[` in front of the type of the elements for an array. A method
descriptor is the parameter types between parentheses, followed by the type of the result or `V`.

The grammar is unambiguous, so parsing and writing are inverse to each other on types whose class
names are sound and whose arrays have at most 255 dimensions.
-/

namespace ClassWeave

/-- Primitive types. -/
inductive BaseType where
  | byte
  | char
  | double
  | float
  | int
  | long
  | short
  | boolean
deriving Repr, DecidableEq, Inhabited

namespace BaseType

def letter : BaseType → Char
  | byte => 'B'
  | char => 'C'
  | double => 'D'
  | float => 'F'
  | int => 'I'
  | long => 'J'
  | short => 'S'
  | boolean => 'Z'

def ofLetter? : Char → Option BaseType
  | 'B' => some byte
  | 'C' => some char
  | 'D' => some double
  | 'F' => some float
  | 'I' => some int
  | 'J' => some long
  | 'S' => some short
  | 'Z' => some boolean
  | _ => none

/-- How many local variables or stack slots a value takes up. -/
def slots : BaseType → Nat
  | double | long => 2
  | _ => 1

end BaseType

/-- The type of a field, a parameter, a result or an array element. -/
inductive FieldType where
  | base (type : BaseType)
  /-- A class by its name, the packages parted by slashes. -/
  | object (name : String)
  | array (element : FieldType)
deriving Repr, DecidableEq, Inhabited

namespace FieldType

/-- The characters of a descriptor. -/
def chars : FieldType → List Char
  | base type => [type.letter]
  | object name => 'L' :: (name.toList ++ [';'])
  | array element => '[' :: chars element

/-- The descriptor of a type. -/
def text (t : FieldType) : String := String.ofList t.chars

/-- How many local variables or stack slots a value takes up. -/
def slots : FieldType → Nat
  | base type => type.slots
  | _ => 1

/-- The name in a class constant: that of the class itself, or the descriptor of an array. -/
def className? : FieldType → Option String
  | base _ => none
  | object name => some name
  | array element => some (array element).text

/-- The array type with a number of dimensions more. -/
def nested : Nat → FieldType → FieldType
  | 0, t => t
  | n + 1, t => array (nested n t)

/-- A class name that a descriptor can hold. -/
def soundName (name : List Char) : Bool :=
  !name.isEmpty && name.all fun c => c != '.' && c != '['

/-- Takes a type that is no array off the front. -/
def element? : List Char → Option (FieldType × List Char)
  | [] => none
  | 'L' :: rest =>
    let name := rest.takeWhile (· != ';')
    match rest.dropWhile (· != ';') with
    | [] => none
    | _ :: after => if soundName name then some (object (String.ofList name), after) else none
  | c :: rest => (BaseType.ofLetter? c).map fun b => (base b, rest)

/-- Takes a type off the front. An array has at most 255 dimensions. -/
def ofChars? (cs : List Char) : Option (FieldType × List Char) :=
  let dimensions := (cs.takeWhile (· == '[')).length
  if dimensions ≤ 255 then
    (element? (cs.dropWhile (· == '['))).map fun (t, rest) => (nested dimensions t, rest)
  else none

/-- The type that a whole string describes. -/
def parse? (s : String) : Option FieldType :=
  match ofChars? s.toList with
  | some (t, []) => some t
  | _ => none

theorem length_dropWhile_le {α : Type} (p : α → Bool) (l : List α) :
    (l.dropWhile p).length ≤ l.length := by
  induction l with
  | nil => simp
  | cons a l ih =>
    simp only [List.dropWhile_cons]
    split
    · exact Nat.le_succ_of_le ih
    · exact Nat.le_refl _

theorem length_lt_of_element? {cs rest : List Char} {t : FieldType}
    (h : element? cs = some (t, rest)) : rest.length < cs.length := by
  unfold element? at h
  split at h
  · contradiction
  next cs' =>
    have hle := length_dropWhile_le (· != ';') cs'
    simp only at h
    split at h
    · contradiction
    next x after hd =>
      rw [hd] at hle
      split at h
      · simp only [Option.some.injEq, Prod.mk.injEq] at h
        simp only [List.length_cons] at hle ⊢
        obtain ⟨_, rfl⟩ := h
        omega
      · contradiction
  next c cs' _ =>
    simp only [Option.map_eq_some_iff] at h
    obtain ⟨_, _, h⟩ := h
    simp only [Prod.mk.injEq] at h
    obtain ⟨_, rfl⟩ := h
    simp

/-- A type takes up at least one character. -/
theorem length_lt_of_ofChars? {cs rest : List Char} {t : FieldType}
    (h : ofChars? cs = some (t, rest)) : rest.length < cs.length := by
  unfold ofChars? at h
  simp only at h
  split at h
  · simp only [Option.map_eq_some_iff] at h
    obtain ⟨⟨u, r⟩, hu, h⟩ := h
    simp only [Prod.mk.injEq] at h
    obtain ⟨_, rfl⟩ := h
    have := length_lt_of_element? hu
    have := length_dropWhile_le (· == '[') cs
    omega
  · contradiction

end FieldType

/-- The parameters and the result of a method. -/
structure MethodType where
  parameters : List FieldType
  /-- The type of the result, if there is one. -/
  result : Option FieldType
deriving Repr, DecidableEq, Inhabited

namespace MethodType

/-- The characters of a descriptor. -/
def chars (m : MethodType) : List Char :=
  '(' :: (m.parameters.flatMap FieldType.chars ++ ')' :: (m.result.elim ['V'] FieldType.chars))

/-- The descriptor of a method. -/
def text (m : MethodType) : String := String.ofList m.chars

/-- How many local variables the parameters take up. -/
def parameterSlots (m : MethodType) : Nat :=
  m.parameters.foldl (fun total t => total + t.slots) 0

/-- How many stack slots the result takes up. -/
def resultSlots (m : MethodType) : Nat := m.result.elim 0 FieldType.slots

/-- Takes types off the front up to a closing parenthesis, behind those found so far, which are
kept last first. -/
def parametersOnto (found : List FieldType) (cs : List Char) :
    Option (List FieldType × List Char) :=
  match cs with
  | ')' :: rest => some (found.reverse, rest)
  | cs =>
    match _h : FieldType.ofChars? cs with
    | some (t, rest) => parametersOnto (t :: found) rest
    | none => none
termination_by cs.length
decreasing_by exact FieldType.length_lt_of_ofChars? ‹_›

/-- The result that the characters behind the parameters describe. -/
def result? : List Char → Option (Option FieldType)
  | ['V'] => some none
  | cs =>
    match FieldType.ofChars? cs with
    | some (t, []) => some (some t)
    | _ => none

/-- The parameters and the result that a whole string describes. -/
def parse? (s : String) : Option MethodType :=
  match s.toList with
  | '(' :: cs => do
    let (parameters, rest) ← parametersOnto [] cs
    let result ← result? rest
    return ⟨parameters, result⟩
  | _ => none

end MethodType
end ClassWeave
