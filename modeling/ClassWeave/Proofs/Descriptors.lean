import ClassWeave.Error
import Mathlib.Data.List.Basic

/-!
# Which strings are descriptors

The grammar is unambiguous: what spells a type is told from whatever follows it, since a letter, the
end of a class name or the type of the elements ends it. So a parser accepts exactly the texts of
valid types and gives the type back that was spelled, whatever characters its class names hold
(`FieldType.parse?_eq_some_iff`, `MethodType.parse?_eq_some_iff`).
-/

namespace ClassWeave

namespace BaseType

theorem letter_of_ofLetter? {c : Char} {b : BaseType} (h : ofLetter? c = some b) :
    b.letter = c := by
  unfold ofLetter? at h
  split at h <;> first | (obtain rfl := Option.some.inj h; rfl) | cases h

theorem letter_ne (b : BaseType) : b.letter ≠ '[' ∧ b.letter ≠ ')' ∧ b.letter ≠ 'V' := by
  cases b <;> decide

end BaseType

namespace FieldType

variable {cs rest : List Char} {s : String} {t : FieldType}

/-- The name of the class of the type, or of its elements, is one that a descriptor can hold. -/
def IsSound : FieldType → Prop
  | base _ => True
  | object name => soundName name.toList
  | array element => IsSound element

/-- How many dimensions an array has, and none any other type. -/
def dimensions : FieldType → Nat
  | array element => element.dimensions + 1
  | _ => 0

/-- The type without its dimensions. -/
def innermost : FieldType → FieldType
  | array element => element.innermost
  | t => t

/-- Every class name in the type can be read up to the semicolon behind it, and is neither that of
an array nor one with its packages parted by dots. -/
def NamesFit : FieldType → Prop
  | base _ => True
  | object name => name ≠ "" ∧ ∀ c ∈ name.toList, c ≠ ';' ∧ c ≠ '.' ∧ c ≠ '['
  | array element => element.NamesFit

/-- A type that has a descriptor. -/
structure Valid (t : FieldType) : Prop where
  dimensions_le : t.dimensions ≤ 255
  namesFit : t.NamesFit

theorem soundName_iff {name : List Char} :
    soundName name ↔ name ≠ [] ∧ ∀ c ∈ name, c ≠ '.' ∧ c ≠ '[' := by
  simp [soundName]

theorem NamesFit.isSound (h : t.NamesFit) : t.IsSound := by
  induction t with
  | base => trivial
  | object name =>
    obtain ⟨hne, hchars⟩ := h
    exact soundName_iff.mpr ⟨by simpa using hne, fun c hc => (hchars c hc).2⟩
  | array element ih => exact ih h

/-! ## Dimensions -/

theorem chars_nested (n : Nat) (t : FieldType) :
    (nested n t).chars = List.replicate n '[' ++ t.chars := by
  induction n with
  | zero => rfl
  | succ n ih => rw [nested, chars, ih, List.replicate_succ, List.cons_append]

theorem dimensions_nested (n : Nat) (t : FieldType) :
    (nested n t).dimensions = n + t.dimensions := by
  induction n with
  | zero => rw [nested, Nat.zero_add]
  | succ n ih => rw [nested, dimensions, ih, Nat.add_right_comm]

theorem namesFit_nested (n : Nat) (t : FieldType) : (nested n t).NamesFit ↔ t.NamesFit := by
  induction n with
  | zero => rfl
  | succ n ih => exact ih

theorem nested_innermost (t : FieldType) : nested t.dimensions t.innermost = t := by
  induction t with
  | base | object => rfl
  | array element ih => rw [dimensions, innermost, nested, ih]

theorem dimensions_innermost (t : FieldType) : t.innermost.dimensions = 0 := by
  induction t with
  | base | object => rfl
  | array element ih => exact ih

/-- The first character tells a type from the end of a list of parameters and from no result. -/
theorem exists_chars_eq_cons (t : FieldType) : ∃ c cs, t.chars = c :: cs ∧ c ≠ ')' ∧ c ≠ 'V' ∧
    (t.dimensions = 0 → c ≠ '[') := by
  cases t with
  | base b =>
    obtain ⟨hopen, hclose, hvoid⟩ := b.letter_ne
    exact ⟨_, _, rfl, hclose, hvoid, fun _ => hopen⟩
  | object => exact ⟨_, _, rfl, by decide, by decide, fun _ => by decide⟩
  | array => exact ⟨_, _, rfl, by decide, by decide, fun h => by cases h⟩

/-! ## One type -/

/-- A type without dimensions is taken off the front of what it spells. -/
theorem element?_eq_some_iff :
    element? cs = some (t, rest) ↔ t.dimensions = 0 ∧ t.NamesFit ∧ cs = t.chars ++ rest := by
  constructor
  · intro h
    unfold element? at h
    split at h
    · cases h
    · rename_i tail
      simp only at h
      split at h
      · cases h
      · rename_i c after hdrop
        split at h
        · rename_i hsound
          obtain ⟨rfl, rfl⟩ := Prod.mk.inj (Option.some.inj h)
          have hsplit := List.takeWhile_append_dropWhile (p := (· != ';')) (l := tail)
          have hc : c = ';' := by
            have hhead := List.head?_dropWhile_not (· != ';') tail
            rw [hdrop] at hhead
            simpa using hhead
          rw [hdrop, hc] at hsplit
          obtain ⟨hne, hchars⟩ := soundName_iff.mp hsound
          refine ⟨rfl, ⟨by simpa using hne, fun c' hc' => ?_⟩, ?_⟩
          · rw [String.toList_ofList] at hc'
            exact ⟨by simpa using List.all_eq_true.mp List.all_takeWhile c' hc', hchars c' hc'⟩
          · rw [chars, String.toList_ofList, List.cons_append, List.append_assoc,
              List.singleton_append, hsplit]
        · cases h
    · rename_i c tail _
      obtain ⟨b, hb, heq⟩ := Option.map_eq_some_iff.mp h
      obtain ⟨rfl, rfl⟩ := Prod.mk.inj heq
      exact ⟨rfl, trivial, by rw [chars, BaseType.letter_of_ofLetter? hb]; rfl⟩
  · rintro ⟨hdim, hfit, rfl⟩
    cases t with
    | base b => cases b <;> rfl
    | object name =>
      obtain ⟨hne, hchars⟩ := hfit
      -- the first semicolon is the one behind the name
      have hname : ∀ c ∈ name.toList, (c != ';') = true := fun c hc => by
        simpa using (hchars c hc).1
      have htake : (name.toList ++ ';' :: rest).takeWhile (· != ';') = name.toList := by
        rw [List.takeWhile_append_of_pos hname]
        simp
      have hdrop : (name.toList ++ ';' :: rest).dropWhile (· != ';') = ';' :: rest := by
        rw [List.dropWhile_append_of_pos hname]
        simp
      have hsound : soundName name.toList = true :=
        soundName_iff.mpr ⟨by simpa using hne, fun c hc => (hchars c hc).2⟩
      rw [chars, List.cons_append, List.append_assoc, List.singleton_append, element?]
      simp only [htake, hdrop, hsound, if_true, String.ofList_toList]
    | array => cases hdim

/-- A type is taken off the front of what it spells, whatever follows. -/
theorem ofChars?_eq_some_iff : ofChars? cs = some (t, rest) ↔ t.Valid ∧ cs = t.chars ++ rest := by
  unfold ofChars?
  constructor
  · intro h
    simp only at h
    split at h
    · rename_i hle
      obtain ⟨⟨u, after⟩, hu, heq⟩ := Option.map_eq_some_iff.mp h
      obtain ⟨rfl, rfl⟩ := Prod.mk.inj heq
      obtain ⟨hdim, hfit, hdrop⟩ := element?_eq_some_iff.mp hu
      have hbrackets : cs.takeWhile (· == '[') =
          List.replicate (cs.takeWhile (· == '[')).length '[' :=
        List.eq_replicate_of_mem fun c hc => by
          simpa using List.all_eq_true.mp List.all_takeWhile c hc
      refine ⟨⟨?_, (namesFit_nested _ _).mpr hfit⟩, ?_⟩
      · rwa [dimensions_nested, hdim]
      · rw [chars_nested, ← hbrackets, List.append_assoc, ← hdrop, List.takeWhile_append_dropWhile]
    · cases h
  · rintro ⟨⟨hle, hfit⟩, rfl⟩
    obtain ⟨c, cs, hcs, -, -, hc⟩ := exists_chars_eq_cons t.innermost
    have hbracket : (c == '[') = false := by simpa using hc t.dimensions_innermost
    -- the brackets end where the innermost type begins
    have hchars : t.chars ++ rest = List.replicate t.dimensions '[' ++ c :: (cs ++ rest) := by
      conv_lhs => rw [← t.nested_innermost]
      rw [chars_nested, hcs, List.append_assoc, List.cons_append]
    have hopen : ∀ d ∈ List.replicate t.dimensions '[', (d == '[') = true := fun d hd => by
      simpa using List.eq_of_mem_replicate hd
    have htake : (t.chars ++ rest).takeWhile (· == '[') = List.replicate t.dimensions '[' := by
      rw [hchars, List.takeWhile_append_of_pos hopen,
        List.takeWhile_cons_of_neg (by simp [hbracket]), List.append_nil]
    have hdrop : (t.chars ++ rest).dropWhile (· == '[') = t.innermost.chars ++ rest := by
      rw [hchars, List.dropWhile_append_of_pos hopen,
        List.dropWhile_cons_of_neg (by simp [hbracket]), hcs, List.cons_append]
    have helement : element? (t.innermost.chars ++ rest) = some (t.innermost, rest) := by
      refine element?_eq_some_iff.mpr ⟨t.dimensions_innermost, ?_, rfl⟩
      rwa [← namesFit_nested t.dimensions, nested_innermost]
    simp only [htake, hdrop, List.length_replicate, if_pos hle, helement, Option.map_some,
      nested_innermost]

/-- Exactly the texts of valid types are parsed. -/
theorem parse?_eq_some_iff : parse? s = some t ↔ s = t.text ∧ t.Valid := by
  have hwhole : parse? s = some t ↔ ofChars? s.toList = some (t, []) := by
    unfold parse?
    split
    · rename_i u hu
      simp [hu]
    · rename_i hnone
      simpa using hnone t
  rw [hwhole, ofChars?_eq_some_iff, List.append_nil, and_comm, text]
  refine and_congr_left fun _ => ⟨fun h => ?_, fun h => ?_⟩
  · rw [← h, String.ofList_toList]
  · rw [h, String.toList_ofList]

/-- A type is parsed from its own descriptor only, and its names are sound. -/
theorem parse?_spec (h : parse? s = some t) : t.text = s ∧ t.IsSound := by
  obtain ⟨rfl, hvalid⟩ := parse?_eq_some_iff.mp h
  exact ⟨rfl, hvalid.namesFit.isSound⟩

end FieldType

namespace MethodType

variable {cs rest : List Char} {s : String} {m : MethodType}

/-- A method type that has a descriptor. -/
structure Valid (m : MethodType) : Prop where
  parameters : ∀ t ∈ m.parameters, t.Valid
  result : ∀ t ∈ m.result, t.Valid

/-- Parameters are read up to the parenthesis behind them. -/
theorem parametersOnto_eq_some_iff {found ts : List FieldType} :
    parametersOnto found cs = some (ts, rest) ↔ ∃ read : List FieldType,
      (∀ t ∈ read, t.Valid) ∧ ts = found.reverse ++ read ∧
        cs = read.flatMap FieldType.chars ++ ')' :: rest := by
  constructor
  · intro h
    fun_induction parametersOnto found cs with
    | case1 found after =>
      obtain ⟨rfl, rfl⟩ := Prod.mk.inj (Option.some.inj h)
      exact ⟨[], by simp, by simp, rfl⟩
    | case2 found cs _ t after ht ih =>
      obtain ⟨hvalid, rfl⟩ := FieldType.ofChars?_eq_some_iff.mp ht
      obtain ⟨read, hread, rfl, rfl⟩ := ih h
      exact ⟨t :: read, List.forall_mem_cons.mpr ⟨hvalid, hread⟩, by simp, by simp⟩
    | case3 => cases h
  · rintro ⟨read, hread, rfl, rfl⟩
    induction read generalizing found with
    | nil =>
      rw [List.flatMap_nil, List.nil_append, parametersOnto, List.append_nil]
    | cons t read ih =>
      obtain ⟨hvalid, hread⟩ := List.forall_mem_cons.mp hread
      -- no type begins with the parenthesis that ends the parameters
      obtain ⟨c, cs, hcs, hclose, -⟩ := t.exists_chars_eq_cons
      have ht : FieldType.ofChars? (t.chars ++ (read.flatMap FieldType.chars ++ ')' :: rest)) =
          some (t, read.flatMap FieldType.chars ++ ')' :: rest) :=
        FieldType.ofChars?_eq_some_iff.mpr ⟨hvalid, rfl⟩
      have hnext : parametersOnto (t :: found) (read.flatMap FieldType.chars ++ ')' :: rest) =
          some ((t :: found).reverse ++ read, rest) := ih hread
      rw [List.flatMap_cons, List.append_assoc]
      rw [hcs, List.cons_append] at ht ⊢
      rw [parametersOnto]
      · split
        · rename_i t' after ht'
          obtain ⟨rfl, rfl⟩ := Prod.mk.inj (Option.some.inj (ht.symm.trans ht'))
          simpa using hnext
        · rename_i hnone
          rw [ht] at hnone
          cases hnone
      · rintro rest' heq
        exact hclose (List.cons.inj heq).1

/-- What stands behind the parameters is `V` or a type. -/
theorem result?_eq_some_iff {r : Option FieldType} :
    result? cs = some r ↔ (∀ t ∈ r, t.Valid) ∧ cs = r.elim ['V'] FieldType.chars := by
  constructor
  · intro h
    unfold result? at h
    split at h
    · obtain rfl := Option.some.inj h
      exact ⟨by simp, rfl⟩
    · split at h
      · rename_i t ht
        obtain rfl := Option.some.inj h
        obtain ⟨hvalid, hcs⟩ := FieldType.ofChars?_eq_some_iff.mp ht
        exact ⟨by simpa using hvalid, by simpa using hcs⟩
      · cases h
  · rintro ⟨hvalid, rfl⟩
    cases r with
    | none => rfl
    | some t =>
      -- nor does one with the letter for no result
      obtain ⟨c, cs, hcs, -, hvoid, -⟩ := t.exists_chars_eq_cons
      have ht : FieldType.ofChars? t.chars = some (t, []) :=
        FieldType.ofChars?_eq_some_iff.mpr ⟨hvalid t rfl, (List.append_nil _).symm⟩
      rw [Option.elim_some, result?]
      · simp only [ht]
      · intro heq
        rw [hcs] at heq
        exact hvoid (List.cons.inj heq).1

/-- Exactly the texts of valid method types are parsed. -/
theorem parse?_eq_some_iff : parse? s = some m ↔ s = m.text ∧ m.Valid := by
  have hparts : parse? s = some m ↔ ∃ cs rest, s.toList = '(' :: cs ∧
      parametersOnto [] cs = some (m.parameters, rest) ∧ result? rest = some m.result := by
    unfold parse?
    split
    · rename_i cs hcs
      simp only [Option.bind_eq_bind, Option.bind_eq_some_iff, Option.pure_def, Option.some.injEq,
        Prod.exists, hcs, List.cons.injEq, true_and]
      constructor
      · rintro ⟨ts, rest, hts, r, hr, rfl⟩
        exact ⟨cs, rest, rfl, hts, hr⟩
      · rintro ⟨_, rest, rfl, hts, hr⟩
        exact ⟨_, rest, hts, _, hr, rfl⟩
    · rename_i hne
      refine ⟨nofun, ?_⟩
      rintro ⟨cs, _, hcs, -⟩
      exact (hne cs hcs).elim
  rw [hparts]
  constructor
  · rintro ⟨cs, rest, hcs, hts, hr⟩
    obtain ⟨read, hread, hfound, rfl⟩ := parametersOnto_eq_some_iff.mp hts
    obtain ⟨hvalid, rfl⟩ := result?_eq_some_iff.mp hr
    rw [List.reverse_nil, List.nil_append] at hfound
    subst hfound
    refine ⟨?_, hread, hvalid⟩
    rw [text, chars, ← hcs, String.ofList_toList]
  · rintro ⟨rfl, hvalid⟩
    refine ⟨m.parameters.flatMap FieldType.chars ++ ')' :: m.result.elim ['V'] FieldType.chars,
      m.result.elim ['V'] FieldType.chars, by rw [text, String.toList_ofList, chars], ?_, ?_⟩
    · exact parametersOnto_eq_some_iff.mpr ⟨m.parameters, hvalid.parameters, rfl, rfl⟩
    · exact result?_eq_some_iff.mpr ⟨hvalid.result, rfl⟩

end MethodType

/-- Class names may look like other parts of a descriptor. -/
example : MethodType.parse "(IL)V(é;[[J)V" =
    .ok ⟨[.base .int, .object ")V(é", .array (.array (.base .long))], none⟩ := by cbv

end ClassWeave
