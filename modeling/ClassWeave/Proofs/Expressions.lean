import ClassWeave.Build.Literal
import ClassWeave.Proofs.Blocks
import ClassWeave.Proofs.Descriptors
import ClassWeave.Proofs.FreshSteps
import ClassWeave.Proofs.InstrPieces
import ClassWeave.Proofs.TypeOrder

/-!
# Expressions of arrays and objects

Array literals and object constructions can stand inside one another, with constants at the leaves.
`Expression.type?` says which of them fit together, and what type the whole has. Whatever fits is
built, and running what was built on a frame pushes one value of that type and changes nothing else.

Every object is fresh while the arguments of its constructor are on their way, so several fresh
objects can be on the stack at once, even of one class. They are told apart by the places
of the instructions that made them; this is why a frame must not hold such a value beforehand.
-/

namespace ClassWeave

/-! ## Syntax -/

inductive Expression where
  | int (value : Int32)
  | long (value : Int64)
  | float (bits : UInt32)
  | double (bits : UInt64)
  | null
  | constant (c : Loadable)
  | array (descriptor : String) (elements : List Expression)
  | create (cls descriptor : String) (arguments : List Expression)

namespace Expression

mutual

/-- The code of an expression. -/
def build : Expression → Build Unit
  | int n => Build.int n
  | long n => Build.long n
  | float bits => Build.float bits
  | double bits => Build.double bits
  | null => Build.plain 0x01
  | constant c => Build.load c
  | array descriptor elements => Build.array descriptor (bodies elements)
  | create cls descriptor arguments => Build.createInstance cls descriptor (buildAll arguments)

/-- The code of each of some expressions. -/
def bodies : List Expression → List (Build Unit)
  | [] => []
  | e :: rest => e.build :: bodies rest

/-- The code of some expressions one after the other. -/
def buildAll : List Expression → Build Unit
  | [] => return
  | e :: rest => do
    e.build
    buildAll rest

end

end Expression

/-! ## Types -/

/-- The type of a constant, if it has one. -/
def Program.constantType? (p : Program) : Loadable → Option NamedType
  | .int _ => some .int
  | .float _ => some .float
  | .long _ => some .long
  | .double _ => some .double
  | .string _ => some (.object "java/lang/String")
  | .cls _ => some (.object "java/lang/Class")
  | .methodType _ => some (.object "java/lang/invoke/MethodType")
  | .handle _ => some (.object "java/lang/invoke/MethodHandle")
  | .pooled i => p.pooledType? i

/-- There is a type, and values of a type of field can have it. -/
def FieldType.takes (t : FieldType) (u : Option NamedType) : Bool :=
  u.any (VType.hasKind (.ofType t))

namespace Expression

variable (p : Program)

mutual

/-- The type of an expression, if its parts fit together. -/
def type? : Expression → Option NamedType
  | int _ => some .int
  | long _ => some .long
  | float _ => some .float
  | double _ => some .double
  | null => some .null
  | constant c => p.constantType? c
  | array descriptor elements =>
    match FieldType.parse? descriptor with
    | some t => if allFit t elements then some (.object ("[" ++ descriptor)) else none
    | none => none
  | create cls descriptor arguments =>
    match MethodType.parse? descriptor with
    | some ⟨parameters, none⟩ => if eachFits parameters arguments then some (.object cls) else none
    | _ => none

/-- The expressions can be elements of an array. -/
def allFit (t : FieldType) : List Expression → Bool
  | [] => true
  | e :: rest => t.takes e.type? && allFit t rest

/-- The expressions can be the arguments of a call. -/
def eachFits : List FieldType → List Expression → Bool
  | [], [] => true
  | t :: ts, e :: rest => t.takes e.type? && eachFits ts rest
  | _, _ => false

end

end Expression

/-! ## Runs over code without jumps -/

namespace Program

/-- What entries in a row do to a frame, the first of them at a place. -/
def run (p : Program) (base : Nat) : List Node → Frame → Except VerifyError Frame
  | [], f => .ok f
  | .instr i :: rest, f => do p.run (base + 1) rest (← p.step base i f)
  | _ :: rest, f => p.run (base + 1) rest f

/-- The entries stand in the code from a place on. -/
def Holds (p : Program) (base : Nat) (ns : List Node) : Prop :=
  ∀ (j : Nat) (n : Node), ns[j]? = some n → p.nodes[base + j]? = some n

/-- No fresh object of the frame comes from these places. -/
def Clears (p : Program) (base count : Nat) (f : Frame) : Prop :=
  ∀ k, base ≤ k → k < base + count → p.MakesAt k → ¬ f.Holds k

variable {p : Program} {base : Nat} {ns ms : List Node} {f g : Frame}

theorem Holds.left (h : p.Holds base (ns ++ ms)) : p.Holds base ns := by
  intro j n hj
  have hlt := (List.getElem?_eq_some_iff.mp hj).1
  exact h j n ((List.getElem?_append_left hlt).trans hj)

theorem Holds.right (h : p.Holds base (ns ++ ms)) : p.Holds (base + ns.length) ms := by
  intro j n hj
  rw [Nat.add_assoc]
  refine h _ n ((List.getElem?_append_right (Nat.le_add_right _ _)).trans ?_)
  rwa [Nat.add_sub_cancel_left]

theorem Clears.part {base' count count' : Nat} (h : p.Clears base count f) (hlow : base ≤ base')
    (hhigh : base' + count' ≤ base + count) : p.Clears base' count' f :=
  fun k hk hlt => h k (Nat.le_trans hlow hk) (Nat.lt_of_lt_of_le hlt hhigh)

theorem run_append (p : Program) (base : Nat) (ns ms : List Node) (f : Frame) :
    p.run base (ns ++ ms) f = p.run base ns f >>= p.run (base + ns.length) ms := by
  induction ns generalizing base f with
  | nil => rfl
  | cons n ns ih =>
    have hplace : base + (n :: ns).length = base + 1 + ns.length := by
      rw [List.length_cons]
      omega
    rw [hplace]
    cases n with
    | instr i =>
      rw [List.cons_append, run, run]
      cases p.step base i f with
      | error e => rfl
      | ok g => exact ih (base + 1) g
    | label | line => exact ih (base + 1) f

end Program

/-! ## Names of array classes -/

namespace FieldType

theorem arrayOf_array (element : FieldType) :
    arrayOf (array element).text = "[" ++ (array element).text := by
  have hstarts : (array element).text.startsWith "[" :=
    startsWith_bracket.mpr ⟨element.chars, String.toList_ofList⟩
  rw [arrayOf, if_pos hstarts]

theorem arrayOf_object {name : String} (h : (object name).IsSound) :
    arrayOf name = "[" ++ (object name).text := by
  have hstarts : ¬ name.startsWith "[" := by
    rintro hname
    obtain ⟨cs, hcs⟩ := startsWith_bracket.mp hname
    have hsound : soundName name.toList := h
    rw [hcs] at hsound
    simp [soundName] at hsound
  rw [arrayOf, if_neg hstarts]
  apply String.toList_injective
  simp [text, chars]

end FieldType

@[simp] theorem VType.isSettled_int : IsSettled .int := trivial

@[simp] theorem VType.isSettled_object (cls : String) : IsSettled (.object cls) := trivial

/-! ## Single steps -/

namespace Step

variable {α β : Type} {p : Program} {kind : ValueKind} {t u : NamedType}
  {locals stack : List NamedType} {f g : Frame}

theorem run_bind_ok {x : Step α} {k : α → Step β} {a : α} (hx : x.run f = .ok (a, g)) :
    (x >>= k).run f = (k a).run g := by
  rw [StateT.run_bind, hx]
  rfl

theorem slots_of_hasKind (h : VType.hasKind kind t) : t.slots = kind.slots := by
  cases kind <;> cases t <;> first | rfl | cases h

theorem run_check {holds : Bool} {expected : Expectation} (h : holds) (p : Program) (t : NamedType)
    (f : Frame) : (check p holds t expected).run f = .ok ((), f) := by
  unfold check
  rw [if_neg (by simp [h])]
  rfl

/-- A value of the right kind is taken off, whether or not the code is trusted. -/
theorem run_pop (h : VType.hasKind kind t) :
    (pop p kind).run ⟨locals, t :: stack⟩ = .ok (t, ⟨locals, stack⟩) := by
  have hslots : (popSlots kind.slots).run ⟨locals, t :: stack⟩ = .ok (t, ⟨locals, stack⟩) := by
    have hany : popAny.run ⟨locals, t :: stack⟩ = .ok (t, ⟨locals, stack⟩) := rfl
    unfold popSlots
    rw [run_bind_ok hany, if_pos (slots_of_hasKind h)]
    rfl
  unfold pop
  rw [run_bind_ok hslots, run_bind_ok (run_check h p t _)]
  rfl

/-- A reference is doubled, even one to a fresh object. -/
theorem run_dup (h : t.isReference) (k : Nat) :
    (instr p k (.plain Opcode.dup : Instr Label)).run ⟨locals, t :: stack⟩ =
      .ok ((), ⟨locals, t :: t :: stack⟩) := by
  have heffect : Effect.ofOpcode? Opcode.dup = some (.shuffle .dup) := by decide
  have hget : (get : Step Frame).run ⟨locals, t :: stack⟩ =
      .ok (⟨locals, t :: stack⟩, ⟨locals, t :: stack⟩) := rfl
  have hmove : (Shuffle.run .dup (t :: stack) : Step (List NamedType)).run ⟨locals, t :: stack⟩ =
      .ok (t :: t :: stack, ⟨locals, t :: stack⟩) := by
    cases t <;> first | rfl | cases h
  simp only [instr, heffect, effect]
  rw [run_bind_ok hget, run_bind_ok hmove]
  rfl

theorem run_popArguments {ts : List FieldType} {us : List NamedType}
    (h : List.Forall₂ (fun t u => VType.hasKind (.ofType t) u) ts us) :
    (popArguments p ts).run ⟨locals, us.reverse ++ stack⟩ = .ok ((), ⟨locals, stack⟩) := by
  have general : ∀ {ts : List FieldType} {us : List NamedType},
      List.Forall₂ (fun t u => VType.hasKind (.ofType t) u) ts us →
      (ts.forM fun t => do let _ ← pop p (.ofType t)).run ⟨locals, us ++ stack⟩ =
        .ok ((), ⟨locals, stack⟩) := by
    intro ts us h
    induction h with
    | nil => rfl
    | @cons t u ts us hu _ ih =>
      have hfirst : (do let _ ← pop p (.ofType t) : Step Unit).run ⟨locals, u :: us ++ stack⟩ =
          .ok ((), ⟨locals, us ++ stack⟩) := run_bind_ok (run_pop hu)
      exact (run_bind_ok hfirst).trans ih
  exact general (List.forall₂_reverse_iff.mpr h)

/-- An array of these elements is taken off. -/
theorem run_popArray {elements : PrimitiveArray} {cls : String} (h : cls ∈ elements.descriptors) :
    (popArray p elements).run ⟨locals, .object cls :: stack⟩ = .ok ((), ⟨locals, stack⟩) := by
  unfold popArray
  rw [run_bind_ok (run_pop rfl)]
  exact run_check (decide_eq_true h) p _ _

end Step

namespace Program

variable {p : Program} {base : Nat} {ns ms : List Node} {i : Instr Label} {f g : Frame}

theorem run_single (h : (Step.instr p base i).run f = .ok ((), g)) :
    p.run base [.instr i] f = .ok g := by
  rw [run, step, h]
  rfl

theorem run_append_ok (h : p.run base ns f = .ok g) :
    p.run base (ns ++ ms) f = p.run (base + ns.length) ms g := by
  rw [run_append, h]
  rfl

end Program

/-! ## What computations do to a frame -/

namespace Build

/-- Whatever was built before, the computation succeeds and adds these entries. -/
def Adds (x : Build Unit) (ns : List Node) : Prop := ∀ b, ∃ b', x.Makes .identity b () ns b'

/-- The computation adds code that replaces some values on top of the stack by others, and changes
nothing else, unless a frame holds fresh objects that the code makes. -/
def Takes (p : Program) (pre post : List NamedType) (x : Build Unit) : Prop :=
  ∃ ns, x.Adds ns ∧ ∀ base, p.Holds base ns → ∀ locals rest,
    p.Clears base ns.length ⟨locals, pre ++ rest⟩ →
      p.run base ns ⟨locals, pre ++ rest⟩ = .ok ⟨locals, post ++ rest⟩

variable {p : Program} {pre mid post : List NamedType} {x y : Build Unit}

/-- What is not fresh does not matter to whether a frame is clear. -/
theorem clears_of_settled {base count : Nat} {locals rest : List NamedType}
    (h : p.Clears base count ⟨locals, pre ++ rest⟩) (hpost : ∀ t ∈ post, VType.IsSettled t) :
    p.Clears base count ⟨locals, post ++ rest⟩ := by
  rintro k hlow hhigh hmakes (hk | hk)
  · exact h k hlow hhigh hmakes (.inl hk)
  · rcases List.mem_append.mp hk with hk | hk
    · exact hpost _ hk
    · exact h k hlow hhigh hmakes (.inr (List.mem_append_right _ hk))

theorem Takes.skip (pre : List NamedType) : Takes p pre pre (return) :=
  ⟨[], fun b => ⟨b, .pure ()⟩, fun _ _ _ _ _ => rfl⟩

theorem adds_emit (i : Instr Label) : Adds (emit i) [.instr i] := by
  intro b
  obtain ⟨b', hb', -⟩ := exists_emit i .identity b
  exact ⟨b', hb'⟩

/-- The identity renames nothing. -/
theorem adds_invoke (kind : CallKind) (m : MemberRef) :
    Adds (invoke kind m) [.instr (.method kind.opcode m (kind == .interface))] := by
  intro b
  obtain ⟨b', hb'⟩ := adds_emit (.method kind.opcode m (kind == .interface)) b
  exact ⟨b', hb'.on, hb'.nodes, hb'.count, hb'.placed, hb'.blocks⟩

theorem Takes.emit {i : Instr Label} (h : ∀ k locals rest,
    (Step.instr p k i).run ⟨locals, pre ++ rest⟩ = .ok ((), ⟨locals, post ++ rest⟩)) :
    Takes p pre post (emit i) := by
  exact ⟨[.instr i], adds_emit i, fun base _ locals rest _ =>
    Program.run_single (h base locals rest)⟩

theorem Adds.seq {ns ms : List Node} (hx : x.Adds ns) (hy : y.Adds ms) :
    Adds (do x; y) (ns ++ ms) := by
  intro b
  obtain ⟨b₁, h₁⟩ := hx b
  obtain ⟨b₂, h₂⟩ := hy b₁
  exact ⟨b₂, h₁.bind h₂⟩

theorem Takes.seq (hx : Takes p pre mid x) (hmid : ∀ t ∈ mid, VType.IsSettled t)
    (hy : Takes p mid post y) : Takes p pre post (do x; y) := by
  obtain ⟨ns, hns, hrun⟩ := hx
  obtain ⟨ms, hms, hrun'⟩ := hy
  refine ⟨ns ++ ms, hns.seq hms, fun base hbase locals rest hclear => ?_⟩
  rw [List.length_append] at hclear
  rw [Program.run_append_ok (hrun base hbase.left locals rest (hclear.part (Nat.le_refl _)
    (Nat.add_le_add_left (Nat.le_add_right _ _) _)))]
  refine hrun' _ hbase.right locals rest (clears_of_settled (hclear.part ?_ ?_) hmid)
  · exact Nat.le_add_right _ _
  · omega

/-- What stands below may be named as well. -/
theorem Takes.above (hx : Takes p pre post x) (below : List NamedType) :
    Takes p (pre ++ below) (post ++ below) x := by
  obtain ⟨ns, hns, hrun⟩ := hx
  refine ⟨ns, hns, fun base hbase locals rest hclear => ?_⟩
  rw [List.append_assoc] at hclear ⊢
  rw [List.append_assoc]
  exact hrun base hbase locals (below ++ rest) hclear

/-! ## Constants -/

theorem takes_plain {op : UInt8} {t : NamedType} (h : Effect.ofOpcode? op = some (.push t)) :
    Takes p [] [t] (plain op) := by
  refine .emit fun k locals rest => ?_
  simp only [Step.instr, h]
  rfl

theorem takes_load {c : Loadable} {t : NamedType} (h : p.constantType? c = some t) :
    Takes p [] [t] (load c) := by
  refine .emit fun k locals rest => ?_
  have hrun : ∀ f : Frame, (Step.constantType p c).run f = .ok (t, f) := by
    intro f
    cases c with
    | pooled i => exact (Step.run_pooledType p i f f t).mpr ⟨h, rfl⟩
    | _ =>
      obtain rfl := Option.some.inj h
      rfl
  exact Step.run_bind_ok (hrun _)

/-- The numbers from -1 to 5 have opcodes of their own. -/
theorem effect_facts : ∀ k : Fin 7, Effect.ofOpcode? (UInt8.ofNat (Opcode.iconst_0.toNat +
    ((k.val : Int) - 1)).toNat) = some (.push .int) := by
  decide

theorem takes_int (n : Int32) : Takes p [] [.int] (int n) := by
  unfold int
  split
  · rename_i hn
    have hfacts := effect_facts ⟨(n.toInt + 1).toNat, by omega⟩
    have hvalue : ((n.toInt + 1).toNat : Int) - 1 = n.toInt := by omega
    rw [hvalue] at hfacts
    exact takes_plain hfacts
  · split
    · exact .emit fun _ _ _ => rfl
    · split
      · exact .emit fun _ _ _ => rfl
      · exact takes_load rfl

theorem takes_long (n : Int64) : Takes p [] [.long] (long n) := by
  unfold long
  split
  · rename_i hn
    rcases hn with rfl | rfl <;> exact takes_plain (by decide)
  · exact takes_load rfl

theorem takes_float (bits : UInt32) : Takes p [] [.float] (float bits) := by
  unfold float
  split
  · exact takes_plain (by decide)
  · split
    · exact takes_plain (by decide)
    · split
      · exact takes_plain (by decide)
      · exact takes_load rfl

theorem takes_double (bits : UInt64) : Takes p [] [.double] (double bits) := by
  unfold double
  split
  · exact takes_plain (by decide)
  · split
    · exact takes_plain (by decide)
    · exact takes_load rfl

/-! ## Arrays -/

theorem takes_dup {a : NamedType} (ha : a.isReference) : Takes p [a] [a, a] (plain Opcode.dup) :=
  .emit fun k _ _ => Step.run_dup ha k

theorem takes_newArrayOf {t : FieldType} (ht : t.IsSound) :
    Takes p [.int] [.object ("[" ++ t.text)] (newArrayOf t) := by
  have hclass : ∀ cls, arrayOf cls = "[" ++ t.text →
      Takes p [.int] [.object ("[" ++ t.text)] (Build.emit (.type Opcode.anewarray cls)) := by
    intro cls hcls
    refine .emit fun k locals rest => ?_
    rw [← hcls]
    exact Step.run_bind_ok (Step.run_pop rfl)
  cases t with
  | base b =>
    refine .emit fun k locals rest => ?_
    cases b <;> exact Step.run_bind_ok (Step.run_pop rfl)
  | object name => exact hclass name (FieldType.arrayOf_object ht)
  | array element => exact hclass _ (FieldType.arrayOf_array element)

/-- Arrays of numbers have instructions of their own; all others hold references. -/
theorem takes_arrayStore {t : FieldType} {u : NamedType} (hu : VType.hasKind (.ofType t) u) :
    Takes p [u, .int, .object ("[" ++ t.text)] [] (plain t.arrayStore) := by
  have hprimitive : ∀ elements : PrimitiveArray,
      Effect.ofOpcode? t.arrayStore = some (.arrayStore elements) →
      elements.element = .ofType t → "[" ++ t.text ∈ elements.descriptors →
      Takes p [u, .int, .object ("[" ++ t.text)] [] (plain t.arrayStore) := by
    intro elements heffect helement hcls
    refine .emit fun k locals rest => ?_
    simp only [Step.instr, heffect, Step.effect, helement]
    refine (Step.run_bind_ok (Step.run_pop hu)).trans ?_
    exact (Step.run_bind_ok (Step.run_pop rfl)).trans (Step.run_popArray hcls)
  have hreference : Effect.ofOpcode? t.arrayStore = some .referenceStore →
      .ofType t = ValueKind.reference →
      (∃ v, ∀ f, (Step.componentType p (.object ("[" ++ t.text))).run f = .ok (v, f)) →
      Takes p [u, .int, .object ("[" ++ t.text)] [] (plain t.arrayStore) := by
    rintro heffect hkind ⟨v, hv⟩
    rw [hkind] at hu
    refine .emit fun k locals rest => ?_
    simp only [Step.instr, heffect, Step.effect]
    refine (Step.run_bind_ok (Step.run_pop hu)).trans ?_
    refine (Step.run_bind_ok (Step.run_pop rfl)).trans ?_
    exact (Step.run_bind_ok (Step.run_pop rfl)).trans (Step.run_bind_ok (hv _))
  have hchars : ("[" ++ t.text).toList = '[' :: t.chars := by simp [FieldType.text]
  cases t with
  | base b => cases b <;> exact hprimitive _ rfl rfl (by decide)
  | object name =>
    refine hreference rfl rfl ⟨.object name, fun f => ?_⟩
    simp [Step.componentType, hchars, FieldType.chars]
    rfl
  | array element =>
    refine hreference rfl rfl ⟨.object (FieldType.array element).text, fun f => ?_⟩
    simp only [Step.componentType, hchars, FieldType.chars]
    rfl

/-- The elements are stored one after the other. -/
theorem takes_storeElements {t : FieldType} {bodies : List (Build Unit)}
    (h : ∀ x ∈ bodies, ∃ u, Takes p [] [u] x ∧ VType.IsSettled u ∧ VType.hasKind (.ofType t) u)
    (i : Nat) :
    Takes p [.object ("[" ++ t.text)] [.object ("[" ++ t.text)]
      (storeElements t.arrayStore i bodies) := by
  induction bodies generalizing i with
  | nil => exact .skip _
  | cons x rest ih =>
    obtain ⟨⟨u, hx, hsettled, hu⟩, hrest⟩ := List.forall_mem_cons.mp h
    unfold storeElements
    refine (takes_dup rfl).seq (by simp) ?_
    refine ((takes_int _).above _).seq (by simp) ?_
    refine (hx.above _).seq (by simp [hsettled]) ?_
    exact ((takes_arrayStore hu).above _).seq (by simp) (ih hrest (i + 1))

theorem takes_array {descriptor : String} {t : FieldType} {bodies : List (Build Unit)}
    (ht : FieldType.parse? descriptor = some t)
    (h : ∀ x ∈ bodies, ∃ u, Takes p [] [u] x ∧ VType.IsSettled u ∧ VType.hasKind (.ofType t) u) :
    Takes p [] [.object ("[" ++ descriptor)] (array descriptor bodies) := by
  obtain ⟨rfl, hsound⟩ := FieldType.parse?_spec ht
  have hparse : FieldType.parse t.text = .ok t := by rw [FieldType.parse, ht]
  simp only [array, hparse]
  refine (takes_int _).seq (by simp) ?_
  exact (takes_newArrayOf hsound).seq (by simp) (takes_storeElements h 0)

/-! ## Objects -/

/-- Only the object itself becomes an ordinary one when its constructor has run. -/
theorem run_construct {base : Nat} {cls : String} {locals rest : List NamedType}
    (hnew : p.nodes[base]? = some (.instr (.type Opcode.new cls)))
    (hfresh : ¬ Frame.Holds ⟨locals, rest⟩ base) :
    (Step.construct p (.fresh base)).run ⟨locals, .fresh base :: rest⟩ =
      .ok ((), ⟨locals, .object cls :: rest⟩) := by
  have hdone : ∀ f, (Step.constructed? p (.fresh base)).run f = .ok (some (.object cls), f) := by
    intro f
    simp only [Step.constructed?, hnew]
    rfl
  have hsame : ∀ ts : List NamedType, .fresh base ∉ ts →
      (ts.map fun t => if t = .fresh base then .object cls else t) = ts := by
    intro ts hts
    refine (List.map_congr_left fun t ht => if_neg ?_).trans (List.map_id ts)
    rintro rfl
    exact hts ht
  obtain ⟨hlocals, hrest⟩ := not_or.mp hfresh
  unfold Step.construct
  rw [Step.run_bind_ok (hdone _)]
  show Except.ok ((), Frame.replace ⟨locals, .fresh base :: rest⟩ (.fresh base) (.object cls)) = _
  rw [Frame.replace, hsame _ hlocals, List.map_cons, hsame _ hrest, if_pos rfl]

/-- A constructor takes its arguments and one of the two references to the object. -/
theorem run_initialise {base : Nat} {cls descriptor : String} {ts : List FieldType}
    {us locals rest : List NamedType} (hparse : MethodType.parse? descriptor = some ⟨ts, none⟩)
    (hus : List.Forall₂ (fun t u => VType.hasKind (.ofType t) u) ts us)
    (hnew : p.nodes[base]? = some (.instr (.type Opcode.new cls)))
    (hfresh : ¬ Frame.Holds ⟨locals, rest⟩ base) :
    (Step.call p Opcode.invokespecial ⟨cls, "<init>", descriptor⟩).run
        ⟨locals, us.reverse ++ .fresh base :: .fresh base :: rest⟩ =
      .ok ((), ⟨locals, .object cls :: rest⟩) := by
  have hdescribed : ∀ f, (Step.describedMethod descriptor).run f = .ok (⟨ts, none⟩, f) := by
    intro f
    simp only [Step.describedMethod, hparse]
    rfl
  unfold Step.call
  rw [Step.run_bind_ok (hdescribed _), Step.run_bind_ok (Step.run_popArguments hus),
    if_pos (by decide)]
  have hreceiver : VType.hasKind .reference (.fresh base : NamedType) := rfl
  refine (Step.run_bind_ok (Step.run_pop hreceiver)).trans ?_
  rw [if_pos ⟨rfl, rfl⟩]
  exact Step.run_bind_ok (run_construct hnew hfresh)

/-- While the arguments are on their way, the fresh object lies below them twice. -/
theorem takes_createInstance {cls descriptor : String} {arguments : Build Unit}
    {ts : List FieldType} {us : List NamedType}
    (hparse : MethodType.parse? descriptor = some ⟨ts, none⟩)
    (hus : List.Forall₂ (fun t u => VType.hasKind (.ofType t) u) ts us)
    (h : Takes p [] us.reverse arguments) :
    Takes p [] [.object cls] (createInstance cls descriptor arguments) := by
  obtain ⟨ns, hns, hrun⟩ := h
  have hnew : Adds (Build.emit (.type Opcode.new cls)) [.instr (.type Opcode.new cls)] :=
    adds_emit _
  have hcall := adds_invoke .special ⟨cls, "<init>", descriptor⟩
  refine ⟨_, hnew.seq ((adds_emit _).seq (hns.seq hcall)), fun base hbase locals rest hclear => ?_⟩
  have hmade := hbase 0 _ rfl
  have hold : ¬ Frame.Holds ⟨locals, rest⟩ base :=
    hclear base (Nat.le_refl _) (by simp) ⟨cls, hmade⟩
  have hput : p.run base [.instr (.type Opcode.new cls)] ⟨locals, rest⟩ =
      .ok ⟨locals, .fresh base :: rest⟩ := Program.run_single rfl
  have hdup : p.run (base + 1) [.instr (.plain Opcode.dup)] ⟨locals, .fresh base :: rest⟩ =
      .ok ⟨locals, .fresh base :: .fresh base :: rest⟩ :=
    Program.run_single (Step.run_dup rfl _)
  have harguments : p.run (base + 1 + 1) ns ⟨locals, .fresh base :: .fresh base :: rest⟩ =
      .ok ⟨locals, us.reverse ++ .fresh base :: .fresh base :: rest⟩ := by
    refine hrun (base + 1 + 1) hbase.right.right.left locals (.fresh base :: .fresh base :: rest) ?_
    intro k hlow hhigh hmakes hk
    refine hclear k (by omega) ?_ hmakes ?_
    · simp only [List.length_append, List.length_cons, List.length_nil]
      omega
    · have hne : k ≠ base := by omega
      simpa [Frame.Holds, hne] using hk
  have hinit : p.run (base + 1 + 1 + ns.length)
      [.instr (.method CallKind.special.opcode ⟨cls, "<init>", descriptor⟩ false)]
      ⟨locals, us.reverse ++ .fresh base :: .fresh base :: rest⟩ =
        .ok ⟨locals, .object cls :: rest⟩ :=
    Program.run_single (run_initialise hparse hus hmade hold)
  exact (Program.run_append_ok hput).trans <| (Program.run_append_ok hdup).trans <|
    (Program.run_append_ok harguments).trans hinit

end Build

/-! ## Whole expressions -/

namespace Expression

variable {p : Program}

theorem settled_of_type? {e : Expression} {t : NamedType} (h : e.type? p = some t) :
    VType.IsSettled t := by
  cases e with
  | constant c =>
    cases c with
    | pooled i => exact (Step.settled_of_pooledType? h).1
    | _ =>
      obtain rfl := Option.some.inj h
      trivial
  | array descriptor elements =>
    rw [type?] at h
    split at h
    · split at h
      · obtain rfl := Option.some.inj h
        trivial
      · cases h
    · cases h
  | create cls descriptor arguments =>
    rw [type?] at h
    split at h
    · split at h
      · obtain rfl := Option.some.inj h
        trivial
      · cases h
    · cases h
  | _ =>
    obtain rfl := Option.some.inj h
    trivial

theorem takes_iff {t : FieldType} {u : Option NamedType} :
    t.takes u ↔ ∃ v, u = some v ∧ VType.hasKind (.ofType t) v := by
  cases u <;> simp [FieldType.takes]

mutual

theorem takes_build : ∀ {e : Expression} {t : NamedType}, e.type? p = some t →
    Build.Takes p [] [t] e.build
  | int n, _, h => by
    obtain rfl := Option.some.inj h
    exact Build.takes_int n
  | long n, _, h => by
    obtain rfl := Option.some.inj h
    exact Build.takes_long n
  | float bits, _, h => by
    obtain rfl := Option.some.inj h
    exact Build.takes_float bits
  | double bits, _, h => by
    obtain rfl := Option.some.inj h
    exact Build.takes_double bits
  | null, _, h => by
    obtain rfl := Option.some.inj h
    exact Build.takes_plain (by decide)
  | constant c, _, h => Build.takes_load h
  | array descriptor elements, u, h => by
    rw [type?] at h
    split at h
    · rename_i t ht
      split at h
      · rename_i hfit
        obtain rfl := Option.some.inj h
        exact Build.takes_array ht (takes_bodies hfit)
      · cases h
    · cases h
  | create cls descriptor arguments, u, h => by
    rw [type?] at h
    split at h
    · rename_i ts hparse
      split at h
      · rename_i hfits
        obtain rfl := Option.some.inj h
        obtain ⟨us, hus, harguments⟩ := takes_buildAll hfits
        exact Build.takes_createInstance hparse hus harguments
      · cases h
    · cases h

theorem takes_bodies {t : FieldType} : ∀ {es : List Expression}, allFit p t es →
    ∀ x ∈ bodies es, ∃ u, Build.Takes p [] [u] x ∧ VType.IsSettled u ∧
      VType.hasKind (.ofType t) u
  | [], _ => by simp [bodies]
  | e :: rest, h => by
    rw [allFit, Bool.and_eq_true, takes_iff] at h
    obtain ⟨⟨u, hu, hkind⟩, hrest⟩ := h
    rw [bodies, List.forall_mem_cons]
    exact ⟨⟨u, takes_build hu, settled_of_type? hu, hkind⟩, takes_bodies hrest⟩

theorem takes_buildAll : ∀ {ts : List FieldType} {es : List Expression}, eachFits p ts es →
    ∃ us, List.Forall₂ (fun t u => VType.hasKind (.ofType t) u) ts us ∧
      Build.Takes p [] us.reverse (buildAll es)
  | [], [], _ => ⟨[], .nil, .skip []⟩
  | t :: ts, e :: rest, h => by
    rw [eachFits, Bool.and_eq_true, takes_iff] at h
    obtain ⟨⟨u, hu, hkind⟩, hrest⟩ := h
    obtain ⟨us, hus, htail⟩ := takes_buildAll hrest
    refine ⟨u :: us, .cons hkind hus, ?_⟩
    rw [List.reverse_cons, buildAll]
    exact (takes_build hu).seq (by simpa using settled_of_type? hu) (htail.above [u])

end

end Expression
end ClassWeave
