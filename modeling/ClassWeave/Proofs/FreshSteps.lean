import ClassWeave.Proofs.Outcomes
import ClassWeave.Proofs.StepOrder

/-!
# Fresh objects under every step

Whether the code is trusted or not, an instruction moves the fresh objects of a frame around, marks
them as constructed and adds at most the one that it makes itself. So if all fresh objects of a
frame are known by certain places, those of the next frame are, too; and if an object is made at
every one of these places, no constructor call ever meets an object that nothing has made. Wide
local variables stay whole, whatever an instruction stores.

The instructions are gone through once, with `Step.Keeps` as a triple of what holds of the frame
before, of the result and the frame behind, and of the error.
-/

namespace ClassWeave

/-- The code makes an object at this place. -/
def Program.MakesAt (p : Program) (i : Nat) : Prop :=
  ∃ cls, p.nodes[i]? = some (.instr (.type Opcode.new cls))

/-- An object comes up that no instruction has made. -/
def VerifyError.LosesNew : VerifyError → Prop
  | .unexpectedType _ .resultOfNew => True
  | _ => False

/-- If the value is a fresh object, it is known by one of these places. -/
def VType.From (K : Nat → Prop) (t : NamedType) : Prop := ∀ i, t = .fresh i → K i

theorem VType.IsSettled.from {K : Nat → Prop} {t : NamedType} (ht : IsSettled t) : t.From K := by
  rintro i rfl
  exact ht.elim

namespace Frame

/-- A fresh object of the frame is known by this place. -/
def Holds (f : Frame) (i : Nat) : Prop := .fresh i ∈ f.locals ∨ .fresh i ∈ f.stack

theorem fresh_mem_iff {locals : List NamedType} {i : Nat} :
    .fresh i ∈ locals ↔ ∃ k, slot locals k = .fresh i := by
  constructor
  · intro hi
    obtain ⟨k, hk⟩ := List.mem_iff_getElem?.mp hi
    exact ⟨k, slot_eq_of_getElem? hk⟩
  · rintro ⟨k, hk⟩
    have hlt : k < locals.length := lt_length_of_slot (by rw [hk]; simp)
    exact hk ▸ List.mem_of_getElem? (getElem?_of_slot hlt)

/-- Wide local variables are whole, and the fresh objects are known by certain places. -/
structure Tidy (K : Nat → Prop) (f : Frame) : Prop where
  closed : Closed f.locals
  holds : ∀ i, f.Holds i → K i

variable {K : Nat → Prop} {f : Frame} {t : NamedType}

theorem Tidy.from_local (hf : f.Tidy K) (ht : t ∈ f.locals) : t.From K := by
  rintro i rfl
  exact hf.holds i (.inl ht)

theorem Tidy.from_stack (hf : f.Tidy K) (ht : t ∈ f.stack) : t.From K := by
  rintro i rfl
  exact hf.holds i (.inr ht)

theorem Tidy.stack (hf : f.Tidy K) {stack : List NamedType} (hs : ∀ t ∈ stack, t.From K) :
    Tidy K { f with stack } where
  closed := hf.closed
  holds i hi := hi.elim (fun hl => hf.holds i (.inl hl)) fun hi => hs _ hi i rfl

theorem Tidy.imp {K' : Nat → Prop} (hf : f.Tidy K) (h : ∀ i, K i → K' i) : f.Tidy K' :=
  ⟨hf.closed, fun i hi => h i (hf.holds i hi)⟩

/-- A store adds nothing but the value that is stored. -/
theorem Tidy.store (hf : f.Tidy K) (ht : t.From K) (k : Nat) :
    Tidy K { f with locals := Frame.store f.locals k t } where
  closed := hf.closed.store k t
  holds i hi := by
    rcases hi with hi | hi
    · obtain ⟨j, hj⟩ := fresh_mem_iff.mp hi
      rw [slot_store] at hj
      split at hj
      · exact ht i hj
      · split at hj
        · cases hj
        · split at hj
          · cases hj
          · exact hf.holds i (.inl (fresh_mem_iff.mpr ⟨j, hj⟩))
    · exact hf.holds i (.inr hi)

/-- Objects whose constructor has run are no fresh ones any more. -/
theorem Tidy.replace (hf : f.Tidy K) {old : NamedType} (hold : old.isReference) (cls : String) :
    (f.replace old (.object cls)).Tidy K where
  closed := by
    refine Step.closed_map (if_neg ?_) (fun t => ?_) hf.closed
    · rintro rfl
      cases hold
    · by_cases ht : t = old
      · rw [if_pos ht, ht]
        cases old <;> first | rfl | cases hold
      · rw [if_neg ht]
  holds i hi := by
    have hmem : ∀ ts : List NamedType,
        .fresh i ∈ (ts.map fun t => if t = old then .object cls else t) → .fresh i ∈ ts := by
      intro ts hi
      obtain ⟨t, ht, heq⟩ := List.mem_map.mp hi
      split at heq
      · cases heq
      · exact heq ▸ ht
    exact hf.holds i (hi.imp (hmem _) (hmem _))

end Frame

/-! ## Values that are moved on the stack -/

/-- What a computation gives has a property, and it never fails for want of an instruction that
makes an object. -/
abbrev Draws {α : Type} (R : α → Prop) (x : Except VerifyError α) : Prop :=
  Fulfils R VerifyError.LosesNew x

namespace Draws

variable {K : Nat → Prop}

/-- A value that was taken off the stack, and the rest of it. -/
abbrev Taken (K : Nat → Prop) (a : NamedType × List NamedType) : Prop :=
  a.1.From K ∧ ∀ t ∈ a.2, t.From K

theorem takeAny {s : List NamedType} (hs : ∀ t ∈ s, t.From K) :
    Draws (Taken K) (Shuffle.takeAny s) := by
  cases s with
  | nil => exact id
  | cons t s => exact List.forall_mem_cons.mp hs

theorem takeNarrow {s : List NamedType} (hs : ∀ t ∈ s, t.From K) :
    Draws (Taken K) (Shuffle.takeNarrow s) :=
  (takeAny hs).bind fun _ ht => .ite (fun _ => ht) fun _ => id

/-- Values that are put on the stack again. -/
theorem put {s : List NamedType} (hs : ∀ t ∈ s, t.From K) :
    Draws (fun s => ∀ t ∈ s, VType.From K t) (pure s) := hs

theorem shuffle (move : Shuffle) {s : List NamedType} (hs : ∀ t ∈ s, t.From K) :
    Draws (fun s => ∀ t ∈ s, VType.From K t) (move.run s) := by
  cases move with
  | pop => exact (takeNarrow hs).bind fun a ha => put ha.2
  | pop2 =>
    refine (takeAny hs).bind fun a ha => .ite (fun _ => put ha.2) fun _ => ?_
    exact (takeNarrow ha.2).bind fun b hb => put hb.2
  | dup => exact (takeNarrow hs).bind fun a ha => put (by simp_all)
  | dupX1 =>
    refine (takeNarrow hs).bind fun a ha => (takeNarrow ha.2).bind fun b hb => ?_
    exact put (by simp_all)
  | dupX2 =>
    refine (takeNarrow hs).bind fun a ha => (takeAny ha.2).bind fun b hb => ?_
    refine .ite (fun _ => put (by simp_all)) fun _ => ((takeNarrow hb.2).bind fun c hc => ?_)
    exact put (by simp_all)
  | dup2 =>
    refine (takeAny hs).bind fun a ha => .ite (fun _ => put (by simp_all)) fun _ => ?_
    exact (takeNarrow ha.2).bind fun b hb => put (by simp_all)
  | dup2X1 =>
    refine (takeAny hs).bind fun a ha => (takeNarrow ha.2).bind fun b hb => ?_
    refine .ite (fun _ => put (by simp_all)) fun _ => ((takeNarrow hb.2).bind fun c hc => ?_)
    exact put (by simp_all)
  | dup2X2 =>
    refine (takeAny hs).bind fun a ha => .ite (fun _ => ?_) fun _ => ?_
    · refine (takeAny ha.2).bind fun b hb => .ite (fun _ => put (by simp_all)) fun _ => ?_
      exact (takeNarrow hb.2).bind fun c hc => put (by simp_all)
    · refine (takeNarrow ha.2).bind fun b hb => (takeAny hb.2).bind fun c hc => ?_
      refine .ite (fun _ => put (by simp_all)) fun _ => ((takeNarrow hc.2).bind fun d hd => ?_)
      exact put (by simp_all)
  | swap =>
    refine (takeNarrow hs).bind fun a ha => (takeNarrow ha.2).bind fun b hb => ?_
    exact put (by simp_all)

end Draws

namespace Step

variable {α β : Type} {K : Nat → Prop} {R : α → Prop} {S : β → Prop} {p : Program}

/-- The computation leads from tidy frames to tidy frames, what it gives has a property, and it
never fails for want of an instruction that makes an object. -/
def Keeps (K : Nat → Prop) (R : α → Prop) (x : Step α) : Prop :=
  ∀ f : Frame, f.Tidy K → Draws (fun (a, f') => R a ∧ Frame.Tidy K f') (x.run f)

/-! ## Putting computations together -/

theorem Keeps.pure {a : α} (ha : R a) : Keeps K R (Pure.pure a) := fun _ hf => ⟨ha, hf⟩

theorem Keeps.throw {e : VerifyError} (he : ¬ e.LosesNew) :
    Keeps K R (MonadExcept.throw e) := fun _ _ => he

theorem Keeps.bind {x : Step α} {k : α → Step β} (hx : Keeps K R x)
    (hk : ∀ a, R a → Keeps K S (k a)) : Keeps K S (x >>= k) := by
  intro f hf
  rw [StateT.run_bind]
  exact (hx f hf).bind fun a ha => hk a.1 ha.1 a.2 ha.2

theorem Keeps.ite {c : Prop} [Decidable c] {x y : Step α} (hx : c → Keeps K R x)
    (hy : ¬ c → Keeps K R y) : Keeps K R (if c then x else y) := by
  split
  · exact hx ‹_›
  · exact hy ‹_›

/-- Nothing is said about what a computation gives. -/
abbrev Any : α → Prop := fun _ => True

theorem Keeps.forM {γ : Type} {k : γ → Step Unit} (hk : ∀ c, Keeps K Any (k c)) (cs : List γ) :
    Keeps K Any (cs.forM k) := by
  induction cs with
  | nil => exact .pure trivial
  | cons c cs ih => exact (hk c).bind fun _ _ => ih

/-! ## Values -/

theorem keeps_push {t : NamedType} (ht : t.From K) : Keeps K Any (push t) := fun _ hf =>
  ⟨trivial, hf.stack (List.forall_mem_cons.mpr ⟨ht, fun _ => hf.from_stack⟩)⟩

theorem keeps_settled {t : NamedType} (ht : VType.IsSettled t) : Keeps K Any (push t) :=
  keeps_push ht.from

theorem keeps_popAny : Keeps K (VType.From K) popAny := by
  rintro ⟨locals, stack⟩ hf
  cases stack with
  | nil => exact id
  | cons t stack =>
    exact ⟨hf.from_stack List.mem_cons_self,
      hf.stack fun u hu => hf.from_stack (List.mem_cons_of_mem t hu)⟩

theorem keeps_popSlots (slots : Nat) : Keeps K (VType.From K) (popSlots slots) :=
  keeps_popAny.bind fun _ ht => .ite (fun _ => .pure ht) fun _ => .throw id

theorem keeps_check (holds : Bool) (found : NamedType) {expected : Expectation}
    (hexpected : expected ≠ .resultOfNew) : Keeps K Any (check p holds found expected) := by
  refine .ite (fun _ => .throw ?_) fun _ => .pure trivial
  cases expected <;> first | exact id | exact absurd rfl hexpected

theorem keeps_pop (kind : ValueKind) : Keeps K (VType.From K) (pop p kind) :=
  (keeps_popSlots _).bind fun t ht => (keeps_check _ t (by simp)).bind fun _ _ => .pure ht

/-- A value that is taken off and not looked at. -/
theorem keeps_drop (kind : ValueKind) {k : Step α} (hk : Keeps K R k) :
    Keeps K R (do let _ ← pop p kind; k) :=
  (keeps_pop kind).bind fun _ _ => hk

theorem keeps_popArray (elements : PrimitiveArray) : Keeps K Any (popArray p elements) :=
  (keeps_pop .reference).bind fun t _ => keeps_check _ t (by simp)

theorem keeps_readLocal (index : UInt16) (kind : ValueKind) :
    Keeps K (VType.From K) (readLocal p index kind) := by
  intro f hf
  cases hk : f.locals[index.toNat]? with
  | none =>
    rw [run_readLocal_none hk]
    exact id
  | some t =>
    by_cases hroom : kind.slots = 2 ∧ f.locals.length ≤ index.toNat + 1
    · rw [run_readLocal_of_le hk hroom]
      exact id
    · rw [run_readLocal hk hroom]
      refine Keeps.bind (keeps_check _ t (by simp)) (fun _ _ => .pure ?_) f hf
      split
      · exact hf.from_local (List.mem_of_getElem? hk)
      · exact (VType.isSettled_ofKind kind).from

theorem keeps_load (index : UInt16) (kind : ValueKind) : Keeps K Any (load p index kind) :=
  (keeps_readLocal index kind).bind fun _ => keeps_push

theorem keeps_store (index : UInt16) (kind : ValueKind) : Keeps K Any (store p index kind) :=
  (keeps_pop kind).bind fun _ ht _ hf => ⟨trivial, hf.store ht index.toNat⟩

theorem keeps_componentType (t : NamedType) :
    Keeps K VType.IsSettled (componentType p t) := by
  have other : ∀ t, Keeps K VType.IsSettled
      (do check p false t .arrayOfReferences; return .object rootClass) := fun t =>
    (keeps_check _ t (by simp)).bind fun _ _ => .pure trivial
  cases t with
  | null => exact .pure trivial
  | object cls =>
    rw [componentType_object]
    cases elementOf? cls with
    | some x => exact .pure trivial
    | none => exact other _
  | _ => exact other _

/-- A constructor is called on an object that the code makes. -/
theorem keeps_constructed? (hK : ∀ i, K i → p.MakesAt i) {t : NamedType} (ht : t.From K) :
    Keeps K (fun done => ∀ d, done = some d → t.isReference ∧ ∃ cls, d = .object cls)
      (constructed? p t) := by
  have hcheck : ∀ t : NamedType, Keeps K Any (check p false t .freshObject) := fun t =>
    keeps_check false t (by simp)
  cases t with
  | freshThis => exact .pure fun d hd => ⟨rfl, p.method.cls, (Option.some.inj hd).symm⟩
  | fresh i =>
    obtain ⟨cls, hn⟩ := hK i (ht i rfl)
    rw [constructed?_of_new hn]
    exact .pure fun d hd => ⟨rfl, cls, (Option.some.inj hd).symm⟩
  | _ => exact (hcheck _).bind fun _ _ => .pure (by simp)

theorem keeps_construct (hK : ∀ i, K i → p.MakesAt i) {t : NamedType} (ht : t.From K) :
    Keeps K Any (construct p t) := by
  refine (keeps_constructed? hK ht).bind fun done hdone => ?_
  cases done with
  | none => exact .pure trivial
  | some d =>
    obtain ⟨href, cls, rfl⟩ := hdone d rfl
    exact fun f hf => ⟨trivial, hf.replace href cls⟩

/-! ## All instructions -/

variable (hK : ∀ i, K i → p.MakesAt i)

theorem keeps_effect (e : Effect) (hpush : ∀ t, e = .push t → VType.IsSettled t) :
    Keeps K Any (effect p e) := by
  cases e with
  | nothing => exact .pure trivial
  | push t => exact keeps_settled (hpush t rfl)
  | load kind slot => exact keeps_load slot kind
  | store kind slot => exact keeps_store slot kind
  | arrayLoad elements =>
    refine keeps_drop _ ((keeps_popArray elements).bind fun _ _ => ?_)
    exact keeps_settled (VType.isSettled_ofKind _)
  | arrayStore elements => exact keeps_drop _ (keeps_drop _ (keeps_popArray elements))
  | referenceLoad =>
    refine keeps_drop _ ((keeps_pop _).bind fun t _ => ?_)
    exact (keeps_componentType t).bind fun _ hu => keeps_settled hu
  | referenceStore =>
    refine keeps_drop _ (keeps_drop _ ((keeps_pop _).bind fun t _ => ?_))
    exact (keeps_componentType t).bind fun _ _ => .pure trivial
  | shuffle move =>
    intro f hf
    have hmoved := Draws.shuffle move fun _ => hf.from_stack
    show Draws _ (((move.run f.stack).bind fun stack => .ok (stack, f)).bind _)
    generalize move.run f.stack = moved at hmoved
    cases moved with
    | error e => exact hmoved
    | ok stack => exact ⟨trivial, hf.stack hmoved⟩
  | compute operands result =>
    refine (Keeps.forM (fun kind => keeps_drop kind (.pure trivial)) operands).bind fun _ _ => ?_
    exact keeps_settled (VType.isSettled_ofKind result)
  | returnValue kind => exact (keeps_pop kind).bind fun t _ => keeps_check _ t (by simp)
  | returnNothing => exact keeps_check _ _ (by simp)
  | arrayLength => exact keeps_drop _ (keeps_settled trivial)
  | consume => exact keeps_drop _ (.pure trivial)

theorem keeps_described (descriptor : String) : Keeps K Any (described descriptor) := by
  unfold described
  cases FieldType.parse? descriptor with
  | some t => exact .pure trivial
  | none => exact .throw id

theorem keeps_describedMethod (descriptor : String) : Keeps K Any (describedMethod descriptor) := by
  unfold describedMethod
  cases MethodType.parse? descriptor with
  | some t => exact .pure trivial
  | none => exact .throw id

theorem keeps_pooledType (i : PoolIndex) : Keeps K VType.IsSettled (pooledType p i) := by
  unfold pooledType
  cases p.pool.get i with
  | error e => exact .throw id
  | ok c =>
    cases c with
    | dynamic _ nt =>
      simp only
      cases p.pool.nameAndType nt with
      | error e => exact .throw id
      | ok nd =>
        exact (keeps_described nd.2).bind fun t _ => .pure (VType.isSettled_ofField t)
    | utf8 | fieldRef | methodRef | nameAndType | invokeDynamic | moduleInfo | packageInfo =>
      exact .throw id
    | _ => exact .pure trivial

theorem keeps_constantType (l : Loadable) : Keeps K VType.IsSettled (constantType p l) := by
  cases l with
  | pooled i => exact keeps_pooledType i
  | _ => exact .pure trivial

theorem keeps_popArguments (parameters : List FieldType) :
    Keeps K Any (popArguments p parameters) :=
  Keeps.forM (fun _ => keeps_drop _ (.pure trivial)) _

theorem keeps_pushResult (m : MethodType) : Keeps K Any (pushResult m) := by
  unfold pushResult
  cases m.result with
  | some t => exact keeps_settled (VType.isSettled_ofField t)
  | none => exact .pure trivial

theorem keeps_field (op : UInt8) (m : MemberRef) : Keeps K Any (field p op m) := by
  refine (keeps_described _).bind fun t _ => ?_
  have hpush : Keeps K Any (push (VType.ofField t)) := keeps_settled (VType.isSettled_ofField t)
  refine .ite (fun _ => hpush) fun _ => ?_
  refine .ite (fun _ => keeps_drop _ (.pure trivial)) fun _ => ?_
  refine .ite (fun _ => keeps_drop _ hpush) fun _ => ?_
  exact .ite (fun _ => keeps_drop _ (keeps_drop _ (.pure trivial))) fun _ => .throw id

include hK in
theorem keeps_call (op : UInt8) (m : MemberRef) : Keeps K Any (call p op m) := by
  refine (keeps_describedMethod _).bind fun type _ => (keeps_popArguments _).bind fun _ _ => ?_
  refine .ite (fun _ => ?_) fun _ => keeps_pushResult type
  refine (keeps_pop _).bind fun t ht => .ite (fun _ => ?_) fun _ => keeps_pushResult type
  exact (keeps_construct hK ht).bind fun _ _ => keeps_pushResult type

theorem keeps_onClass {i : Nat} (op : UInt8) (cls : String) (hnew : op = Opcode.new → K i) :
    Keeps K Any (onClass p i op cls) := by
  refine .ite (fun hop => keeps_push ?_) fun _ => ?_
  · rintro j hj
    exact VType.fresh.inj hj ▸ hnew hop
  refine .ite (fun _ => keeps_drop _ (keeps_settled trivial)) fun _ => ?_
  refine .ite (fun _ => keeps_drop _ (keeps_settled trivial)) fun _ => ?_
  exact .ite (fun _ => keeps_drop _ (keeps_settled trivial)) fun _ => .throw id

theorem keeps_variableAccess (op : UInt8) (index : UInt16) :
    Keeps K Any (variableAccess p op index) := by
  refine .ite (fun _ => .throw id) fun _ => ?_
  refine .ite (fun _ => keeps_load index _) fun _ => ?_
  exact .ite (fun _ => keeps_store index _) fun _ => .throw id

theorem keeps_jump (op : UInt8) : Keeps K Any (jump p op) := by
  refine .ite (fun _ => keeps_drop _ (.pure trivial)) fun _ => ?_
  refine .ite (fun _ => keeps_drop _ (keeps_drop _ (.pure trivial))) fun _ => ?_
  refine .ite (fun _ => keeps_drop _ (keeps_drop _ (.pure trivial))) fun _ => ?_
  refine .ite (fun _ => keeps_drop _ (.pure trivial)) fun _ => ?_
  refine .ite (fun _ => .pure trivial) fun _ => ?_
  exact .ite (fun _ => .throw id) fun _ => .throw id

include hK in
/-- **An instruction keeps frames tidy**, if the object that it makes may come up. -/
theorem keeps_instr {τ : Type} {i : Nat} (ins : Instr τ)
    (hnew : ∀ cls, ins = .type Opcode.new cls → K i) : Keeps K Any (instr p i ins) := by
  cases ins with
  | plain op =>
    simp only [instr]
    cases he : Effect.ofOpcode? op with
    | some e => exact keeps_effect e fun t ht => (settled_of_ofOpcode? (ht ▸ he)).1
    | none => exact .throw id
  | int op n =>
    refine .ite (fun _ => keeps_settled trivial) fun _ => ?_
    refine .ite (fun _ => keeps_drop _ ?_) fun _ => .throw id
    cases elementDescriptor? n with
    | some element => exact keeps_settled trivial
    | none => exact .throw id
  | type op cls => exact keeps_onClass op cls fun hop => hnew cls (hop ▸ rfl)
  | var op index => exact keeps_variableAccess op index
  | increment index _ => exact (keeps_readLocal index .int).bind fun _ _ => .pure trivial
  | field op m => exact keeps_field op m
  | method op m _ => exact keeps_call hK op m
  | load l => exact (keeps_constantType l).bind fun _ ht => keeps_settled ht
  | jump op _ => exact keeps_jump op
  | tableSwitch | lookupSwitch => exact keeps_drop _ (.pure trivial)
  | newMultiArray cls n =>
    refine (Keeps.forM (fun _ => keeps_drop _ (.pure trivial)) _).bind fun _ _ => ?_
    exact keeps_settled trivial
  | invokeDynamic s =>
    refine (keeps_describedMethod _).bind fun type _ => ?_
    exact (keeps_popArguments _).bind fun _ _ => keeps_pushResult type

end Step

/-- **The frame behind an instruction is tidy**, and no constructor call meets an object that
nothing has made. -/
theorem Program.step_tidy {τ : Type} {K : Nat → Prop} {p : Program} (hK : ∀ i, K i → p.MakesAt i)
    {i : Nat} {ins : Instr τ} (hnew : ∀ cls, ins = .type Opcode.new cls → K i) {f : Frame}
    (hf : f.Tidy K) : Draws (Frame.Tidy K) (p.step i ins f) :=
  (Step.keeps_instr hK ins hnew f hf).bind fun _ ha => ha.2

end ClassWeave
