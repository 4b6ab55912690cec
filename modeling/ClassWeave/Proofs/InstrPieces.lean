import ClassWeave.Frame.Step
import ClassWeave.Proofs.FrameOrder

/-!
# Instructions from their pieces

A step is put together from few pieces: values are put on the stack, taken off it and moved, checks
are made, local variables are read and stored, objects are constructed. To compare what two programs
do it is enough to compare these pieces. A `Step.Comparison` says which frames and values are
compared; where the pieces of the first program do what those of the second do (`Step.Pieces`),
every instruction of the first does what it does in the second (`Step.relates_instr`).

The two programs may have the same instruction at different places. Then `site` tells which
instructions that create objects stand for each other.
-/

namespace ClassWeave

/-- The type of a constant of the pool, if it has one. -/
def Program.pooledType? (p : Program) (i : PoolIndex) : Option NamedType :=
  match (Step.pooledType p i).run ⟨[], []⟩ with
  | .ok (t, _) => some t
  | .error _ => none

/-- The first program is the second one, possibly laid out anew. -/
structure Program.Resembles (site : Nat → Nat → Prop) (p q : Program) : Prop where
  method : p.method = q.method
  result : p.result = q.result
  pooled : ∀ i t, q.pooledType? i = some t → p.pooledType? i = some t
  sites : VType.SiteMap site
  news : ∀ i j cls, site i j → q.nodes[j]? = some (.instr (.type Opcode.new cls)) →
    p.nodes[i]? = some (.instr (.type Opcode.new cls))

/-- The local variable that an instruction reads or stores, and the kind of its values. A return
address takes up as much as a reference. -/
def Instr.local? {τ : Type} : Instr τ → Option (UInt16 × ValueKind)
  | .plain op =>
    match Effect.ofOpcode? op with
    | some (.load kind slot) | some (.store kind slot) => some (slot, kind)
    | _ => none
  | .var op i =>
    if Opcode.isLoad op then some (i, .ofRank (op - Opcode.iload).toNat)
    else if Opcode.isStore op then some (i, .ofRank (op - Opcode.istore).toNat)
    else if op = Opcode.ret then some (i, .reference)
    else none
  | .increment i _ => some (i, .int)
  | _ => none

namespace Step

variable {α β α' β' : Type}

/-- The value is a reference to an array of these elements, or `null`. -/
def isArrayOf (elements : PrimitiveArray) : NamedType → Bool
  | .null => true
  | .object cls => cls ∈ elements.descriptors
  | _ => false

/-- A way to compare the frames and values of two programs. -/
structure Comparison where
  /-- The frames that two computations start on. -/
  Before : Frame → Frame → Prop
  /-- The frames in front of two computations, and those behind them. -/
  After : Frame → Frame → Frame → Frame → Prop
  /-- The values that two computations handle. -/
  Value : NamedType → NamedType → Prop
  /-- The local variables that are read and stored. -/
  Local : UInt16 → ValueKind → Prop
  refl : ∀ {f g}, Before f g → After f g f g
  trans : ∀ {f g f' g' f'' g''}, After f g f' g' → After f' g' f'' g'' → After f g f'' g''
  before : ∀ {f g f' g'}, After f g f' g' → Before f' g'
  values : ∀ {f g}, Before f g → List.Forall₂ Value f.stack g.stack
  stack : ∀ {f g fs gs}, Before f g → List.Forall₂ Value fs gs →
    After f g { f with stack := fs } { g with stack := gs }
  slots : ∀ {a b}, Value a b → a.slots = b.slots
  kind : ∀ {a b} {kind : ValueKind}, Value a b → VType.hasKind kind b → VType.hasKind kind a
  array : ∀ {a b elements}, Value a b → isArrayOf elements b → isArrayOf elements a

/-- What the second computation does on a frame, the first does on every frame that is compared
with it. -/
def Relates (c : Comparison) (R : α → β → Prop) (x : Step α) (y : Step β) : Prop :=
  ∀ ⦃f g⦄, c.Before f g → ∀ ⦃b g'⦄, y.run g = .ok (b, g') →
    ∃ a f', x.run f = .ok (a, f') ∧ R a b ∧ c.After f g f' g'

variable {c : Comparison}

/-! ## Putting computations together -/

theorem Relates.pure {R : α → β → Prop} {a : α} {b : β} (hab : R a b) :
    Relates c R (pure a) (pure b) := by
  intro f g hu b' g' hy
  rw [StateT.run_pure, pure_eq_ok, Prod.mk.injEq] at hy
  obtain ⟨rfl, rfl⟩ := hy
  exact ⟨a, f, rfl, hab, c.refl hu⟩

theorem Relates.bind {R : α → β → Prop} {S : α' → β' → Prop} {x : Step α} {y : Step β}
    {k : α → Step α'} {l : β → Step β'} (hxy : Relates c R x y)
    (hkl : ∀ a b, R a b → Relates c S (k a) (l b)) : Relates c S (x >>= k) (y >>= l) := by
  intro f g hu d g'' hy
  rw [StateT.run_bind] at hy
  obtain ⟨⟨b, g'⟩, hb, hc⟩ := bind_eq_ok.mp hy
  obtain ⟨a, f', hx, hab, h1⟩ := hxy hu hb
  obtain ⟨d', f'', hk, hdc, h2⟩ := hkl a b hab (c.before h1) hc
  exact ⟨d', f'', by rw [StateT.run_bind, hx]; exact hk, hdc, c.trans h1 h2⟩

theorem Relates.throw {R : α → β → Prop} {x : Step α} {e : VerifyError} :
    Relates c R x (throw e) := by
  intro f g _ b g' hy
  have hfail : (MonadExcept.throw e : Step β).run g = .error e := rfl
  rw [hfail] at hy
  cases hy

theorem Relates.imp {R S : α → β → Prop} {x : Step α} {y : Step β}
    (hxy : Relates c R x y) (hrs : ∀ a b, R a b → S a b) : Relates c S x y := by
  intro f g hu b g' hy
  obtain ⟨a, f', hx, hab, ha⟩ := hxy hu hy
  exact ⟨a, f', hx, hrs a b hab, ha⟩

theorem Relates.ite {R : α → β → Prop} {d : Prop} [Decidable d] {x x' : Step α} {y y' : Step β}
    (ht : d → Relates c R x y) (hf : ¬ d → Relates c R x' y') :
    Relates c R (if d then x else x') (if d then y else y') := by
  split
  · exact ht ‹_›
  · exact hf ‹_›

/-- Both computations give nothing. -/
abbrev Silent : Unit → Unit → Prop := fun _ _ => True

theorem Relates.forM {γ : Type} {k l : γ → Step Unit}
    (hkl : ∀ d, Relates c Silent (k d) (l d)) (ds : List γ) :
    Relates c Silent (ds.forM k) (ds.forM l) := by
  induction ds with
  | nil => exact .pure trivial
  | cons d ds ih => exact (hkl d).bind fun _ _ _ => ih

/-! ## Values on the stack -/

theorem relates_push {a b : NamedType} (hab : c.Value a b) :
    Relates c Silent (push a) (push b) := by
  intro f g hu d g' hy
  obtain ⟨rfl⟩ : g' = { g with stack := b :: g.stack } := (Prod.mk.inj (Except.ok.inj hy)).2.symm
  exact ⟨(), { f with stack := a :: f.stack }, rfl, trivial, c.stack hu (.cons hab (c.values hu))⟩

theorem relates_popAny : Relates c c.Value popAny popAny := by
  intro f g hu b g' hy
  have hv := c.values hu
  cases hg : g.stack with
  | nil =>
    have : popAny.run g = .error .emptyStack := by
      simp [popAny, hg, Shuffle.takeAny, StateT.run, bind, StateT.bind, Except.bind, get, getThe,
        MonadStateOf.get, StateT.get, pure, Except.pure, liftM, monadLift, MonadLift.monadLift,
        StateT.lift]
    rw [this] at hy
    cases hy
  | cons t gs =>
    have run : ∀ (k : Frame) (u : NamedType) (ks : List NamedType), k.stack = u :: ks →
        popAny.run k = .ok (u, { k with stack := ks }) := by
      rintro ⟨locals, stack⟩ u ks rfl
      rfl
    rw [run g t gs hg, Except.ok.injEq, Prod.mk.injEq] at hy
    obtain ⟨rfl, rfl⟩ := hy
    rw [hg] at hv
    cases hf : f.stack with
    | nil => rw [hf] at hv; cases hv
    | cons u fs =>
      rw [hf] at hv
      cases hv with
      | cons hd tl => exact ⟨u, _, run f u fs hf, hd, c.stack hu tl⟩

theorem relates_popSlots (slots : Nat) :
    Relates c (fun a b => c.Value a b ∧ b.slots = slots) (popSlots slots) (popSlots slots) := by
  refine relates_popAny.bind fun a b hab => ?_
  rw [c.slots hab]
  exact .ite (fun hslots => .pure ⟨hab, hslots⟩) (fun _ => .throw)

/-! ## Moving values on the stack -/

/-- What the second computation gives, the first gives a counterpart of. -/
def Gives {ε α β : Type} (R : α → β → Prop) (x : Except ε α) (y : Except ε β) : Prop :=
  ∀ b, y = .ok b → ∃ a, x = .ok a ∧ R a b

theorem Gives.pure {ε : Type} {R : α → β → Prop} {a : α} {b : β} (hab : R a b) :
    Gives R (pure a : Except ε α) (pure b : Except ε β) := by
  intro b' hb
  rw [← pure_eq_ok.mp hb]
  exact ⟨a, rfl, hab⟩

theorem Gives.bind {ε : Type} {R : α → β → Prop} {S : α' → β' → Prop} {x : Except ε α}
    {y : Except ε β} {k : α → Except ε α'} {l : β → Except ε β'} (hxy : Gives R x y)
    (hkl : ∀ a b, R a b → Gives S (k a) (l b)) : Gives S (x >>= k) (y >>= l) := by
  intro d hd
  obtain ⟨b, hb, hd⟩ := bind_eq_ok.mp hd
  obtain ⟨a, ha, hab⟩ := hxy b hb
  obtain ⟨c, hc, hcd⟩ := hkl a b hab d hd
  exact ⟨c, bind_eq_ok.mpr ⟨a, ha, hc⟩, hcd⟩

theorem Gives.throw {ε : Type} {R : α → β → Prop} {x : Except ε α} {e : ε} :
    Gives R x (throw e : Except ε β) := fun _ hb => absurd hb throw_ne_ok

/-- Both sides branch on the same condition. -/
theorem Gives.ite {ε : Type} {R : α → β → Prop} {c c' : Prop} [Decidable c] [Decidable c']
    {x x' : Except ε α} {y y' : Except ε β} (hc : c ↔ c') (ht : Gives R x y) (hf : Gives R x' y') :
    Gives R (if c then x else x') (if c' then y else y') := by
  by_cases h : c
  · rw [if_pos h, if_pos (hc.mp h)]
    exact ht
  · rw [if_neg h, if_neg (fun h' => h (hc.mpr h'))]
    exact hf

/-- A value that was taken off, and the rest of the stack. -/
abbrev Comparison.Taken (c : Comparison) (a b : NamedType × List NamedType) : Prop :=
  c.Value a.1 b.1 ∧ List.Forall₂ c.Value a.2 b.2

theorem gives_takeAny {fs gs : List NamedType} (hv : List.Forall₂ c.Value fs gs) :
    Gives c.Taken (Shuffle.takeAny fs) (Shuffle.takeAny gs) := by
  intro b hb
  cases hv with
  | nil => cases hb
  | cons hd tl =>
    rw [Shuffle.takeAny, Except.ok.injEq] at hb
    subst hb
    exact ⟨_, rfl, hd, tl⟩

theorem gives_takeNarrow {fs gs : List NamedType} (hv : List.Forall₂ c.Value fs gs) :
    Gives c.Taken (Shuffle.takeNarrow fs) (Shuffle.takeNarrow gs) := by
  refine (gives_takeAny hv).bind ?_
  rintro ⟨a, s⟩ ⟨b, t⟩ hab
  exact .ite (by rw [c.slots hab.1]) (.pure hab) .throw

theorem Comparison.isWide_iff {a b : NamedType} (hab : c.Value a b) :
    a.isWide = true ↔ b.isWide = true := by
  have hslots := c.slots hab
  rw [Frame.slots_of_isWide, Frame.slots_of_isWide] at hslots
  split at hslots <;> split at hslots <;> simp_all

theorem gives_shuffle (s : Shuffle) {fs gs : List NamedType} (hv : List.Forall₂ c.Value fs gs) :
    Gives (List.Forall₂ c.Value) (s.run fs) (s.run gs) := by
  cases s with
  | pop =>
    refine (gives_takeNarrow hv).bind ?_
    rintro ⟨_, _⟩ ⟨_, _⟩ ⟨_, ht⟩
    exact .pure ht
  | pop2 =>
    refine (gives_takeAny hv).bind ?_
    rintro ⟨_, _⟩ ⟨_, _⟩ ⟨h1, ht⟩
    refine .ite (c.isWide_iff h1) (.pure ht) ((gives_takeNarrow ht).bind ?_)
    rintro ⟨_, _⟩ ⟨_, _⟩ ⟨_, ht⟩
    exact .pure ht
  | dup =>
    refine (gives_takeNarrow hv).bind ?_
    rintro ⟨_, _⟩ ⟨_, _⟩ ⟨h1, ht⟩
    exact .pure (.cons h1 (.cons h1 ht))
  | dupX1 =>
    refine (gives_takeNarrow hv).bind ?_
    rintro ⟨_, _⟩ ⟨_, _⟩ ⟨h1, ht⟩
    refine (gives_takeNarrow ht).bind ?_
    rintro ⟨_, _⟩ ⟨_, _⟩ ⟨h2, ht⟩
    exact .pure (.cons h1 (.cons h2 (.cons h1 ht)))
  | dupX2 =>
    refine (gives_takeNarrow hv).bind ?_
    rintro ⟨_, _⟩ ⟨_, _⟩ ⟨h1, ht⟩
    refine (gives_takeAny ht).bind ?_
    rintro ⟨_, _⟩ ⟨_, _⟩ ⟨h2, ht⟩
    refine .ite (c.isWide_iff h2) (.pure (.cons h1 (.cons h2 (.cons h1 ht)))) ?_
    refine (gives_takeNarrow ht).bind ?_
    rintro ⟨_, _⟩ ⟨_, _⟩ ⟨h3, ht⟩
    exact .pure (.cons h1 (.cons h2 (.cons h3 (.cons h1 ht))))
  | dup2 =>
    refine (gives_takeAny hv).bind ?_
    rintro ⟨_, _⟩ ⟨_, _⟩ ⟨h1, ht⟩
    refine .ite (c.isWide_iff h1) (.pure (.cons h1 (.cons h1 ht))) ?_
    refine (gives_takeNarrow ht).bind ?_
    rintro ⟨_, _⟩ ⟨_, _⟩ ⟨h2, ht⟩
    exact .pure (.cons h1 (.cons h2 (.cons h1 (.cons h2 ht))))
  | dup2X1 =>
    refine (gives_takeAny hv).bind ?_
    rintro ⟨_, _⟩ ⟨_, _⟩ ⟨h1, ht⟩
    refine (gives_takeNarrow ht).bind ?_
    rintro ⟨_, _⟩ ⟨_, _⟩ ⟨h2, ht⟩
    refine .ite (c.isWide_iff h1) (.pure (.cons h1 (.cons h2 (.cons h1 ht)))) ?_
    refine (gives_takeNarrow ht).bind ?_
    rintro ⟨_, _⟩ ⟨_, _⟩ ⟨h3, ht⟩
    exact .pure (.cons h1 (.cons h2 (.cons h3 (.cons h1 (.cons h2 ht)))))
  | dup2X2 =>
    refine (gives_takeAny hv).bind ?_
    rintro ⟨_, _⟩ ⟨_, _⟩ ⟨h1, ht⟩
    refine .ite (c.isWide_iff h1) ?_ ?_
    · refine (gives_takeAny ht).bind ?_
      rintro ⟨_, _⟩ ⟨_, _⟩ ⟨h2, ht⟩
      refine .ite (c.isWide_iff h2) (.pure (.cons h1 (.cons h2 (.cons h1 ht)))) ?_
      refine (gives_takeNarrow ht).bind ?_
      rintro ⟨_, _⟩ ⟨_, _⟩ ⟨h3, ht⟩
      exact .pure (.cons h1 (.cons h2 (.cons h3 (.cons h1 ht))))
    · refine (gives_takeNarrow ht).bind ?_
      rintro ⟨_, _⟩ ⟨_, _⟩ ⟨h2, ht⟩
      refine (gives_takeAny ht).bind ?_
      rintro ⟨_, _⟩ ⟨_, _⟩ ⟨h3, ht⟩
      refine .ite (c.isWide_iff h3)
        (.pure (.cons h1 (.cons h2 (.cons h3 (.cons h1 (.cons h2 ht)))))) ?_
      refine (gives_takeNarrow ht).bind ?_
      rintro ⟨_, _⟩ ⟨_, _⟩ ⟨h4, ht⟩
      exact .pure (.cons h1 (.cons h2 (.cons h3 (.cons h4 (.cons h1 (.cons h2 ht))))))
  | swap =>
    refine (gives_takeNarrow hv).bind ?_
    rintro ⟨_, _⟩ ⟨_, _⟩ ⟨h1, ht⟩
    refine (gives_takeNarrow ht).bind ?_
    rintro ⟨_, _⟩ ⟨_, _⟩ ⟨h2, ht⟩
    exact .pure (.cons h2 (.cons h1 ht))

theorem relates_shuffle {p q : Program} (s : Shuffle) :
    Relates c Silent (effect p (.shuffle s)) (effect q (.shuffle s)) := by
  intro f g hu d g' hy
  have run : ∀ (r : Program) (k : Frame), (effect r (.shuffle s)).run k =
      (s.run k.stack).map fun stack => ((), { k with stack }) := by
    intro r k
    show ((s.run k.stack).bind fun stack => .ok (stack, k)).bind _ = _
    cases s.run k.stack <;> rfl
  rw [run] at hy
  cases hs : s.run g.stack with
  | error e => rw [hs] at hy; cases hy
  | ok gs =>
    obtain ⟨fs, hfs, hv⟩ := gives_shuffle s (c.values hu) gs hs
    rw [hs, Except.map, Except.ok.injEq, Prod.mk.injEq] at hy
    obtain ⟨-, rfl⟩ := hy
    refine ⟨(), { f with stack := fs }, ?_, trivial, c.stack hu hv⟩
    rw [run, hfs]
    rfl

/-! ## Checks and local variables -/

/-- A check that is made in the first program is made in the second. -/
theorem relates_check {p q : Program} (hmode : p.mode = .strict → q.mode = .strict)
    {holds holds' : Bool} (hb : holds' → holds) (a b : NamedType) (expected : Expectation) :
    Relates c Silent (check p holds a expected) (check q holds' b expected) := by
  unfold check
  by_cases hfails : q.mode = .strict ∧ holds' = false
  · -- where the second program objects, nothing is asked of the first
    rw [if_pos hfails]
    exact .throw
  · rw [if_neg hfails, if_neg]
    · exact .pure trivial
    · rintro ⟨hstrict, hholds⟩
      refine hfails ⟨hmode hstrict, ?_⟩
      by_contra hne
      rw [hb (by simpa using hne)] at hholds
      cases hholds

section run

variable {r : Program} {k : Frame} {index : UInt16} {kind : ValueKind} {t : NamedType}

theorem run_readLocal_none (hk : k.locals[index.toNat]? = none) :
    (readLocal r index kind).run k = .error (.invalidLocal index) := by
  simp only [readLocal, StateT.run_bind, StateT.run_get, pure_bind, hk]
  rfl

theorem run_readLocal_of_le (hk : k.locals[index.toNat]? = some t)
    (hroom : kind.slots = 2 ∧ k.locals.length ≤ index.toNat + 1) :
    (readLocal r index kind).run k = .error (.invalidLocal index) := by
  simp only [readLocal, StateT.run_bind, StateT.run_get, pure_bind, hk, hroom]
  rfl

/-- What reading a local variable does if it is there. -/
theorem run_readLocal (hk : k.locals[index.toNat]? = some t)
    (hroom : ¬ (kind.slots = 2 ∧ k.locals.length ≤ index.toNat + 1)) :
    (readLocal r index kind).run k = (do
      check r (VType.hasKind kind t) t (.kind kind)
      return if kind = .reference ∧ t.isReference then t else VType.ofKind kind :
        Step NamedType).run k := by
  simp only [readLocal, StateT.run_bind, StateT.run_get, pure_bind, hk, if_neg hroom]

end run

/-- What reading a local variable needs: where the second frame has the variable, the first has a
counterpart of it. -/
theorem relates_readLocal {p q : Program} {R : NamedType → NamedType → Prop} {index : UInt16}
    {kind : ValueKind} (hmode : p.mode = .strict → q.mode = .strict)
    (hread : ∀ ⦃f g⦄, c.Before f g → ∀ t, g.locals[index.toNat]? = some t →
      ¬ (kind.slots = 2 ∧ g.locals.length ≤ index.toNat + 1) →
      (q.mode = .strict → VType.hasKind kind t) → ∃ s, f.locals[index.toNat]? = some s ∧
        ¬ (kind.slots = 2 ∧ f.locals.length ≤ index.toNat + 1) ∧
        (VType.hasKind kind t → VType.hasKind kind s) ∧
        R (if kind = .reference ∧ s.isReference then s else VType.ofKind kind)
          (if kind = .reference ∧ t.isReference then t else VType.ofKind kind)) :
    Relates c R (readLocal p index kind) (readLocal q index kind) := by
  intro f g hu b g' hy
  cases hg : g.locals[index.toNat]? with
  | none =>
    rw [run_readLocal_none hg] at hy
    cases hy
  | some t =>
    by_cases hroom : kind.slots = 2 ∧ g.locals.length ≤ index.toNat + 1
    · rw [run_readLocal_of_le hg hroom] at hy
      cases hy
    · rw [run_readLocal hg hroom] at hy
      have hchecked : q.mode = .strict → VType.hasKind kind t := by
        intro hstrict
        by_contra hkind
        rw [check, if_pos ⟨hstrict, by simpa using hkind⟩] at hy
        cases hy
      obtain ⟨s, hf, hroom', hkind, hvalue⟩ := hread hu t hg hroom hchecked
      rw [run_readLocal hf hroom']
      exact ((relates_check hmode hkind _ _ _).bind fun _ _ _ => .pure hvalue) hu hy

/-! ## Types that hold no fresh object -/

/-- Constants that need no operand are numbers and `null`. -/
theorem push_of_ofOpcode? : ∀ n : Fin 256,
    ∀ t ∈ (Effect.ofOpcode? (UInt8.ofFin n)).bind fun | .push t => some t | _ => none,
      t ∈ [VType.null, .int, .long, .float, .double] := by
  decide +kernel

theorem settled_of_ofOpcode? {op : UInt8} {t : NamedType}
    (he : Effect.ofOpcode? op = some (.push t)) : VType.IsSettled t ∧ t ≠ .top := by
  have hmem := push_of_ofOpcode? op.toFin t (by simp [he])
  simp only [List.mem_cons, List.not_mem_nil, or_false] at hmem
  rcases hmem with rfl | rfl | rfl | rfl | rfl <;> exact ⟨trivial, by simp⟩

/-- The type of a constant does not depend on the frame. -/
theorem run_pooledType (p : Program) (i : PoolIndex) (f f' : Frame) (t : NamedType) :
    (pooledType p i).run f = .ok (t, f') ↔ p.pooledType? i = some t ∧ f' = f := by
  have shape : (∃ e, ∀ f, (pooledType p i).run f = .error e) ∨
      ∃ t, ∀ f, (pooledType p i).run f = .ok (t, f) := by
    unfold pooledType
    cases p.pool.get i with
    | error e => exact .inl ⟨_, fun _ => rfl⟩
    | ok c =>
      cases c with
      | dynamic _ nt =>
        simp only
        cases p.pool.nameAndType nt with
        | error e => exact .inl ⟨_, fun _ => rfl⟩
        | ok nd =>
          simp only [described]
          cases FieldType.parse? nd.2 with
          | none => exact .inl ⟨_, fun _ => rfl⟩
          | some u => exact .inr ⟨_, fun _ => rfl⟩
      | utf8 | fieldRef | methodRef | nameAndType | invokeDynamic | moduleInfo | packageInfo =>
        exact .inl ⟨_, fun _ => rfl⟩
      | _ => exact .inr ⟨_, fun _ => rfl⟩
  unfold Program.pooledType?
  rcases shape with ⟨e, he⟩ | ⟨u, hu⟩
  · simp [he]
  · simp [hu, eq_comm]

theorem settled_of_pooledType? {p : Program} {i : PoolIndex} {t : NamedType}
    (ht : p.pooledType? i = some t) : VType.IsSettled t ∧ t ≠ .top := by
  have hrun := (run_pooledType p i ⟨[], []⟩ ⟨[], []⟩ t).mpr ⟨ht, rfl⟩
  unfold pooledType at hrun
  cases hget : p.pool.get i with
  | error e => rw [hget] at hrun; cases hrun
  | ok c =>
    rw [hget] at hrun
    cases c with
    | dynamic _ nt =>
      simp only at hrun
      cases hnt : p.pool.nameAndType nt with
      | error e => rw [hnt] at hrun; cases hrun
      | ok nd =>
        rw [hnt] at hrun
        simp only [described] at hrun
        cases hp : FieldType.parse? nd.2 with
        | none => rw [hp] at hrun; cases hrun
        | some u =>
          rw [hp] at hrun
          obtain ⟨rfl⟩ : VType.ofField u = t := (Prod.mk.inj (Except.ok.inj hrun)).1
          exact ⟨VType.isSettled_ofField u, VType.ofField_ne_top u⟩
    | utf8 | fieldRef | methodRef | nameAndType | invokeDynamic | moduleInfo | packageInfo =>
      cases hrun
    | _ =>
      cases hrun
      exact ⟨trivial, by simp⟩

/-! ## The pieces -/

/-- The pieces that steps are made of do in the first program what they do in the second. -/
structure Pieces (c : Comparison) (site : Nat → Nat → Prop) (p q : Program) : Prop where
  resembles : p.Resembles site q
  settled : ∀ {t}, VType.IsSettled t → t ≠ .top → c.Value t t
  fresh : ∀ {i j}, site i j → c.Value (.fresh i) (.fresh j)
  check : ∀ {holds holds' : Bool}, (holds' → holds) → ∀ a b expected,
    Relates c Silent (check p holds a expected) (check q holds' b expected)
  readLocal : ∀ {index kind}, c.Local index kind →
    Relates c c.Value (readLocal p index kind) (readLocal q index kind)
  storeLocal : ∀ {index kind a b}, c.Local index kind → c.Value a b → b.slots = kind.slots →
    Relates c Silent
      (modify fun f => { f with locals := Frame.store f.locals index.toNat a })
      (modify fun f => { f with locals := Frame.store f.locals index.toNat b })
  componentType : ∀ {a b}, c.Value a b →
    Relates c c.Value (componentType p a) (componentType q b)
  construct : ∀ {a b}, c.Value a b → Relates c Silent (construct p a) (construct q b)

section pieces

variable {site : Nat → Nat → Prop} {p q : Program} (hpq : Pieces c site p q)

include hpq

theorem relates_popKind (kind : ValueKind) :
    Relates c (fun a b => c.Value a b ∧ b.slots = kind.slots) (pop p kind) (pop q kind) := by
  refine (relates_popSlots _).bind fun a b hab => ?_
  exact (hpq.check (c.kind hab.1) a b _).bind fun _ _ _ => .pure hab

theorem relates_pop (kind : ValueKind) : Relates c c.Value (pop p kind) (pop q kind) :=
  (relates_popKind hpq kind).imp fun _ _ hab => hab.1

/-- A value that is taken off and not looked at. -/
theorem relates_drop (kind : ValueKind) {k l : Step α'} {S : α' → α' → Prop}
    (hkl : Relates c S k l) :
    Relates c S (do let _ ← pop p kind; k) (do let _ ← pop q kind; l) :=
  (relates_pop hpq kind).bind fun _ _ _ => hkl

theorem relates_popArray (elements : PrimitiveArray) :
    Relates c Silent (popArray p elements) (popArray q elements) :=
  (relates_pop hpq .reference).bind fun a b hab => hpq.check (c.array hab) a b (.array elements)

theorem relates_load {index : UInt16} {kind : ValueKind} (hlocal : c.Local index kind) :
    Relates c Silent (load p index kind) (load q index kind) :=
  (hpq.readLocal hlocal).bind fun _ _ hab => relates_push hab

theorem relates_store {index : UInt16} {kind : ValueKind} (hlocal : c.Local index kind) :
    Relates c Silent (store p index kind) (store q index kind) :=
  (relates_popKind hpq kind).bind fun _ _ hab => hpq.storeLocal hlocal hab.1 hab.2

theorem relates_ofKind (kind : ValueKind) :
    Relates c Silent (push (VType.ofKind kind)) (push (VType.ofKind kind)) :=
  relates_push (hpq.settled (VType.isSettled_ofKind kind) (VType.ofKind_ne_top kind))

theorem relates_ofField (t : FieldType) :
    Relates c Silent (push (VType.ofField t)) (push (VType.ofField t)) :=
  relates_push (hpq.settled (VType.isSettled_ofField t) (VType.ofField_ne_top t))

theorem relates_object (cls : String) :
    Relates c Silent (push (.object cls)) (push (.object cls)) :=
  relates_push (hpq.settled trivial (by simp))

theorem relates_int : Relates c Silent (push .int) (push .int) :=
  relates_push (hpq.settled trivial (by simp))

/-! ## Instructions without operands -/

theorem relates_effect (e : Effect) (hpush : ∀ t, e = .push t → c.Value t t)
    (hlocal : ∀ kind slot, e = .load kind slot ∨ e = .store kind slot → c.Local slot kind) :
    Relates c Silent (effect p e) (effect q e) := by
  cases e with
  | nothing => exact .pure trivial
  | push t => exact relates_push (hpush t rfl)
  | load kind slot => exact relates_load hpq (hlocal kind slot (.inl rfl))
  | store kind slot => exact relates_store hpq (hlocal kind slot (.inr rfl))
  | arrayLoad elements =>
    refine relates_drop hpq _ ?_
    exact (relates_popArray hpq elements).bind fun _ _ _ => relates_ofKind hpq _
  | arrayStore elements =>
    refine relates_drop hpq _ (relates_drop hpq _ ?_)
    exact relates_popArray hpq elements
  | referenceLoad =>
    refine relates_drop hpq _ ((relates_pop hpq _).bind fun a b hab => ?_)
    exact (hpq.componentType hab).bind fun _ _ hv => relates_push hv
  | referenceStore =>
    refine relates_drop hpq _ (relates_drop hpq _ ((relates_pop hpq _).bind fun a b hab => ?_))
    exact (hpq.componentType hab).bind fun _ _ _ => .pure trivial
  | shuffle s => exact relates_shuffle s
  | compute operands result =>
    refine (Relates.forM (fun kind => ?_) operands).bind fun _ _ _ => relates_ofKind hpq result
    exact relates_drop hpq kind (.pure trivial)
  | returnValue kind =>
    refine (relates_pop hpq kind).bind fun a b _ => hpq.check ?_ a b _
    rw [hpq.resembles.result]
    exact id
  | returnNothing =>
    refine hpq.check ?_ _ _ _
    rw [hpq.resembles.result]
    exact id
  | arrayLength => exact relates_drop hpq _ (relates_int hpq)
  | consume => exact relates_drop hpq _ (.pure trivial)

/-! ## Constants and members -/

omit hpq in
theorem relates_described (descriptor : String) :
    Relates c (fun a b => a = b) (described descriptor) (described descriptor) := by
  unfold described
  cases FieldType.parse? descriptor with
  | some t => exact .pure rfl
  | none => exact .throw

omit hpq in
theorem relates_describedMethod (descriptor : String) :
    Relates c (fun a b => a = b) (describedMethod descriptor) (describedMethod descriptor) := by
  unfold describedMethod
  cases MethodType.parse? descriptor with
  | some t => exact .pure rfl
  | none => exact .throw

/-- A constant of the pool has the same type in both programs. -/
theorem relates_pooledType (i : PoolIndex) :
    Relates c c.Value (pooledType p i) (pooledType q i) := by
  intro f g hu b g' hy
  obtain ⟨hb, rfl⟩ := (run_pooledType q i g g' b).mp hy
  obtain ⟨hsettled, htop⟩ := settled_of_pooledType? hb
  have hrun := (run_pooledType p i f f b).mpr ⟨hpq.resembles.pooled i b hb, rfl⟩
  exact ⟨b, f, hrun, hpq.settled hsettled htop, c.refl hu⟩

theorem relates_constantType (l : Loadable) :
    Relates c c.Value (constantType p l) (constantType q l) := by
  cases l with
  | pooled i => exact relates_pooledType hpq i
  | _ => exact .pure (hpq.settled trivial (by simp))

theorem relates_popArguments (parameters : List FieldType) :
    Relates c Silent (popArguments p parameters) (popArguments q parameters) :=
  Relates.forM (fun _ => relates_drop hpq _ (.pure trivial)) _

theorem relates_pushResult (m : MethodType) :
    Relates c Silent (pushResult m) (pushResult m) := by
  unfold pushResult
  cases m.result with
  | some t => exact relates_ofField hpq t
  | none => exact .pure trivial

theorem relates_field (op : UInt8) (m : MemberRef) :
    Relates c Silent (field p op m) (field q op m) := by
  refine (relates_described _).bind fun t _ ht => ht ▸ ?_
  refine .ite (fun _ => relates_ofField hpq t) fun _ => ?_
  refine .ite (fun _ => relates_drop hpq _ (.pure trivial)) fun _ => ?_
  refine .ite (fun _ => relates_drop hpq _ (relates_ofField hpq t)) fun _ => ?_
  refine .ite (fun _ => ?_) fun _ => .throw
  exact relates_drop hpq _ (relates_drop hpq _ (.pure trivial))

theorem relates_call (op : UInt8) (m : MemberRef) :
    Relates c Silent (call p op m) (call q op m) := by
  refine (relates_describedMethod _).bind fun type _ ht => ht ▸ ?_
  refine (relates_popArguments hpq _).bind fun _ _ _ => ?_
  refine .ite (fun _ => ?_) fun _ => relates_pushResult hpq type
  refine (relates_pop hpq _).bind fun a b hab => ?_
  refine .ite (fun _ => ?_) fun _ => relates_pushResult hpq type
  exact (hpq.construct hab).bind fun _ _ _ => relates_pushResult hpq type

/-! ## All instructions -/

theorem relates_onClass {i j : Nat} (op : UInt8) (cls : String)
    (hnew : op = Opcode.new → site i j) :
    Relates c Silent (onClass p i op cls) (onClass q j op cls) := by
  refine .ite (fun hop => relates_push (hpq.fresh (hnew hop))) fun _ => ?_
  refine .ite (fun _ => relates_drop hpq _ (relates_object hpq _)) fun _ => ?_
  refine .ite (fun _ => relates_drop hpq _ (relates_object hpq _)) fun _ => ?_
  refine .ite (fun _ => ?_) fun _ => .throw
  exact relates_drop hpq _ (relates_int hpq)

theorem relates_variableAccess {τ : Type} (op : UInt8) (index : UInt16)
    (hlocal : ∀ i kind, (Instr.var op index : Instr τ).local? = some (i, kind) → c.Local i kind) :
    Relates c Silent (variableAccess p op index) (variableAccess q op index) := by
  refine .ite (fun _ => .throw) fun _ => ?_
  refine .ite (fun hload => relates_load hpq (hlocal _ _ (if_pos hload))) fun hload => ?_
  refine .ite (fun hstore => relates_store hpq (hlocal _ _ ?_)) fun _ => .throw
  rw [Instr.local?, if_neg hload, if_pos hstore]

theorem relates_jump (op : UInt8) : Relates c Silent (jump p op) (jump q op) := by
  have drop : ∀ kind {x y : Step Unit}, Relates c Silent x y →
      Relates c Silent (do let _ ← pop p kind; x) (do let _ ← pop q kind; y) :=
    fun kind _ _ => relates_drop hpq kind
  refine .ite (fun _ => drop _ (.pure trivial)) fun _ => ?_
  refine .ite (fun _ => drop _ (drop _ (.pure trivial))) fun _ => ?_
  refine .ite (fun _ => drop _ (drop _ (.pure trivial))) fun _ => ?_
  refine .ite (fun _ => drop _ (.pure trivial)) fun _ => ?_
  refine .ite (fun _ => .pure trivial) fun _ => ?_
  exact .ite (fun _ => .throw) fun _ => .throw

/-- **An instruction does what its pieces do.** -/
theorem relates_instr {τ : Type} {i j : Nat} (ins : Instr τ)
    (hnew : ∀ cls, ins = .type Opcode.new cls → site i j)
    (hlocal : ∀ index kind, ins.local? = some (index, kind) → c.Local index kind) :
    Relates c Silent (instr p i ins) (instr q j ins) := by
  cases ins with
  | plain op =>
    simp only [instr]
    cases he : Effect.ofOpcode? op with
    | some e =>
      refine relates_effect hpq e (fun t ht => ?_) fun kind slot hcase => hlocal slot kind ?_
      · obtain ⟨hsettled, htop⟩ := settled_of_ofOpcode? (ht ▸ he)
        exact hpq.settled hsettled htop
      · rcases hcase with rfl | rfl <;> rw [Instr.local?, he]
    | none => exact .throw
  | int op n =>
    refine .ite (fun _ => relates_int hpq) fun _ => ?_
    refine .ite (fun _ => relates_drop hpq _ ?_) fun _ => .throw
    cases elementDescriptor? n with
    | some element => exact relates_object hpq _
    | none => exact .throw
  | type op cls => exact relates_onClass hpq op cls fun hop => hnew cls (hop ▸ rfl)
  | var op index => exact relates_variableAccess hpq op index hlocal
  | increment index _ =>
    exact (hpq.readLocal (hlocal index .int rfl)).bind fun _ _ _ => .pure trivial
  | field op m => exact relates_field hpq op m
  | method op m _ => exact relates_call hpq op m
  | load l => exact (relates_constantType hpq l).bind fun _ _ hv => relates_push hv
  | jump op _ => exact relates_jump hpq op
  | tableSwitch | lookupSwitch => exact relates_drop hpq _ (.pure trivial)
  | newMultiArray cls n =>
    refine (Relates.forM (fun _ => ?_) _).bind fun _ _ _ => relates_object hpq cls
    exact relates_drop hpq _ (.pure trivial)
  | invokeDynamic s =>
    refine (relates_describedMethod _).bind fun type _ ht => ht ▸ ?_
    exact (relates_popArguments hpq _).bind fun _ _ _ => relates_pushResult hpq type

end pieces
end Step

/-- What an instruction does in the second program, it does in the first. -/
theorem Program.step_of_pieces {τ : Type} {c : Step.Comparison} {site : Nat → Nat → Prop}
    {p q : Program} (hpq : Step.Pieces c site p q) {i j : Nat} {ins : Instr τ}
    (hnew : ∀ cls, ins = .type Opcode.new cls → site i j)
    (hlocal : ∀ index kind, ins.local? = some (index, kind) → c.Local index kind)
    {f g g' : Frame} (hu : c.Before f g) (hstep : q.step j ins g = .ok g') :
    ∃ f', p.step i ins f = .ok f' ∧ c.After f g f' g' := by
  obtain ⟨⟨u, k⟩, hrun, hk⟩ := bind_eq_ok.mp hstep
  obtain rfl : k = g' := pure_eq_ok.mp hk
  obtain ⟨u', f', hf, -, ha⟩ := Step.relates_instr hpq ins hnew hlocal hu hrun
  exact ⟨f', bind_eq_ok.mpr ⟨(u', f'), hf, rfl⟩, ha⟩

end ClassWeave
