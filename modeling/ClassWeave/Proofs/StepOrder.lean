import ClassWeave.Proofs.InstrPieces

/-!
# Steps respect the order of frames

An instruction that checked code can run on a frame can be run on every frame below it, and leads
to a frame below the one that it leads to from above (`Program.step_under`). The proof compares the
pieces of steps, one on the lower and one on the upper frame.

The two frames may belong to different lists of the same instructions. Then `site` tells which
instructions that create objects stand for each other.
-/

namespace ClassWeave

/-- A frame below a sound one. -/
structure Frame.Under (h : Hierarchy) (site : Nat → Nat → Prop) (f g : Frame) : Prop where
  covers : Frame.Covers h site g f
  sound : g.Sound
  closed : Frame.Closed f.locals

/-- The first program is the second one, which is checked, possibly laid out anew. -/
structure Program.Follows (site : Nat → Nat → Prop) (p q : Program) : Prop
    extends p.Resembles site q where
  strict : q.mode = .strict

/-- Code follows itself. -/
theorem Program.follows_self {p : Program} (hp : p.mode = .strict) : p.Follows (· = ·) p where
  strict := hp
  method := rfl
  result := rfl
  pooled _ _ h := h
  sites := VType.siteMap_eq
  news _ _ _ h hn := h ▸ hn

namespace Step

variable {h : Hierarchy} {site : Nat → Nat → Prop} {α : Type}

/-- How the frames behind two computations relate to each other and to those in front. The number of
local variables in use only grows, and below by no more than above. -/
structure After (h : Hierarchy) (site : Nat → Nat → Prop) (f g f' g' : Frame) : Prop where
  under : Frame.Under h site f' g'
  length : f'.locals.length ≤ max f.locals.length g'.locals.length
  grows : g.locals.length ≤ g'.locals.length

theorem After.refl {f g : Frame} (hu : Frame.Under h site f g) : After h site f g f g :=
  ⟨hu, Nat.le_max_left _ _, Nat.le_refl _⟩

theorem After.trans {f g f' g' f'' g'' : Frame} (h1 : After h site f g f' g')
    (h2 : After h site f' g' f'' g'') : After h site f g f'' g'' where
  under := h2.under
  length := by
    have := h1.length
    have := h2.length
    have := h2.grows
    omega
  grows := Nat.le_trans h1.grows h2.grows

/-! ## Values -/

/-- The value below is covered by the one above, which can be used. -/
def Value (h : Hierarchy) (site : Nat → Nat → Prop) (a b : NamedType) : Prop :=
  VType.Covers h site b a ∧ b ≠ .top

theorem Value.settled {a : NamedType} (ha : VType.IsSettled a) (htop : a ≠ .top) :
    Value h site a a :=
  ⟨VType.covers_settled ha, htop⟩

theorem value_ofKind (kind : ValueKind) : Value h site (VType.ofKind kind) (VType.ofKind kind) :=
  .settled (VType.isSettled_ofKind kind) (VType.ofKind_ne_top kind)

/-- The stacks hold the same number of values, each covered by the one above. -/
abbrev Values (h : Hierarchy) (site : Nat → Nat → Prop) (fs gs : List NamedType) : Prop :=
  List.Forall₂ (Value h site) fs gs

theorem values_iff {fs gs : List NamedType} :
    Values h site fs gs ↔ List.Forall₂ (VType.Covers h site) gs fs ∧ .top ∉ gs := by
  constructor
  · intro hv
    induction hv with
    | nil => exact ⟨.nil, by simp⟩
    | cons hd _ ih => exact ⟨.cons hd.1 ih.1, by simp [ih.2, Ne.symm hd.2]⟩
  · rintro ⟨hs, htop⟩
    induction hs with
    | nil => exact .nil
    | cons hd _ ih =>
      rw [List.mem_cons, not_or] at htop
      exact .cons ⟨hd, Ne.symm htop.1⟩ (ih htop.2)

theorem values_of_under {f g : Frame} (hu : Frame.Under h site f g) :
    Values h site f.stack g.stack :=
  values_iff.mpr ⟨hu.covers.stack, hu.sound.usable⟩

/-- Only the stacks change. -/
theorem After.stack {f g : Frame} (hu : Frame.Under h site f g) {fs gs : List NamedType}
    (hv : Values h site fs gs) :
    After h site f g { f with stack := fs } { g with stack := gs } where
  under := {
    covers := ⟨(values_iff.mp hv).1, hu.covers.locals⟩
    sound := ⟨hu.sound.closed, (values_iff.mp hv).2⟩
    closed := hu.closed }
  length := Nat.le_max_left _ _
  grows := Nat.le_refl _

/-- An array of primitive elements covers nothing but itself and `null`. -/
theorem Value.isArrayOf {a b : NamedType} {elements : PrimitiveArray} (hab : Value h site a b)
    (hfits : isArrayOf elements b) : isArrayOf elements a := by
  have plainArray : ∀ m : String, m ∈ elements.descriptors → ∀ c : String,
      h.CoversClass m c → c = m := by
    rintro m hm c (rfl | hc)
    · rfl
    · have ht := Hierarchy.takes_of_mergeClasses hc
      cases elements <;> simp only [PrimitiveArray.descriptors, List.mem_cons, List.not_mem_nil,
        or_false] at hm <;> rcases hm with rfl | rfl <;>
        · obtain ⟨_, _, _, _, hx, _⟩ := Hierarchy.takes_array_iff.mp ht
          cases hx
  cases hab.1 with
  | null => rfl
  | nullObject => rfl
  | @object m c hc =>
    simp only [Step.isArrayOf, decide_eq_true_eq] at hfits ⊢
    rwa [plainArray m hfits c hc]
  | _ => cases hfits

/-- The frames and values of checked code, below and above. -/
abbrev ordered (h : Hierarchy) (site : Nat → Nat → Prop) : Comparison where
  Before := Frame.Under h site
  After := After h site
  Value := Value h site
  Local _ _ := True
  refl := .refl
  trans := .trans
  before ha := ha.under
  values := values_of_under
  stack hu hv := .stack hu hv
  slots hab := hab.1.slots_eq hab.2
  kind hab hk := hab.1.hasKind hk
  array := Value.isArrayOf

variable {p q : Program} (hpq : p.Follows site q)

include hpq

/-- A check that holds above holds below. -/
theorem ordered_check {holds holds' : Bool} (hb : holds' → holds) (a b : NamedType)
    (expected : Expectation) :
    Relates (ordered h site) (fun _ _ => holds' = true) (check p holds a expected)
      (check q holds' b expected) := by
  unfold check
  by_cases hh : holds' = true
  · rw [if_neg (by simp [hb hh]), if_neg (by simp [hh])]
    exact .pure hh
  · rw [if_pos (c := q.mode = .strict ∧ holds' = false) ⟨hpq.strict, by simpa using hh⟩]
    exact .throw

/-! ## Local variables -/

theorem ordered_readLocal (index : UInt16) (kind : ValueKind) :
    Relates (ordered h site) (Value h site) (readLocal p index kind) (readLocal q index kind) := by
  refine relates_readLocal (fun _ => hpq.strict) fun f g hu t hg hroom hchecked => ?_
  have hkind := hchecked hpq.strict
  have hcov := hu.covers.locals index.toNat
  rw [Frame.slot_eq_of_getElem? hg] at hcov
  have htop := VType.hasKind_ne_top hkind
  have hlt := Frame.lt_length_of_slot (hcov.ne_top htop)
  refine ⟨_, Frame.getElem?_of_slot hlt, ?_, fun hk => hcov.hasKind hk, ?_⟩
  · rintro ⟨hslots, hle⟩
    have hw : t.isWide := by
      cases kind <;> cases t <;> simp [VType.hasKind, ValueKind.slots, VType.isWide,
        VType.isReference] at hkind hslots ⊢
    have := hu.closed index.toNat (hcov.isWide_eq htop ▸ hw)
    omega
  · rw [hcov.isReference_eq htop]
    split
    · exact ⟨hcov, htop⟩
    · exact value_ofKind kind

omit hpq in
/-- Storing below and above. -/
theorem After.store {f g : Frame} (hu : Frame.Under h site f g) {a b : NamedType}
    (hab : Value h site a b) (k : Nat) :
    After h site f g { f with locals := Frame.store f.locals k a }
      { g with locals := Frame.store g.locals k b } where
  under := {
    covers := by
      refine ⟨hu.covers.stack, fun j => ?_⟩
      simp only [Frame.slot_store, hab.1.isWide_eq hab.2]
      split
      · exact hab.1
      · split
        · exact .top _
        · by_cases hb : j + 1 = k ∧ (Frame.slot g.locals j).isWide
          · rw [if_pos hb]
            exact .top _
          · rw [if_neg hb]
            split
            · -- a wide value is broken below; above, the slot could not be used before
              rename_i hf
              have hcov := hu.covers.locals j
              by_cases htop : Frame.slot g.locals j = .top
              · rw [htop]
                exact .top _
              · exact absurd ⟨hf.1, hcov.isWide_eq htop ▸ hf.2⟩ hb
            · exact hu.covers.locals j
    sound := ⟨hu.sound.closed.store k b, hu.sound.usable⟩
    closed := hu.closed.store k a }
  length := by
    simp only [Frame.length_store, hab.1.slots_eq hab.2]
    omega
  grows := by
    simp only [Frame.length_store]
    omega

omit hpq in
theorem ordered_storeLocal {a b : NamedType} (hab : Value h site a b) (k : Nat) :
    Relates (ordered h site) Silent
      (modify fun f => { f with locals := Frame.store f.locals k a })
      (modify fun f => { f with locals := Frame.store f.locals k b }) := by
  intro f g hu c g' hy
  obtain ⟨rfl⟩ : g' = { g with locals := Frame.store g.locals k b } :=
    (Prod.mk.inj (Except.ok.inj hy)).2.symm
  exact ⟨(), _, rfl, trivial, After.store hu hab k⟩

/-! ## Arrays of references -/

/-- The class of the elements of an array class. -/
def elementOf? (cls : String) : Option String :=
  match cls.toList with
  | '[' :: rest => (elementClass? rest).map String.ofList
  | _ => none

omit hpq in
theorem componentType_object (p : Program) (cls : String) :
    componentType p (.object cls) =
      match elementOf? cls with
      | some x => pure (.object x)
      | none => do
        check p false (.object cls) .arrayOfReferences
        return .object rootClass := by
  simp only [componentType, elementOf?]
  generalize cls.toList = cs
  rcases cs with _ | ⟨c, rest⟩
  · rfl
  · by_cases hc : c = '['
    · subst hc
      rcases rest with _ | ⟨d, rest⟩
      · rfl
      · by_cases hd : d = '['
        · subst hd
          rfl
        · by_cases hL : d = 'L'
          · subst hL
            simp only [elementClass?]
            split <;> rfl
          · simp only [elementClass?]
            split <;> simp_all
    · split <;> simp_all

omit hpq in
theorem coversClass_elementOf {m c x : String} (hc : h.CoversClass m c)
    (hx : elementOf? m = some x) : ∃ y, elementOf? c = some y ∧ h.CoversClass x y := by
  rcases hc with rfl | hc
  · exact ⟨x, hx, .inl rfl⟩
  · have ht := Hierarchy.takes_of_mergeClasses hc
    unfold elementOf? at hx
    split at hx
    · rename_i ms hms
      rw [hms] at ht
      obtain ⟨as, u, v, hcs, hu, hv, huv, _⟩ := Hierarchy.takes_array_iff.mp ht
      rw [hu, Option.map_some, Option.some.injEq] at hx
      refine ⟨String.ofList v, by simp [elementOf?, hcs, hv], .inr ?_⟩
      rw [← hx]
      exact Hierarchy.mergeClasses_of_takes (by rwa [String.toList_ofList, String.toList_ofList])
    · cases hx

omit hpq in
/-- Checked code fails where it cannot tell the type of the elements. -/
theorem check_false (hq : q.mode = .strict) (a : NamedType) (e : Expectation) (x : Step α) :
    (do check q false a e; x) = throw (.unexpectedType a e) := by
  unfold check
  rw [if_pos ⟨hq, rfl⟩]
  rfl

theorem ordered_componentType {a b : NamedType} (hab : Value h site a b) :
    Relates (ordered h site) (Value h site) (componentType p a) (componentType q b) := by
  have fails : ∀ t : NamedType, t ≠ .null → (∀ cls, t ≠ .object cls) →
      componentType q t = throw (.unexpectedType t .arrayOfReferences) := by
    intro t hnull hobj
    rw [← check_false hpq.strict t .arrayOfReferences (pure (.object rootClass) : Step NamedType)]
    cases t <;> first | rfl | exact absurd rfl hnull | exact absurd rfl (hobj _)
  cases hab.1 with
  | null => exact .pure (.settled trivial (by simp))
  | nullObject m =>
    rw [componentType_object]
    cases elementOf? m with
    | some x => exact .pure ⟨.nullObject x, by simp⟩
    | none =>
      simp only [check_false hpq.strict]
      exact .throw
  | @object m c hc =>
    rw [componentType_object, componentType_object]
    cases hx : elementOf? m with
    | some x =>
      obtain ⟨y, hy, hxy⟩ := coversClass_elementOf hc hx
      rw [hy]
      exact .pure ⟨.object hxy, by simp⟩
    | none =>
      simp only [check_false hpq.strict]
      exact .throw
  | _ =>
    rw [fails _ (by simp) (by simp)]
    exact .throw

/-! ## Fresh objects -/

omit hpq in
theorem constructed?_of_new {r : Program} {k : Nat} {cls : String}
    (hn : r.nodes[k]? = some (.instr (.type Opcode.new cls))) :
    constructed? r (.fresh k) = pure (some (.object cls)) := by
  simp only [constructed?, hn, if_true]

omit hpq in
/-- Only an instruction that makes an object is taken for one. -/
theorem constructed?_fresh (r : Program) (k : Nat) :
    (∃ cls, r.nodes[k]? = some (.instr (.type Opcode.new cls)) ∧
      constructed? r (.fresh k) = pure (some (.object cls))) ∨
      constructed? r (.fresh k) = throw (.unexpectedType (.fresh k) .resultOfNew) := by
  simp only [constructed?]
  split
  · rename_i op cls hn
    by_cases hop : op = Opcode.new
    · subst hop
      exact .inl ⟨cls, hn, rfl⟩
    · exact .inr (if_neg hop)
  · exact .inr rfl

/-- The value below is the one fresh object that stands for the one above. -/
theorem ordered_constructed {a b : NamedType} (hab : Value h site a b) :
    Relates (ordered h site)
      (fun x y => ∃ cls, x = some (.object cls) ∧ y = some (.object cls) ∧
        (b = .freshThis ∨ ∃ j, b = .fresh j))
      (constructed? p a) (constructed? q b) := by
  have fails : ∀ t : NamedType, t ≠ .freshThis → (∀ j, t ≠ .fresh j) →
      constructed? q t = throw (.unexpectedType t .freshObject) := by
    intro t hthis hfresh
    rw [← check_false hpq.strict t .freshObject (pure none : Step (Option NamedType))]
    cases t <;> first | rfl | exact absurd rfl hthis | exact absurd rfl (hfresh _)
  cases hab.1 with
  | freshThis =>
    exact .pure ⟨p.method.cls, rfl, by rw [hpq.method], .inl rfl⟩
  | @fresh i j hs =>
    rcases constructed?_fresh q j with ⟨cls, hn, hq⟩ | hq
    · rw [hq, constructed?_of_new (hpq.news i j cls hs hn)]
      exact .pure ⟨cls, rfl, rfl, .inr ⟨j, rfl⟩⟩
    · rw [hq]
      exact .throw
  | _ =>
    rw [fails _ (by simp) (by simp)]
    exact .throw

omit hpq in
theorem slot_map {locals : List NamedType} {r : NamedType → NamedType}
    (htop : r .top = .top) (k : Nat) :
    Frame.slot (locals.map r) k = r (Frame.slot locals k) := by
  simp only [Frame.slot, List.getD_eq_getElem?_getD, List.getElem?_map]
  cases locals[k]? with
  | none => exact htop.symm
  | some t => rfl

omit hpq in
theorem closed_map {locals : List NamedType} {subst : NamedType → NamedType}
    (htop : subst .top = .top) (hw : ∀ t, (subst t).isWide = t.isWide)
    (hc : Frame.Closed locals) : Frame.Closed (locals.map subst) := by
  intro k hk
  rw [slot_map htop, hw] at hk
  obtain ⟨hlen, hnext⟩ := hc k hk
  exact ⟨by simpa using hlen, by rw [slot_map htop, hnext, htop]⟩

omit hpq in
/-- Marking a fresh object below and the one that it stands for above. -/
theorem After.replace (hs : VType.SiteMap site) {f g : Frame} (hu : Frame.Under h site f g)
    {a b : NamedType} (hab : Value h site a b) (hb : b = .freshThis ∨ ∃ j, b = .fresh j)
    (cls : String) : After h site f g (f.replace a (.object cls)) (g.replace b (.object cls)) := by
  have ha : a = .freshThis ∨ ∃ i, a = .fresh i := by
    rcases hb with rfl | ⟨j, rfl⟩
    · cases hab.1
      exact .inl rfl
    · cases hab.1 with
      | fresh => exact .inr ⟨_, rfl⟩
  have keepsTop : ∀ {old : NamedType}, (old = .freshThis ∨ ∃ i, old = .fresh i) →
      (if VType.top = old then VType.object cls else VType.top) = (VType.top : NamedType) := by
    rintro old (rfl | ⟨i, rfl⟩) <;> rfl
  have keepsWidth : ∀ {old : NamedType}, (old = .freshThis ∨ ∃ i, old = .fresh i) →
      ∀ t : NamedType, (if t = old then VType.object cls else t).isWide = t.isWide := by
    rintro old (rfl | ⟨i, rfl⟩) t <;> split <;> simp_all [VType.isWide]
  have covered : ∀ {u v : NamedType}, VType.Covers h site v u →
      VType.Covers h site (if v = b then .object cls else v)
        (if u = a then .object cls else u) := by
    intro u v huv
    by_cases hv : v = b
    · rw [if_pos hv]
      subst hv
      have hua : u = a := by
        rcases hb with rfl | ⟨j, rfl⟩
        · cases huv
          cases hab.1
          rfl
        · cases huv with
          | fresh hu =>
            cases hab.1 with
            | fresh hfirst => exact congrArg _ (hs.inj hu hfirst)
      rw [if_pos hua]
      exact .object (h.coversClass_refl cls)
    · rw [if_neg hv]
      by_cases hua : u = a
      · subst hua
        -- only one place above stands for a fresh object, or the slot cannot be used
        have htop : v = .top := by
          rcases hb with rfl | ⟨j, rfl⟩
          · cases hab.1
            cases huv with
            | top => rfl
            | freshThis => exact absurd rfl hv
          · cases hab.1 with
            | fresh hfirst =>
              cases huv with
              | top => rfl
              | fresh hu => exact absurd (congrArg _ (hs.unique hu hfirst)) hv
        rw [htop]
        exact .top _
      · rw [if_neg hua]
        exact huv
  refine ⟨⟨⟨?_, fun k => ?_⟩, ⟨?_, ?_⟩, ?_⟩, ?_, ?_⟩
  · show List.Forall₂ _ (g.stack.map _) (f.stack.map _)
    rw [List.forall₂_map_left_iff, List.forall₂_map_right_iff]
    exact hu.covers.stack.imp fun _ _ => covered
  · show VType.Covers h site (Frame.slot (g.locals.map _) k) (Frame.slot (f.locals.map _) k)
    rw [slot_map (r := fun t => if t = b then .object cls else t) (keepsTop hb),
      slot_map (r := fun t => if t = a then .object cls else t) (keepsTop ha)]
    exact covered (hu.covers.locals k)
  · exact closed_map (keepsTop hb) (keepsWidth hb) hu.sound.closed
  · show VType.top ∉ g.stack.map _
    rw [List.mem_map]
    rintro ⟨t, ht, heq⟩
    split at heq
    · cases heq
    · exact hu.sound.usable (heq ▸ ht)
  · exact closed_map (keepsTop ha) (keepsWidth ha) hu.closed
  · simp only [Frame.replace, List.length_map]
    exact Nat.le_max_left _ _
  · simp [Frame.replace]

theorem ordered_construct {a b : NamedType} (hab : Value h site a b) :
    Relates (ordered h site) Silent (construct p a) (construct q b) := by
  refine (ordered_constructed hpq hab).bind fun x y hxy => ?_
  obtain ⟨cls, rfl, rfl, hb⟩ := hxy
  intro f g hu c g' hy
  obtain ⟨rfl⟩ : g' = g.replace b (.object cls) := (Prod.mk.inj (Except.ok.inj hy)).2.symm
  exact ⟨(), _, rfl, trivial, After.replace hpq.sites hu hab hb cls⟩

/-- **The pieces of checked code respect the order of frames.** -/
theorem ordered_pieces : Pieces (ordered h site) site p q where
  resembles := hpq.toResembles
  settled hsettled htop := Value.settled hsettled htop
  fresh hs := ⟨.fresh hs, by simp⟩
  check hb a b expected := (ordered_check hpq hb a b expected).imp fun _ _ _ => trivial
  readLocal _ := ordered_readLocal hpq _ _
  storeLocal _ hab _ := ordered_storeLocal hab _
  componentType := ordered_componentType hpq
  construct := ordered_construct hpq

end Step

/-- What checked code does above, the same code does below, and comes out below. -/
theorem Program.step_under {τ : Type} {h : Hierarchy} {site : Nat → Nat → Prop} {p q : Program}
    (hpq : p.Follows site q) {i j : Nat} {ins : Instr τ}
    (hnew : ∀ cls, ins = .type Opcode.new cls → site i j) {f g g' : Frame}
    (hu : Frame.Under h site f g) (hstep : q.step j ins g = .ok g') :
    ∃ f', p.step i ins f = .ok f' ∧ Step.After h site f g f' g' :=
  Program.step_of_pieces (Step.ordered_pieces hpq) hnew (fun _ _ _ => trivial) hu hstep

end ClassWeave
