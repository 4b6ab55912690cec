import ClassWeave.Proofs.InstrPieces
import ClassWeave.Proofs.PoolGrowth
import ClassWeave.Proofs.StepOrder

/-!
# Steps with fewer checks, with more constants and at other places

Code that passes its checks does the same without them, and so it does with constants added to the
pool, and with its instructions at other places. The frames are the same then, but for the places
that fresh objects are known by; `Frame.Stands` compares them, and steps and merges respect it.
-/

namespace ClassWeave

/-! ## Types -/

namespace VType

/-- The types are the same, but for the places that fresh objects are known by: `site i j` says that
the place `i` of one stands for the place `j` of the other. -/
inductive Stands (site : Nat → Nat → Prop) : NamedType → NamedType → Prop
  | settled {t : NamedType} (ht : IsSettled t) : Stands site t t
  | fresh {i j : Nat} (hs : site i j) : Stands site (.fresh i) (.fresh j)

variable {h : Hierarchy} {site : Nat → Nat → Prop} {a a' b b' : NamedType}

theorem stands_eq : Stands (· = ·) a b ↔ a = b := by
  constructor
  · rintro (ht | hs)
    · rfl
    · rw [hs]
  · rintro rfl
    cases a with
    | fresh i => exact .fresh rfl
    | _ => exact .settled trivial

theorem stands_top : Stands site .top .top := .settled trivial

theorem Stands.slots_eq (hab : Stands site a b) : a.slots = b.slots := by
  cases hab <;> rfl

theorem Stands.isWide_eq (hab : Stands site a b) : a.isWide = b.isWide := by
  cases hab <;> rfl

theorem Stands.isReference_eq (hab : Stands site a b) : a.isReference = b.isReference := by
  cases hab <;> rfl

theorem Stands.hasKind_eq (hab : Stands site a b) (kind : ValueKind) :
    VType.hasKind kind a = VType.hasKind kind b := by
  cases hab <;> cases kind <;> rfl

theorem Stands.top_iff (hab : Stands site a b) : a = .top ↔ b = .top := by
  cases hab with
  | settled => exact Iff.rfl
  | fresh => simp

/-- Types are the same where those that they stand for are. -/
theorem Stands.eq_iff (hs : SiteMap site) (hab : Stands site a b) (hab' : Stands site a' b') :
    a = a' ↔ b = b' := by
  cases hab with
  | settled ht =>
    cases hab' with
    | settled => exact Iff.rfl
    | fresh => constructor <;> rintro rfl <;> exact ht.elim
  | fresh hi =>
    cases hab' with
    | settled ht => constructor <;> rintro rfl <;> exact ht.elim
    | fresh hi' =>
      rw [VType.fresh.injEq, VType.fresh.injEq]
      exact ⟨fun heq => hs.unique hi (heq ▸ hi'), fun heq => hs.inj hi (heq ▸ hi')⟩

/-- Types meet where those that they stand for do. -/
theorem Stands.merge (hs : SiteMap site) (hab : Stands site a b) (hab' : Stands site a' b') :
    Stands site (h.mergeTypes a a') (h.mergeTypes b b') := by
  by_cases heq : a = a'
  · rw [← heq, ← (hab.eq_iff hs hab').mp heq, mergeTypes_self, mergeTypes_self]
    exact hab
  · -- a fresh object meets nothing but itself, and everything else is the same on both sides
    have heq' : b ≠ b' := fun hb => heq ((hab.eq_iff hs hab').mpr hb)
    unfold Hierarchy.mergeTypes
    rw [if_neg heq, if_neg heq']
    cases hab with
    | settled ht =>
      cases hab' with
      | settled ht' => split <;> exact .settled trivial
      | fresh => cases a <;> exact .settled trivial
    | fresh => exact .settled trivial

end VType

/-! ## Frames -/

namespace Frame

variable {h : Hierarchy} {site : Nat → Nat → Prop} {mode mode' : Mode} {f f' g g' : Frame}
  {as bs cs ds : List NamedType}

/-- The lists have the same types, but for the places that fresh objects are known by. -/
abbrev StandAll (site : Nat → Nat → Prop) : List NamedType → List NamedType → Prop :=
  List.Forall₂ (VType.Stands site)

/-- The frames are the same, but for the places that fresh objects are known by. -/
structure Stands (site : Nat → Nat → Prop) (f g : Frame) : Prop where
  locals : StandAll site f.locals g.locals
  stack : StandAll site f.stack g.stack

theorem stands_eq : Stands (· = ·) f g ↔ f = g := by
  have hall : ∀ {as bs : List NamedType}, List.Forall₂ (VType.Stands (· = ·)) as bs ↔ as = bs := by
    intro as bs
    rw [← List.forall₂_eq_eq_eq]
    exact ⟨List.Forall₂.imp fun _ _ => VType.stands_eq.mp,
      List.Forall₂.imp fun _ _ => VType.stands_eq.mpr⟩
  constructor
  · intro hfg
    obtain ⟨locals, stack⟩ := f
    rw [show locals = g.locals from hall.mp hfg.locals, show stack = g.stack from hall.mp hfg.stack]
  · rintro rfl
    exact ⟨hall.mpr rfl, hall.mpr rfl⟩

/-- Frames that hold no fresh objects stand for themselves. -/
theorem stands_settled (hlocals : ∀ t ∈ f.locals, VType.IsSettled t)
    (hstack : ∀ t ∈ f.stack, VType.IsSettled t) : Stands site f f :=
  ⟨List.forall₂_same.mpr fun t ht => .settled (hlocals t ht),
    List.forall₂_same.mpr fun t ht => .settled (hstack t ht)⟩

theorem Stands.depth_eq (hfg : Stands site f g) : f.depth = g.depth := by
  have hs := hfg.stack
  unfold depth
  generalize 0 = n
  revert hs
  generalize f.stack = fs
  generalize g.stack = gs
  intro hs
  induction hs generalizing n with
  | nil => rfl
  | cons hd _ ih =>
    rw [List.foldl_cons, List.foldl_cons, hd.slots_eq]
    exact ih _

theorem eq_iff_of_stands (hs : VType.SiteMap site) (hac : StandAll site as cs)
    (hbd : StandAll site bs ds) : as = bs ↔ cs = ds := by
  induction hac generalizing bs ds with
  | nil => cases hbd <;> simp
  | cons hd _ ih =>
    cases hbd with
    | nil => simp
    | cons hd' tl' => rw [List.cons.injEq, List.cons.injEq, hd.eq_iff hs hd', ih tl']

/-! ### Local variables -/

theorem stands_set (hab : StandAll site as bs) {s t : NamedType}
    (hst : VType.Stands site s t) (k : Nat) :
    StandAll site (as.set k s) (bs.set k t) := by
  induction hab generalizing k with
  | nil => exact .nil
  | cons hd tl ih =>
    cases k with
    | zero => exact .cons hst tl
    | succ k => exact .cons hd (ih k)

theorem stands_getD (hab : StandAll site as bs) (k : Nat) :
    VType.Stands site (as.getD k .top) (bs.getD k .top) := by
  induction hab generalizing k with
  | nil => exact .settled trivial
  | cons hd _ ih =>
    cases k with
    | zero => exact hd
    | succ k => exact ih k

theorem stands_breakWide (hab : StandAll site as bs) (k : Nat) :
    StandAll site (breakWide as k) (breakWide bs k) := by
  cases k with
  | zero => exact hab
  | succ k =>
    simp only [breakWide, (stands_getD hab k).isWide_eq]
    split
    · exact stands_set hab VType.stands_top k
    · exact hab

theorem stands_store (hab : StandAll site as bs) {s t : NamedType}
    (hst : VType.Stands site s t) (k : Nat) :
    StandAll site (store as k s) (store bs k t) := by
  have hpadded : ∀ n, StandAll site (as ++ List.replicate n .top) (bs ++ List.replicate n .top) := by
    refine fun n => List.rel_append hab (List.forall₂_same.mpr fun u hu => ?_)
    rw [List.eq_of_mem_replicate hu]
    exact .settled trivial
  have hset := stands_set (stands_breakWide (hpadded (k + t.slots - bs.length)) k) hst k
  unfold store
  simp only [hst.slots_eq, hst.isWide_eq, hab.length_eq]
  split
  · exact stands_set hset VType.stands_top _
  · exact hset

theorem stands_trimReversed (hab : StandAll site as bs) :
    StandAll site (trimReversed as) (trimReversed bs) := by
  induction hab with
  | nil => exact .nil
  | @cons a b as bs hd tl ih =>
    by_cases htop : a = .top
    · -- it goes unless it belongs to the wide value in front of it
      have htop' := hd.top_iff.mp htop
      subst htop htop'
      cases tl with
      | nil => exact .nil
      | cons hd' tl' =>
        simp only [trimReversed, hd'.isWide_eq]
        split
        · exact .cons hd (.cons hd' tl')
        · exact ih
    · have hkeep : ∀ {t : NamedType} {rest : List NamedType}, t ≠ .top →
          trimReversed (t :: rest) = t :: rest := by
        intro t rest ht
        unfold trimReversed
        split <;> simp_all
      rw [hkeep htop, hkeep fun hb => htop (hd.top_iff.mpr hb)]
      exact .cons hd tl

theorem stands_trim (hab : StandAll site as bs) :
    StandAll site (trim as) (trim bs) :=
  List.rel_reverse (stands_trimReversed (List.rel_reverse hab))

theorem stands_zipWith (hs : VType.SiteMap site) (hac : StandAll site as cs)
    (hbd : StandAll site bs ds) :
    StandAll site (List.zipWith h.mergeTypes as bs)
      (List.zipWith h.mergeTypes cs ds) := by
  induction hac generalizing bs ds with
  | nil => exact .nil
  | cons hd _ ih =>
    cases hbd with
    | nil => exact .nil
    | cons hd' tl' => exact .cons (hd.merge hs hd') (ih tl')

theorem repairWide_cons (t : NamedType) (rest : List NamedType) : repairWide (t :: rest) =
    (if t.isWide ∧ rest.head? ≠ some .top then .top else t) :: repairWide rest := by
  cases rest <;> rfl

theorem stands_repairWide (hab : StandAll site as bs) :
    StandAll site (repairWide as) (repairWide bs) := by
  induction hab with
  | nil => exact .nil
  | @cons a b as bs hd tl ih =>
    have hnext : as.head? ≠ some .top ↔ bs.head? ≠ some .top := by
      cases tl with
      | nil => exact Iff.rfl
      | cons hd' _ => simp [hd'.top_iff]
    rw [repairWide_cons, repairWide_cons, hd.isWide_eq]
    simp only [hnext]
    refine .cons ?_ ih
    split
    · exact .settled trivial
    · exact hd

theorem stands_mergeLocals (hs : VType.SiteMap site)
    (hac : StandAll site as cs) (hbd : StandAll site bs ds) :
    StandAll site (mergeLocals h as bs) (mergeLocals h cs ds) :=
  stands_trim (stands_repairWide (stands_zipWith hs hac hbd))

/-! ### Where frames meet -/

/-- Values that meet on the stack without checks meet as those that they stand for do. -/
theorem stands_mergeEntries (hs : VType.SiteMap site) (hmode : mode = .strict → mode' = .strict)
    {a a' b b' t : NamedType} (hab : VType.Stands site a b) (hab' : VType.Stands site a' b')
    (ht : h.mergeEntries mode' b b' = .ok t) :
    ∃ s, h.mergeEntries mode a a' = .ok s ∧ VType.Stands site s t := by
  have hmerged := hab.merge (h := h) hs hab'
  unfold Hierarchy.mergeEntries at ht ⊢
  simp only at ht ⊢
  split at ht
  · cases ht
  · rename_i hok
    rw [Except.ok.injEq] at ht
    refine ⟨h.mergeTypes a a', if_neg ?_, ht ▸ hmerged⟩
    rintro ⟨htop, hne, hbad⟩
    refine hok ⟨hmerged.top_iff.mp htop, fun heq => hne ((hab.eq_iff hs hab').mpr heq), ?_⟩
    exact hbad.imp hmode fun hslots => by rwa [← hab.slots_eq, ← hab'.slots_eq]

theorem stands_mergeStacks (hs : VType.SiteMap site) (hmode : mode = .strict → mode' = .strict)
    (hac : StandAll site as cs) (hbd : StandAll site bs ds) {ts : List NamedType}
    (hts : mergeStacks h mode' cs ds = .ok ts) :
    ∃ ss, mergeStacks h mode as bs = .ok ss ∧ StandAll site ss ts := by
  simp only [mergeStacks_eq_ok] at hts ⊢
  induction hac generalizing bs ds ts with
  | nil =>
    obtain rfl := List.forall₂_nil_left_iff.mp (List.zip_nil_left ▸ hts)
    exact ⟨[], .nil, .nil⟩
  | cons hd _ ih =>
    cases hbd with
    | nil =>
      obtain rfl := List.forall₂_nil_left_iff.mp (List.zip_nil_right ▸ hts)
      exact ⟨[], .nil, .nil⟩
    | cons hd' tl' =>
      rw [List.zip_cons_cons, List.forall₂_cons_left_iff] at hts
      obtain ⟨t, ts, ht, hts, rfl⟩ := hts
      obtain ⟨s, hs', hst⟩ := stands_mergeEntries hs hmode hd hd' ht
      obtain ⟨ss, hss, hall⟩ := ih tl' hts
      exact ⟨s :: ss, .cons hs' hss, .cons hst hall⟩

/-- **Frames meet without checks as those that they stand for do.** -/
theorem stands_merge (hs : VType.SiteMap site) (hmode : mode = .strict → mode' = .strict)
    (hfg : Stands site f g) (hfg' : Stands site f' g') {r : Option Frame}
    (hm : g.merge h mode' g' = .ok r) :
    ∃ r', f.merge h mode f' = .ok r' ∧ Option.Rel (Stands site) r' r := by
  obtain ⟨hlen, stack, hstack, rfl⟩ := merge_eq_ok hm
  obtain ⟨stack', hstack', hstands⟩ := stands_mergeStacks hs hmode hfg.stack hfg'.stack hstack
  have hlocals := stands_mergeLocals (h := h) hs hfg.locals hfg'.locals
  have hlen' : ¬ f.stack.length ≠ f'.stack.length := by
    rw [hfg.stack.length_eq, hfg'.stack.length_eq, hlen]
    exact fun hne => hne rfl
  -- the frames change together, since nothing is told apart on one side only
  have hsame : (stack' = f.stack ∧ mergeLocals h f.locals f'.locals = trim f.locals) ↔
      (stack = g.stack ∧ mergeLocals h g.locals g'.locals = trim g.locals) :=
    and_congr (eq_iff_of_stands hs hstands hfg.stack)
      (eq_iff_of_stands hs hlocals (stands_trim hfg.locals))
  refine ⟨if stack' = f.stack ∧ mergeLocals h f.locals f'.locals = trim f.locals then none
    else some ⟨mergeLocals h f.locals f'.locals, stack'⟩, ?_, ?_⟩
  · rw [merge_eq]
    rw [if_neg hlen']
    exact bind_eq_ok.mpr ⟨stack', hstack', rfl⟩
  · simp only [hsame]
    split
    · exact .none
    · exact .some ⟨hlocals, hstands⟩

end Frame

/-! ## Steps -/

/-- The same code with at least the constants and at most the checks, possibly laid out anew. -/
structure Program.Trusts (site : Nat → Nat → Prop) (p q : Program) : Prop
    extends p.Resembles site q where
  hierarchy : p.hierarchy = q.hierarchy
  checks : p.mode = .strict → q.mode = .strict

/-- A constant keeps its type while constants are added. -/
theorem Program.pooledType?_extends {p q : Program} (hpq : q.pool.Extends p.pool) {i : PoolIndex}
    {t : NamedType} (ht : q.pooledType? i = some t) : p.pooledType? i = some t := by
  have hrun := (Step.run_pooledType q i ⟨[], []⟩ ⟨[], []⟩ t).mpr ⟨ht, rfl⟩
  refine ((Step.run_pooledType p i ⟨[], []⟩ ⟨[], []⟩ t).mp ?_).1
  unfold Step.pooledType at hrun ⊢
  cases hget : q.pool.get i with
  | error => rw [hget] at hrun; cases hrun
  | ok c =>
    rw [hget] at hrun
    rw [hpq.get hget]
    cases c with
    | dynamic _ nt =>
      simp only at hrun ⊢
      cases hnt : q.pool.nameAndType nt with
      | error => rw [hnt] at hrun; cases hrun
      | ok => rwa [hpq.nameAndType hnt, ← hnt]
    | _ => exact hrun

namespace Step

variable {site : Nat → Nat → Prop}

theorem isArrayOf_of_stands {a b : NamedType} {elements : PrimitiveArray}
    (hab : VType.Stands site a b) (hfits : isArrayOf elements b) : isArrayOf elements a := by
  cases hab with
  | settled => exact hfits
  | fresh => cases hfits

/-- Frames and values that differ in the places that fresh objects are known by. -/
abbrev standing (site : Nat → Nat → Prop) : Comparison where
  Before := Frame.Stands site
  After _ _ f' g' := Frame.Stands site f' g'
  Value := VType.Stands site
  Local _ _ := True
  refl hu := hu
  trans _ ha := ha
  before ha := ha
  values hu := hu.stack
  stack hu hv := ⟨hu.locals, hv⟩
  slots := VType.Stands.slots_eq
  kind hab hk := by rwa [hab.hasKind_eq]
  array := isArrayOf_of_stands

variable {p q : Program} (hpq : p.Trusts site q)

include hpq

theorem standing_readLocal (index : UInt16) (kind : ValueKind) :
    Relates (standing site) (VType.Stands site) (readLocal p index kind)
      (readLocal q index kind) := by
  refine relates_readLocal hpq.checks fun f g hu t hg hroom _ => ?_
  have hlen := hu.locals.length_eq
  obtain ⟨hlt, hget⟩ := List.getElem?_eq_some_iff.mp hg
  have hlt' : index.toNat < f.locals.length := by omega
  have hst : VType.Stands site f.locals[index.toNat] t :=
    hget ▸ (List.forall₂_iff_get.mp hu.locals).2 index.toNat hlt' hlt
  refine ⟨_, List.getElem?_eq_getElem hlt', by rwa [hlen], fun hk => by rwa [hst.hasKind_eq], ?_⟩
  rw [hst.isReference_eq]
  split
  · exact hst
  · exact .settled (VType.isSettled_ofKind kind)

theorem standing_componentType {a b : NamedType} (hab : VType.Stands site a b) :
    Relates (standing site) (VType.Stands site) (componentType p a) (componentType q b) := by
  have other : ∀ a b : NamedType, Relates (standing site) (VType.Stands site)
      (do check p false a .arrayOfReferences; return .object rootClass)
      (do check q false b .arrayOfReferences; return .object rootClass) := fun a b =>
    (relates_check hpq.checks id a b _).bind fun _ _ _ => .pure (.settled trivial)
  cases hab with
  | settled ht =>
    cases a with
    | null => exact .pure (.settled trivial)
    | object cls =>
      rw [componentType_object, componentType_object]
      cases elementOf? cls with
      | some x => exact .pure (.settled trivial)
      | none => exact other _ _
    | fresh => exact ht.elim
    | _ => exact other _ _
  | fresh => exact other _ _

theorem standing_construct {a b : NamedType} (hab : VType.Stands site a b) :
    Relates (standing site) Silent (construct p a) (construct q b) := by
  have hreplace : ∀ cls, Relates (standing site) Silent
      (modify fun f => f.replace a (.object cls)) (modify fun f => f.replace b (.object cls)) := by
    intro cls f g hu c g' hy
    obtain ⟨rfl⟩ : g' = g.replace b (.object cls) := (Prod.mk.inj (Except.ok.inj hy)).2.symm
    have hall : ∀ {as bs : List NamedType}, Frame.StandAll site as bs → Frame.StandAll site
        (as.map fun t => if t = a then .object cls else t)
        (bs.map fun t => if t = b then .object cls else t) := by
      intro as bs hst
      refine List.forall₂_map_left_iff.mpr (List.forall₂_map_right_iff.mpr ?_)
      refine hst.imp fun u v huv => ?_
      simp only [huv.eq_iff hpq.sites hab]
      split
      · exact .settled trivial
      · exact huv
    exact ⟨(), f.replace a (.object cls), rfl, trivial, hall hu.locals, hall hu.stack⟩
  have hdone : Relates (standing site) (fun x y => x = y ∧ ∀ t, x = some t → ∃ cls, t = .object cls)
      (constructed? p a) (constructed? q b) := by
    cases hab with
    | settled ht =>
      cases a with
      | freshThis =>
        refine .pure ⟨by rw [hpq.method], fun t ht => ⟨p.method.cls, ?_⟩⟩
        exact (Option.some.inj ht).symm
      | fresh => exact ht.elim
      | _ => exact (relates_check hpq.checks id _ _ _).bind fun _ _ _ => .pure ⟨rfl, by simp⟩
    | @fresh i j hs =>
      rcases constructed?_fresh q j with ⟨cls, hn, hq⟩ | hq
      · rw [hq, constructed?_of_new (hpq.news i j cls hs hn)]
        exact .pure ⟨rfl, fun t ht => ⟨cls, (Option.some.inj ht).symm⟩⟩
      · rw [hq]
        exact .throw
  refine hdone.bind fun x y hxy => ?_
  obtain ⟨rfl, hclass⟩ := hxy
  cases x with
  | none => exact .pure trivial
  | some t =>
    obtain ⟨cls, rfl⟩ := hclass t rfl
    exact hreplace cls

/-- **The pieces of code do the same with fewer checks and at other places.** -/
theorem standing_pieces : Pieces (standing site) site p q where
  resembles := hpq.toResembles
  settled ht _ := .settled ht
  fresh := .fresh
  check := relates_check hpq.checks
  readLocal _ := standing_readLocal hpq _ _
  storeLocal := by
    intro index kind a b _ hab _ f g hu c g' hy
    obtain ⟨rfl⟩ : g' = { g with locals := Frame.store g.locals index.toNat b } :=
      (Prod.mk.inj (Except.ok.inj hy)).2.symm
    exact ⟨(), _, rfl, trivial, Frame.stands_store hu.locals hab index.toNat, hu.stack⟩
  componentType := standing_componentType hpq
  construct := standing_construct hpq

end Step

/-- What an instruction does in the second program, it does in the first. -/
theorem Program.step_of_trusts {τ : Type} {site : Nat → Nat → Prop} {p q : Program}
    (hpq : p.Trusts site q) {i j : Nat} {ins : Instr τ}
    (hnew : ∀ cls, ins = .type Opcode.new cls → site i j) {f g g' : Frame}
    (hu : f.Stands site g) (hstep : q.step j ins g = .ok g') :
    ∃ f', p.step i ins f = .ok f' ∧ f'.Stands site g' :=
  Program.step_of_pieces (Step.standing_pieces hpq) hnew (fun _ _ _ => trivial) hu hstep

end ClassWeave
