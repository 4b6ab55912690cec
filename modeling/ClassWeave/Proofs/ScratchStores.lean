import ClassWeave.Proofs.PathSoundness

/-!
# Stores behind the locals in use

Code that only touches local variables below some slot does not notice stores from that slot on. The
one store that could reach further down is the one right there: it would break a wide value whose
first half is the last slot below. So the frames have to keep every wide value on one side of the
boundary (`Frame.WholeBelow`), which steps do that stay below it themselves.

`Frame.Shares` compares a frame that such stores were made to with the one that it would be without
them. It is a comparison in the sense of `Step.Comparison`, so steps keep it because their
pieces do, and from steps it carries over to moves and to whole paths.
-/

namespace ClassWeave

/-! ## Frames -/

namespace Frame

variable {first : Nat} {locals : List NamedType} {f f' g : Frame}

/-- A wide value that starts in front of a slot ends in front of it. -/
def WholeBelow (first : Nat) (locals : List NamedType) : Prop :=
  ∀ k < first, (slot locals k).isWide → k + 1 < first

/-- No store from a slot on changes a slot in front of it. -/
def SafeBelow (first : Nat) (f : Frame) : Prop :=
  ∀ s t, first ≤ s → ∀ k < first, slot (store f.locals s t) k = slot f.locals k

theorem WholeBelow.slot_store (hw : WholeBelow first locals) {s k : Nat} (hs : first ≤ s)
    (hk : k < first) (t : NamedType) : slot (store locals s t) k = slot locals k := by
  rw [Frame.slot_store, if_neg (by omega), if_neg (by omega), if_neg]
  -- a wide value right in front of the store would lose its second half
  rintro ⟨hnext, hwide⟩
  have := hw k hk hwide
  omega

theorem WholeBelow.safe (hw : WholeBelow first f.locals) : f.SafeBelow first :=
  fun _ t hs _ hk => hw.slot_store hs hk t

/-- Locals that are no more than the slots in front of the boundary have no wide value across it. -/
theorem Closed.wholeBelow (hc : Closed locals) (hlen : locals.length ≤ first) :
    WholeBelow first locals := by
  intro k _ hwide
  have := (hc k hwide).1
  omega

/-- A store that stays on one side of the boundary puts no wide value across it. -/
theorem WholeBelow.store (hw : WholeBelow first locals) {s : Nat} {t : NamedType}
    (hside : s + t.slots ≤ first ∨ first ≤ s) : WholeBelow first (store locals s t) := by
  intro k hk hwide
  have hslots := slots_of_isWide (t := t)
  rw [Frame.slot_store] at hwide
  by_cases hks : k = s
  · -- the value that is stored
    rw [if_pos hks] at hwide
    rw [if_pos hwide] at hslots
    omega
  · -- a value that was there before
    rw [if_neg hks] at hwide
    split at hwide
    · cases hwide
    · split at hwide
      · cases hwide
      · exact hw k hk hwide

/-- The first frame is the second one but for stores behind the locals in use. -/
structure Shares (first : Nat) (f g : Frame) : Prop where
  stack : f.stack = g.stack
  slots : ∀ k < first, slot f.locals k = slot g.locals k
  length : g.locals.length ≤ f.locals.length
  whole : WholeBelow first g.locals

theorem WholeBelow.shares (hw : WholeBelow first f.locals) : f.Shares first f :=
  ⟨rfl, fun _ _ => rfl, Nat.le_refl _, hw⟩

theorem Shares.wholeBelow (hu : f.Shares first g) : WholeBelow first f.locals := by
  intro k hk hwide
  rw [hu.slots k hk] at hwide
  exact hu.whole k hk hwide

/-- A store behind the locals in use. -/
def Scribbles (first : Nat) (f f' : Frame) : Prop :=
  ∃ s t, first ≤ s ∧ f' = { f with locals := store f.locals s t }

/-- Any number of stores behind the locals in use. -/
def Scratched (first : Nat) : Frame → Frame → Prop := Relation.ReflTransGen (Scribbles first)

theorem Shares.scribbled (hu : f.Shares first g) (hs : Scribbles first f f') :
    f'.Shares first g := by
  obtain ⟨s, t, hs, rfl⟩ := hs
  refine ⟨hu.stack, fun k hk => ?_, ?_, hu.whole⟩
  · rw [hu.wholeBelow.slot_store hs hk]
    exact hu.slots k hk
  · have := hu.length
    rw [length_store]
    omega

theorem Shares.scratched (hu : f.Shares first g) (hs : Scratched first f f') :
    f'.Shares first g := by
  induction hs with
  | refl => exact hu
  | tail _ hs ih => exact ih.scribbled hs

/-- Both frames are stored to, below the boundary. -/
theorem Shares.store (hu : f.Shares first g) {s : Nat} {t : NamedType}
    (hroom : s + t.slots ≤ first) :
    Shares first { f with locals := store f.locals s t }
      { g with locals := store g.locals s t } where
  stack := hu.stack
  slots k hk := by
    rw [Frame.slot_store, Frame.slot_store, hu.slots k hk]
  length := by
    have := hu.length
    rw [length_store, length_store]
    omega
  whole := hu.whole.store (.inl hroom)

/-- An object is marked in both frames. -/
theorem Shares.replace (hu : f.Shares first g) {old : NamedType} (hold : old ≠ .top)
    (cls : String) :
    Shares first (f.replace old (.object cls)) (g.replace old (.object cls)) := by
  have hslot : ∀ (u : Frame) (k : Nat), slot (u.replace old (.object cls)).locals k =
      if slot u.locals k = old then .object cls else slot u.locals k := fun u k =>
    Step.slot_map (r := fun t => if t = old then .object cls else t) (if_neg hold.symm) k
  refine ⟨?_, fun k hk => ?_, ?_, fun k hk hwide => ?_⟩
  · simp only [Frame.replace, hu.stack]
  · rw [hslot, hslot, hu.slots k hk]
  · simpa [Frame.replace] using hu.length
  · rw [hslot] at hwide
    split at hwide
    · cases hwide
    · exact hu.whole k hk hwide

end Frame

/-! ## Steps -/

namespace Step

variable {first : Nat} {p : Program}

/-- What a computation that stays below the boundary does to two frames that are compared. -/
structure Stays (first : Nat) (g f' g' : Frame) : Prop where
  shares : f'.Shares first g'
  length : g'.locals.length ≤ max g.locals.length first
  closed : Frame.Closed g.locals → Frame.Closed g'.locals

/-- Frames that differ in stores behind the locals in use, by computations that touch none but
those. -/
abbrev sharing (first : Nat) : Comparison where
  Before := Frame.Shares first
  After _ g f' g' := Stays first g f' g'
  Value a b := a = b
  Local index kind := index.toNat + kind.slots ≤ first
  refl hu := ⟨hu, Nat.le_max_left _ _, id⟩
  trans h1 h2 := by
    refine ⟨h2.shares, ?_, fun hc => h2.closed (h1.closed hc)⟩
    have := h1.length
    have := h2.length
    omega
  before ha := ha.shares
  values hu := hu.stack ▸ List.forall₂_same.mpr fun _ _ => rfl
  stack hu hv :=
    ⟨⟨List.forall₂_eq_eq_eq ▸ hv, hu.slots, hu.length, hu.whole⟩, Nat.le_max_left _ _, id⟩
  slots hab := congrArg _ hab
  kind hab hk := hab ▸ hk
  array hab hfits := hab ▸ hfits

theorem sharing_readLocal {index : UInt16} {kind : ValueKind}
    (hroom : index.toNat + kind.slots ≤ first) :
    Relates (sharing first) (fun a b => a = b) (readLocal p index kind)
      (readLocal p index kind) := by
  refine relates_readLocal id fun f g hu t hg hshort _ => ?_
  have hlen := hu.length
  have hpos : 0 < kind.slots := by cases kind <;> decide
  -- the variable lies below the boundary, where the frames are the same
  obtain ⟨hlt, -⟩ := List.getElem?_eq_some_iff.mp hg
  have hf : f.locals[index.toNat]? = some t := by
    rw [Frame.getElem?_of_slot (by omega), hu.slots _ (by omega), Frame.slot_eq_of_getElem? hg]
  exact ⟨t, hf, by omega, id, rfl⟩

theorem sharing_storeLocal {index : UInt16} {kind : ValueKind} {t : NamedType}
    (hroom : index.toNat + kind.slots ≤ first) (ht : t.slots = kind.slots) :
    Relates (sharing first) Silent
      (modify fun f => { f with locals := Frame.store f.locals index.toNat t })
      (modify fun f => { f with locals := Frame.store f.locals index.toNat t }) := by
  intro f g hu c g' hy
  obtain ⟨rfl⟩ : g' = { g with locals := Frame.store g.locals index.toNat t } :=
    (Prod.mk.inj (Except.ok.inj hy)).2.symm
  refine ⟨(), _, rfl, trivial, hu.store (by omega), ?_, fun hc => hc.store _ t⟩
  rw [Frame.length_store]
  omega

theorem sharing_componentType (t : NamedType) :
    Relates (sharing first) (fun a b => a = b) (componentType p t) (componentType p t) := by
  have other : ∀ u : NamedType, Relates (sharing first) (fun a b => a = b)
      (do check p false t .arrayOfReferences; return u)
      (do check p false t .arrayOfReferences; return u) := fun u =>
    (relates_check id id t t _).bind fun _ _ _ => .pure rfl
  cases t with
  | null => exact .pure rfl
  | object cls =>
    rw [componentType_object]
    cases elementOf? cls with
    | some x => exact .pure rfl
    | none => exact other _
  | _ => exact other _

/-- Only a fresh object is marked, and it becomes one of a class. -/
theorem sharing_constructed (t : NamedType) :
    Relates (sharing first)
      (fun x y => x = y ∧
        ∀ u, x = some u → t ≠ .top ∧ t.isWide = false ∧ ∃ cls, u = .object cls)
      (constructed? p t) (constructed? p t) := by
  cases t with
  | freshThis => exact .pure ⟨rfl, fun u hu => ⟨by simp, rfl, _, (Option.some.inj hu).symm⟩⟩
  | fresh i =>
    rcases constructed?_fresh p i with ⟨cls, -, hmade⟩ | hmade
    · rw [hmade]
      exact .pure ⟨rfl, fun u hu => ⟨by simp, rfl, cls, (Option.some.inj hu).symm⟩⟩
    · rw [hmade]
      exact .throw
  | _ => exact (relates_check id id _ _ _).bind fun _ _ _ => .pure ⟨rfl, by simp⟩

theorem sharing_construct (t : NamedType) :
    Relates (sharing first) Silent (construct p t) (construct p t) := by
  refine (sharing_constructed t).bind fun x y hxy => ?_
  obtain ⟨rfl, hclass⟩ := hxy
  cases x with
  | none => exact .pure trivial
  | some u =>
    obtain ⟨htop, hnarrow, cls, rfl⟩ := hclass u rfl
    intro f g hu c g' hy
    obtain ⟨rfl⟩ : g' = g.replace t (.object cls) := (Prod.mk.inj (Except.ok.inj hy)).2.symm
    have hlen : (g.replace t (.object cls)).locals.length = g.locals.length := by
      simp [Frame.replace]
    refine ⟨(), _, rfl, trivial, hu.replace htop cls, by omega, fun hc => ?_⟩
    refine closed_map (if_neg htop.symm) (fun v => ?_) hc
    split
    · rename_i hv
      rw [hv, hnarrow]
      rfl
    · rfl

/-- The pieces of a step do on a frame that was stored to what they do on the frame itself. -/
theorem sharing_pieces : Pieces (sharing first) (· = ·) p p where
  resembles := ⟨rfl, rfl, fun _ _ h => h, VType.siteMap_eq, fun _ _ _ h hn => h ▸ hn⟩
  settled _ _ := rfl
  fresh hs := congrArg _ hs
  check := relates_check id
  readLocal := sharing_readLocal
  storeLocal hroom hab hslots := hab ▸ sharing_storeLocal hroom (hab ▸ hslots)
  componentType hab := hab ▸ sharing_componentType _
  construct hab := hab ▸ sharing_construct _

end Step

/-- The local variables that an instruction touches end in front of a slot. -/
def Instr.StaysBelow {τ : Type} (first : Nat) (ins : Instr τ) : Prop :=
  ∀ index kind, ins.local? = some (index, kind) → index.toNat + kind.slots ≤ first

/-- The local variables that code touches end in front of a slot. -/
def InstrList.StaysBelow (first : Nat) (l : InstrList) : Prop :=
  ∀ ins, .instr ins ∈ l.nodes → ins.StaysBelow first

/-- **An instruction that stays below the boundary does not notice stores behind it.** -/
theorem Program.step_shares {τ : Type} {first : Nat} {p : Program} {i : Nat} {ins : Instr τ}
    (hbelow : ins.StaysBelow first) {f g g' : Frame} (hu : f.Shares first g)
    (hstep : p.step i ins g = .ok g') :
    ∃ f', p.step i ins f = .ok f' ∧ Step.Stays first g f' g' :=
  Program.step_of_pieces Step.sharing_pieces (fun _ _ => rfl) hbelow hu hstep

/-! ## Paths -/

/-- A handler gets the locals, and nothing but the exception. -/
theorem Frame.Shares.raised {first : Nat} {f g : Frame} (hu : f.Shares first g) (b : TryBlock) :
    Frame.Shares first ⟨f.locals, b.caught⟩ ⟨g.locals, b.caught⟩ :=
  ⟨rfl, hu.slots, hu.length, hu.whole⟩

/-- A path on which something is done to the frame wherever control comes to. -/
def Program.ReachesAmid (p : Program) (l : InstrList) (d : Nat × Frame → Frame) :
    Nat × Frame → Nat × Frame → Prop :=
  Relation.ReflTransGen fun x y => ∃ z, p.Moves l x z ∧ y = (z.1, d z)

/-- What is done to the frames does not matter to the code, nor to the locals in use. -/
structure Program.Undisturbed (first : Nat) (p : Program) (l : InstrList)
    (d : Nat × Frame → Frame) (entry : Frame) : Prop where
  /-- Wherever control comes to, another store leaves the locals in use alone. -/
  safe : ∀ x, p.ReachesAmid l d (0, d (0, entry)) x → x.2.SafeBelow first
  /-- The code goes every way that it can go by itself. -/
  follows : ∀ y, p.Reaches l (0, entry) y →
    ∃ f, p.ReachesAmid l d (0, d (0, entry)) (y.1, f) ∧ f.Shares first y.2
  /-- Unless it fails by itself, the code goes no other way. -/
  only : (∀ y, p.Reaches l (0, entry) y → ∀ ins, l.nodes[y.1]? = some (.instr ins) →
      ∃ after, p.step y.1 ins y.2 = .ok after) →
    ∀ x, p.ReachesAmid l d (0, d (0, entry)) x →
      ∃ g, p.Reaches l (0, entry) (x.1, g) ∧ x.2.Shares first g

namespace Program

variable {first : Nat} {p : Program} {l : InstrList} {d : Nat × Frame → Frame}

/-- Frames that instructions and exceptions keep related are kept so by moves. -/
theorem Moves.transfer {R : Frame → Frame → Prop} {i : Nat} {f g : Frame} {y : Nat × Frame}
    (hu : R f g)
    (hstep : ∀ ins f', l.nodes[i]? = some (.instr ins) → p.step i ins f = .ok f' →
      ∃ g', p.step i ins g = .ok g' ∧ R f' g')
    (hraise : ∀ (b : TryBlock) {u v : Frame}, R u v →
      R ⟨u.locals, b.caught⟩ ⟨v.locals, b.caught⟩)
    (hm : p.Moves l (i, f) y) : ∃ g', p.Moves l (i, g) (y.1, g') ∧ R y.2 g' := by
  cases hm with
  | pass hn hreal => exact ⟨g, .pass hn hreal, hu⟩
  | next hn hrun hfall =>
    obtain ⟨g', hrun', hu'⟩ := hstep _ _ hn hrun
    exact ⟨g', .next hn hrun' hfall, hu'⟩
  | jump hn hrun hlab ht =>
    obtain ⟨g', hrun', hu'⟩ := hstep _ _ hn hrun
    exact ⟨g', .jump hn hrun' hlab ht, hu'⟩
  | raiseBefore hn hb ht => exact ⟨_, .raiseBefore hn hb ht, hraise _ hu⟩
  | raiseAfter hn hrun hb ht =>
    obtain ⟨g', hrun', hu'⟩ := hstep _ _ hn hrun
    exact ⟨_, .raiseAfter hn hrun' hb ht, hraise _ hu'⟩

section

variable (hbelow : l.StaysBelow first)

include hbelow

/-- A move goes where it goes without the stores. -/
theorem Moves.shares {i : Nat} {f g : Frame} {y : Nat × Frame} (hu : f.Shares first g)
    (hm : p.Moves l (i, g) y) : ∃ f', p.Moves l (i, f) (y.1, f') ∧ f'.Shares first y.2 := by
  refine hm.transfer (R := fun v u => u.Shares first v) hu (fun ins g' hn hrun => ?_)
    fun b _ _ huv => huv.raised b
  obtain ⟨f', hrun', hstays⟩ := step_shares (hbelow ins (Array.mem_of_getElem? hn)) hu hrun
  exact ⟨f', hrun', hstays.shares⟩

/-- Where an instruction runs without the stores, the moves with them are those without. -/
theorem Moves.unshared {i : Nat} {f g : Frame} {y : Nat × Frame} (hu : f.Shares first g)
    (hruns : ∀ ins, l.nodes[i]? = some (.instr ins) → ∃ g', p.step i ins g = .ok g')
    (hm : p.Moves l (i, f) y) : ∃ g', p.Moves l (i, g) (y.1, g') ∧ y.2.Shares first g' := by
  refine hm.transfer hu (fun ins f' hn hrun => ?_) fun b _ _ huv => huv.raised b
  obtain ⟨g', hrun'⟩ := hruns ins hn
  obtain ⟨f'', hrun'', hstays⟩ := step_shares (hbelow ins (Array.mem_of_getElem? hn)) hu hrun'
  -- an instruction has one outcome
  obtain rfl := Except.ok.inj (hrun''.symm.trans hrun)
  exact ⟨g', hrun', hstays.shares⟩

variable (hd : ∀ x, Frame.Scratched first x.2 (d x))

include hd

/-- On every path wide values stay on one side of the boundary. -/
theorem ReachesAmid.wholeBelow {x y : Nat × Frame}
    (hw : Frame.WholeBelow first x.2.locals) (hpath : p.ReachesAmid l d x y) :
    Frame.WholeBelow first y.2.locals := by
  induction hpath with
  | refl => exact hw
  | tail _ hmove ih =>
    obtain ⟨z, hmove, rfl⟩ := hmove
    -- the move itself, compared with itself, and then the stores behind it
    obtain ⟨_, -, hz⟩ := hmove.shares hbelow ih.shares
    exact (hz.whole.shares.scratched (hd z)).wholeBelow

/-- Code goes the way that it would go without the stores. -/
theorem Reaches.amid {i : Nat} {f g : Frame} {y : Nat × Frame} (hu : f.Shares first g)
    (hpath : p.Reaches l (i, g) y) :
    ∃ f', p.ReachesAmid l d (i, f) (y.1, f') ∧ f'.Shares first y.2 := by
  induction hpath with
  | refl => exact ⟨f, .refl, hu⟩
  | tail _ hmove ih =>
    obtain ⟨f', hpath', hu'⟩ := ih
    obtain ⟨f'', hmove', hu''⟩ := hmove.shares hbelow hu'
    exact ⟨d (_, f''), hpath'.tail ⟨_, hmove', rfl⟩, hu''.scratched (hd (_, f''))⟩

/-- Code that never fails goes no other way than it would go without the stores. -/
theorem ReachesAmid.unshared {i : Nat} {f g : Frame} {x : Nat × Frame} (hu : f.Shares first g)
    (hruns : ∀ y, p.Reaches l (i, g) y → ∀ ins, l.nodes[y.1]? = some (.instr ins) →
      ∃ after, p.step y.1 ins y.2 = .ok after)
    (hpath : p.ReachesAmid l d (i, f) x) :
    ∃ g', p.Reaches l (i, g) (x.1, g') ∧ x.2.Shares first g' := by
  induction hpath with
  | refl => exact ⟨g, .refl, hu⟩
  | tail _ hmove ih =>
    obtain ⟨z, hmove, rfl⟩ := hmove
    obtain ⟨g', hpath', hu'⟩ := ih
    -- the code by itself comes to the same place, where its instruction runs
    obtain ⟨g'', hmove', hu''⟩ := hmove.unshared hbelow hu' (hruns _ hpath')
    exact ⟨g'', hpath'.tail hmove', hu''.scratched (hd z)⟩

/-- **Stores behind the locals in use disturb no path of the code.** -/
theorem undisturbed {entry : Frame} (hw : Frame.WholeBelow first entry.locals) :
    p.Undisturbed first l d entry := by
  have hentry : (d (0, entry)).Shares first entry := hw.shares.scratched (hd (0, entry))
  exact {
    safe := fun _ hpath => (hpath.wholeBelow hbelow hd hentry.wholeBelow).safe
    follows := fun _ hpath => hpath.amid hbelow hd hentry
    only := fun hruns _ hpath => hpath.unshared hbelow hd hentry hruns }

end
end Program
end ClassWeave
