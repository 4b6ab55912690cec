import ClassWeave.Proofs.Acceptance
import ClassWeave.Proofs.ControlFlow

/-!
# Objects that instructions made

In the frames of checked code every object between its creation and its constructor call was made by
an instruction of the code. A frame says so by covering itself, where a place counts only if there
is such an instruction: what is known about steps and merges that respect the order of frames then
carries it along. Frames can be stored because of that, since the offset of every such instruction
is known.
-/

namespace ClassWeave

/-- Where the code makes an object, the place stands for itself; no other places stand for any. -/
def Program.Makes (p : Program) (i j : Nat) : Prop :=
  i = j ∧ ∃ cls, p.nodes[j]? = some (.instr (.type Opcode.new cls))

theorem Program.follows_makes {p : Program} (hstrict : p.mode = .strict) : p.Follows p.Makes p where
  strict := hstrict
  method := rfl
  result := rfl
  pooled _ _ h := h
  sites := ⟨fun h h' => h.1.symm.trans h'.1, fun h h' => h.1.trans h'.1.symm⟩
  news _ _ _ h hn := h.1 ▸ hn

namespace VType

variable {h : Hierarchy} {p : Program}

/-- What covers a type may only know objects that this one knows. -/
theorem Covers.makes_self {a b : NamedType} (hba : Covers h p.Makes b a) : Covers h p.Makes b b := by
  cases hba with
  | top => exact .top .top
  | nullObject c => exact .object (h.coversClass_refl c)
  | object => exact .object (h.coversClass_refl _)
  | fresh hs =>
    obtain ⟨rfl, hmade⟩ := hs
    exact .fresh ⟨rfl, hmade⟩
  | _ => constructor

end VType

namespace Frame

variable {h : Hierarchy} {p : Program} {f f' m : Frame} {i : Nat}

/-- The fresh objects of the frame are made by the code. -/
def Made (p : Program) (f : Frame) : Prop := Covers p.hierarchy p.Makes f f

theorem Made.of_locals (hf : f.Made p) (hi : .fresh i ∈ f.locals) : p.Makes i i := by
  obtain ⟨k, hk⟩ := List.mem_iff_getElem?.mp hi
  have hslot := hf.locals k
  rw [slot_eq_of_getElem? hk] at hslot
  cases hslot with
  | fresh hs => exact hs

theorem Made.of_stack (hf : f.Made p) (hi : .fresh i ∈ f.stack) : p.Makes i i := by
  have hself := List.forall₂_same.mp hf.stack _ hi
  cases hself with
  | fresh hs => exact hs

/-- What an exception leaves holds no objects that were not there. -/
theorem Made.raised (hf : f.Made p) {t : NamedType} (ht : VType.IsSettled t) :
    Made p ⟨f.locals, [t]⟩ :=
  ⟨.cons (VType.covers_settled ht) .nil, hf.locals⟩

theorem Made.merged (hl : p.hierarchy.Lawful) (hm : Merged p.hierarchy f f' m) (hf : f.Made p) :
    m.Made p := by
  have hcovers : Covers p.hierarchy p.Makes m f := (hm.covers_left hl).trans hl hf
  refine ⟨List.forall₂_same.mpr fun t ht => ?_, fun k => (hcovers.locals k).makes_self⟩
  obtain ⟨u, -, htu⟩ := exists_of_forall₂ hcovers.stack ht
  exact htu.makes_self

/-- An instruction leaves no objects but those that were there and the one it makes. -/
theorem Made.step (hstrict : p.mode = .strict) {ins : Instr Label} {after : Frame}
    (hn : p.nodes[i]? = some (.instr ins)) (hf : f.Made p) (hsound : f.Sound)
    (hstep : p.step i ins f = .ok after) : after.Made p := by
  have hsite : ∀ cls, ins = .type Opcode.new cls → p.Makes i i := by
    rintro cls rfl
    exact ⟨rfl, cls, hn⟩
  obtain ⟨after', hstep', ha⟩ := Program.step_under (Program.follows_makes hstrict) hsite
    ⟨hf, hsound, hsound.closed⟩ hstep
  obtain rfl := Except.ok.inj (hstep.symm.trans hstep')
  exact ha.under.covers

end Frame

namespace Analysis

variable {m : MethodContext} {l : InstrList} {pool : Pool} {h : Hierarchy} {a : Analysis}
  {g : FlowGraph} {entry : Frame} {w : Work}

/-- Frames whose objects are made by the code lead to such frames. -/
theorem Searched.good_made (hs : Searched m l pool h .strict a g entry w) (hl : h.Lawful) :
    Work.Good g fun _ f => f.Sound ∧ f.Made g.program where
  edges := by
    have hstrict : g.program.mode = .strict := by rw [hs.program]
    have hsound := FlowGraph.good_sound hstrict hs.handlersSound
    intro i f n after es hf hn hedges e he
    refine ⟨hsound.edges hf.1 hn hedges e he, ?_⟩
    have hafter : ∀ {ins}, n = .instr ins → after.Made g.program := by
      rintro ins rfl
      exact hf.2.step hstrict hn hf.1 (FlowGraph.edges_instr hedges).1
    cases (FlowGraph.mem_edges hedges).mp he with
    | pass => exact hf.2
    | raise hk _ _ hcase =>
      rcases hcase with rfl | rfl
      · exact hf.2.raised (hs.caught hk)
      · exact (hafter rfl).raised (hs.caught hk)
    | jump | next => exact hafter rfl
  merge := by
    intro i f f' r hf hf' hm
    have hsound := FlowGraph.good_sound (g := g) (by rw [hs.program]) hs.handlersSound
    have hh : g.program.hierarchy = h := by rw [hs.program]
    have hmerged := Frame.merge_merged hf.1.closed hf'.1.closed hm
    exact ⟨hsound.merge (i := i) hf.1 hf'.1 hm, hf.2.merged (hh ▸ hl) hmerged⟩

/-- **Every fresh object of an analysis was made by an instruction of the code.** -/
theorem Searched.made (hs : Searched m l pool h .strict a g entry w) (hl : h.Lawful) {i : Nat}
    {f : Frame} (hf : w.frame? i = some f) : f.Made g.program := by
  have hb : Work.Bounds g (fun _ f => f.Sound ∧ f.Made g.program) (fun _ _ => True) :=
    ⟨fun _ => trivial, fun _ _ => trivial, fun _ _ _ => ⟨trivial, trivial⟩⟩
  obtain ⟨-, -, hall⟩ := hs.ends.settles hb (hs.good_made hl) hs.positive
    ⟨Frame.entry_sound hs.start, Frame.covers_entry hs.start⟩
  exact (hall hf).1.2

end Analysis

/-! ## Frames that can be stored -/

namespace Frame

theorem mem_wholeOnto {t : NamedType} {found locals : List NamedType}
    (ht : t ∈ wholeOnto found locals) : t ∈ found ∨ t ∈ locals := by
  fun_induction wholeOnto found locals with
  | case1 found => exact .inl ht
  | case2 found u hu =>
    rcases List.mem_cons.mp ht with rfl | ht
    · exact .inr List.mem_cons_self
    · exact .inl ht
  | case3 found u hu v rest ih =>
    rcases ih ht with ht | ht
    · rcases List.mem_cons.mp ht with rfl | ht
      · exact .inr List.mem_cons_self
      · exact .inl ht
    · exact .inr (List.mem_cons_of_mem _ (List.mem_cons_of_mem _ ht))
  | case4 found u rest hu ih =>
    rcases ih ht with ht | ht
    · rcases List.mem_cons.mp ht with rfl | ht
      · exact .inr List.mem_cons_self
      · exact .inl ht
    · exact .inr (List.mem_cons_of_mem _ ht)

theorem mem_compactLocals {t : NamedType} {locals : List NamedType}
    (ht : t ∈ compactLocals locals) : t ∈ locals := by
  have hwhole := (List.dropWhile_sublist _).subset (List.mem_reverse.mp ht)
  rcases mem_wholeOnto hwhole with h | h
  · cases h
  · exact h

end Frame

namespace CompactFrame

variable {offset? : Nat → Option Nat} {c : NamedFrame}

/-- A frame can be given with offsets if there are offsets for its fresh objects. -/
theorem exists_relocate (hlocals : ∀ i, .fresh i ∈ c.locals → ∃ o, offset? i = some o)
    (hstack : ∀ i, .fresh i ∈ c.stack → ∃ o, offset? i = some o) :
    ∃ c', c.relocate offset? = .ok c' := by
  have htypes : ∀ ts : List NamedType, (∀ i, .fresh i ∈ ts → ∃ o, offset? i = some o) →
      ∃ us, List.Forall₂ (VType.PlacedAs offset?) ts us := by
    intro ts hts
    refine exists_forall₂ fun t ht => ?_
    cases t with
    | object cls => exact ⟨_, placedAs_object.mpr rfl⟩
    | fresh i =>
      obtain ⟨o, ho⟩ := hts i ht
      exact ⟨_, placedAs_fresh.mpr ⟨o, ho, rfl⟩⟩
    | _ => exact ⟨_, rfl⟩
  obtain ⟨locals, hlocals⟩ := htypes c.locals hlocals
  obtain ⟨stack, hstack⟩ := htypes c.stack hstack
  exact ⟨⟨locals, stack⟩, relocate_eq_ok.mpr ⟨hlocals, hstack⟩⟩

end CompactFrame

/-- The frames of checked code can be given with offsets. -/
theorem Frame.Made.exists_relocate {p : Program} {f : Frame} (hf : f.Made p)
    {offset? : Nat → Option Nat} (hoffset : ∀ i < p.nodes.size, ∃ o, offset? i = some o) :
    ∃ c, f.compact.relocate offset? = .ok c := by
  have hplace : ∀ {i}, p.Makes i i → ∃ o, offset? i = some o := fun {i} ⟨_, cls, hn⟩ =>
    hoffset i (Array.getElem?_eq_some_iff.mp hn).1
  exact CompactFrame.exists_relocate
    (fun i hi => hplace (hf.of_locals (mem_compactLocals hi)))
    fun i hi => hplace (hf.of_stack (List.mem_reverse.mp hi))

end ClassWeave
