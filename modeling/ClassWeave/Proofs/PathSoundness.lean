import ClassWeave.Proofs.Analyses

/-!
# Checked code along every path

If the analysis accepts code without trusting it, control can take no path on which an instruction
fails: whatever path leads to an entry, the frame that comes about on it is below the one recorded,
and fits into the room that the analysis asks for. Paths are followed one move at a time,
without ever merging anything.
-/

namespace ClassWeave

/-- The block is around an entry. -/
structure TryBlock.Around (l : InstrList) (b : TryBlock) (i : Nat) : Prop where
  mem : b ∈ l.blocks
  start : ∃ s, b.start.position? l.labelPositions = some s ∧ s ≤ i
  stop : ∃ e, b.stop.position? l.labelPositions = some e ∧ i < e

/-- The stack in front of the handler of a block: nothing but the exception. -/
def TryBlock.caught (b : TryBlock) : List NamedType :=
  [.object (b.catchType.getD "java/lang/Throwable")]

/-- The code of a method as checked code. -/
def InstrList.checked (l : InstrList) (m : MethodContext) (pool : Pool) (h : Hierarchy) : Program :=
  ⟨m, l.nodes, pool, h, .strict, (MethodType.parse? m.descriptor).bind MethodType.result⟩

/-- Control moves from an entry to another one. An exception leaves the locals as they are
before the instruction or behind it. -/
inductive Program.Moves (p : Program) (l : InstrList) : Nat × Frame → Nat × Frame → Prop
  | pass {i : Nat} {f : Frame} {n : Node} (hn : l.nodes[i]? = some n) (hreal : n.isReal = false) :
      Moves p l (i, f) (i + 1, f)
  | next {i : Nat} {f after : Frame} {ins : Instr Label} (hn : l.nodes[i]? = some (.instr ins))
      (hstep : p.step i ins f = .ok after) (hfall : ins.fallsThrough) :
      Moves p l (i, f) (i + 1, after)
  | jump {i t : Nat} {f after : Frame} {ins : Instr Label} {lab : Label}
      (hn : l.nodes[i]? = some (.instr ins)) (hstep : p.step i ins f = .ok after)
      (hlab : lab ∈ ins.targets) (ht : lab.position? l.labelPositions = some t) :
      Moves p l (i, f) (t, after)
  | raiseBefore {i t : Nat} {f : Frame} {ins : Instr Label} {b : TryBlock}
      (hn : l.nodes[i]? = some (.instr ins)) (hb : b.Around l i)
      (ht : b.handler.position? l.labelPositions = some t) :
      Moves p l (i, f) (t, ⟨f.locals, b.caught⟩)
  | raiseAfter {i t : Nat} {f after : Frame} {ins : Instr Label} {b : TryBlock}
      (hn : l.nodes[i]? = some (.instr ins)) (hstep : p.step i ins f = .ok after)
      (hb : b.Around l i) (ht : b.handler.position? l.labelPositions = some t) :
      Moves p l (i, f) (t, ⟨after.locals, b.caught⟩)

/-- A path of any length. -/
def Program.Reaches (p : Program) (l : InstrList) : Nat × Frame → Nat × Frame → Prop :=
  Relation.ReflTransGen (p.Moves l)

/-- Merging the second frame into the first changes nothing: neither a value on the stack nor a
local variable, where a slot that is missing cannot be used. -/
structure Frame.Absorbs (h : Hierarchy) (g f : Frame) : Prop where
  stack : List.Forall₂ (fun b a => h.mergeTypes b a = b) g.stack f.stack
  locals : ∀ k, h.mergeTypes (g.locals.getD k .top) (f.locals.getD k .top) = g.locals.getD k .top

/-- The frame fits into the room that an analysis asks for. -/
def Analysis.HasRoom (a : Analysis) (f : Frame) : Prop :=
  f.depth ≤ a.maxStack ∧ f.locals.length ≤ a.maxLocals

/-- What the analysis promises where control comes to an entry with a frame. -/
structure Analysis.Sound (a : Analysis) (p : Program) (l : InstrList) (i : Nat) (f : Frame) :
    Prop where
  inside : i < l.nodes.size
  recorded : ∃ g, a.frames[i]? = some (some g) ∧ g.Absorbs p.hierarchy f
  room : a.HasRoom f
  runs : ∀ ins, l.nodes[i]? = some (.instr ins) → ∃ after, p.step i ins f = .ok after ∧
    a.HasRoom after ∧ ∀ lab ∈ ins.targets, ∃ t, lab.position? l.labelPositions = some t

namespace Frame

variable {h : Hierarchy}

theorem Covers.absorbs {f g : Frame} (hc : Covers h (· = ·) g f) : g.Absorbs h f where
  stack := hc.stack.imp fun _ _ => VType.covers_iff.mp
  locals k := VType.covers_iff.mp (hc.locals k)

theorem closed_nil : Closed [] := by
  intro k hk
  rw [slot_of_length_le (Nat.zero_le _)] at hk
  cases hk

theorem closed_slotsOf_append (t : NamedType) {rest : List NamedType} (hc : Closed rest) :
    Closed (slotsOf t ++ rest) := by
  intro k hk
  unfold slotsOf at hk ⊢
  by_cases hw : t.isWide
  · rw [if_pos hw] at hk ⊢
    match k with
    | 0 => exact ⟨by simp, rfl⟩
    | 1 => cases hk
    | k + 2 =>
      obtain ⟨hlen, htop⟩ := hc k hk
      exact ⟨by simp; omega, htop⟩
  · rw [if_neg hw] at hk ⊢
    match k with
    | 0 => exact absurd hk hw
    | k + 1 =>
      obtain ⟨hlen, htop⟩ := hc k hk
      exact ⟨by simp; omega, htop⟩

theorem closed_flatMap_slotsOf (ts : List NamedType) : Closed (ts.flatMap slotsOf) := by
  induction ts with
  | nil => exact closed_nil
  | cons t ts ih => exact closed_slotsOf_append t ih

/-- The frame at entry is sound. -/
theorem entry_sound {m : MethodContext} {f : Frame} (hf : entry m = .ok f) : f.Sound := by
  unfold entry at hf
  split at hf
  · cases hf
  · rename_i type _
    rw [Except.ok.injEq] at hf
    subst hf
    refine ⟨?_, by simp⟩
    have hparams : Closed (type.parameters.flatMap fun t => slotsOf (VType.ofField t)) := by
      have := closed_flatMap_slotsOf (type.parameters.map VType.ofField)
      rwa [List.flatMap_map] at this
    show Closed (receiver m ++ _)
    have single : ∀ t : NamedType, t.isWide = false → [t] = slotsOf t := fun t ht => by
      simp [slotsOf, ht]
    unfold receiver
    split
    · exact hparams
    · split
      · exact single .freshThis rfl ▸ closed_slotsOf_append _ hparams
      · exact single (.object m.cls) rfl ▸ closed_slotsOf_append _ hparams

/-- The frame at entry holds no objects that instructions made. -/
theorem settled_entry {m : MethodContext} {f : Frame} (hf : entry m = .ok f) :
    (∀ t ∈ f.locals, VType.IsSettled t) ∧ f.stack = [] := by
  unfold entry at hf
  split at hf
  · cases hf
  · rw [Except.ok.injEq] at hf
    subst hf
    refine ⟨fun t ht => ?_, rfl⟩
    rcases List.mem_append.mp ht with ht | ht
    · unfold receiver at ht
      split at ht
      · cases ht
      · split at ht
        · rw [List.mem_singleton.mp ht]
          trivial
        · rw [List.mem_singleton.mp ht]
          trivial
    · obtain ⟨u, -, ht⟩ := List.mem_flatMap.mp ht
      have hu : VType.IsSettled (VType.ofField u) := VType.isSettled_ofField u
      unfold slotsOf at ht
      split at ht
      · rcases List.mem_cons.mp ht with rfl | ht
        · exact hu
        · rw [List.mem_singleton.mp ht]
          trivial
      · rwa [List.mem_singleton.mp ht]

theorem covers_entry {site : Nat → Nat → Prop} {m : MethodContext} {f : Frame}
    (hf : entry m = .ok f) : Covers h site f f := by
  obtain ⟨hsettled, hstack⟩ := settled_entry hf
  refine ⟨by rw [hstack]; exact .nil, fun k => VType.covers_settled ?_⟩
  by_cases hk : k < f.locals.length
  · have hget := getElem?_of_slot hk
    exact hsettled _ (List.mem_of_getElem? hget)
  · rw [slot_of_length_le (Nat.le_of_not_lt hk)]
    trivial

end Frame

/-- Checked code leads from sound frames to sound frames. -/
theorem Program.step_sound {p : Program} (hstrict : p.mode = .strict) {i : Nat} {ins : Instr Label}
    {f after : Frame} (hf : f.Sound) (hstep : p.step i ins f = .ok after) : after.Sound := by
  have hunder : Frame.Under p.hierarchy (· = ·) f f := ⟨Frame.covers_refl f, hf, hf.closed⟩
  obtain ⟨_, _, ha⟩ :=
    Program.step_under (Program.follows_self hstrict) (fun _ _ => rfl) hunder hstep
  exact ha.under.sound

namespace FlowGraph

variable {g : FlowGraph}

/-- What an exception leaves is a value of a class. -/
def HandlersSound (g : FlowGraph) : Prop := ∀ h ∈ g.handlers, h.catchType ≠ .top

/-- Sound frames lead to sound frames if the code is not trusted. -/
theorem good_sound (hstrict : g.program.mode = .strict) (hh : g.HandlersSound) :
    Work.Good g fun _ f => f.Sound where
  edges := by
    intro i f n after es hf hn hedges e he
    have hafter : ∀ {ins}, n = .instr ins → after.Sound := by
      rintro ins rfl
      exact Program.step_sound hstrict hf (edges_instr hedges).1
    cases (mem_edges hedges).mp he with
    | pass => exact hf
    | raise hk _ _ hcase =>
      refine ⟨?_, by simpa [eq_comm] using hh _ hk⟩
      rcases hcase with rfl | rfl
      · exact hf.closed
      · exact (hafter rfl).closed
    | jump | next => exact hafter rfl
  merge := by
    intro i f f' r hf hf' hm
    rw [hstrict] at hm
    exact ⟨(Frame.merge_merged hf.closed hf'.closed hm).closed, Frame.merge_usable hf.usable hm⟩

end FlowGraph

namespace Analysis

variable {m : MethodContext} {l : InstrList} {pool : Pool} {h : Hierarchy} {mode : Mode}
  {a : Analysis}

theorem Begins.handler {g : FlowGraph} {entry : Frame}
    (hs : Begins m l pool h mode g entry) {b : TryBlock} {i t : Nat} (hb : b.Around l i)
    (ht : b.handler.position? l.labelPositions = some t) :
    ∃ k ∈ g.handlers, k.start ≤ i ∧ i < k.stop ∧ k.target = t ∧ [k.catchType] = b.caught := by
  obtain ⟨k, hk, hhandler⟩ := exists_of_forall₂ hs.handlers hb.mem
  obtain ⟨hstart, hstop, htarget, hcaught⟩ := FlowGraph.handler_eq_ok.mp hhandler
  obtain ⟨start, hs', hle⟩ := hb.start
  obtain ⟨stop, he, hlt⟩ := hb.stop
  obtain rfl := Option.some.inj (hstart.symm.trans hs')
  obtain rfl := Option.some.inj (hstop.symm.trans he)
  exact ⟨k, hk, hle, hlt, Option.some.inj (htarget.symm.trans ht), by rw [hcaught, TryBlock.caught]⟩

theorem Begins.handlersSound {g : FlowGraph} {entry : Frame}
    (hs : Begins m l pool h mode g entry) : g.HandlersSound := by
  intro k hk
  obtain ⟨b, -, hhandler⟩ := exists_of_forall₂ hs.handlers.flip hk
  obtain ⟨-, -, -, hcaught⟩ := FlowGraph.handler_eq_ok.mp hhandler
  rw [hcaught]
  simp

/-- In whatever order the search comes to its end, the frame recorded for an entry agrees with
those around it. -/
theorem Begins.settles {g : FlowGraph} {entry : Frame} {w : Work}
    (hs : Begins m l pool h .strict g entry) (hw : Work.Ends g entry w) (hl : h.Lawful) :
    Work.Followed (Frame.Covers h (· = ·)) w (0, entry) ∧ entry.locals.length ≤ w.maxLocals ∧
      ∀ {i f}, w.frame? i = some f → f.Sound ∧ Work.Settles g (Frame.Covers h (· = ·)) w i f := by
  have hgood := FlowGraph.good_sound (g := g) (by rw [hs.program]) hs.handlersSound
  have hh : g.program.hierarchy = h := by rw [hs.program]
  have hb : Work.Bounds g (fun _ f => f.Sound) _ := Work.bounds_covers (hh ▸ hl) Frame.Sound.closed
  have hsettles := hw.settles hb hgood hs.positive (Frame.entry_sound hs.start)
  rwa [hh] at hsettles

/-- The frame recorded for an entry agrees with those around it. -/
theorem Searched.settles {g : FlowGraph} {entry : Frame} {w : Work}
    (hs : Searched m l pool h .strict a g entry w) (hl : h.Lawful) :
    Work.Followed (Frame.Covers h (· = ·)) w (0, entry) ∧ entry.locals.length ≤ w.maxLocals ∧
      ∀ {i f}, w.frame? i = some f → f.Sound ∧ Work.Settles g (Frame.Covers h (· = ·)) w i f :=
  hs.toBegins.settles hs.ends hl

/-- What holds along a path: the entry has a frame that covers the one that came about, which is
whole and fits in. -/
structure Along (h : Hierarchy) (a : Analysis) (w : Work) (i : Nat) (f : Frame) : Prop where
  recorded : ∃ g, w.frame? i = some g ∧ Frame.Covers h (· = ·) g f
  closed : Frame.Closed f.locals
  length : f.locals.length ≤ a.maxLocals

/-- One look at a node that is on a path. -/
theorem Along.look (hl : h.Lawful) {g : FlowGraph} {entry : Frame} {w : Work}
    (hs : Searched m l pool h .strict a g entry w) {i : Nat} {f : Frame} (hi : Along h a w i f) :
    ∃ r, w.frame? i = some r ∧ Frame.Under h (· = ·) f r ∧ Work.Settles g (Frame.Covers h (· = ·)) w i r := by
  obtain ⟨r, hr, hc⟩ := hi.recorded
  obtain ⟨hsound, hsettles⟩ := (hs.settles hl).2.2 hr
  exact ⟨r, hr, ⟨hc, hsound, hi.closed⟩, hsettles⟩

/-- An instruction on a path: it runs, and its edges lead to frames that cover what it hands on. -/
theorem Along.instr (hl : h.Lawful) {g : FlowGraph} {entry : Frame} {w : Work}
    (hs : Searched m l pool h .strict a g entry w) {i : Nat} {f : Frame} (hi : Along h a w i f)
    {ins : Instr Label} (hn : l.nodes[i]? = some (.instr ins)) :
    ∃ r after' es after, w.frame? i = some r ∧
      g.edges i (.instr ins) r = .ok (after', es) ∧
      (∀ e ∈ es, Work.Followed (Frame.Covers h (· = ·)) w e) ∧
      (l.checked m pool h).step i ins f = .ok after ∧ Step.After h (· = ·) f r after after' ∧
      a.HasRoom f ∧ a.HasRoom after := by
  obtain ⟨r, hr, hunder, hsettles⟩ := hi.look hl hs
  have hn' : g.program.nodes[i]? = some (.instr ins) := by rw [hs.program]; exact hn
  obtain ⟨after', es, hedges, hfollowed, hd, hd', hlo, hlo'⟩ := hsettles.edges hn'
  obtain ⟨hstep, -⟩ := FlowGraph.edges_instr hedges
  rw [hs.program] at hstep
  obtain ⟨after, hrun, ha⟩ :=
    Program.step_under (Program.follows_self rfl) (fun _ _ => rfl) hunder hstep
  have hlen := ha.length
  have hlength := hi.length
  rw [hs.result] at hlength
  simp only at hlength
  refine ⟨r, after', es, after, hr, hedges, hfollowed, hrun, ha, ?_, ?_⟩
  · rw [HasRoom, hs.result, hunder.covers.depth_eq hunder.sound.usable]
    exact ⟨hd, hlength⟩
  · rw [HasRoom, hs.result, ha.under.covers.depth_eq ha.under.sound.usable]
    refine ⟨hd', ?_⟩
    simp only
    omega

theorem Along.handed {w : Work} {j : Nat} {f u : Frame} (hl : h.Lawful)
    (he : Work.Followed (Frame.Covers h (· = ·)) w (j, u)) (hc : Frame.Covers h (· = ·) u f)
    (hclosed : Frame.Closed f.locals) (hlen : f.locals.length ≤ a.maxLocals) : Along h a w j f := by
  obtain ⟨r, hr, hcov⟩ := he
  exact ⟨⟨r, hr, hcov.trans hl hc⟩, hclosed, hlen⟩

/-- What holds along a path is kept by every move. -/
theorem Along.move (hl : h.Lawful) {g : FlowGraph} {entry : Frame} {w : Work}
    (hs : Searched m l pool h .strict a g entry w) {x y : Nat × Frame}
    (hx : Along h a w x.1 x.2) (hmove : (l.checked m pool h).Moves l x y) :
    Along h a w y.1 y.2 := by
  have caughtCovers : ∀ {t : NamedType} {c : List NamedType} {u v : Frame}, [t] = c →
      (∀ k, VType.Covers h (· = ·) (Frame.slot v.locals k) (Frame.slot u.locals k)) →
      Frame.Covers h (· = ·) ⟨v.locals, [t]⟩ ⟨u.locals, c⟩ := by
    rintro t c u v rfl hlocals
    exact ⟨.cons (VType.covers_refl t) .nil, hlocals⟩
  cases hmove with
  | @pass i f n hn hreal =>
    obtain ⟨r, hr, hunder, hsettles⟩ := hx.look hl hs
    have hn' : g.program.nodes[i]? = some n := by rw [hs.program]; exact hn
    obtain ⟨after, es, hedges, hfollowed, -⟩ := hsettles.edges hn'
    rw [FlowGraph.edges_other hreal, Except.ok.injEq, Prod.mk.injEq] at hedges
    obtain ⟨rfl, rfl⟩ := hedges
    have he := hfollowed _ List.mem_cons_self
    exact .handed hl he hunder.covers hx.closed hx.length
  | @next i f after ins hn hstep hfall =>
    obtain ⟨r, after', es, after, -, hedges, hfollowed, hrun, ha, -, hroom⟩ := hx.instr hl hs hn
    obtain rfl := Except.ok.inj (hstep.symm.trans hrun)
    have he := hfollowed _ ((FlowGraph.mem_edges hedges).mpr (.next hfall))
    exact .handed hl he ha.under.covers ha.under.closed hroom.2
  | @jump i t f after ins lab hn hstep hlab ht =>
    obtain ⟨r, after', es, after, -, hedges, hfollowed, hrun, ha, -, hroom⟩ := hx.instr hl hs hn
    obtain rfl := Except.ok.inj (hstep.symm.trans hrun)
    rw [← hs.positions] at ht
    have he := hfollowed _ ((FlowGraph.mem_edges hedges).mpr (.jump hlab ht))
    exact .handed hl he ha.under.covers ha.under.closed hroom.2
  | @raiseBefore i t f ins b hn hb ht =>
    obtain ⟨r, after', es, after, hr, hedges, hfollowed, -⟩ := hx.instr hl hs hn
    obtain ⟨k, hk, hstart, hstop, rfl, hcaught⟩ := hs.handler hb ht
    have he := hfollowed _ ((FlowGraph.mem_edges hedges).mpr (.raise hk hstart hstop (.inl rfl)))
    obtain ⟨r', hr', hc⟩ := hx.recorded
    obtain rfl := Option.some.inj (hr.symm.trans hr')
    exact .handed hl he (caughtCovers hcaught hc.locals) hx.closed hx.length
  | @raiseAfter i t f after ins b hn hstep hb ht =>
    obtain ⟨r, after', es, after, -, hedges, hfollowed, hrun, ha, -, hroom⟩ := hx.instr hl hs hn
    obtain rfl := Except.ok.inj (hstep.symm.trans hrun)
    obtain ⟨k, hk, hstart, hstop, rfl, hcaught⟩ := hs.handler hb ht
    have he := hfollowed _ ((FlowGraph.mem_edges hedges).mpr (.raise hk hstart hstop (.inr rfl)))
    exact .handed hl he (caughtCovers hcaught ha.under.covers.locals) ha.under.closed hroom.2

/-- What holds along a path is what the analysis promises. -/
theorem Along.sound (hl : h.Lawful) {g : FlowGraph} {entry : Frame} {w : Work}
    (hs : Searched m l pool h .strict a g entry w) {i : Nat} {f : Frame} (hi : Along h a w i f) :
    a.Sound (l.checked m pool h) l i f := by
  obtain ⟨r, hr, hunder, hsettles⟩ := hi.look hl hs
  have hnodes : g.program.nodes = l.nodes := by rw [hs.program]
  have hlt : i < l.nodes.size := hnodes ▸ hsettles.node
  refine ⟨hlt, ⟨r, ?_, hunder.covers.absorbs⟩, ?_, ?_⟩
  · rw [hs.result]
    exact Work.frame?_eq_some.mp hr
  · have hn : g.program.nodes[i]? = some l.nodes[i] := by
      rw [hnodes]
      exact Array.getElem?_eq_getElem hlt
    obtain ⟨_, _, -, -, hd, -, -, -⟩ := hsettles.edges hn
    have hlength := hi.length
    rw [HasRoom, hunder.covers.depth_eq hunder.sound.usable]
    exact ⟨by rw [hs.result]; exact hd, hlength⟩
  · intro ins hn
    obtain ⟨_, _, _, after, -, hedges, -, hrun, -, -, hroom⟩ := hi.instr hl hs hn
    refine ⟨after, hrun, hroom, fun lab hlab => ?_⟩
    obtain ⟨-, targets, htargets, -⟩ := FlowGraph.edges_instr hedges
    obtain ⟨t, -, ht⟩ := exists_of_forall₂ htargets hlab
    rw [hs.positions] at ht
    exact ⟨t, ht⟩

/-- **Checked code is sound along every path.** If the analysis accepts a method without trusting
it, then on every path from the entry of the method control stays inside the code, every
instruction runs, the frame that comes about is absorbed by the one recorded, and the stack and the
locals never take up more room than the analysis asks for. -/
theorem sound_along_paths (hh : h.Sound) (ha : analyze m l pool h .strict = .ok a) :
    ∃ entry, Frame.entry m = .ok entry ∧ ∀ i f,
      (l.checked m pool h).Reaches l (0, entry) (i, f) → a.Sound (l.checked m pool h) l i f := by
  have hl := hh.lawful
  obtain ⟨g, entry, w, hs⟩ := searched_of_analyze ha
  refine ⟨entry, hs.start, fun i f hpath => ?_⟩
  have hstart : Along h a w 0 entry := by
    refine ⟨(hs.settles hl).1, (Frame.entry_sound hs.start).closed, ?_⟩
    rw [hs.result]
    exact (hs.settles hl).2.1
  have halong : ∀ {x : Nat × Frame}, (l.checked m pool h).Reaches l (0, entry) x →
      Along h a w x.1 x.2 := by
    intro x hx
    induction hx with
    | refl => exact hstart
    | tail _ hmove ih => exact ih.move hl hs hmove
  exact (halong hpath).sound hl hs

/-! ## A loop without an end -/

/-- A jump to itself. -/
def spin : InstrList := ⟨#[.label ⟨0⟩, .instr (.jump Opcode.goto ⟨0⟩)], #[true], []⟩

/-- A method that never returns. -/
def spinning : MethodContext := ⟨"Spin", "run", "()V", true⟩

theorem analyze_spin :
    analyze spinning spin .empty .unknown .strict =
      .ok ⟨#[some ⟨[], []⟩, some ⟨[], []⟩], 0, 0⟩ := by
  have hrun : Work.run ⟨⟨spinning, spin.nodes, .empty, .unknown, .strict, none⟩, #[some 0], []⟩
      (.start 2 ⟨[], []⟩) =
        some (.ok ⟨#[some ⟨[], []⟩, some ⟨[], []⟩], #[false, false], [], 0, 0⟩) :=
    (Work.run_of_visit rfl rfl).trans
      ((Work.run_of_visit rfl rfl).trans (Work.run_of_pending_nil rfl))
  exact analyze_of_run (t := ⟨[], none⟩) (by decide +kernel) rfl rfl (by decide +kernel) rfl hrun

theorem spin_sound_along_paths : ∃ entry, Frame.entry spinning = .ok entry ∧ ∀ i f,
    (spin.checked spinning .empty .unknown).Reaches spin (0, entry) (i, f) →
      Analysis.Sound ⟨#[some ⟨[], []⟩, some ⟨[], []⟩], 0, 0⟩
        (spin.checked spinning .empty .unknown) spin i f :=
  sound_along_paths (h := .unknown) trivial analyze_spin

end Analysis
end ClassWeave
