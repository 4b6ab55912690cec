import ClassWeave.Proofs.Search

/-!
# The graph behind an analysis

An analysis that succeeds has searched the graph of the code to the end. Whatever hierarchy
it uses and whether it trusts the code or not, control that comes to an entry finds a frame there,
and nothing that is reached hands control on to a place that is not.
-/

namespace ClassWeave

theorem Node.exists_instr {n : Node} (hreal : n.isReal) : ∃ ins, n = .instr ins := by
  cases n with
  | instr ins => exact ⟨ins, rfl⟩
  | _ => cases hreal

namespace FlowGraph

variable {g : FlowGraph}

theorem failure_eq_ok {α : Type} {i : Nat} {x : Except VerifyError α} {a : α} :
    failure i x = .ok a ↔ x = .ok a := mapError_eq_ok

theorem position_eq_ok {positions : Array (Option Nat)} {lab : Label} {t : Nat} :
    position positions lab = .ok t ↔ lab.position? positions = some t := by
  unfold position
  cases lab.position? positions <;> simp

/-- The handler of a block is where its labels are. -/
theorem handler_eq_ok {positions : Array (Option Nat)} {b : TryBlock} {k : Handler} :
    handler positions b = .ok k ↔ b.start.position? positions = some k.start ∧
      b.stop.position? positions = some k.stop ∧ b.handler.position? positions = some k.target ∧
      k.catchType = .object (b.catchType.getD "java/lang/Throwable") := by
  constructor
  · intro hk
    obtain ⟨start, hstart, hk⟩ := bind_eq_ok.mp hk
    obtain ⟨stop, hstop, hk⟩ := bind_eq_ok.mp hk
    obtain ⟨target, htarget, hk⟩ := bind_eq_ok.mp hk
    obtain rfl := pure_eq_ok.mp hk
    exact ⟨position_eq_ok.mp hstart, position_eq_ok.mp hstop, position_eq_ok.mp htarget, rfl⟩
  · obtain ⟨start, stop, target, catchType⟩ := k
    rintro ⟨hstart, hstop, htarget, rfl⟩
    exact bind_eq_ok.mpr ⟨_, position_eq_ok.mpr hstart, bind_eq_ok.mpr ⟨_, position_eq_ok.mpr hstop,
      bind_eq_ok.mpr ⟨_, position_eq_ok.mpr htarget, rfl⟩⟩⟩

/-- The edges of an instruction, taken apart. -/
theorem edges_instr {i : Nat} {ins : Instr Label} {before after : Frame} {es : List (Nat × Frame)}
    (he : g.edges i (.instr ins) before = .ok (after, es)) :
    g.program.step i ins before = .ok after ∧ ∃ targets,
      List.Forall₂ (fun lab t => lab.position? g.positions = some t) ins.targets targets ∧
      es = g.exceptionEdges i before after ++ targets.map (·, after) ++
        if ins.fallsThrough then [(i + 1, after)] else [] := by
  obtain ⟨after', hstep, he⟩ := bind_eq_ok.mp he
  obtain ⟨targets, htargets, he⟩ := bind_eq_ok.mp he
  obtain ⟨rfl, rfl⟩ := Prod.mk.inj (pure_eq_ok.mp he)
  refine ⟨failure_eq_ok.mp hstep, targets, ?_, rfl⟩
  exact (mapM_eq_ok.mp htargets).imp fun _ _ => position_eq_ok.mp

theorem edges_other {i : Nat} {n : Node} (hn : n.isReal = false) (before : Frame) :
    g.edges i n before = .ok (before, [(i + 1, before)]) := by
  cases n with
  | instr => cases hn
  | _ => rfl

theorem mem_exceptionEdges {i : Nat} {before after : Frame} {e : Nat × Frame} :
    e ∈ g.exceptionEdges i before after ↔ ∃ h ∈ g.handlers, h.start ≤ i ∧ i < h.stop ∧
      (e = (h.target, ⟨before.locals, [h.catchType]⟩) ∨
        e = (h.target, ⟨after.locals, [h.catchType]⟩)) := by
  simp only [exceptionEdges, List.mem_flatMap, List.mem_filter, Bool.and_eq_true,
    decide_eq_true_eq, List.mem_cons, List.not_mem_nil, or_false]
  constructor
  · rintro ⟨h, ⟨hmem, hs, he⟩, hcase⟩
    exact ⟨h, hmem, hs, he, hcase⟩
  · rintro ⟨h, hmem, hs, he, hcase⟩
    exact ⟨h, ⟨hmem, hs, he⟩, hcase⟩

/-- What an entry hands on: the frame in front of it or the one behind it. -/
inductive Edge (g : FlowGraph) (i : Nat) : Node → Frame → Frame → Nat × Frame → Prop
  | pass {n : Node} {before : Frame} (hmark : n.isReal = false) :
      Edge g i n before before (i + 1, before)
  | raise {ins : Instr Label} {before after f : Frame} {k : Handler} (hk : k ∈ g.handlers)
      (hstart : k.start ≤ i) (hstop : i < k.stop) (hf : f = before ∨ f = after) :
      Edge g i (.instr ins) before after (k.target, ⟨f.locals, [k.catchType]⟩)
  | jump {ins : Instr Label} {before after : Frame} {lab : Label} {t : Nat}
      (hlab : lab ∈ ins.targets) (ht : lab.position? g.positions = some t) :
      Edge g i (.instr ins) before after (t, after)
  | next {ins : Instr Label} {before after : Frame} (hfall : ins.fallsThrough) :
      Edge g i (.instr ins) before after (i + 1, after)

theorem mem_edges {i : Nat} {n : Node} {before after : Frame} {es : List (Nat × Frame)}
    (he : g.edges i n before = .ok (after, es)) {e : Nat × Frame} :
    e ∈ es ↔ g.Edge i n before after e := by
  by_cases hreal : n.isReal
  · obtain ⟨ins, rfl⟩ := Node.exists_instr hreal
    obtain ⟨-, targets, htargets, rfl⟩ := edges_instr he
    rw [List.mem_append, List.mem_append, mem_exceptionEdges]
    constructor
    · rintro ((⟨k, hk, hstart, hstop, rfl | rfl⟩ | hmem) | hmem)
      · exact .raise hk hstart hstop (.inl rfl)
      · exact .raise hk hstart hstop (.inr rfl)
      · obtain ⟨t, ht, rfl⟩ := List.mem_map.mp hmem
        obtain ⟨lab, hlab, hpos⟩ := exists_of_forall₂ htargets.flip ht
        exact .jump hlab hpos
      · split at hmem
        · rw [List.mem_singleton.mp hmem]
          exact .next ‹_›
        · cases hmem
    · intro hedge
      cases hedge with
      | pass hmark => cases hmark
      | raise hk hstart hstop hf =>
        refine .inl (.inl ⟨_, hk, hstart, hstop, ?_⟩)
        rcases hf with rfl | rfl
        · exact .inl rfl
        · exact .inr rfl
      | jump hlab ht =>
        obtain ⟨t', ht', hpos⟩ := exists_of_forall₂ htargets hlab
        obtain rfl := Option.some.inj (ht.symm.trans hpos)
        exact .inl (.inr (List.mem_map.mpr ⟨_, ht', rfl⟩))
      | next hfall =>
        rw [if_pos hfall]
        exact .inr List.mem_cons_self
  · have hmark : n.isReal = false := by simpa using hreal
    rw [edges_other hmark, Except.ok.injEq, Prod.mk.injEq] at he
    obtain ⟨rfl, rfl⟩ := he
    rw [List.mem_singleton]
    constructor
    · rintro rfl
      exact .pass hmark
    · intro hedge
      cases hedge with
      | pass => rfl
      | raise | jump | next => exact absurd rfl hreal

end FlowGraph

namespace Work

variable {g : FlowGraph} {cov : Frame → Frame → Prop} {w : Work} {i : Nat} {f : Frame}

/-- What an instruction makes of the frame in front of it is covered wherever control goes to. -/
structure HandsOn (g : FlowGraph) (cov : Frame → Frame → Prop) (w : Work) (i : Nat)
    (ins : Instr Label) (before after : Frame) : Prop where
  step : g.program.step i ins before = .ok after
  depth : after.depth ≤ w.maxStack
  length : after.locals.length ≤ w.maxLocals
  next : ins.fallsThrough → Followed cov w (i + 1, after)
  targets : ∀ lab ∈ ins.targets, ∃ t, lab.position? g.positions = some t ∧
    Followed cov w (t, after)
  raised : ∀ k ∈ g.handlers, k.start ≤ i → i < k.stop → ∀ f, f = before ∨ f = after →
    Followed cov w (k.target, ⟨f.locals, [k.catchType]⟩)

theorem Settles.handsOn (hs : Settles g cov w i f) {ins : Instr Label}
    (hn : g.program.nodes[i]? = some (.instr ins)) : ∃ after, HandsOn g cov w i ins f after := by
  obtain ⟨after, es, hedges, hfollowed, -, hdepth, -, hlength⟩ := hs.edges hn
  obtain ⟨hstep, targets, htargets, -⟩ := FlowGraph.edges_instr hedges
  have hmem : ∀ {e}, g.Edge i (.instr ins) f after e → Followed cov w e := fun he =>
    hfollowed _ ((FlowGraph.mem_edges hedges).mpr he)
  refine ⟨after, hstep, hdepth, hlength, fun hfall => hmem (.next hfall), fun lab hlab => ?_,
    fun k hk hstart hstop u hu => hmem (.raise hk hstart hstop hu)⟩
  obtain ⟨t, -, ht⟩ := exists_of_forall₂ htargets hlab
  exact ⟨t, ht, hmem (.jump hlab ht)⟩

/-- A marker hands on the frame in front of it. -/
theorem Settles.passes (hs : Settles g cov w i f) {n : Node} (hn : g.program.nodes[i]? = some n)
    (hreal : n.isReal = false) : Followed cov w (i + 1, f) := by
  obtain ⟨after, es, hedges, hfollowed, -⟩ := hs.edges hn
  rw [FlowGraph.edges_other hreal, Except.ok.injEq, Prod.mk.injEq] at hedges
  obtain ⟨rfl, rfl⟩ := hedges
  exact hfollowed _ List.mem_cons_self

end Work

namespace Analysis

variable {m : MethodContext} {l : InstrList} {pool : Pool} {h : Hierarchy} {mode : Mode}
  {a : Analysis}

/-- The graph that an analysis searches, and the frame that the search starts with. -/
structure Begins (m : MethodContext) (l : InstrList) (pool : Pool) (h : Hierarchy) (mode : Mode)
    (g : FlowGraph) (entry : Frame) : Prop where
  program : g.program =
    ⟨m, l.nodes, pool, h, mode, (MethodType.parse? m.descriptor).bind MethodType.result⟩
  positions : g.positions = l.labelPositions
  handlers : List.Forall₂ (fun b k => FlowGraph.handler l.labelPositions b = .ok k) l.blocks
    g.handlers
  start : Frame.entry m = .ok entry
  nonempty : 0 < l.nodes.size

/-- The search of an analysis that came to its end. -/
structure Searched (m : MethodContext) (l : InstrList) (pool : Pool) (h : Hierarchy) (mode : Mode)
    (a : Analysis) (g : FlowGraph) (entry : Frame) (w : Work) : Prop
    extends Begins m l pool h mode g entry where
  run : Work.run g (.start l.nodes.size entry) = some (.ok w)
  result : a = ⟨w.frames, w.maxStack, w.maxLocals⟩

/-- The descriptor of the method tells what the code returns. -/
theorem Begins.type {g : FlowGraph} {entry : Frame} (hb : Begins m l pool h mode g entry) :
    ∃ t, MethodType.parse? m.descriptor = some t ∧
      g.program = ⟨m, l.nodes, pool, h, mode, t.result⟩ := by
  have hentry := hb.start
  unfold Frame.entry at hentry
  split at hentry
  · cases hentry
  · rename_i t htype
    refine ⟨t, htype, ?_⟩
    rw [hb.program, htype]
    rfl

theorem Begins.positive {g : FlowGraph} {entry : Frame} (hb : Begins m l pool h mode g entry) :
    0 < g.program.nodes.size := by
  rw [hb.program]
  exact hb.nonempty

theorem Searched.ends {g : FlowGraph} {entry : Frame} {w : Work}
    (hs : Searched m l pool h mode a g entry w) : Work.Ends g entry w := by
  refine Work.ends_of_run ?_
  rw [hs.program]
  exact hs.run

theorem searched_of_analyze (ha : analyze m l pool h mode = .ok a) :
    ∃ g entry w, Searched m l pool h mode a g entry w := by
  unfold analyze at ha
  obtain ⟨type, htype, ha⟩ := bind_eq_ok.mp ha
  obtain ⟨handlers, hhandlers, ha⟩ := bind_eq_ok.mp ha
  obtain ⟨entry, hentry, ha⟩ := bind_eq_ok.mp ha
  have hparse : MethodType.parse? m.descriptor = some type := by
    unfold MethodType.parse at htype
    split at htype
    · rename_i t ht
      rw [ht, Except.ok.inj htype]
    · cases htype
  split at ha
  · cases ha
  · rename_i hne
    simp only at ha
    split at ha
    · cases ha
    · rename_i result hrun
      obtain ⟨w, rfl, ha⟩ := bind_eq_ok.mp ha
      refine ⟨_, entry, w, ⟨?_, rfl, mapM_eq_ok.mp hhandlers, FlowGraph.failure_eq_ok.mp hentry, ?_⟩,
        hrun, (pure_eq_ok.mp ha).symm⟩
      · rw [hparse]
        rfl
      · simp only [Array.isEmpty_iff_size_eq_zero] at hne
        omega

/-- What the analysis says, once its search can begin. -/
theorem analyze_eq {t : MethodType} {positions : Array (Option Nat)} {handlers : List Handler}
    {entry : Frame} (htype : MethodType.parse? m.descriptor = some t)
    (hpositions : l.labelPositions = positions)
    (hhandlers : l.blocks.mapM (FlowGraph.handler positions) = .ok handlers)
    (hentry : Frame.entry m = .ok entry) (hne : l.nodes.isEmpty = false) :
    analyze m l pool h mode =
      match Work.run ⟨⟨m, l.nodes, pool, h, mode, t.result⟩, positions, handlers⟩
        (.start l.nodes.size entry) with
      | none => .error unsettled
      | some result => result.map fun w => ⟨w.frames, w.maxStack, w.maxLocals⟩ := by
  have hparse : MethodType.parse m.descriptor = .ok t := by rw [MethodType.parse, htype]
  unfold analyze
  rw [hparse]
  simp only [bind, Except.bind, hpositions, hhandlers, FlowGraph.failure_eq_ok.mpr hentry, hne]
  cases Work.run ⟨⟨m, l.nodes, pool, h, mode, t.result⟩, positions, handlers⟩
      (.start l.nodes.size entry) with
  | none => rfl
  | some result => cases result <;> rfl

/-- What the analysis says is what comes of its search. -/
theorem Begins.analyze_eq {g : FlowGraph} {entry : Frame} (hb : Begins m l pool h mode g entry)
    {result : ClassResult Work}
    (hrun : Work.run g (.start g.program.nodes.size entry) = some result) :
    analyze m l pool h mode = result.map fun w => ⟨w.frames, w.maxStack, w.maxLocals⟩ := by
  obtain ⟨t, htype, hprogram⟩ := hb.type
  have hne : l.nodes.isEmpty = false := by
    rw [Array.isEmpty_eq_false_iff, ← Array.size_pos_iff]
    exact hb.nonempty
  rw [Analysis.analyze_eq htype rfl (mapM_eq_ok.mpr hb.handlers) hb.start hne]
  have hgraph : g = ⟨⟨m, l.nodes, pool, h, mode, t.result⟩, l.labelPositions, g.handlers⟩ := by
    rw [← hprogram, ← hb.positions]
  rw [← hgraph, show l.nodes.size = g.program.nodes.size by rw [hprogram], hrun]

/-- How the analysis of code without handlers succeeds. -/
theorem analyze_of_run {t : MethodType} {positions : Array (Option Nat)} {entry : Frame}
    {w : Work} (htype : MethodType.parse? m.descriptor = some t)
    (hpositions : l.labelPositions = positions) (hblocks : l.blocks = [])
    (hentry : Frame.entry m = .ok entry) (hne : l.nodes.isEmpty = false)
    (hrun : Work.run ⟨⟨m, l.nodes, pool, h, mode, t.result⟩, positions, []⟩
      (.start l.nodes.size entry) = some (.ok w)) :
    analyze m l pool h mode = .ok ⟨w.frames, w.maxStack, w.maxLocals⟩ := by
  have hhandlers : l.blocks.mapM (FlowGraph.handler positions) = .ok [] := by
    rw [hblocks]
    rfl
  rw [analyze_eq htype hpositions hhandlers hentry hne, hrun]
  rfl

/-! ## Entries that are reached -/

/-- Control comes to the entry. -/
def Reaches (a : Analysis) (i : Nat) : Prop := a.frames[i]?.join.isSome

/-- Entries that are reached hand control on to entries that are reached. -/
structure Spreads (a : Analysis) (l : InstrList) : Prop where
  first : a.Reaches 0
  inside : ∀ {i}, a.Reaches i → i < l.nodes.size
  mark : ∀ {i n}, a.Reaches i → l.nodes[i]? = some n → n.isReal = false → a.Reaches (i + 1)
  next : ∀ {i ins}, a.Reaches i → l.nodes[i]? = some (.instr ins) → ins.fallsThrough →
    a.Reaches (i + 1)
  target : ∀ {i ins t}, a.Reaches i → l.nodes[i]? = some (.instr ins) → t ∈ ins.targets →
    ∃ j, t.position? l.labelPositions = some j ∧ a.Reaches j

/-- Nothing but being there is asked of frames. -/
theorem Searched.settled {g : FlowGraph} {entry : Frame} {w : Work}
    (hs : Searched m l pool h mode a g entry w) :
    Work.Followed (fun _ _ => True) w (0, entry) ∧
      ∀ {i f}, w.frame? i = some f → Work.Settles g (fun _ _ => True) w i f := by
  have hb : Work.Bounds g (fun _ _ => True) (fun _ _ => True) :=
    ⟨fun _ => trivial, fun _ _ => trivial, fun _ _ _ => ⟨trivial, trivial⟩⟩
  have hg : Work.Good g (fun _ _ => True) := ⟨fun _ _ _ _ _ => trivial, fun _ _ _ => trivial⟩
  obtain ⟨hfirst, -, hall⟩ := hs.ends.settles hb hg hs.positive trivial
  exact ⟨hfirst, fun hf => (hall hf).2⟩

/-- **An analysis that succeeds has reached everything that control comes to.** -/
theorem spreads (ha : analyze m l pool h mode = .ok a) : a.Spreads l := by
  obtain ⟨g, entry, w, hs⟩ := searched_of_analyze ha
  obtain ⟨⟨f, hf, -⟩, hsettled⟩ := hs.settled
  have hreaches : ∀ {i}, a.Reaches i ↔ ∃ f, w.frame? i = some f := by
    intro i
    rw [Reaches, hs.result, Option.isSome_iff_exists]
    rfl
  have hnodes : g.program.nodes = l.nodes := by rw [hs.program]
  refine ⟨hreaches.mpr ⟨f, hf⟩, ?_, ?_, ?_, ?_⟩
  · intro i hi
    obtain ⟨f, hf⟩ := hreaches.mp hi
    rw [← hnodes]
    exact (hsettled hf).node
  · intro i n hi hn hreal
    obtain ⟨f, hf⟩ := hreaches.mp hi
    rw [← hnodes] at hn
    obtain ⟨f', hf', -⟩ := (hsettled hf).passes hn hreal
    exact hreaches.mpr ⟨f', hf'⟩
  · intro i ins hi hn hfall
    obtain ⟨f, hf⟩ := hreaches.mp hi
    rw [← hnodes] at hn
    obtain ⟨after, hands⟩ := (hsettled hf).handsOn hn
    obtain ⟨f', hf', -⟩ := hands.next hfall
    exact hreaches.mpr ⟨f', hf'⟩
  · intro i ins t hi hn ht
    obtain ⟨f, hf⟩ := hreaches.mp hi
    rw [← hnodes] at hn
    obtain ⟨after, hands⟩ := (hsettled hf).handsOn hn
    obtain ⟨j, hpos, f', hf', -⟩ := hands.targets t ht
    rw [hs.positions] at hpos
    exact ⟨j, hpos, hreaches.mpr ⟨f', hf'⟩⟩

end Analysis
end ClassWeave
