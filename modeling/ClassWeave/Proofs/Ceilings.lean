import ClassWeave.Proofs.PathSoundness
import ClassWeave.Proofs.Termination

/-!
# Frames above an analysis

Frames for the entries of some code form a ceiling if every instruction can be checked on them and
hands nothing on that rises above them. An analysis of the code succeeds then without
trusting it, and what it finds stays below: each look at an entry follows from the ceiling that the
next one can be taken, and the search comes to an end.

The ceiling may come from other code with the same instructions at other places. Its instructions
are those of a program `q`, and `site` tells which instructions that make objects stand for each
other.
-/

namespace ClassWeave

/-- The frame known for an entry covers one that is handed on to it. -/
def Frame.Meets (h : Hierarchy) (top : Nat → Option Frame) (j : Nat) (f : Frame) : Prop :=
  ∃ above, top j = some above ∧ Frame.Covers h (· = ·) above f

/-- What an instruction of `q` does to the frame of the ceiling stays below the ceiling. -/
structure Ceiling.Step (g : FlowGraph) (q : Program) (site : Nat → Nat → Prop)
    (top : Nat → Option Frame) (i j : Nat) (ins : Instr Label) (above after : Frame) : Prop where
  site : ∀ cls, ins = .type Opcode.new cls → site i j
  step : q.step j ins above = .ok after
  next : ins.fallsThrough → after.Meets g.program.hierarchy top (i + 1)
  targets : ∀ lab ∈ ins.targets, ∃ t, lab.position? g.positions = some t ∧
    after.Meets g.program.hierarchy top t
  raised : ∀ k ∈ g.handlers, k.start ≤ i → i < k.stop →
    Frame.Meets g.program.hierarchy top k.target ⟨above.locals, [k.catchType]⟩ ∧
      Frame.Meets g.program.hierarchy top k.target ⟨after.locals, [k.catchType]⟩

/-- Frames that nothing rises above that the code hands on, and the room that they take up. -/
structure Ceiling (g : FlowGraph) (q : Program) (site : Nat → Nat → Prop)
    (top : Nat → Option Frame) (maxStack maxLocals : Nat) : Prop where
  caught : ∀ k ∈ g.handlers, VType.IsSettled k.catchType
  inside : ∀ {i above}, top i = some above → i < g.program.nodes.size
  sound : ∀ {i above}, top i = some above → above.Sound
  room : ∀ {i above}, top i = some above →
    above.depth ≤ maxStack ∧ above.locals.length ≤ maxLocals
  mark : ∀ {i above n}, top i = some above → g.program.nodes[i]? = some n → n.isReal = false →
    above.Meets g.program.hierarchy top (i + 1)
  instr : ∀ {i above ins}, top i = some above → g.program.nodes[i]? = some (.instr ins) →
    ∃ j after, Ceiling.Step g q site top i j ins above after ∧ after.depth ≤ maxStack ∧
      after.locals.length ≤ maxLocals

/-- The frame stays below the ceiling. -/
def Frame.Below (h : Hierarchy) (site : Nat → Nat → Prop) (top : Nat → Option Frame)
    (maxLocals : Nat) (i : Nat) (f : Frame) : Prop :=
  ∃ above, top i = some above ∧ Frame.Under h site f above ∧ f.locals.length ≤ maxLocals

/-- All that was found so far stays below the ceiling. -/
structure Work.Below (g : FlowGraph) (site : Nat → Nat → Prop) (top : Nat → Option Frame)
    (maxStack maxLocals : Nat) (w : Work) : Prop where
  size : w.frames.size = g.program.nodes.size
  frames : ∀ {i f}, w.frame? i = some f → f.Below g.program.hierarchy site top maxLocals i
  stack : w.maxStack ≤ maxStack
  locals : w.maxLocals ≤ maxLocals

/-- How an instruction hands frames on. -/
theorem FlowGraph.edges_of_step {g : FlowGraph} {i : Nat} {ins : Instr Label} {before after : Frame}
    (hstep : g.program.step i ins before = .ok after)
    (htargets : ∀ lab ∈ ins.targets, ∃ t, lab.position? g.positions = some t) :
    ∃ es, g.edges i (.instr ins) before = .ok (after, es) := by
  obtain ⟨targets, hall⟩ : ∃ targets,
      List.Forall₂ (fun lab t => position g.positions lab = .ok t) ins.targets targets := by
    revert htargets
    generalize ins.targets = labs
    intro htargets
    induction labs with
    | nil => exact ⟨[], .nil⟩
    | cons lab labs ih =>
      obtain ⟨t, ht⟩ := htargets lab List.mem_cons_self
      obtain ⟨ts, hts⟩ := ih fun l hl => htargets l (List.mem_cons_of_mem _ hl)
      exact ⟨t :: ts, .cons (position_eq_ok.mpr ht) hts⟩
  exact ⟨_, bind_eq_ok.mpr ⟨after, failure_eq_ok.mpr hstep,
    bind_eq_ok.mpr ⟨targets, mapM_eq_ok.mpr hall, rfl⟩⟩⟩

section below

variable {g : FlowGraph} {q : Program} {site : Nat → Nat → Prop} {top : Nat → Option Frame}
  {maxStack maxLocals : Nat} (hl : g.program.hierarchy.Lawful)
  (htop : Ceiling g q site top maxStack maxLocals)

include hl htop

/-- What stays below a frame that meets the ceiling stays below the ceiling. -/
theorem Frame.Meets.below {j : Nat} {f above : Frame}
    (hmeets : above.Meets g.program.hierarchy top j)
    (hcovers : Frame.Covers g.program.hierarchy site above f) (hclosed : Frame.Closed f.locals)
    (hlength : f.locals.length ≤ maxLocals) :
    f.Below g.program.hierarchy site top maxLocals j := by
  obtain ⟨higher, hhigher, hover⟩ := hmeets
  exact ⟨higher, hhigher, ⟨hover.trans hl hcovers, htop.sound hhigher, hclosed⟩, hlength⟩

/-- The frame at entry is below the ceiling if it meets the ceiling. -/
theorem Work.Below.start {m : MethodContext} {entry : Frame} (hentry : Frame.entry m = .ok entry)
    (hfirst : entry.Meets g.program.hierarchy top 0) (hlocals : entry.locals.length ≤ maxLocals) :
    Work.Below g site top maxStack maxLocals (.start g.program.nodes.size entry) := by
  refine ⟨by simp [Work.start], fun {i f} hf => ?_, Nat.zero_le _, hlocals⟩
  obtain ⟨rfl, rfl⟩ := Work.frame?_start hf
  exact hfirst.below hl htop (Frame.covers_entry hentry) (Frame.entry_sound hentry).closed hlocals

variable {w : Work}

theorem Work.Below.follow (hs : VType.SiteMap site)
    (hw : w.Below g site top maxStack maxLocals) {source : Nat} {e : Nat × Frame}
    (he : e.2.Below g.program.hierarchy site top maxLocals e.1) :
    ∃ w', Work.follow g source w e = .ok w' ∧ w'.Below g site top maxStack maxLocals := by
  obtain ⟨above, habove, hunder, hlength⟩ := he
  have hlt : e.1 < w.frames.size := by
    rw [hw.size]
    exact htop.inside habove
  have hupdate : ∀ {f : Frame}, Frame.Below g.program.hierarchy site top maxLocals e.1 f →
      (w.update e.1 f).Below g site top maxStack maxLocals := by
    intro f hf
    obtain ⟨hframes, -, hstack, hlocals⟩ := Work.update_sizes (w := w) e.1 f
    refine ⟨hframes.trans hw.size, fun {j u} hu => ?_, hstack ▸ hw.stack, hlocals ▸ hw.locals⟩
    rw [Work.frame?_update hlt] at hu
    by_cases hj : j = e.1
    · rw [if_pos hj, Option.some.injEq] at hu
      exact hu ▸ hj ▸ hf
    · rw [if_neg hj] at hu
      exact hw.frames hu
  unfold Work.follow
  cases hcell : w.frames[e.1] with
  | none =>
    rw [Array.getElem?_eq_getElem hlt, hcell]
    exact ⟨_, rfl, hupdate ⟨above, habove, hunder, hlength⟩⟩
  | some f =>
    rw [Array.getElem?_eq_getElem hlt, hcell]
    have hframe : w.frame? e.1 = some f := by
      rw [Work.frame?_eq_some, Array.getElem?_eq_getElem hlt, hcell]
    obtain ⟨above', habove', hunder', -⟩ := hw.frames hframe
    obtain rfl := Option.some.inj (habove.symm.trans habove')
    obtain ⟨r, hr⟩ : ∃ r, f.merge g.program.hierarchy g.program.mode e.2 = .ok r :=
      Frame.merge_of_covers hl hs hunder.sound.usable hunder'.covers hunder.covers
    simp only [hr]
    cases r with
    | none => exact ⟨w, rfl, hw⟩
    | some merged =>
      have hmerged := Frame.merge_merged hunder'.closed hunder.closed hr
      obtain ⟨-, stack, -, hsome⟩ := Frame.merge_eq_ok hr
      have hlocals : merged.locals =
          Frame.mergeLocals g.program.hierarchy f.locals e.2.locals := by
        split at hsome
        · cases hsome
        · rw [Option.some.inj hsome]
      refine ⟨_, rfl, hupdate ⟨above, habove, ⟨?_, hunder.sound, hmerged.closed⟩, ?_⟩⟩
      · exact hmerged.covered hl hs hunder'.covers hunder.covers
      · rw [hlocals]
        exact Nat.le_trans (Frame.length_mergeLocals_le hunder'.closed hunder.closed) hlength

theorem Work.Below.followAll (hs : VType.SiteMap site) {source : Nat} {es : List (Nat × Frame)}
    (hw : w.Below g site top maxStack maxLocals)
    (hes : ∀ e ∈ es, e.2.Below g.program.hierarchy site top maxLocals e.1) :
    ∃ w', es.foldlM (Work.follow g source) w = .ok w' ∧
      w'.Below g site top maxStack maxLocals := by
  induction es generalizing w with
  | nil => exact ⟨w, rfl, hw⟩
  | cons e es ih =>
    obtain ⟨w1, h1, hw1⟩ : ∃ w1, Work.follow g source w e = .ok w1 ∧
        w1.Below g site top maxStack maxLocals :=
      hw.follow hl htop hs (hes e List.mem_cons_self)
    obtain ⟨w2, h2, hw2⟩ := ih hw1 fun e' he' => hes e' (List.mem_cons_of_mem _ he')
    exact ⟨w2, by rw [List.foldlM_cons, h1]; exact h2, hw2⟩

/-- What comes of a frame below the ceiling stays below the ceiling. -/
theorem Ceiling.edges (hq : g.program.Follows site q) {i : Nat} {f : Frame} {n : Node}
    (hf : f.Below g.program.hierarchy site top maxLocals i)
    (hn : g.program.nodes[i]? = some n) :
    ∃ after es, g.edges i n f = .ok (after, es) ∧ f.depth ≤ maxStack ∧ after.depth ≤ maxStack ∧
      f.locals.length ≤ maxLocals ∧ after.locals.length ≤ maxLocals ∧
      ∀ e ∈ es, e.2.Below g.program.hierarchy site top maxLocals e.1 := by
  obtain ⟨above, habove, hunder, hlength⟩ := hf
  have hdepth : f.depth ≤ maxStack := by
    rw [hunder.covers.depth_eq hunder.sound.usable]
    exact (htop.room habove).1
  by_cases hreal : n.isReal
  · obtain ⟨ins, rfl⟩ := Node.exists_instr hreal
    obtain ⟨j, above', hstep, hdepth', hlocals'⟩ := htop.instr habove hn
    obtain ⟨after, hrun, ha⟩ := Program.step_under hq hstep.site hunder hstep.step
    obtain ⟨es, hedges⟩ := FlowGraph.edges_of_step hrun fun lab hlab => by
      obtain ⟨t, ht, -⟩ := hstep.targets lab hlab
      exact ⟨t, ht⟩
    have hafter : after.locals.length ≤ maxLocals := by
      have := ha.length
      omega
    -- a handler gets the locals, and nothing but the exception
    have hcaught : ∀ {k : Handler} {u v : Frame},
        k ∈ g.handlers → Frame.Meets g.program.hierarchy top k.target ⟨v.locals, [k.catchType]⟩ →
        Frame.Under g.program.hierarchy site u v → u.locals.length ≤ maxLocals →
        Frame.Below g.program.hierarchy site top maxLocals k.target ⟨u.locals, [k.catchType]⟩ :=
      fun hk hmeets huv hle => hmeets.below hl htop
        ⟨.cons (VType.covers_settled (htop.caught _ hk)) .nil, huv.covers.locals⟩ huv.closed hle
    refine ⟨after, es, hedges, hdepth, ?_, hlength, hafter, fun e he => ?_⟩
    · rw [ha.under.covers.depth_eq ha.under.sound.usable]
      exact hdepth'
    cases (FlowGraph.mem_edges hedges).mp he with
    | pass hmark => cases hmark
    | raise hk hstart hstop hcase =>
      rcases hcase with rfl | rfl
      · exact hcaught hk (hstep.raised _ hk hstart hstop).1 hunder hlength
      · exact hcaught hk (hstep.raised _ hk hstart hstop).2 ha.under hafter
    | jump hlab ht =>
      obtain ⟨t', ht', hmeets⟩ := hstep.targets _ hlab
      obtain rfl := Option.some.inj (ht.symm.trans ht')
      exact hmeets.below hl htop ha.under.covers ha.under.closed hafter
    | next hfall => exact (hstep.next hfall).below hl htop ha.under.covers ha.under.closed hafter
  · have hmark : n.isReal = false := by simpa using hreal
    refine ⟨f, _, FlowGraph.edges_other hmark f, hdepth, hdepth, hlength, hlength, fun e he => ?_⟩
    rw [List.mem_singleton.mp he]
    exact (htop.mark habove hn hmark).below hl htop hunder.covers hunder.closed hlength

theorem Work.Below.visit (hq : g.program.Follows site q) {i : Nat}
    (hw : w.Below g site top maxStack maxLocals) :
    ∃ w', Work.visit g w i = .ok w' ∧ w'.Below g site top maxStack maxLocals := by
  unfold Work.visit
  simp only
  split
  · rename_i f n hf hn
    obtain ⟨after, es, hedges, hdepth, hdepth', hlength, hlength', hes⟩ :=
      htop.edges hl hq (hw.frames hf) hn
    have hcover : Work.Below g site top maxStack maxLocals
        (({ w with queued := w.queued.setIfInBounds i false } : Work).cover f |>.cover after) :=
      ⟨hw.size, hw.frames, Nat.max_le.mpr ⟨Nat.max_le.mpr ⟨hw.stack, hdepth⟩, hdepth'⟩,
        Nat.max_le.mpr ⟨Nat.max_le.mpr ⟨hw.locals, hlength⟩, hlength'⟩⟩
    obtain ⟨w', hfollow, hw'⟩ : ∃ w', es.foldlM (Work.follow g i) _ = .ok w' ∧
        w'.Below g site top maxStack maxLocals :=
      hcover.followAll hl htop hq.sites hes
    exact ⟨w', bind_eq_ok.mpr ⟨(after, es), hedges, hfollow⟩, hw'⟩
  · exact ⟨_, rfl, hw.size, hw.frames, hw.stack, hw.locals⟩

theorem Work.Below.run (hq : g.program.Follows site q) :
    ∀ (w : Work) (r : ClassResult Work), Work.run g w = some r →
      w.Below g site top maxStack maxLocals →
        ∃ w', r = .ok w' ∧ w'.Below g site top maxStack maxLocals := by
  refine Work.run.partial_correctness g _ ?_
  intro run ih w r hrun hw
  split at hrun
  · exact ⟨w, (Option.some.inj hrun).symm, hw⟩
  · rename_i i rest hp
    have hrest : Work.Below g site top maxStack maxLocals { w with pending := rest } :=
      ⟨hw.size, hw.frames, hw.stack, hw.locals⟩
    obtain ⟨w', hvisit, hw'⟩ := hrest.visit hl htop hq (i := i)
    rw [hvisit] at hrun
    exact ih w' r hrun hw'

end below

/-! ## Analyses -/

/-- **An analysis stays below every ceiling**, and succeeds if there is one. -/
theorem analyze_below {m : MethodContext} {l : InstrList} {pool : Pool} {h : Hierarchy}
    {t : MethodType} {handlers : List Handler} {entry : Frame} {q : Program}
    {site : Nat → Nat → Prop} {top : Nat → Option Frame} {maxStack maxLocals : Nat} (hh : h.Sound)
    (htype : MethodType.parse? m.descriptor = some t)
    (hhandlers : l.blocks.mapM (FlowGraph.handler l.labelPositions) = .ok handlers)
    (hentry : Frame.entry m = .ok entry)
    (htop : Ceiling ⟨⟨m, l.nodes, pool, h, .strict, t.result⟩, l.labelPositions, handlers⟩ q site top
      maxStack maxLocals)
    (hq : Program.Follows site ⟨m, l.nodes, pool, h, .strict, t.result⟩ q)
    (hfirst : entry.Meets h top 0) (hlocals : entry.locals.length ≤ maxLocals) :
    ∃ a, analyze m l pool h .strict = .ok a ∧ a.maxStack ≤ maxStack ∧ a.maxLocals ≤ maxLocals ∧
      ∀ {i f}, a.frames[i]? = some (some f) → ∃ above, top i = some above ∧
        Frame.Under h site f above := by
  have hpos : 0 < l.nodes.size := by
    obtain ⟨above, habove, -⟩ := hfirst
    exact htop.inside habove
  have hne : l.nodes.isEmpty = false := by
    rw [Array.isEmpty_eq_false_iff]
    rintro hnil
    rw [hnil] at hpos
    cases hpos
  obtain ⟨result, hrun⟩ := Work.run_ends
    (g := ⟨⟨m, l.nodes, pool, h, .strict, t.result⟩, l.labelPositions, handlers⟩) hh
    (.start l.nodes.size entry)
  have hstart : Work.Below ⟨⟨m, l.nodes, pool, h, .strict, t.result⟩, l.labelPositions, handlers⟩
      site top maxStack maxLocals (.start l.nodes.size entry) :=
    .start hh.lawful htop hentry hfirst hlocals
  obtain ⟨w, rfl, hw⟩ := hstart.run hh.lawful htop hq _ _ hrun
  refine ⟨⟨w.frames, w.maxStack, w.maxLocals⟩, ?_, hw.stack, hw.locals, fun {i f} hf => ?_⟩
  · rw [Analysis.analyze_eq htype rfl hhandlers hentry hne, hrun]
    rfl
  obtain ⟨above, habove, hunder, -⟩ := hw.frames (Work.frame?_eq_some.mpr hf)
  exact ⟨above, habove, hunder⟩

end ClassWeave
