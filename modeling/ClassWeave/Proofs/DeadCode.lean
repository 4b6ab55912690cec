import ClassWeave.Proofs.Leftovers

/-!
# Dead code

Before code is written, the instructions that are never reached are left out, and what is left is
analysed once more. That changes nothing that is reached: the frames are those of the whole code,
the instructions that make fresh objects being known by their new places, and the labels that are
still used mark the same instructions. It does not matter either that writing trusts the code: where
the checks of the code succeed, they find the frames that writing goes by.
-/

namespace ClassWeave

/-- The type once the instructions that make fresh objects are at other places. -/
def VType.moved (place : Nat → Nat) : NamedType → NamedType := VType.map id place

/-- The frame once the instructions that make fresh objects are at other places. -/
def Frame.moved (place : Nat → Nat) (f : Frame) : Frame :=
  ⟨f.locals.map (VType.moved place), f.stack.map (VType.moved place)⟩

theorem VType.Stands.eq_moved {site : Nat → Nat → Prop} {place : Nat → Nat} {a b : NamedType}
    (hsite : ∀ k i, site k i → k = place i) (hab : Stands site a b) : a = b.moved place := by
  cases hab with
  | settled ht =>
    cases a with
    | fresh => exact ht.elim
    | _ => rfl
  | fresh hs => rw [hsite _ _ hs]; rfl

theorem Frame.Stands.eq_moved {site : Nat → Nat → Prop} {place : Nat → Nat} {f g : Frame}
    (hsite : ∀ k i, site k i → k = place i) (hfg : Stands site f g) : f = g.moved place := by
  have hall : ∀ {as bs : List NamedType}, StandAll site as bs → as = bs.map (VType.moved place) := by
    intro as bs hst
    induction hst with
    | nil => rfl
    | cons hd _ ih => rw [List.map_cons, ← ih, ← hd.eq_moved hsite]
  obtain ⟨locals, stack⟩ := f
  rw [Frame.moved, ← hall hfg.locals, ← hall hfg.stack]

namespace Analysis

variable {m : MethodContext} {l : InstrList} {pool : Pool} {h : Hierarchy} {mode : Mode}
  {a a' : Analysis} {i : Nat} {lab : Label}

/-! ## Labels -/

/-- The place of the first instruction from an entry on that is left. -/
def nextLive? (a : Analysis) (nodes : Array Node) (i : Nat) : Option Nat :=
  if h : i < nodes.size then
    if nodes[i].isReal && a.keeps i nodes[i] then some i else nextLive? a nodes (i + 1)
  else none
termination_by nodes.size - i

/-- From an entry on, the first instruction of what is left is the first one that is left. -/
theorem nextReal?_cut (a : Analysis) (l : InstrList) (i : Nat) :
    nextReal? (a.cut l).nodes (a.rank l i) = (a.nextLive? l.nodes i).map (a.rank l) := by
  fun_induction nextLive? a l.nodes i with
  | case1 i hlt hlive =>
    rw [Bool.and_eq_true] at hlive
    have hn := Array.getElem?_eq_getElem hlt
    obtain ⟨hlt', hnode⟩ := Array.getElem?_eq_some_iff.mp
      ((cut_of_origin? (origin?_rank hn hlive.2)).trans hn)
    rw [nextReal?, dif_pos hlt', hnode, if_pos hlive.1, Option.map_some]
  | case2 i hlt hdead ih =>
    have hn := Array.getElem?_eq_getElem hlt
    by_cases hkeep : a.keeps i l.nodes[i]
    · -- a marker is left, and passed over
      obtain ⟨hlt', hnode⟩ := Array.getElem?_eq_some_iff.mp
        ((cut_of_origin? (origin?_rank hn hkeep)).trans hn)
      have hreal : ¬ l.nodes[i].isReal := fun hreal => hdead (by rw [hreal, hkeep]; rfl)
      rw [nextReal?, dif_pos hlt', hnode, if_neg hreal, ← rank_succ hn hkeep, ih]
    · rw [← ih, rank_succ_of_not_keeps hn hkeep]
  | case3 i hge =>
    have hsize : (a.cut l).nodes.size ≤ a.rank l i := by
      rw [← Array.length_toList, toList_cut, live, rank,
        List.take_of_length_le (by rw [Array.length_toList]; omega)]
    rw [nextReal?, dif_neg (Nat.not_lt.mpr hsize)]
    rfl

/-- Where control comes to, the next instruction is left. -/
theorem Spreads.nextLive?_eq {i : Nat} (hs : a.Spreads l) (hi : a.Reaches i) :
    a.nextLive? l.nodes i = nextReal? l.nodes i ∧
      ∃ j, nextReal? l.nodes i = some j ∧ a.Reaches j := by
  have hlt := hs.inside hi
  have hn := Array.getElem?_eq_getElem hlt
  rw [nextLive?, nextReal?, dif_pos hlt, dif_pos hlt]
  by_cases hreal : l.nodes[i].isReal
  · rw [if_pos hreal, if_pos (by rw [hreal, (keeps_real hreal).mpr hi]; rfl)]
    exact ⟨rfl, i, rfl, hi⟩
  · rw [if_neg hreal, if_neg (by simp [hreal])]
    exact Spreads.nextLive?_eq hs (hs.mark hi hn (by simpa using hreal))
termination_by l.nodes.size - i

/-- The label marks the same instruction of what is left. -/
def KeepsLabel (a : Analysis) (l : InstrList) (lab : Label) : Prop :=
  ∃ i, lab.position? l.labelPositions = some i ∧
    lab.position? (a.cut l).labelPositions = some (a.rank l i) ∧
    nextReal? (a.cut l).nodes (a.rank l i) = (a.nextLive? l.nodes i).map (a.rank l)

/-- The instruction that the label marks is left, and the label still marks it. -/
def KeepsTarget (a : Analysis) (l : InstrList) (lab : Label) : Prop :=
  ∃ i j, lab.position? l.labelPositions = some i ∧
    lab.position? (a.cut l).labelPositions = some (a.rank l i) ∧
    nextReal? l.nodes i = some j ∧ a.Reaches j ∧
    nextReal? (a.cut l).nodes (a.rank l i) = some (a.rank l j)

theorem keepsLabel (hi : lab.position? l.labelPositions = some i) : a.KeepsLabel l lab :=
  ⟨i, hi, (position?_cut hi).1, nextReal?_cut a l i⟩

theorem Spreads.keepsTarget (hs : a.Spreads l) (hi : lab.position? l.labelPositions = some i)
    (hreach : a.Reaches i) : a.KeepsTarget l lab := by
  obtain ⟨hlive, j, hj, hreach⟩ := hs.nextLive?_eq hreach
  refine ⟨i, j, hi, (position?_cut hi).1, hj, hreach, ?_⟩
  rw [nextReal?_cut, hlive, hj, Option.map_some]

/-! ## What is left -/

/-- The second analysis finds in the code that the first one leaves what the first one found. -/
structure LeavesAlone (a : Analysis) (l : InstrList) (a' : Analysis) : Prop where
  /-- Every entry that is left was there before. -/
  origin : ∀ {k n}, (a.cut l).nodes[k]? = some n →
    ∃ i, l.nodes[i]? = some n ∧ a.keeps i n ∧ a.rank l i = k
  node : ∀ {i n}, l.nodes[i]? = some n → a.keeps i n → (a.cut l).nodes[a.rank l i]? = some n
  /-- Every instruction that is left is reached. -/
  reached : ∀ {k ins}, (a.cut l).nodes[k]? = some (.instr ins) → a'.Reaches k
  frame : ∀ {i n}, l.nodes[i]? = some n → a.keeps i n →
    a'.frames[a.rank l i]?.join = a.frames[i]?.join.map (Frame.moved (a.rank l))
  /-- The instructions that made the fresh objects of a frame are left. -/
  made : ∀ {i j : Nat} {f : Frame}, a.frames[i]?.join = some f → VType.fresh j ∈ f.locals ++ f.stack →
    ∃ n, l.nodes[j]? = some n ∧ a.keeps j n
  maxStack : a'.maxStack = a.maxStack
  maxLocals : a'.maxLocals = a.maxLocals
  target : ∀ {i ins lab}, l.nodes[i]? = some (.instr ins) → a.Reaches i → lab ∈ ins.targets →
    a.KeepsTarget l lab
  /-- The same blocks are around an instruction. -/
  around : ∀ {i ins} {b : TryBlock}, l.nodes[i]? = some (.instr ins) → a.Reaches i →
    (b.Around (a.cut l) (a.rank l i) ↔ b.Around l i)
  range : ∀ {i ins} {b : TryBlock}, l.nodes[i]? = some (.instr ins) → a.Reaches i → b.Around l i →
    a.KeepsLabel l b.start ∧ a.KeepsLabel l b.stop ∧ a.KeepsTarget l b.handler

theorem Begins.around_cut {g : FlowGraph} {entry : Frame} (hb : Begins m l pool h mode g entry)
    {n : Node} (hn : l.nodes[i]? = some n) (hkeep : a.keeps i n) {b : TryBlock} :
    b.Around (a.cut l) (a.rank l i) ↔ b.Around l i := by
  constructor
  · intro haround
    obtain ⟨k, -, hhandler⟩ := exists_of_forall₂ hb.handlers (show b ∈ l.blocks from haround.mem)
    obtain ⟨hstart, hstop, -⟩ := FlowGraph.handler_eq_ok.mp hhandler
    obtain ⟨start, hstart', hle⟩ := haround.start
    obtain ⟨stop, hstop', hlt⟩ := haround.stop
    rw [(position?_cut hstart).1, Option.some.injEq] at hstart'
    rw [(position?_cut hstop).1, Option.some.injEq] at hstop'
    subst hstart' hstop'
    exact ⟨haround.mem, ⟨_, hstart, (le_rank_iff hn hkeep).mp hle⟩,
      ⟨_, hstop, (rank_lt_iff hn hkeep).mp hlt⟩⟩
  · rintro ⟨hmem, ⟨start, hstart, hle⟩, stop, hstop, hlt⟩
    exact ⟨hmem, ⟨_, (position?_cut hstart).1, (le_rank_iff hn hkeep).mpr hle⟩,
      ⟨_, (position?_cut hstop).1, (rank_lt_iff hn hkeep).mpr hlt⟩⟩

/-- Frames that stand for each other at the places of what is left are the same. -/
theorem leavesAlone (ha : analyze m l pool h mode = .ok a)
    (hs : a'.Stands (fun k i => a.origin? l k = some i) a) : a.LeavesAlone l a' := by
  obtain ⟨g, entry, w, hsearched⟩ := searched_of_analyze ha
  have hspreads := spreads ha
  have hplace : ∀ k i, a.origin? l k = some i → k = a.rank l i := by
    intro k i hk
    obtain ⟨-, -, -, hrank⟩ := exists_of_origin? hk
    exact hrank.symm
  have hleft : ∀ {i ins}, l.nodes[i]? = some (.instr ins) → a.Reaches i →
      a.keeps i (.instr ins) := fun _ hi => (keeps_real rfl).mpr hi
  constructor
  · intro k n hk
    obtain ⟨i, hi, hn, hkeep⟩ := origin?_of_cut hk
    exact ⟨i, hn, hkeep, (hplace k i hi).symm⟩
  · exact fun hn hkeep => (cut_of_origin? (origin?_rank hn hkeep)).trans hn
  · exact fun hk => hs.reaches_cut hk
  · intro i n hn hkeep
    have hframe := hs.frame (origin?_rank hn hkeep)
    generalize a'.frames[a.rank l i]?.join = x, a.frames[i]?.join = y at hframe
    cases hframe with
    | none => rfl
    | some hf => rw [Option.map_some, hf.eq_moved hplace]
  · intro i j f hf hfresh
    have hreach : a.Reaches i := by
      rw [Reaches, hf]
      rfl
    obtain ⟨n, hn, hkeep, horigin⟩ := origin?_of_led ha ((reaches_iff ha).mp hreach)
    have hframe := hs.frame horigin
    rw [hf] at hframe
    obtain ⟨f', hf', hstands⟩ : ∃ f', a'.frames[a.rank l i]?.join = some f' ∧
        f'.Stands (fun k i => a.origin? l k = some i) f := by
      generalize a'.frames[a.rank l i]?.join = x at hframe
      cases hframe with
      | some hst => exact ⟨_, rfl, hst⟩
    obtain ⟨t, -, ht⟩ := exists_of_forall₂ (List.rel_append hstands.locals hstands.stack).flip hfresh
    cases ht with
    | settled ht => exact ht.elim
    | fresh hk =>
      obtain ⟨n, hn, hkeep, -⟩ := exists_of_origin? hk
      exact ⟨n, hn, hkeep⟩
  · exact hs.maxStack
  · exact hs.maxLocals
  · intro i ins lab hn hi hlab
    obtain ⟨j, hj, hreach⟩ := hspreads.target hi hn hlab
    exact hspreads.keepsTarget hj hreach
  · exact fun hn hi => hsearched.around_cut hn (hleft hn hi)
  · intro i ins b hn hi haround
    obtain ⟨k, -, hhandler⟩ := exists_of_forall₂ hsearched.handlers haround.mem
    obtain ⟨hstart, hstop, htarget, -⟩ := FlowGraph.handler_eq_ok.mp hhandler
    have hled := (reaches_iff ha).mp hi
    exact ⟨keepsLabel hstart, keepsLabel hstop,
      hspreads.keepsTarget htarget ((reaches_iff ha).mpr (hled.raise hn haround htarget))⟩

end Analysis

namespace WriteContext

variable {ctx : WriteContext} {l : InstrList} {a a' : Analysis} {s : Links}

/-- What writing goes by is the analysis of what is left. -/
theorem run_prune (ha : analyze ctx.method l s.pool ctx.hierarchy .lenient = .ok a)
    (ha' : analyze ctx.method (a.cut l) s.pool ctx.hierarchy .lenient = .ok a') :
    (ctx.prune l).run.run s = (.ok (a.cut l, a'), s) := by
  refine Growing.run_bind.mpr ⟨a, s, congrArg (·, s) ha, ?_⟩
  split
  · exact Growing.run_bind.mpr ⟨a', s, congrArg (·, s) ha', rfl⟩
  · -- nothing is left out, so it is the same analysis
    rename_i hdead
    have hcut := Analysis.cut_eq_self hdead
    rw [hcut] at ha' ⊢
    rw [Except.ok.inj (ha'.symm.trans ha)]
    rfl

/-- **Leaving out dead code changes nothing that is reached.** -/
theorem prune_leaves_alone (ha : analyze ctx.method l s.pool ctx.hierarchy .lenient = .ok a) :
    ∃ a', (ctx.prune l).run.run s = (.ok (a.cut l, a'), s) ∧
      analyze ctx.method (a.cut l) s.pool ctx.hierarchy .lenient = .ok a' ∧
      a.LeavesAlone l a' := by
  obtain ⟨a', ha', hstands⟩ := Analysis.analyze_cut ha
  exact ⟨a', run_prune ha ha', ha', Analysis.leavesAlone ha hstands⟩

/-! ### Code with a jump over dead code -/

/-- Code that jumps over an instruction and makes an object behind it. -/
def skipping : InstrList :=
  ⟨#[.instr (.jump 167 ⟨0⟩), .instr (.plain 0), .label ⟨0⟩, .instr (.type 187 "A"),
    .instr (.plain 87), .instr (.plain 177)], #[true], []⟩

/-- The method that the code belongs to. -/
def skippingContext : WriteContext := ⟨⟨"A", "run", "()V", true⟩, .unknown, true⟩

/-- The frames of the code: the object is known by the place where it was made. -/
def skippingFrames : Analysis :=
  ⟨#[some ⟨[], []⟩, none, some ⟨[], []⟩, some ⟨[], []⟩, some ⟨[], [.fresh 3]⟩, some ⟨[], []⟩], 1, 0⟩

theorem analyze_skipping :
    analyze skippingContext.method skipping (default : Links).pool skippingContext.hierarchy
      .strict = .ok skippingFrames := by
  have hrun : Work.run ⟨⟨skippingContext.method, skipping.nodes, (default : Links).pool, .unknown,
      .strict, none⟩, #[some 2], []⟩ (.start 6 ⟨[], []⟩) =
        some (.ok ⟨skippingFrames.frames, #[false, false, false, false, false, false], [], 1, 0⟩) :=
    (Work.run_of_visit rfl rfl).trans ((Work.run_of_visit rfl rfl).trans
      ((Work.run_of_visit rfl rfl).trans ((Work.run_of_visit rfl rfl).trans
        ((Work.run_of_visit rfl rfl).trans (Work.run_of_pending_nil rfl)))))
  exact Analysis.analyze_of_run (t := ⟨[], none⟩) (by decide +kernel) rfl rfl
    (by decide +kernel) rfl hrun

/-- Without the dead instruction, the object is known by a lower place. -/
theorem prune_leaves_alone_skipping :
    analyze skippingContext.method skipping (default : Links).pool skippingContext.hierarchy
      .lenient = .ok skippingFrames ∧
    ∃ a', (skippingContext.prune skipping).run.run default =
        (.ok (skippingFrames.cut skipping, a'), default) ∧
      analyze skippingContext.method (skippingFrames.cut skipping) (default : Links).pool
        skippingContext.hierarchy .lenient = .ok a' ∧
      skippingFrames.LeavesAlone skipping a' ∧ a'.frames[3]?.join = some ⟨[], [.fresh 2]⟩ := by
  have ha := analyze_lenient analyze_skipping
  obtain ⟨a', hprune, ha', hleaves⟩ := prune_leaves_alone ha
  refine ⟨ha, a', hprune, ha', hleaves, ?_⟩
  exact hleaves.frame (i := 4) (n := .instr (.plain 87)) rfl (by decide +kernel)

/-- **Code that passes its checks has the frames that it has without them**, and writing goes by
frames that the checks find. -/
theorem prune_checked (ha : analyze ctx.method l s.pool ctx.hierarchy .strict = .ok a) :
    analyze ctx.method l s.pool ctx.hierarchy .lenient = .ok a ∧
      ∃ a', (ctx.prune l).run.run s = (.ok (a.cut l, a'), s) ∧
        analyze ctx.method (a.cut l) s.pool ctx.hierarchy .strict = .ok a' := by
  obtain ⟨a', ha', -⟩ := Analysis.analyze_cut ha
  have hlenient := analyze_lenient ha
  exact ⟨hlenient, a', run_prune hlenient (analyze_lenient ha'), ha'⟩

theorem prune_checked_skipping :
    analyze skippingContext.method skipping (default : Links).pool skippingContext.hierarchy
      .strict = .ok skippingFrames ∧
    analyze skippingContext.method skipping (default : Links).pool skippingContext.hierarchy
      .lenient = .ok skippingFrames ∧
    ∃ a', (skippingContext.prune skipping).run.run default =
        (.ok (skippingFrames.cut skipping, a'), default) ∧
      analyze skippingContext.method (skippingFrames.cut skipping) (default : Links).pool
        skippingContext.hierarchy .strict = .ok a' :=
  ⟨analyze_skipping, prune_checked analyze_skipping⟩

end WriteContext
end ClassWeave
