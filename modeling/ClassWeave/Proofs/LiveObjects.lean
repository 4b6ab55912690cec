import ClassWeave.Proofs.Retracing
import ClassWeave.Proofs.StoredObjects

/-!
# Fresh objects are live

A fresh object is known by the instruction that made it, so nothing would tell an object of an
earlier execution from that of the latest one. No rule is needed that does: the frame in front of an
instruction never holds its objects, so when the instruction runs again, none are left over.
-/

namespace ClassWeave.Analysis

/-- **A fresh object always names a live instruction, and never the one that is about to run.** At
every moment of a search, whatever the order and whether or not it succeeds, the objects of recorded
frames and of what they hand on were made by instructions that were reached. Where objects are told
apart by executions, those of recorded frames are of the latest ones, so a constructor call marks
none of an earlier execution. Neither the analysis nor writing or verifying a class comes to an
object that nothing has made. -/
theorem fresh_objects_live (m : MethodContext) (l : InstrList) (pool : Pool) (h : Hierarchy)
    (mode : Mode) :
    (∀ g entry w, Begins m l pool h mode g entry → Work.Moment g entry w →
      Work.Tidy g w ∧ ∀ i f n, w.frame? i = some f → g.program.nodes[i]? = some n →
        Spares (fun (after, es) => after.Tidy (Work.Live g w) ∧ ∀ e ∈ es, e.2.Tidy (Work.Live g w))
          (g.edges i n f)) ∧
    (∀ g entry w, Begins m l pool h mode g entry → Work.Ends g entry w →
      ∀ trail i s, Retraced g w trail i s →
        ∃ f, w.frame? i = some f ∧ s.Stands (Latest trail) f ∧
          ∀ ins after, g.program.nodes[i]? = some (.instr ins) →
            g.program.step i ins f = .ok after →
              ∃ s', (g.program.unrolled (trail ++ [i])).step trail.length ins s = .ok s' ∧
                s'.Stands (Latest (trail ++ [i])) after) ∧
    (∀ a, analyze m l pool h mode = .ok a → a.Tidy l) ∧
    (∀ e, analyze m l pool h mode = .error e → ¬ e.LosesNew) ∧
    (∀ (c : ClassModel) e, c.toBytes h = .error e → ¬ e.LosesNew) ∧
    ∀ bytes, (∀ e, verifyClass bytes h = .error e → ¬ e.LosesNew) ∧
      ∀ findings, verifyClass bytes h = .ok findings → ∀ f ∈ findings, ¬ f.error.LosesNew := by
  refine ⟨fun g entry w hb hw => ?_, fun g entry w hb hw trail i s hs => ?_,
    fun a => spares_analyze.ok, fun e => spares_analyze.error,
    fun c e => (c.spares_toBytes h).error,
    fun bytes => ⟨fun e => (spares_verifyClass bytes h).error,
      fun found => (spares_verifyClass bytes h).ok⟩⟩
  · have htidy : Work.Tidy g w := hb.tidy hw
    exact ⟨htidy, fun i f n => htidy.edges hb.caught_settled⟩
  · obtain ⟨f, hf, hstands⟩ := hb.stands hw hs
    refine ⟨f, hf, hstands, fun ins after _ hstep => ?_⟩
    exact (hb.stands_step hw hf hstands hstep).2

/-- A loop that makes an object every time and drops it. -/
def wasting : InstrList where
  nodes := #[.label ⟨0⟩, .instr (.type Opcode.new "Spin"), .instr (.plain Opcode.pop),
    .instr (.jump Opcode.goto ⟨0⟩)]
  placed := #[true]
  blocks := []

/-- The graph of the loop. -/
def wastingGraph : FlowGraph :=
  ⟨⟨spinning, wasting.nodes, .empty, .unknown, .strict, none⟩, #[some 0], []⟩

/-- The frames of the loop. -/
def wastingWork : Work where
  frames := #[some ⟨[], []⟩, some ⟨[], []⟩, some ⟨[], [.fresh 1]⟩, some ⟨[], []⟩]
  queued := #[false, false, false, false]
  pending := []
  maxStack := 1
  maxLocals := 0

theorem begins_wasting : Begins spinning wasting .empty .unknown .strict wastingGraph ⟨[], []⟩ := by
  have htype : MethodType.parse? spinning.descriptor = some ⟨[], none⟩ := by decide +kernel
  refine ⟨?_, rfl, .nil, by decide +kernel, by decide⟩
  rw [htype]
  rfl

theorem ends_wasting : Work.Ends wastingGraph ⟨[], []⟩ wastingWork := by
  refine Work.ends_of_run ?_
  refine (Work.run_of_visit rfl rfl).trans ((Work.run_of_visit rfl rfl).trans ?_)
  exact (Work.run_of_visit rfl rfl).trans ((Work.run_of_visit rfl rfl).trans
    (Work.run_of_pending_nil rfl))

/-- In the second round the object is that of the second execution. -/
theorem retraced_wasting :
    Retraced wastingGraph wastingWork [0, 1, 2, 3, 0, 1] 2 ⟨[], [.fresh 5]⟩ := by
  have hfirst : Retraced wastingGraph wastingWork [] 0 ⟨[], []⟩ := .start rfl
  have hnew : Retraced wastingGraph wastingWork [0] 1 ⟨[], []⟩ := .pass hfirst rfl rfl rfl
  have hpop : Retraced wastingGraph wastingWork [0, 1] 2 ⟨[], [.fresh 1]⟩ :=
    .next hnew rfl rfl rfl rfl
  have hjump : Retraced wastingGraph wastingWork [0, 1, 2] 3 ⟨[], []⟩ :=
    .next hpop rfl rfl rfl rfl
  have hagain : Retraced wastingGraph wastingWork [0, 1, 2, 3] 0 ⟨[], []⟩ :=
    .jump hjump rfl rfl List.mem_cons_self rfl rfl
  have hsecond : Retraced wastingGraph wastingWork [0, 1, 2, 3, 0] 1 ⟨[], []⟩ :=
    .pass hagain rfl rfl rfl
  exact .next hsecond rfl rfl rfl rfl

theorem fresh_objects_live_wasting :
    Work.Tidy wastingGraph wastingWork ∧
      Frame.Stands (Latest [0, 1, 2, 3, 0, 1]) ⟨[], [.fresh 5]⟩ ⟨[], [.fresh 1]⟩ := by
  obtain ⟨hmoments, htrails, -⟩ := fresh_objects_live spinning wasting .empty .unknown .strict
  obtain ⟨htidy, -⟩ := hmoments _ _ _ begins_wasting (.between ends_wasting.turns)
  obtain ⟨f, hf, hstands, -⟩ := htrails _ _ _ begins_wasting ends_wasting _ _ _ retraced_wasting
  have hframe : wastingWork.frame? 2 = some ⟨[], [.fresh 1]⟩ := rfl
  obtain rfl := Option.some.inj (hf.symm.trans hframe)
  exact ⟨htidy, hstands⟩

end ClassWeave.Analysis
