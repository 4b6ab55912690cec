import ClassWeave.Frame.Verify
import ClassWeave.Model.Write
import ClassWeave.Proofs.CodeErrors
import ClassWeave.Proofs.SearchMoments

/-!
# Errors that neither writing nor verifying a class comes to

An object that no instruction has made would be noticed in two places: where its constructor is
called, and where a frame is stored or compared that holds it. Since the frames of an analysis hold
no such objects, both are ruled out for whatever class is written and whatever bytes are verified.
-/

namespace ClassWeave

/-- Nothing is said about what a computation gives, but it never fails for want of an instruction
that makes an object. -/
abbrev Harmless {σ α : Type} (x : Growing σ α) : Prop :=
  Growing.Fulfils Anything ClassError.LosesNew x

instance : ClassError.Apart ClassError.LosesNew where
  not_of {e} h := by
    cases e with
    | malformed flaw => cases flaw <;> first | exact id | exact h.elim
    | verify => exact h.elim
    | _ => exact id

/-! ## Code -/

namespace Code

open Linking

/-- Every entry has an offset. -/
theorem harmless_encodeWithin (range : JumpRange) (nodes : List Node) (count : Nat) :
    Growing.Fulfils (fun e => e.offsets.size = nodes.length) ClassError.LosesNew
      (encodeWithin range nodes count) := by
  refine (Growing.Fulfils.mapM_forall₂ fun n _ => Piece.fulfils_ofNode n).bind
    fun pieces hpieces => ?_
  cases strangeLabel? count pieces with
  | some l => exact .throw id
  | none =>
    simp only
    cases missingLabels count nodes with
    | nil =>
      refine fulfils_ofResult ((fulfils_assemble range count pieces).imp fun e _ he => ?_)
      exact he.1.trans hpieces.length_eq.symm
    | cons => exact .throw id

theorem spares_labelOffset (e : Encoded) (l : Label) : Spares Anything (e.labelOffset l) := by
  unfold Encoded.labelOffset
  cases e.labels[l.id]?.join with
  | some offset => trivial
  | none => exact id

end Code

theorem FlowGraph.spares_position (positions : Array (Option Nat)) (lab : Label) :
    Spares Anything (position positions lab) := by
  unfold position
  cases lab.position? positions with
  | some _ => trivial
  | none => exact id

theorem Frame.spares_entry (m : MethodContext) :
    Spares (fun f => entry m = .ok f) (FlowGraph.failure 0 (entry m)) := by
  cases hentry : entry m with
  | ok f => exact rfl
  | error e =>
    unfold entry at hentry
    split at hentry
    · obtain rfl := Except.error.inj hentry
      exact id
    · cases hentry

/-! ## Reading code -/

theorem ClassError.spares_reading {α : Type} (r : Reader α) (bytes : List UInt8) :
    Spares Anything (reading r bytes) := by
  unfold reading
  cases r.read bytes with
  | ok => trivial
  | error => exact id

namespace Code

namespace Scanner

variable {α β : Type} {x y : Scanner α}

/-- Reading on never fails for want of an instruction that makes an object. -/
def Sparing (x : Scanner α) : Prop := ∀ c, Spares Anything (x c)

theorem Sparing.pure {a : α} : Sparing (Pure.pure a) := fun _ => trivial

theorem Sparing.throw {e : ClassError} (he : ¬ e.LosesNew) :
    Sparing (MonadExcept.throw e : Scanner α) := fun _ => he

theorem Sparing.bind {k : α → Scanner β} (hx : Sparing x) (hk : ∀ a, Sparing (k a)) :
    Sparing (x >>= k) := fun c => (hx c).bind fun (a, next) _ => hk a next

theorem Sparing.ite {c : Prop} [Decidable c] (hx : Sparing x) (hy : Sparing y) :
    Sparing (if c then x else y) := by
  split
  · exact hx
  · exact hy

theorem sparing_ofReader (n : Nat) (r : Reader α) : Sparing (ofReader n r) := by
  intro c
  unfold ofReader
  cases r.runOn c.rest with
  | ok => trivial
  | error => exact id

theorem sparing_ofResult {r : ClassResult α} (hr : Spares Anything r) :
    Sparing (ofResult r) := by
  cases r with
  | ok => exact .pure
  | error => exact .throw hr

theorem sparing_skip : ∀ n, Sparing (skip n)
  | 0 => .pure
  | n + 1 => (sparing_ofReader _ _).bind fun _ => sparing_skip n

theorem sparing_timesOnto {item : Scanner α} (hitem : Sparing item) :
    ∀ n found, Sparing (timesOnto item n found)
  | 0, _ => .pure
  | n + 1, found => hitem.bind fun a => sparing_timesOnto hitem n (a :: found)

theorem sparing_times {item : Scanner α} (hitem : Sparing item) (n : Nat) :
    Sparing (times n item) := sparing_timesOnto hitem n []

end Scanner

open Scanner

variable (ctx : Context) (length offset : Nat)

theorem spares_jumpTarget (relative : Int) :
    Spares Anything (jumpTarget length offset relative) :=
  .ite (fun _ => trivial) fun _ => id

theorem spares_callSite (i : PoolIndex) : Spares Anything (callSite ctx i) := by
  refine (ctx.pool.fulfils_get i).bind fun c _ => ?_
  cases c with
  | invokeDynamic bootstrap nt =>
    refine (ctx.pool.fulfils_nameAndType nt).bind fun (name, descriptor) _ => ?_
    cases ctx.bootstraps[bootstrap.toNat]? with
    | none => exact id
    | some method =>
      refine (Fulfils.mapM (S := Anything) fun i _ => ctx.pool.fulfils_loadable i).bind
        fun _ _ => ?_
      exact (ctx.pool.fulfils_handle method.handle).bind fun _ _ => trivial
  | _ => exact id

theorem sparing_scanTarget : Sparing (scanTarget length offset) :=
  (sparing_ofReader _ _).bind fun _ => sparing_ofResult (spares_jumpTarget length offset _)

theorem sparing_scanTableSwitch : Sparing (scanTableSwitch length offset) := by
  refine (sparing_skip _).bind fun _ => (sparing_scanTarget length offset).bind fun _ => ?_
  refine (sparing_ofReader _ _).bind fun _ => (sparing_ofReader _ _).bind fun _ => ?_
  refine .ite (.throw id) ?_
  exact (sparing_times (sparing_scanTarget length offset) _).bind fun _ => .pure

theorem sparing_scanLookupSwitch : Sparing (scanLookupSwitch length offset) := by
  have hpair : Sparing (scanPair length offset) :=
    (sparing_ofReader _ _).bind fun _ => (sparing_scanTarget length offset).bind fun _ => .pure
  refine (sparing_skip _).bind fun _ => (sparing_scanTarget length offset).bind fun _ => ?_
  refine (sparing_ofReader _ _).bind fun _ => .ite (.throw id) ?_
  exact (sparing_times hpair _).bind fun _ => .pure

theorem sparing_scanWide : Sparing (scanWide offset) := by
  refine (sparing_ofReader _ _).bind fun _ => .ite ?_ (.ite ?_ (.throw id))
  · exact (sparing_ofReader _ _).bind fun _ => (sparing_ofReader _ _).bind fun _ => .pure
  · exact (sparing_ofReader _ _).bind fun _ => .pure

/-- A value that is read. -/
theorem sparing_read {α β : Type} (n : Nat) (r : Reader α) (f : α → β) :
    Sparing (do return f (← ofReader n r)) := (sparing_ofReader n r).bind fun _ => .pure

/-- A value that is read and looked up. -/
theorem sparing_lookup {α β γ : Type} (n : Nat) (r : Reader α) {f : α → ClassResult β}
    (hf : ∀ a, Spares Anything (f a)) (k : β → γ) :
    Sparing (do return k (← ofResult (f (← ofReader n r)))) :=
  (sparing_ofReader n r).bind fun a => (sparing_ofResult (hf a)).bind fun _ => .pure

theorem sparing_scanOperands (op : UInt8) : Sparing (scanOperands ctx length offset op) := by
  have target : ∀ op, Sparing (do return Instr.jump op (← scanTarget length offset)) :=
    fun _ => (sparing_scanTarget length offset).bind fun _ => .pure
  have loadable : ∀ i, Spares Anything (ctx.pool.loadable i) := ctx.pool.fulfils_loadable
  have member : ∀ i, Spares Anything (ctx.pool.memberRef i) := ctx.pool.fulfils_memberRef
  have className : ∀ i, Spares Anything (ctx.pool.className i) := ctx.pool.fulfils_className
  unfold scanOperands
  refine .ite .pure (.ite (sparing_read _ _ _) (.ite (sparing_read _ _ _) ?_))
  refine .ite (sparing_read _ _ _) (.ite ?_ (.ite (sparing_lookup _ _ loadable _) ?_))
  · exact (sparing_ofReader _ _).bind fun _ => (sparing_ofResult (loadable _)).bind fun _ => .pure
  refine .ite (sparing_read _ _ _) (.ite .pure (.ite .pure (.ite ?_ ?_)))
  · exact (sparing_ofReader _ _).bind fun _ => sparing_read _ _ _
  refine .ite (sparing_scanWide offset) (.ite ?_ ?_)
  · exact sparing_lookup _ _ (fun _ => spares_jumpTarget length offset _) _
  refine .ite (target _) (.ite (target _) (.ite (sparing_scanTableSwitch length offset) ?_))
  refine .ite (sparing_scanLookupSwitch length offset) (.ite (sparing_lookup _ _ member _) ?_)
  refine .ite ?_ (.ite ?_ (.ite ?_ (.ite ?_ (.throw id))))
  · refine (sparing_ofReader _ _).bind fun index => .ite ?_ ?_
    · refine (sparing_skip 2).bind fun _ => ?_
      exact (sparing_ofResult (member index)).bind fun _ => .pure
    · exact (sparing_ofResult (member index)).bind fun _ => .pure
  · refine (sparing_ofReader _ _).bind fun index => (sparing_skip 2).bind fun _ => ?_
    exact (sparing_ofResult (spares_callSite ctx index)).bind fun _ => .pure
  · refine Sparing.bind ?_ fun _ => .pure
    exact (sparing_ofReader _ _).bind fun _ => sparing_ofResult (className _)
  · refine (sparing_ofReader _ _).bind fun index => (sparing_ofReader _ _).bind fun _ => ?_
    exact (sparing_ofResult (className index)).bind fun _ => .pure

theorem spares_scanOnto : ∀ fuel found c, Spares Anything (scanOnto ctx length fuel found c)
  | 0, _, _ => trivial
  | fuel + 1, found, c => by
    have hinstr : Spares Anything ((scanInstr ctx length).run c) :=
      (sparing_ofReader 1 Reader.u8).bind (sparing_scanOperands ctx length c.offset) c
    refine .ite (fun _ => trivial) fun _ => ?_
    cases hi : (scanInstr ctx length).run c with
    | ok next => exact spares_scanOnto fuel _ _
    | error e => exact hinstr.error hi

/-- Every entry has an offset. -/
theorem spares_decode (code : List UInt8) (handlers : List HandlerEntry) (lines : List LineEntry) :
    Spares (fun (l, offsets) => offsets.length = l.nodes.size)
      (decode ctx code handlers lines) := by
  refine (spares_scanOnto ctx code.length code.length [] ⟨0, code⟩).bind fun instrs _ => ?_
  simp only
  split
  · exact id
  · refine (Fulfils.mapM (S := Anything) fun k _ => ?_).bind fun blocks _ => ?_
    · exact (ctx.pool.fulfils_optionalClass k.catchType).bind fun _ _ => trivial
    · simp [InstrList.ofNodes, Fulfils, pure, Except.pure]

end Code

/-! ## Analyses -/

namespace FlowGraph

theorem spares_handler (positions : Array (Option Nat)) (b : TryBlock) :
    Spares Anything (handler positions b) :=
  (spares_position positions _).bind fun _ _ => (spares_position positions _).bind fun _ _ =>
    (spares_position positions _).bind fun _ _ => trivial

end FlowGraph

namespace Analysis

variable {m : MethodContext} {l : InstrList} {pool : Pool} {h : Hierarchy} {mode : Mode}

/-- A search that has begun fails for other reasons. -/
theorem Begins.spares_run {g : FlowGraph} {entry : Frame} (hb : Begins m l pool h mode g entry)
    {r : ClassResult Work} (hrun : Work.run g (.start g.program.nodes.size entry) = some r) :
    Spares Anything r := by
  cases r with
  | ok => trivial
  | error e =>
    obtain ⟨w, i, hturns, hfail⟩ := Work.turns_of_run_error _ _ hrun e rfl
    exact ((hb.tidy (.between hturns)).visit hb.caught_settled i).error hfail

/-- The code makes every object of the frames, and none of them at the entry of the frame. -/
def Tidy (l : InstrList) (a : Analysis) : Prop :=
  ∀ (i : Nat) (f : Frame), a.frames[i]? = some (some f) →
    f.Tidy fun k => k ≠ i ∧ ∃ cls, l.nodes[k]? = some (.instr (.type Opcode.new cls))

/-- The frames of an analysis are tidy, and its errors are others. -/
theorem spares_analyze : Spares (Tidy l) (analyze m l pool h mode) := by
  have herrors : Spares Anything (analyze m l pool h mode) := by
    cases hparse : MethodType.parse? m.descriptor with
    | none =>
      unfold analyze MethodType.parse
      rw [hparse]
      exact id
    | some t =>
      unfold analyze MethodType.parse
      rw [hparse]
      refine (Fulfils.mapM (S := Anything) fun b _ => FlowGraph.spares_handler _ b).imp
        (fun _ hk _ => hk) |>.bind fun handlers hhandlers => ?_
      refine (Frame.spares_entry m).bind fun entry hentry => ?_
      split
      · exact id
      · rename_i hne
        simp only
        have hb : Begins m l pool h mode
            ⟨⟨m, l.nodes, pool, h, mode, t.result⟩, l.labelPositions, handlers⟩ entry := by
          refine ⟨?_, rfl, mapM_eq_ok.mp hhandlers, hentry, ?_⟩
          · rw [hparse]
            rfl
          · simp only [Array.isEmpty_iff_size_eq_zero] at hne
            omega
        split
        · exact id
        · rename_i result hrun
          exact (hb.spares_run hrun).bind fun _ _ => trivial
  exact herrors.imp fun a ha _ i f hf => (records_of_analyze ha hf).tidy

/-- Whatever an entry of the list has, the objects of the frames have. -/
theorem Tidy.entries {a : Analysis} (ha : a.Tidy l) {i : Nat} {f : Frame}
    (hf : a.frames[i]? = some (some f)) {P : Nat → Prop} (hP : ∀ k < l.nodes.size, P k) :
    ∀ k, f.Holds k → P k := by
  intro k hk
  obtain ⟨-, cls, hn⟩ := (ha i f hf).holds k hk
  exact hP k (Array.getElem?_eq_some_iff.mp hn).1

end Analysis
end ClassWeave
