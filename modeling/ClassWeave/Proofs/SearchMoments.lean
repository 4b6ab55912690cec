import ClassWeave.Proofs.FreshSteps
import ClassWeave.Proofs.PathSoundness

/-!
# Every moment of a search

`Work.Moment` are the states that a search comes to, between two looks and in the middle of one, in
whatever order the entries are looked at and whether or not the search succeeds or ends at all. In
all of them the frames are tidy (`Work.Tidy`): a fresh object that is known by an entry is made
there, the entry was reached before, and the frame is that of another entry.

No rule of the search takes old objects away when an entry makes a new one. What makes up for it is
that the frame of an entry is there before the entry makes anything, and that merging adds no
objects to a frame.
-/

namespace ClassWeave

/-- An object comes up that no instruction has made. -/
def ClassError.LosesNew : ClassError → Prop
  | .verify _ e => e.LosesNew
  | .malformed (.missingNew _) => True
  | _ => False

/-- What a computation gives has a property, and it never fails for want of an instruction that
makes an object. -/
abbrev Spares {α : Type} (R : α → Prop) (x : ClassResult α) : Prop :=
  Fulfils R ClassError.LosesNew x

namespace Frame

variable {h : Hierarchy} {K : Nat → Prop} {f f' m : Frame} {mode : Mode}

theorem eq_fresh_of_merge {a b : NamedType} {i : Nat} (hm : h.mergeTypes a b = .fresh i) :
    a = .fresh i ∧ b = .fresh i := by
  unfold Hierarchy.mergeTypes at hm
  split at hm
  · rename_i heq
    exact ⟨hm, heq ▸ hm⟩
  · split at hm <;> cases hm

/-- Frames that meet leave fresh objects where both had them. -/
theorem Merged.fresh_local (hm : Merged h f f' m) {k i : Nat} (hk : slot m.locals k = .fresh i) :
    slot f.locals k = .fresh i ∧ slot f'.locals k = .fresh i :=
  eq_fresh_of_merge (hm.locals k ▸ hk)

theorem Merged.fresh_stack (hm : Merged h f f' m) {k i : Nat} (hk : m.stack[k]? = some (.fresh i)) :
    f.stack[k]? = some (.fresh i) ∧ f'.stack[k]? = some (.fresh i) := by
  rw [hm.stack, List.getElem?_zipWith] at hk
  cases ha : f.stack[k]? with
  | none => rw [ha] at hk; cases hk
  | some a =>
    cases hb : f'.stack[k]? with
    | none => rw [ha, hb] at hk; cases hk
    | some b =>
      rw [ha, hb] at hk
      obtain ⟨rfl, rfl⟩ := eq_fresh_of_merge (Option.some.inj hk)
      exact ⟨rfl, rfl⟩

theorem Merged.holds (hm : Merged h f f' m) {i : Nat} (hi : m.Holds i) :
    f.Holds i ∧ f'.Holds i := by
  rcases hi with hi | hi
  · obtain ⟨k, hk⟩ := fresh_mem_iff.mp hi
    obtain ⟨hf, hf'⟩ := hm.fresh_local hk
    exact ⟨.inl (fresh_mem_iff.mpr ⟨k, hf⟩), .inl (fresh_mem_iff.mpr ⟨k, hf'⟩)⟩
  · obtain ⟨k, hk⟩ := List.mem_iff_getElem?.mp hi
    obtain ⟨hf, hf'⟩ := hm.fresh_stack hk
    exact ⟨.inr (List.mem_of_getElem? hf), .inr (List.mem_of_getElem? hf')⟩

theorem Tidy.merged (hf : f.Tidy K) (hm : Merged h f f' m) : m.Tidy K :=
  ⟨hm.closed, fun i hi => hf.holds i (hm.holds hi).1⟩

/-- Frames that do not meet fail to do so for other reasons. -/
theorem draws_merge : Draws Anything (f.merge h mode f') := by
  rw [merge_eq]
  refine .ite (fun _ => id) fun _ => ?_
  refine Fulfils.bind (R := Anything) ?_ fun _ _ => trivial
  refine (Fulfils.mapM (S := Anything) fun p _ => ?_).bind fun _ _ => trivial
  exact .ite (fun _ => id) fun _ => trivial

theorem tidy_entry {m : MethodContext} (hf : entry m = .ok f) : f.Tidy K := by
  obtain ⟨hlocals, hstack⟩ := settled_entry hf
  refine ⟨(entry_sound hf).closed, fun i hi => ?_⟩
  rcases hi with hi | hi
  · exact (hlocals _ hi).elim
  · rw [hstack] at hi
    cases hi

/-- What an exception leaves. -/
theorem Tidy.raised (hf : f.Tidy K) {t : NamedType} (ht : VType.IsSettled t) :
    Tidy K ⟨f.locals, [t]⟩ :=
  hf.stack fun u hu => by
    rw [List.mem_singleton.mp hu]
    exact ht.from

end Frame

namespace Work

variable {g : FlowGraph} {entry : Frame} {w w' : Work}

/-- The state at the start of a look. -/
def taken (w : Work) (i : Nat) (f : Frame) : Work :=
  Work.cover { w with
    pending := w.pending.erase i
    queued := w.queued.setIfInBounds i false } f

/-- A state that the search comes to. In the middle of a look, some of the edges have been followed.
-/
inductive Moment (g : FlowGraph) (entry : Frame) : Work → Prop
  | between {w : Work} (hw : Turns g (.start g.program.nodes.size entry) w) : Moment g entry w
  | within {w w' : Work} {i : Nat} {f after : Frame} {n : Node} {es es' : List (Nat × Frame)}
      (hw : Turns g (.start g.program.nodes.size entry) w) (hi : i ∈ w.pending)
      (hf : w.frame? i = some f) (hn : g.program.nodes[i]? = some n)
      (hedges : g.edges i n f = .ok (after, es)) (hes : es' <+: es)
      (hok : es'.foldlM (follow g i) ((w.taken i f).cover after) = .ok w') : Moment g entry w'

/-- The code makes an object at an entry that was reached. -/
def Live (g : FlowGraph) (w : Work) (k : Nat) : Prop :=
  g.program.MakesAt k ∧ ∃ f, w.frame? k = some f

/-- The fresh objects of every frame are made at other entries that were reached. -/
structure Tidy (g : FlowGraph) (w : Work) : Prop where
  size : w.frames.size = g.program.nodes.size
  frames : ∀ {j f}, w.frame? j = some f → f.Tidy fun k => Live g w k ∧ k ≠ j

/-- Entries that were reached stay so. -/
theorem Live.reached {k : Nat} (hk : Live g w k)
    (hkeep : ∀ {j f}, w.frame? j = some f → ∃ f', w'.frame? j = some f') : Live g w' k := by
  obtain ⟨hmakes, f, hf⟩ := hk
  exact ⟨hmakes, hkeep hf⟩

theorem tidy_start (hentry : ∀ K, entry.Tidy K) : Tidy g (.start g.program.nodes.size entry) where
  size := by simp [start]
  frames := by
    intro j f hf
    obtain ⟨-, rfl⟩ := frame?_start hf
    exact hentry _

/-- Giving an entry a frame. -/
theorem Tidy.update (hw : Tidy g w) {t : Nat} {f : Frame} (ht : t < w.frames.size)
    (hf : f.Tidy fun k => Live g w k ∧ k ≠ t) :
    Tidy g (w.update t f) ∧ ∀ {k}, Live g w k → Live g (w.update t f) k := by
  have hlive : ∀ {k}, Live g w k → Live g (w.update t f) k := fun hk => hk.reached
    fun {j f'} hj => by
    rw [frame?_update ht]
    by_cases hjt : j = t
    · exact ⟨f, if_pos hjt⟩
    · exact ⟨f', by rw [if_neg hjt, hj]⟩
  refine ⟨⟨by rw [(update_sizes t f).1, hw.size], ?_⟩, hlive⟩
  intro j f' hj
  rw [frame?_update ht] at hj
  by_cases hjt : j = t
  · rw [if_pos hjt, Option.some.injEq] at hj
    subst hj hjt
    exact hf.imp fun k hk => ⟨hlive hk.1, hk.2⟩
  · rw [if_neg hjt] at hj
    exact (hw.frames hj).imp fun k hk => ⟨hlive hk.1, hk.2⟩

/-- What following one edge does. The entry that it leads to has no frame yet, and none of the
objects was made there; or it has one, and no objects are added to it. -/
theorem Tidy.follow (hw : Tidy g w) {source : Nat} {e : Nat × Frame} (he : e.2.Tidy (Live g w)) :
    Spares (fun w' => Tidy g w' ∧ ∀ {k}, Live g w k → Live g w' k) (Work.follow g source w e) := by
  unfold Work.follow
  cases hframe : w.frames[e.1]? with
  | none => exact id
  | some frame =>
    obtain ⟨hlt, -⟩ := Array.getElem?_eq_some_iff.mp hframe
    cases frame with
    | none =>
      refine hw.update hlt ⟨he.closed, fun k hk => ⟨he.holds k hk, ?_⟩⟩
      rintro rfl
      obtain ⟨-, f, hf⟩ := he.holds _ hk
      rw [frame?_eq_some, hframe] at hf
      cases hf
    | some f =>
      have hf := hw.frames (frame?_eq_some.mpr hframe)
      have hmerge : Draws Anything (f.merge g.program.hierarchy g.program.mode e.2) :=
        Frame.draws_merge
      simp only
      cases hm : f.merge g.program.hierarchy g.program.mode e.2 with
      | error err => exact hmerge.error hm
      | ok r =>
        cases r with
        | none => exact ⟨hw, id⟩
        | some m => exact hw.update hlt (hf.merged (Frame.merge_merged hf.closed he.closed hm))

/-- What following edges does. -/
theorem Tidy.follow_all {source : Nat} {es : List (Nat × Frame)} (hw : Tidy g w)
    (hes : ∀ e ∈ es, e.2.Tidy (Live g w)) :
    Spares (Tidy g) (es.foldlM (Work.follow g source) w) := by
  refine Fulfils.imp (Fulfils.foldlM (S := fun w' => Tidy g w' ∧ ∀ {k}, Live g w k → Live g w' k)
    (fun w1 hw1 e he => ?_) ⟨hw, id⟩) fun _ _ hw' => hw'.1
  refine (hw1.1.follow ((hes e he).imp fun k hk => hw1.2 hk)).imp fun w2 _ hw2 => ?_
  exact ⟨hw2.1, fun hk => hw2.2 (hw1.2 hk)⟩

/-- What an entry hands on holds objects of entries that were reached. -/
theorem Tidy.edges (hw : Tidy g w) (hcaught : ∀ h ∈ g.handlers, VType.IsSettled h.catchType)
    {i : Nat} {f : Frame} {n : Node} (hf : w.frame? i = some f)
    (hn : g.program.nodes[i]? = some n) :
    Spares (fun (after, es) => after.Tidy (Live g w) ∧ ∀ e ∈ es, e.2.Tidy (Live g w))
      (g.edges i n f) := by
  have hbefore : f.Tidy (Live g w) := (hw.frames hf).imp fun k hk => hk.1
  have hafter : ∀ {ins}, n = .instr ins →
      Draws (Frame.Tidy (Live g w)) (g.program.step i ins f) := by
    rintro ins rfl
    refine Program.step_tidy (fun k hk => hk.1) ?_ hbefore
    rintro cls rfl
    exact ⟨⟨cls, hn⟩, f, hf⟩
  have hspares : Spares Anything (g.edges i n f) := by
    cases n with
    | instr ins =>
      have hstep : Spares Anything (FlowGraph.failure i (g.program.step i ins f)) :=
        ((hafter rfl).imp fun _ _ _ => trivial).mapError fun _ he => he
      refine hstep.bind fun after _ => ?_
      refine (Fulfils.mapM (S := Anything) fun lab _ => ?_).bind fun _ _ => trivial
      unfold FlowGraph.position
      cases lab.position? g.positions with
      | none => exact id
      | some _ => trivial
    | _ => trivial
  refine hspares.imp fun (after, es) hedges _ => ?_
  have hsteps : after.Tidy (Live g w) := by
    cases n with
    | instr ins => exact (hafter rfl).ok (FlowGraph.edges_instr hedges).1
    | _ =>
      obtain ⟨rfl, -⟩ := Prod.mk.inj (Except.ok.inj hedges)
      exact hbefore
  refine ⟨hsteps, fun e he => ?_⟩
  cases (FlowGraph.mem_edges hedges).mp he with
  | pass => exact hbefore
  | raise hk _ _ hcase =>
    rcases hcase with rfl | rfl
    · exact hbefore.raised (hcaught _ hk)
    · exact hsteps.raised (hcaught _ hk)
  | jump | next => exact hsteps

theorem tidy_taken {i : Nat} {f : Frame} (hw : Tidy g w) (after : Frame) :
    Tidy g ((w.taken i f).cover after) := ⟨hw.size, hw.frames⟩

/-- What a look does. -/
theorem Tidy.visit (hw : Tidy g w) (hcaught : ∀ h ∈ g.handlers, VType.IsSettled h.catchType)
    (i : Nat) : Spares (Tidy g) (Work.visit g { w with pending := w.pending.erase i } i) := by
  unfold Work.visit
  simp only
  split
  · rename_i f n hf hn
    refine (hw.edges hcaught hf hn).bind fun (after, es) ⟨_, hes⟩ => ?_
    exact (tidy_taken (i := i) (f := f) hw after).follow_all hes
  · exact ⟨hw.size, hw.frames⟩

theorem Turns.tidy (hcaught : ∀ h ∈ g.handlers, VType.IsSettled h.catchType) (hw : Tidy g w)
    (ht : Turns g w w') : Tidy g w' := by
  induction ht with
  | refl => exact hw
  | tail _ ht ih =>
    obtain ⟨i, -, hok⟩ := ht
    exact (ih.visit hcaught i).ok hok

/-- **At every moment of a search the frames are tidy.** -/
theorem Moment.tidy (hcaught : ∀ h ∈ g.handlers, VType.IsSettled h.catchType)
    (hentry : ∀ K, entry.Tidy K) (hw : Moment g entry w) : Tidy g w := by
  cases hw with
  | between hw => exact hw.tidy hcaught (tidy_start hentry)
  | within hw _ hf hn hedges hes hok =>
    have htidy := hw.tidy hcaught (tidy_start hentry)
    have hall := ((htidy.edges hcaught hf hn).ok hedges).2
    exact ((tidy_taken htidy _).follow_all fun e he => hall e (hes.subset he)).ok hok

/-- A search that fails does so in a look. -/
theorem turns_of_run_error : ∀ (w : Work) (r : ClassResult Work), run g w = some r →
    ∀ e, r = .error e → ∃ w' i, Turns g w w' ∧
      Work.visit g { w' with pending := w'.pending.erase i } i = .error e := by
  refine run.partial_correctness g _ ?_
  intro run ih w r hrun e he
  split at hrun
  · rw [Option.some.injEq] at hrun
    cases hrun.trans he
  · rename_i i rest hp
    have hrest : rest = w.pending.erase i := by rw [hp, List.erase_cons_head]
    split at hrun
    · rename_i e' hvisit
      rw [Option.some.injEq] at hrun
      obtain rfl := Except.error.inj (hrun.trans he)
      exact ⟨w, i, .refl, hrest ▸ hvisit⟩
    · rename_i w1 hvisit
      obtain ⟨w', i', hturns, hfail⟩ := ih w1 r hrun e he
      have hturn : Turn g w w1 := ⟨i, by rw [hp]; exact List.mem_cons_self, hrest ▸ hvisit⟩
      exact ⟨w', i', .head hturn hturns, hfail⟩

end Work

namespace Analysis

variable {m : MethodContext} {l : InstrList} {pool : Pool} {h : Hierarchy} {mode : Mode}
  {g : FlowGraph} {entry : Frame} {i : Nat} {f : Frame}

theorem Begins.caught_settled (hb : Begins m l pool h mode g entry) :
    ∀ k ∈ g.handlers, VType.IsSettled k.catchType := by
  intro k hk
  obtain ⟨b, -, hhandler⟩ := exists_of_forall₂ hb.handlers.flip hk
  obtain ⟨-, -, -, hcaught⟩ := FlowGraph.handler_eq_ok.mp hhandler
  rw [hcaught]
  trivial

theorem Begins.tidy (hb : Begins m l pool h mode g entry) {w : Work}
    (hw : Work.Moment g entry w) : Work.Tidy g w :=
  hw.tidy hb.caught_settled fun _ => Frame.tidy_entry hb.start

/-- At some moment of an analysis an entry has this frame, whether or not the analysis succeeds. -/
def Records (m : MethodContext) (l : InstrList) (pool : Pool) (h : Hierarchy) (mode : Mode)
    (i : Nat) (f : Frame) : Prop :=
  ∃ g entry w, Begins m l pool h mode g entry ∧ Work.Moment g entry w ∧ w.frame? i = some f

/-- The frames of the result are recorded at the last moment. -/
theorem records_of_analyze {a : Analysis} (ha : analyze m l pool h mode = .ok a)
    (hf : a.frames[i]? = some (some f)) : Records m l pool h mode i f := by
  obtain ⟨g, entry, w, hs⟩ := searched_of_analyze ha
  refine ⟨g, entry, w, hs.toBegins, .between hs.ends.turns, Work.frame?_eq_some.mpr ?_⟩
  rw [hs.result] at hf
  exact hf

theorem Records.tidy (hf : Records m l pool h mode i f) :
    f.Tidy fun k => k ≠ i ∧ ∃ cls, l.nodes[k]? = some (.instr (.type Opcode.new cls)) := by
  obtain ⟨g, entry, w, hb, hw, hf⟩ := hf
  refine ((hb.tidy hw).frames hf).imp fun k ⟨⟨⟨cls, hn⟩, _⟩, hne⟩ => ⟨hne, cls, ?_⟩
  rwa [hb.program] at hn

end Analysis
end ClassWeave
