import ClassWeave.Proofs.Monitors

/-!
# Marks of guarded code

A mark says of a place in the code in which variables the objects are whose monitors are entered
there, and what is known of the stack. If the marks of a list fit each other
(`Machine.Marked`), then one step leads from a place whose mark is right to one whose mark is right,
and so does a run: the monitors that are open are always the ones that the mark names.
-/

namespace ClassWeave

variable {V : Type}

/-! ## Marks -/

/-- How far entering or exiting a monitor has come. -/
inductive Stage where
  /-- Nothing is known of the stack. -/
  | ordinary
  /-- The object lies on the stack twice. -/
  | doubled
  /-- The object in a variable lies on the stack. -/
  | holding (lock : Nat)
  /-- The exception that was caught lies on the stack. -/
  | caught
  /-- The exception is in a variable. -/
  | saved (thrown : Nat)
  | savedHolding (thrown lock : Nat)
  /-- The exception lies on the stack again. -/
  | rethrowing
deriving Repr, DecidableEq

namespace Stage

/-- The handler of a guarded region is at work, in which nothing fails. -/
def isSure : Stage → Bool
  | ordinary | doubled | holding _ => false
  | caught | saved _ | savedHolding .. | rethrowing => true

/-- What the stage says is right. -/
def Allows (m : Memory V) (latest : Option V) : Stage → Prop
  | ordinary => True
  | doubled => ∃ x stack, m.stack = x :: x :: stack
  | holding lock => ∃ stack, m.stack = m.locals lock :: stack
  | caught | rethrowing => ∃ v stack, m.stack = v :: stack ∧ latest = some v
  | saved thrown => latest = some (m.locals thrown)
  | savedHolding thrown lock =>
    latest = some (m.locals thrown) ∧ ∃ stack, m.stack = m.locals lock :: stack

end Stage

/-- What is known at a place. -/
structure Mark where
  /-- The variables of the objects whose monitors are entered, the innermost first. -/
  held : List Nat
  stage : Stage
deriving Repr, DecidableEq

namespace Mark

/-- What the mark says is right. -/
structure Allows (μ : Mark) (m : Memory V) (w : Watch V) : Prop where
  opened : w.opened = μ.held.map m.locals
  stage : μ.stage.Allows m w.latest

/-- An instruction leads from one mark to another. -/
inductive Leads : Mark → Instr Label → Mark → Prop
  | double {held : List Nat} : Leads ⟨held, .ordinary⟩ (.plain Opcode.dup) ⟨held, .doubled⟩
  | keep {held : List Nat} {i : UInt16} (hi : i.toNat ∉ held) :
      Leads ⟨held, .doubled⟩ (.var Opcode.astore i) ⟨held, .holding i.toNat⟩
  | enter {held : List Nat} {lock : Nat} :
      Leads ⟨held, .holding lock⟩ (.plain Opcode.monitorenter) ⟨lock :: held, .ordinary⟩
  | fetch {held : List Nat} {i : UInt16} :
      Leads ⟨held, .ordinary⟩ (.var Opcode.aload i) ⟨held, .holding i.toNat⟩
  | exit {held : List Nat} {lock : Nat} :
      Leads ⟨lock :: held, .holding lock⟩ (.plain Opcode.monitorexit) ⟨held, .ordinary⟩
  | save {held : List Nat} {i : UInt16} (hi : i.toNat ∉ held) :
      Leads ⟨held, .caught⟩ (.var Opcode.astore i) ⟨held, .saved i.toNat⟩
  | fetchSaved {held : List Nat} {thrown : Nat} {i : UInt16} :
      Leads ⟨held, .saved thrown⟩ (.var Opcode.aload i) ⟨held, .savedHolding thrown i.toNat⟩
  | exitSaved {held : List Nat} {thrown lock : Nat} :
      Leads ⟨lock :: held, .savedHolding thrown lock⟩ (.plain Opcode.monitorexit)
        ⟨held, .saved thrown⟩
  | fetchThrown {held : List Nat} {i : UInt16} :
      Leads ⟨held, .saved i.toNat⟩ (.var Opcode.aload i) ⟨held, .rethrowing⟩
  | ordinary {held : List Nat} {i : Instr Label} (hi : i.isMonitor = false)
      (hstores : ∀ k ∈ held, ¬ i.StoresTo k) : Leads ⟨held, .ordinary⟩ i ⟨held, .ordinary⟩

variable {μ ν : Mark} {i : Instr Label} {m m' : Memory V} {w : Watch V} {es : List (Event V)}

/-- Storing to a variable that is not held leaves the open monitors where they are. -/
theorem map_update {held : List Nat} {locals : Nat → V} {k : Nat} (hk : k ∉ held) (x : V) :
    held.map (Function.update locals k x) = held.map locals := by
  refine List.map_congr_left fun j hj => Function.update_of_ne ?_ _ _
  rintro rfl
  exact hk hj

/-- The monitor of the innermost object can be exited. -/
theorem sees_exited {opened : List V} {latest : Option V} {locals : Nat → V} {lock : Nat}
    {held : List Nat} {x : V} (hopened : opened = (lock :: held).map locals)
    (hx : x = locals lock) :
    Watch.Sees ⟨opened, latest⟩ (.exited x) ⟨held.map locals, latest⟩ := by
  rw [hopened, hx]
  exact .exited

/-- When an instruction completes, what the next mark says is right. -/
theorem Leads.completes (h : Leads μ i ν) (hμ : μ.Allows m w) (hi : i.Completes m es m') :
    ∃ w', w.SeesAll es w' ∧ ν.Allows m' w' := by
  obtain ⟨opened, latest⟩ := w
  obtain ⟨hopened, hstage⟩ := hμ
  cases h with
  | double =>
    cases hi with
    | dup => exact ⟨_, rfl, hopened, _, _, rfl⟩
    | other hknown => cases hknown
  | keep hk =>
    obtain ⟨x, stack, hstack⟩ := hstage
    cases hi with
    | store =>
      obtain ⟨rfl, rfl⟩ := List.cons.inj hstack
      exact ⟨_, rfl, hopened.trans (map_update hk _).symm, stack, by simp⟩
    | other hknown => cases hknown
  | enter =>
    obtain ⟨stack, hstack⟩ := hstage
    cases hi with
    | enter =>
      obtain ⟨hx, -⟩ := List.cons.inj hstack
      exact ⟨_, Watch.Sees.entered.all, congrArg₂ List.cons hx hopened, trivial⟩
    | other hknown => cases hknown
  | fetch =>
    cases hi with
    | load => exact ⟨_, rfl, hopened, _, rfl⟩
    | other hknown => cases hknown
  | exit =>
    obtain ⟨stack, hstack⟩ := hstage
    cases hi with
    | exit =>
      obtain ⟨hx, -⟩ := List.cons.inj hstack
      exact ⟨_, (sees_exited hopened hx).all, rfl, trivial⟩
    | other hknown => cases hknown
  | save hk =>
    obtain ⟨v, stack, hstack, hlatest⟩ := hstage
    cases hi with
    | store =>
      obtain ⟨rfl, rfl⟩ := List.cons.inj hstack
      refine ⟨_, rfl, hopened.trans (map_update hk _).symm, hlatest.trans ?_⟩
      simp
    | other hknown => cases hknown
  | fetchSaved =>
    cases hi with
    | load => exact ⟨_, rfl, hopened, hstage, _, rfl⟩
    | other hknown => cases hknown
  | exitSaved =>
    obtain ⟨hlatest, stack, hstack⟩ := hstage
    cases hi with
    | exit =>
      obtain ⟨hx, -⟩ := List.cons.inj hstack
      exact ⟨_, (sees_exited hopened hx).all, rfl, hlatest⟩
    | other hknown => cases hknown
  | fetchThrown =>
    cases hi with
    | load => exact ⟨_, rfl, hopened, _, _, rfl, hstage⟩
    | other hknown => cases hknown
  | ordinary hmonitor hstores =>
    obtain ⟨rfl, hlocals⟩ := hi.ordinary hmonitor
    refine ⟨_, rfl, hopened.trans (List.map_congr_left fun k hk => ?_), trivial⟩
    exact (hlocals k (hstores k hk)).symm

/-- A handler never gets stuck. -/
theorem Leads.goesOn (h : Leads μ i ν) (hsure : μ.stage.isSure) (hμ : μ.Allows m w) :
    i.fallsThrough ∧ ∃ es m', i.Completes m es m' := by
  obtain ⟨locals, stack⟩ := m
  have hstage := hμ.stage
  cases h with
  | save =>
    obtain ⟨v, stack, hstack, -⟩ := hstage
    simp only at hstack
    subst hstack
    exact ⟨rfl, _, _, .store _⟩
  | fetchSaved | fetchThrown => exact ⟨rfl, _, _, .load _⟩
  | exitSaved =>
    obtain ⟨-, stack', hstack⟩ := hstage
    simp only at hstack
    subst hstack
    exact ⟨rfl, _, _, .exit⟩
  | _ => cases hsure

end Mark

/-! ## Marked lists -/

namespace Machine

/-- The marks of the places of a list fit each other. -/
structure Marked (M : Machine V) (marks : Nat → Option Mark) : Prop where
  /-- The machine is sure of the handlers. -/
  sure : ∀ {pc μ}, marks pc = some μ → M.sure pc = μ.stage.isSure
  marker : ∀ {pc n}, M.list.nodes[pc]? = some n → n.isReal = false → marks (pc + 1) = marks pc
  next : ∀ {pc i μ}, M.list.nodes[pc]? = some (.instr i) → marks pc = some μ → i.fallsThrough →
    ∃ ν, marks (pc + 1) = some ν ∧ Mark.Leads μ i ν
  jump : ∀ {pc i μ lab}, M.list.nodes[pc]? = some (.instr i) → marks pc = some μ →
    lab ∈ i.targets → ∃ pc', M.position? lab = some pc' ∧ marks pc' = some μ ∧ Mark.Leads μ i μ
  back : ∀ {pc pc' k}, M.list.nodes[pc]? = some (.instr (.var Opcode.ret k)) → M.back pc pc' →
    marks pc' = marks pc
  returns : ∀ {pc op μ}, M.list.nodes[pc]? = some (.instr (.plain op)) → marks pc = some μ →
    Opcode.isReturn op → μ.held = []
  /-- A handler goes on, or throws again what it caught. -/
  handler : ∀ {pc i μ}, M.list.nodes[pc]? = some (.instr i) → marks pc = some μ →
    μ.stage.isSure → (∃ ν, Mark.Leads μ i ν) ∨ i = .plain Opcode.athrow ∧ μ.stage = .rethrowing
  /-- An exception comes to where the same monitors are entered, and if there is no handler for it,
  then no monitor is entered. -/
  raises : ∀ {pc i μ}, M.list.nodes[pc]? = some (.instr i) → marks pc = some μ →
    (μ.stage.isSure → i = .plain Opcode.athrow) → ∀ v,
      match M.block? pc v with
      | some b => ∃ h, M.position? b.handler = some h ∧
          (marks h = some ⟨μ.held, .ordinary⟩ ∨ marks h = some ⟨μ.held, .caught⟩)
      | none => μ.held = []

end Machine

/-- What is known when a run has come somewhere. -/
def Config.Guarded (marks : Nat → Option Mark) (w : Watch V) : Config V → Prop
  | .running pc m => ∃ μ, marks pc = some μ ∧ μ.Allows m w
  | .left v => w.opened = [] ∧ w.latest = some v
  | .returned => w.opened = []

namespace Machine.Marked

variable {M : Machine V} {marks : Nat → Option Mark} {pc : Nat} {i : Instr Label} {μ : Mark}
  {m : Memory V} {w : Watch V} {c c' : Config V} {es : List (Event V)}

/-- The latest exception comes to a handler, or it leaves the code. -/
theorem raised (hM : M.Marked marks) (hn : M.list.nodes[pc]? = some (.instr i))
    (hμ : marks pc = some μ) (hi : μ.stage.isSure → i = .plain Opcode.athrow)
    {locals : Nat → V} {v : V} (hopened : w.opened = μ.held.map locals)
    (hlatest : w.latest = some v) (hc : M.Raises pc locals v c) : c.Guarded marks w := by
  have hraises := hM.raises hn hμ hi v
  cases hc with
  | left hnone =>
    simp only [hnone] at hraises
    rw [hraises] at hopened
    exact ⟨hopened, hlatest⟩
  | @caught b h hb hh =>
    simp only [hb, hh, Option.some.injEq, exists_eq_left'] at hraises
    rcases hraises with hmark | hmark
    · exact ⟨_, hmark, hopened, trivial⟩
    · exact ⟨_, hmark, hopened, v, [], rfl, hlatest⟩

theorem exists_raises (hM : M.Marked marks) (hn : M.list.nodes[pc]? = some (.instr i))
    (hμ : marks pc = some μ) (hi : μ.stage.isSure → i = .plain Opcode.athrow)
    (locals : Nat → V) (v : V) : ∃ c, M.Raises pc locals v c := by
  have hraises := hM.raises hn hμ hi v
  cases hb : M.block? pc v with
  | none => exact ⟨_, .left hb⟩
  | some b =>
    simp only [hb] at hraises
    obtain ⟨h, hh, -⟩ := hraises
    exact ⟨_, .caught hb hh⟩

theorem step (hM : M.Marked marks) (hc : c.Guarded marks w) (hs : M.Step c es c') :
    ∃ w', w.SeesAll es w' ∧ c'.Guarded marks w' := by
  cases hs with
  | marker hn hreal =>
    obtain ⟨μ, hμ, hallows⟩ := hc
    exact ⟨w, rfl, μ, (hM.marker hn hreal).trans hμ, hallows⟩
  | next hn hfall hi =>
    obtain ⟨μ, hμ, hallows⟩ := hc
    obtain ⟨ν, hν, hleads⟩ := hM.next hn hμ hfall
    obtain ⟨w', hw', hafter⟩ := hleads.completes hallows hi
    exact ⟨w', hw', ν, hν, hafter⟩
  | jump hn hlab hpc hi =>
    obtain ⟨μ, hμ, hallows⟩ := hc
    obtain ⟨pc', hpc', hμ', hleads⟩ := hM.jump hn hμ hlab
    obtain rfl := Option.some.inj (hpc.symm.trans hpc')
    obtain ⟨w', hw', hafter⟩ := hleads.completes hallows hi
    exact ⟨w', hw', μ, hμ', hafter⟩
  | back hn hback =>
    obtain ⟨μ, hμ, hallows⟩ := hc
    exact ⟨w, rfl, μ, (hM.back hn hback).trans hμ, hallows⟩
  | returns hn hop =>
    obtain ⟨μ, hμ, hallows⟩ := hc
    refine ⟨w, rfl, hallows.opened.trans ?_⟩
    rw [hM.returns hn hμ hop]
    rfl
  | @fails pc i m v c hn hsure hc' =>
    obtain ⟨μ, hμ, hallows⟩ := hc
    refine ⟨⟨w.opened, some v⟩, Watch.Sees.thrown.all, ?_⟩
    have hnot : μ.stage.isSure → i = .plain Opcode.athrow := by
      rw [← hM.sure hμ, hsure]
      exact fun h => by cases h
    exact hM.raised hn hμ hnot hallows.opened rfl hc'
  | @throws pc locals v stack c hn hc' =>
    obtain ⟨μ, hμ, hallows⟩ := hc
    by_cases hsure : μ.stage.isSure
    · rw [hM.sure hμ, if_pos hsure]
      have hlatest : w.latest = some v := by
        rcases hM.handler hn hμ hsure with ⟨ν, hleads⟩ | ⟨-, hstage⟩
        · exact absurd (hleads.goesOn hsure hallows).1 (by decide)
        · have hcaught := hallows.stage
          rw [hstage] at hcaught
          obtain ⟨v', stack', hstack, hlatest⟩ := hcaught
          obtain ⟨rfl, -⟩ := List.cons.inj hstack
          exact hlatest
      obtain ⟨opened, latest⟩ := w
      obtain rfl := hlatest
      exact ⟨_, Watch.Sees.rethrown.all, hM.raised hn hμ (fun _ => rfl) hallows.opened rfl hc'⟩
    · rw [hM.sure hμ, if_neg hsure]
      refine ⟨⟨w.opened, some v⟩, Watch.Sees.thrown.all, ?_⟩
      exact hM.raised hn hμ (fun _ => rfl) hallows.opened rfl hc'

/-- **Whatever a run does, the marks are right.** -/
theorem runs (hM : M.Marked marks) (hc : c.Guarded marks w) (hr : M.Runs c es c') :
    ∃ w', w.SeesAll es w' ∧ c'.Guarded marks w' := by
  induction hr with
  | refl => exact ⟨w, rfl, hc⟩
  | snoc _ hs ih =>
    obtain ⟨w', hw', hc'⟩ := ih
    obtain ⟨w'', hw'', hc''⟩ := hM.step hc' hs
    exact ⟨w'', hw'.append hw'', hc''⟩

/-- Inside the list, a run can always go on. -/
theorem goesOn [Nonempty V] (hM : M.Marked marks) (hc : (Config.running pc m).Guarded marks w)
    (hpc : pc < M.list.nodes.size) : ∃ es c', M.Step (.running pc m) es c' := by
  obtain ⟨μ, hμ, hallows⟩ := hc
  have hn := Array.getElem?_eq_getElem hpc
  cases hnode : M.list.nodes[pc] with
  | label | line =>
    rw [hnode] at hn
    exact ⟨_, _, .marker hn rfl⟩
  | instr i =>
    rw [hnode] at hn
    by_cases hsure : μ.stage.isSure
    · rcases hM.handler hn hμ hsure with ⟨ν, hleads⟩ | ⟨rfl, hstage⟩
      · obtain ⟨hfall, es, m', hi⟩ := hleads.goesOn hsure hallows
        exact ⟨_, _, .next hn hfall hi⟩
      · have hcaught := hallows.stage
        rw [hstage] at hcaught
        obtain ⟨v, stack, hstack, -⟩ := hcaught
        obtain ⟨c, hc⟩ := hM.exists_raises hn hμ (fun _ => rfl) m.locals v
        obtain ⟨locals, _⟩ := m
        subst hstack
        exact ⟨_, _, .throws hn hc⟩
    · obtain ⟨v⟩ := ‹Nonempty V›
      obtain ⟨c, hc⟩ := hM.exists_raises hn hμ (fun h => absurd h hsure) m.locals v
      refine ⟨_, _, .fails hn ?_ hc⟩
      rw [hM.sure hμ]
      exact Bool.eq_false_iff.mpr hsure

end Machine.Marked
end ClassWeave
