import ClassWeave.Build.Basic
import ClassWeave.Proofs.CodeReading
import ClassWeave.Proofs.ScratchStores

/-!
# Scratch locals

Code that goes into a method takes the locals that it needs from behind all that the method uses.
The builder finds the first of them by looking at the instructions, one by one
(`Builder.firstFree`); how many locals the method takes up is found by the analysis, from what flows
through its stores. The two agree: no frame of an analysis takes up more than the slots in front of
the first scratch local, since all that an instruction can add to a frame is the variable that it
names.

From this it follows that stores to scratch locals are not noticed (`Analysis.leaves_free`), however
wide they are and wherever they are made.
-/

namespace ClassWeave

/-! ## The room that frames take up -/

/-- The locals of a frame end in front of a slot. -/
structure Frame.FitsBelow (first : Nat) (f : Frame) : Prop where
  length : f.locals.length ≤ first
  closed : Frame.Closed f.locals

namespace Frame.FitsBelow

variable {first : Nat} {f f' : Frame}

theorem wholeBelow (hf : f.FitsBelow first) : WholeBelow first f.locals :=
  hf.closed.wholeBelow hf.length

theorem step {τ : Type} {p : Program} {i : Nat} {ins : Instr τ} (hbelow : ins.StaysBelow first)
    (hf : f.FitsBelow first) (hstep : p.step i ins f = .ok f') : f'.FitsBelow first := by
  -- the comparison of the frame with itself tells how far a step makes it longer
  obtain ⟨_, -, hstays⟩ := Program.step_shares hbelow hf.wholeBelow.shares hstep
  have := hstays.length
  have := hf.length
  exact ⟨by omega, hstays.closed hf.closed⟩

theorem merge {h : Hierarchy} {mode : Mode} {r : Option Frame} (hf : f.FitsBelow first)
    (hf' : f'.FitsBelow first) (hm : f.merge h mode f' = .ok r) : (r.getD f).FitsBelow first := by
  refine ⟨?_, (merge_merged hf.closed hf'.closed hm).closed⟩
  obtain ⟨-, stack, -, rfl⟩ := merge_eq_ok hm
  -- nothing changes, or the locals are no more than those of either frame
  split
  · exact hf.length
  · exact Nat.le_trans (length_mergeLocals_le hf.closed hf'.closed) hf'.length

/-- A handler gets the locals, and nothing but the exception. -/
theorem raised (hf : f.FitsBelow first) (stack : List NamedType) :
    Frame.FitsBelow first ⟨f.locals, stack⟩ := ⟨hf.length, hf.closed⟩

end Frame.FitsBelow

namespace Work

variable {first : Nat} {g : FlowGraph} {w w' : Work}

/-- All that was found so far ends in front of a slot. -/
structure FitsBelow (first : Nat) (w : Work) : Prop where
  frames : ∀ {i f}, w.frame? i = some f → f.FitsBelow first
  locals : w.maxLocals ≤ first

theorem FitsBelow.update (hw : w.FitsBelow first) {t : Nat} {f : Frame} (ht : t < w.frames.size)
    (hf : f.FitsBelow first) : (w.update t f).FitsBelow first := by
  obtain ⟨-, -, -, hlocals⟩ := update_sizes (w := w) t f
  refine ⟨fun {j u} hj => ?_, hlocals ▸ hw.locals⟩
  rw [frame?_update ht] at hj
  by_cases hjt : j = t
  · rw [if_pos hjt, Option.some.injEq] at hj
    exact hj ▸ hf
  · rw [if_neg hjt] at hj
    exact hw.frames hj

theorem FitsBelow.follow (hw : w.FitsBelow first) {source : Nat} {e : Nat × Frame}
    (he : e.2.FitsBelow first) (hok : Work.follow g source w e = .ok w') :
    w'.FitsBelow first := by
  unfold Work.follow at hok
  split at hok
  · cases hok
  · rename_i hnone
    obtain ⟨hlt, -⟩ := Array.getElem?_eq_some_iff.mp hnone
    rw [← Except.ok.inj hok]
    exact hw.update hlt he
  · rename_i f hsome
    obtain ⟨hlt, -⟩ := Array.getElem?_eq_some_iff.mp hsome
    have hf := hw.frames (frame?_eq_some.mpr hsome)
    split at hok
    · cases hok
    · rw [← Except.ok.inj hok]
      exact hw
    · rename_i merged hm
      rw [← Except.ok.inj hok]
      exact hw.update hlt (hf.merge he hm)

theorem FitsBelow.follow_all {source : Nat} {es : List (Nat × Frame)} (hw : w.FitsBelow first)
    (hes : ∀ e ∈ es, e.2.FitsBelow first)
    (hok : es.foldlM (Work.follow g source) w = .ok w') : w'.FitsBelow first := by
  induction es generalizing w with
  | nil => exact pure_eq_ok.mp hok ▸ hw
  | cons e es ih =>
    rw [List.foldlM_cons] at hok
    obtain ⟨w1, h1, hok⟩ := bind_eq_ok.mp hok
    exact ih (hw.follow (hes e List.mem_cons_self) h1)
      (fun e' he' => hes e' (List.mem_cons_of_mem _ he')) hok

section

variable (hbelow : ∀ ins, .instr ins ∈ g.program.nodes → ins.StaysBelow first)

include hbelow

theorem FitsBelow.edges {i : Nat} {n : Node} {f after : Frame} {es : List (Nat × Frame)}
    (hf : f.FitsBelow first) (hn : g.program.nodes[i]? = some n)
    (hedges : g.edges i n f = .ok (after, es)) :
    after.FitsBelow first ∧ ∀ e ∈ es, e.2.FitsBelow first := by
  have hafter : after.FitsBelow first := by
    by_cases hreal : n.isReal
    · obtain ⟨ins, rfl⟩ := Node.exists_instr hreal
      exact hf.step (hbelow ins (Array.mem_of_getElem? hn)) (FlowGraph.edges_instr hedges).1
    · rw [FlowGraph.edges_other (by simpa using hreal), Except.ok.injEq, Prod.mk.injEq] at hedges
      exact hedges.1 ▸ hf
  refine ⟨hafter, fun e he => ?_⟩
  cases (FlowGraph.mem_edges hedges).mp he with
  | pass => exact hf
  | raise _ _ _ hcase =>
    rcases hcase with rfl | rfl
    · exact hf.raised _
    · exact hafter.raised _
  | jump | next => exact hafter

/-- What a look does. -/
theorem FitsBelow.visit (hw : w.FitsBelow first) {i : Nat} (hok : Work.visit g w i = .ok w') :
    w'.FitsBelow first := by
  unfold Work.visit at hok
  simp only at hok
  split at hok
  · rename_i f n hf hn
    have hf : f.FitsBelow first := hw.frames hf
    obtain ⟨⟨after, es⟩, hedges, hok⟩ := bind_eq_ok.mp hok
    obtain ⟨hafter, hes⟩ := FitsBelow.edges hbelow hf hn hedges
    have hcover : FitsBelow first
        (({ w with queued := w.queued.setIfInBounds i false } : Work).cover f |>.cover after) :=
      ⟨hw.frames, Nat.max_le.mpr ⟨Nat.max_le.mpr ⟨hw.locals, hf.length⟩, hafter.length⟩⟩
    exact hcover.follow_all hes hok
  · rw [← Except.ok.inj hok]
    exact ⟨hw.frames, hw.locals⟩

/-- What a whole search does. -/
theorem Turns.fitsBelow (hw : w.FitsBelow first) (ht : Turns g w w') : w'.FitsBelow first := by
  induction ht with
  | refl => exact hw
  | @tail v _ _ ht ih =>
    obtain ⟨i, -, hok⟩ := ht
    have hrest : FitsBelow first { v with pending := v.pending.erase i } := ⟨ih.frames, ih.locals⟩
    exact hrest.visit hbelow hok

end

theorem fitsBelow_start {count : Nat} {entry : Frame} (hentry : entry.FitsBelow first) :
    (start count entry).FitsBelow first := by
  refine ⟨fun {i f} hf => ?_, hentry.length⟩
  obtain ⟨-, rfl⟩ := frame?_start hf
  exact hentry

end Work

/-- How many slots `this` and the parameters take up. -/
theorem Frame.length_entry {m : MethodContext} {t : MethodType} {f : Frame}
    (htype : MethodType.parse? m.descriptor = some t) (hf : Frame.entry m = .ok f) :
    f.locals.length = (if m.isStatic then 0 else 1) + t.parameterSlots := by
  have hreceiver : (receiver m).length = if m.isStatic then 0 else 1 := by
    unfold receiver
    split
    · rfl
    · split <;> rfl
  have hslots : ∀ u : FieldType, (slotsOf (VType.ofField u)).length = u.slots := by
    intro u
    cases u with
    | base b => cases b <;> rfl
    | object | array => rfl
  simp only [entry, htype, Except.ok.injEq] at hf
  rw [← hf, List.length_append, hreceiver, List.length_flatMap, MethodType.parameterSlots]
  simp only [hslots, List.sum_eq_foldl, List.foldl_map]

namespace Analysis

variable {first : Nat} {m : MethodContext} {l : InstrList} {pool : Pool} {h : Hierarchy}
  {mode : Mode} {a : Analysis}

/-- The frames of an analysis end where the entry and the code do. -/
theorem fitsBelow (hbelow : l.StaysBelow first) {entry : Frame} (hentry : Frame.entry m = .ok entry)
    (hlen : entry.locals.length ≤ first) (ha : analyze m l pool h mode = .ok a) :
    a.maxLocals ≤ first ∧
      ∀ (i : Nat) (f : Frame), a.frames[i]? = some (some f) → f.FitsBelow first := by
  obtain ⟨g, entry', w, hs⟩ := searched_of_analyze ha
  obtain rfl := Except.ok.inj (hentry.symm.trans hs.start)
  have hnodes : ∀ ins, .instr ins ∈ g.program.nodes → ins.StaysBelow first := by
    rw [hs.program]
    exact hbelow
  have hw : w.FitsBelow first := hs.ends.turns.fitsBelow hnodes
    (Work.fitsBelow_start ⟨hlen, (Frame.entry_sound hentry).closed⟩)
  rw [hs.result]
  exact ⟨hw.locals, fun i f hf => hw.frames (Work.frame?_eq_some.mpr hf)⟩

end Analysis

/-! ## What instructions name -/

/-- Local variables are named by operands, not by short forms of opcodes. -/
def InstrList.NamesLocals (l : InstrList) : Prop :=
  ∀ op, .instr (.plain op) ∈ l.nodes → (Instr.plain op : Instr Label).local? = none

/-- What is moved depends on the opcode alone. -/
theorem Instr.local?_var {τ : Type} (op : UInt8) (i : UInt16) : (Instr.var op i : Instr τ).local? =
    (Instr.var op 0 : Instr τ).local?.map fun e => (i, e.2) := by
  simp only [Instr.local?]
  split
  · rfl
  · split
    · rfl
    · split <;> rfl

/-- The opcodes without operands that are read as such leave locals alone. -/
theorem Instr.local?_of_isPlain : ∀ op : UInt8, Opcode.isPlain op = true →
    (Instr.plain op : Instr Label).local? = none :=
  Code.forall_u8 (by decide +kernel)

open Code in
/-- Decoded code names its locals. -/
theorem Code.namesLocals_of_decode {ctx : Context} {code : List UInt8}
    {handlers : List HandlerEntry} {lines : List LineEntry} {l : InstrList} {offsets : List Nat}
    (hp : ctx.pool.FieldHandles) (h : decode ctx code handlers lines = .ok (l, offsets)) :
    l.NamesLocals := by
  obtain ⟨instrs, hread⟩ := read_of_decode hp h
  intro op hmem
  rw [hread.nodes, List.mem_toArray] at hmem
  obtain ⟨b, hb, hnode⟩ := List.mem_map.mp hmem
  rcases mem_entries.mp hb with ⟨p, hp, hmark | rfl⟩ | ⟨_, -, rfl⟩
  · have hreal := (marksAt_mark hmark).1
    rw [hnode] at hreal
    cases hreal
  · have hplain : p.2 = .plain op := by
      revert hnode
      cases p.2 <;> simp [Instr.map]
    have hdoc := hread.documented p hp
    rw [hplain] at hdoc
    exact Instr.local?_of_isPlain op hdoc
  · cases hnode

namespace Builder

/-- The wide accesses to a variable are those that move values of a wide kind. -/
theorem slotsUsed_of_opcode : ∀ n : Fin 256,
    ∀ e ∈ (Instr.var (UInt8.ofFin n) 0 : Instr Label).local?,
      slotsUsed (.instr (.var (UInt8.ofFin n) 0)) = e.2.slots := by
  decide +kernel

/-- The builder counts at least the slots that an instruction touches. -/
theorem le_slotsUsed {ins : Instr Label} (hplain : ∀ op, ins = .plain op → ins.local? = none) :
    ins.StaysBelow (slotsUsed (.instr ins)) := by
  intro index kind hlocal
  cases ins with
  | plain op => rw [hplain op rfl] at hlocal; cases hlocal
  | var op i =>
    rw [Instr.local?_var] at hlocal
    obtain ⟨e, he, heq⟩ := Option.map_eq_some_iff.mp hlocal
    obtain ⟨rfl, rfl⟩ := Prod.mk.inj heq
    have hslots := slotsUsed_of_opcode op.toFin e he
    rw [← hslots]
    simp [slotsUsed]
  | increment i n =>
    obtain ⟨rfl, rfl⟩ := Prod.mk.inj (Option.some.inj hlocal)
    exact Nat.le_refl _
  | _ => cases hlocal

/-- A body ends behind what it declares and behind what its instructions name. -/
theorem MethodBody.le_slotsUsed (body : MethodBody) : body.maxLocals.toNat ≤ slotsUsed body ∧
    ∀ node ∈ body.list.nodes, Builder.slotsUsed node ≤ slotsUsed body := by
  have hfold : ∀ (nodes : List Node) (n : Nat),
      n ≤ nodes.foldl (fun n node => max n (Builder.slotsUsed node)) n ∧
        ∀ node ∈ nodes, Builder.slotsUsed node ≤
          nodes.foldl (fun n node => max n (Builder.slotsUsed node)) n := by
    intro nodes
    induction nodes with
    | nil => exact fun n => ⟨Nat.le_refl n, by simp⟩
    | cons node nodes ih =>
      intro n
      obtain ⟨hstart, hall⟩ := ih (max n (Builder.slotsUsed node))
      refine ⟨Nat.le_trans (Nat.le_max_left _ _) hstart, fun other hmem => ?_⟩
      rcases List.mem_cons.mp hmem with rfl | hmem
      · exact Nat.le_trans (Nat.le_max_right _ _) hstart
      · exact hall other hmem
  unfold slotsUsed
  rw [← Array.foldl_toList]
  obtain ⟨hstart, hall⟩ := hfold body.list.nodes.toList body.maxLocals.toNat
  exact ⟨hstart, fun node hmem => hall node (Array.mem_toList_iff.mpr hmem)⟩

/-- Where the locals of a builder for a method begin. -/
theorem nextLocal_of_forMethod {m : MethodModel} {b : Builder} (hb : forMethod m = .ok b) :
    ∃ t, MethodType.parse? m.descriptor = some t ∧
      b.nextLocal.toNat = max ((if m.isStatic then 0 else 1) + t.parameterSlots)
        (m.body.elim 0 MethodBody.slotsUsed) := by
  unfold forMethod at hb
  obtain ⟨n, hn, hb⟩ := bind_eq_ok.mp hb
  split at hb
  · rename_i hle
    obtain rfl := pure_eq_ok.mp hb
    unfold firstFree MethodType.parse at hn
    cases htype : MethodType.parse? m.descriptor with
    | none =>
      rw [htype] at hn
      cases hn
    | some t =>
      rw [htype] at hn
      refine ⟨t, rfl, ?_⟩
      rw [show _ = n from Except.ok.inj hn]
      show (UInt16.ofNat n).toNat = n
      rw [UInt16.toNat_ofNat', Nat.mod_eq_of_lt (by omega)]
  · cases hb

/-- Code that names its locals ends in front of the locals of a builder for it. -/
theorem staysBelow_of_forMethod {m : MethodModel} {b : Builder} {body : MethodBody}
    (hbody : m.body = some body) (hnamed : body.list.NamesLocals)
    (hb : forMethod m = .ok b) : body.list.StaysBelow b.nextLocal.toNat := by
  obtain ⟨t, -, hnext⟩ := nextLocal_of_forMethod hb
  rw [hbody] at hnext
  intro ins hmem index kind hlocal
  have hused : ins.StaysBelow (slotsUsed (.instr ins)) := le_slotsUsed fun op hop => by
    subst hop
    exact hnamed op hmem
  have htouched := hused index kind hlocal
  have hle := (MethodBody.le_slotsUsed body).2 _ hmem
  have : MethodBody.slotsUsed body ≤ b.nextLocal.toNat := by
    rw [hnext]
    exact Nat.le_max_right _ _
  omega

end Builder

/-! ## Scratch locals of a method -/

/-- The locals from a slot on are free: the method `m` with the code `body`, and what the analysis
finds about it, end in front of it, and stores from there on are not noticed when the code runs as
the program `p`. -/
structure Analysis.LeavesFree (first : Nat) (a : Analysis) (m : MethodContext) (body : MethodBody)
    (p : Program) : Prop where
  /-- The room that the analysis asks for. -/
  analyzed : a.maxLocals ≤ first
  /-- `this` and the parameters. -/
  parameters : ∃ t, MethodType.parse? m.descriptor = some t ∧
    (if m.isStatic then 0 else 1) + t.parameterSlots ≤ first
  /-- The room that the method asks for itself. -/
  declared : body.maxLocals.toNat ≤ first
  /-- All locals that are read or stored, with the second halves of wide values. -/
  touched : body.list.StaysBelow first
  /-- No store from there on changes a slot of a recorded frame that the method uses. -/
  recorded : ∀ (i : Nat) (f : Frame), a.frames[i]? = some (some f) → f.SafeBelow first
  /-- Nor does one on a path, whatever was stored before, and the code does the same. -/
  paths : ∃ entry, Frame.entry m = .ok entry ∧ ∀ d, (∀ x, Frame.Scratched first x.2 (d x)) →
    p.Undisturbed first body.list d entry

/-- The code of a method as a program. -/
def InstrList.program (l : InstrList) (m : MethodContext) (pool : Pool) (h : Hierarchy)
    (mode : Mode) : Program :=
  ⟨m, l.nodes, pool, h, mode, (MethodType.parse? m.descriptor).bind MethodType.result⟩

namespace Analysis

/-- **Scratch locals start behind everything that a method uses.** If the code of a method names its
locals and the analysis accepts it, trusting it or not, then the first local that a builder for
the method hands out is behind the room that the analysis asks for, `this` and the parameters,
the declared room and every local that an instruction touches; and stores from there on, however
wide and wherever they are made, change nothing that the code reads. -/
theorem leaves_free {cls : String} {m : MethodModel} {body : MethodBody} {b : Builder}
    {pool : Pool} {h : Hierarchy} {mode : Mode} {a : Analysis} (hbody : m.body = some body)
    (hnamed : body.list.NamesLocals) (hb : Builder.forMethod m = .ok b)
    (ha : analyze ⟨cls, m.name, m.descriptor, m.isStatic⟩ body.list pool h mode = .ok a) :
    a.LeavesFree b.nextLocal.toNat ⟨cls, m.name, m.descriptor, m.isStatic⟩ body
      (body.list.program ⟨cls, m.name, m.descriptor, m.isStatic⟩ pool h mode) := by
  have hbelow := Builder.staysBelow_of_forMethod hbody hnamed hb
  obtain ⟨t, htype, hnext⟩ := Builder.nextLocal_of_forMethod hb
  rw [hbody] at hnext
  have hparams : (if m.isStatic then 0 else 1) + t.parameterSlots ≤ b.nextLocal.toNat := by
    rw [hnext]
    exact Nat.le_max_left _ _
  have hdeclared : body.maxLocals.toNat ≤ b.nextLocal.toNat := by
    rw [hnext]
    exact Nat.le_trans (Builder.MethodBody.le_slotsUsed body).1 (Nat.le_max_right _ _)
  obtain ⟨g, entry, w, hs⟩ := searched_of_analyze ha
  -- the search starts with `this` and the parameters, and adds only what instructions touch
  have hlen : entry.locals.length ≤ b.nextLocal.toNat := by
    rw [Frame.length_entry htype hs.start]
    exact hparams
  obtain ⟨hroom, hframes⟩ := fitsBelow hbelow hs.start hlen ha
  refine ⟨hroom, ⟨t, htype, hparams⟩, hdeclared, hbelow, ?_, entry, hs.start, fun d hd => ?_⟩
  · intro i f hf
    exact (hframes i f hf).wholeBelow.safe
  · exact Program.undisturbed hbelow hd
      ((Frame.entry_sound hs.start).closed.wholeBelow hlen)

/-! ## A copy that no room is declared for -/

/-- Copies a wide argument. -/
def copying : MethodBody where
  list := ⟨#[.instr (.var (Opcode.load .long) 0), .instr (.var (Opcode.store .long) 2),
    .instr (.plain Opcode.vreturn)], #[], []⟩
  maxStack := 2
  maxLocals := 2
  attributes := []

def copyMethod : MethodModel := ⟨8, "copy", "(J)V", some copying, []⟩

theorem forMethod_copyMethod : Builder.forMethod copyMethod = .ok (.startingAt 4) := by
  have htype : MethodType.parse? copyMethod.descriptor = some ⟨[.base .long], none⟩ := by
    decide +kernel
  have hfirst : Builder.firstFree copyMethod = .ok 4 := by
    unfold Builder.firstFree MethodType.parse
    rw [htype]
    rfl
  unfold Builder.forMethod
  rw [hfirst]
  rfl

theorem analyze_copying :
    analyze ⟨"Copy", copyMethod.name, copyMethod.descriptor, copyMethod.isStatic⟩ copying.list
      .empty .unknown .lenient =
      .ok ⟨#[some ⟨[.long, .top], []⟩, some ⟨[.long, .top], [.long]⟩,
        some ⟨[.long, .top, .long, .top], []⟩], 2, 4⟩ := by
  have hrun : Work.run ⟨⟨⟨"Copy", copyMethod.name, copyMethod.descriptor, copyMethod.isStatic⟩,
      copying.list.nodes, .empty, .unknown, .lenient, none⟩, #[], []⟩
      (.start 3 ⟨[.long, .top], []⟩) = some (.ok ⟨#[some ⟨[.long, .top], []⟩,
        some ⟨[.long, .top], [.long]⟩, some ⟨[.long, .top, .long, .top], []⟩],
        #[false, false, false], [], 2, 4⟩) :=
    (Work.run_of_visit rfl rfl).trans ((Work.run_of_visit rfl rfl).trans
      ((Work.run_of_visit rfl rfl).trans (Work.run_of_pending_nil rfl)))
  exact analyze_of_run (t := ⟨[.base .long], none⟩) (by decide +kernel) rfl rfl
    (by decide +kernel) rfl hrun

theorem copying_leaves_free : copying.list.NamesLocals ∧
    Analysis.LeavesFree 4 ⟨#[some ⟨[.long, .top], []⟩, some ⟨[.long, .top], [.long]⟩,
        some ⟨[.long, .top, .long, .top], []⟩], 2, 4⟩
      ⟨"Copy", copyMethod.name, copyMethod.descriptor, copyMethod.isStatic⟩ copying
      (copying.list.program ⟨"Copy", copyMethod.name, copyMethod.descriptor,
        copyMethod.isStatic⟩ .empty .unknown .lenient) := by
  have hnamed : copying.list.NamesLocals := by
    intro op hmem
    obtain rfl : op = Opcode.vreturn := by simpa [copying] using hmem
    rfl
  exact ⟨hnamed, leaves_free rfl hnamed forMethod_copyMethod analyze_copying⟩

end Analysis
end ClassWeave
