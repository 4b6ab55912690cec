import ClassWeave.Proofs.PathSoundness

/-!
# Where control comes to

What an analysis reaches does not depend on its frames: it is what control comes to from the first
entry, whatever the hierarchy says and whether the code is trusted or not.
-/

namespace ClassWeave

/-- Control comes to the entry. -/
inductive InstrList.Led (l : InstrList) : Nat → Prop
  | first : Led l 0
  | pass {i : Nat} {n : Node} (hi : Led l i) (hn : l.nodes[i]? = some n) (hreal : n.isReal = false) :
      Led l (i + 1)
  | next {i : Nat} {ins : Instr Label} (hi : Led l i) (hn : l.nodes[i]? = some (.instr ins))
      (hfall : ins.fallsThrough) : Led l (i + 1)
  | jump {i j : Nat} {ins : Instr Label} {lab : Label} (hi : Led l i)
      (hn : l.nodes[i]? = some (.instr ins)) (hlab : lab ∈ ins.targets)
      (hj : lab.position? l.labelPositions = some j) : Led l j
  | raise {i j : Nat} {ins : Instr Label} {b : TryBlock} (hi : Led l i)
      (hn : l.nodes[i]? = some (.instr ins)) (hb : b.Around l i)
      (hj : b.handler.position? l.labelPositions = some j) : Led l j

namespace Analysis

variable {m : MethodContext} {l : InstrList} {pool : Pool} {h : Hierarchy} {mode : Mode}
  {a : Analysis}

/-- A handler of the graph is that of a block. -/
theorem Begins.block {g : FlowGraph} {entry : Frame}
    (hs : Begins m l pool h mode g entry) {k : Handler} (hk : k ∈ g.handlers) :
    ∃ b ∈ l.blocks, b.start.position? l.labelPositions = some k.start ∧
      b.stop.position? l.labelPositions = some k.stop ∧
      b.handler.position? l.labelPositions = some k.target ∧ [k.catchType] = b.caught := by
  obtain ⟨b, hb, hhandler⟩ := exists_of_forall₂ hs.handlers.flip hk
  obtain ⟨hstart, hstop, htarget, hcaught⟩ := FlowGraph.handler_eq_ok.mp hhandler
  exact ⟨b, hb, hstart, hstop, htarget, by rw [hcaught, TryBlock.caught]⟩

/-- What an exception leaves is an object. -/
theorem Begins.caught {g : FlowGraph} {entry : Frame}
    (hs : Begins m l pool h mode g entry) {k : Handler} (hk : k ∈ g.handlers) :
    VType.IsSettled k.catchType := by
  obtain ⟨b, -, -, -, -, hcaught⟩ := hs.block hk
  rw [(List.cons.inj hcaught).1]
  trivial

theorem Begins.good_led {g : FlowGraph} {entry : Frame}
    (hs : Begins m l pool h mode g entry) : Work.Good g fun i _ => l.Led i where
  edges := by
    intro i f n after es hi hn hedges e he
    rw [hs.program] at hn
    cases (FlowGraph.mem_edges hedges).mp he with
    | pass hmark => exact hi.pass hn hmark
    | raise hk hstart hstop _ =>
      obtain ⟨b, hb, hfrom, hto, htarget, -⟩ := hs.block hk
      exact hi.raise hn ⟨hb, ⟨_, hfrom, hstart⟩, ⟨_, hto, hstop⟩⟩ htarget
    | jump hlab ht => exact hi.jump hn hlab (hs.positions ▸ ht)
    | next hfall => exact hi.next hn hfall
  merge := fun hi _ _ => hi

/-- **An analysis reaches exactly what control comes to.** -/
theorem reaches_iff (ha : analyze m l pool h mode = .ok a) {i : Nat} : a.Reaches i ↔ l.Led i := by
  obtain ⟨g, entry, w, hs⟩ := searched_of_analyze ha
  have hspreads := spreads ha
  have hreaches : ∀ {i}, a.Reaches i ↔ ∃ f, w.frame? i = some f := by
    intro i
    rw [Reaches, hs.result, Option.isSome_iff_exists]
    rfl
  constructor
  · intro hi
    obtain ⟨f, hf⟩ := hreaches.mp hi
    have hb : Work.Bounds g (fun i _ => l.Led i) (fun _ _ => True) :=
      ⟨fun _ => trivial, fun _ _ => trivial, fun _ _ _ => ⟨trivial, trivial⟩⟩
    obtain ⟨-, -, hall⟩ := hs.ends.settles hb hs.good_led hs.positive .first
    exact (hall hf).1
  · intro hi
    induction hi with
    | first => exact hspreads.first
    | pass _ hn hreal ih => exact hspreads.mark ih hn hreal
    | next _ hn hfall ih => exact hspreads.next ih hn hfall
    | jump _ hn hlab hj ih =>
      obtain ⟨j', hj', hreach⟩ := hspreads.target ih hn hlab
      rwa [Option.some.inj (hj.symm.trans hj')]
    | @raise i j ins b _ hn hb hj ih =>
      obtain ⟨f, hf⟩ := hreaches.mp ih
      have hnode : g.program.nodes[i]? = some (.instr ins) := by rw [hs.program]; exact hn
      obtain ⟨after, hands⟩ := (hs.settled.2 hf).handsOn hnode
      obtain ⟨k, hk, hstart, hstop, rfl, -⟩ := hs.handler hb hj
      obtain ⟨f', hf', -⟩ := hands.raised k hk hstart hstop f (.inl rfl)
      exact hreaches.mpr ⟨f', hf'⟩

end Analysis
end ClassWeave
