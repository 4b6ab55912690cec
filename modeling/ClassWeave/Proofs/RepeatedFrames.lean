import ClassWeave.Proofs.MirroredFrames
import ClassWeave.Proofs.WritingSteps

/-!
# Frames that are stored again

Where a list needs frames can be told from what it says: at the offsets that control comes to by a
jump or an exception. Lists that say the same need frames at the same offsets, and the frames there
are stored in the same way. So if the frames of one list were stored and nothing has to be added for
that any more, storing those of the other one gives the same attribute and adds nothing.
-/

namespace ClassWeave

open Listing

/-- Sorted by offsets, what is found for offsets depends on nothing else. -/
theorem mergeSort_toList_eq {α : Type} {m m' : Std.HashMap Nat α}
    (h : ∀ o : Nat, m[o]? = m'[o]?) : (m.toList.mergeSort fun x y => x.1 ≤ y.1) =
      m'.toList.mergeSort fun x y => x.1 ≤ y.1 := by
  refine eq_of_ascending Prod.fst (WriteContext.pairwise_mergeSort_toList m)
    (WriteContext.pairwise_mergeSort_toList m') fun x => ?_
  rw [WriteContext.mem_mergeSort_toList, WriteContext.mem_mergeSort_toList, h]

namespace Code

/-- Control comes to an offset by a jump or an exception. -/
def GoesTo (instrs : List (Nat × Instr Nat)) (entries : List HandlerEntry) (o : Nat) : Prop :=
  (∃ r ∈ instrs, o ∈ r.2.targets) ∨ ∃ r ∈ entries, o = r.handler.toNat

theorem Listed.mem_targets {l : InstrList} {ns : List (Node × Nat)} (hl : Listed l ns)
    {lab : Label} :
    lab ∈ l.nodes.toList.flatMap Node.targets ↔ ∃ r ∈ reals ns, lab ∈ r.2.targets := by
  rw [List.mem_flatMap]
  constructor
  · rintro ⟨n, hn, hlab⟩
    obtain ⟨k, hk⟩ := List.mem_iff_getElem?.mp hn
    rw [Array.getElem?_toList] at hk
    cases n with
    | label | line => cases hlab
    | instr i =>
      obtain ⟨o, xs, ys, i', hns, hasc, -⟩ := hl.split hk
      refine ⟨(o, i'), mem_reals.mpr (List.mem_of_getElem? hns), ?_⟩
      rwa [← mem_targets_ascending, hasc, mem_targets_ascending]
  · rintro ⟨⟨o, i⟩, hr, hlab⟩
    obtain ⟨k, hk⟩ := List.mem_iff_getElem?.mp (mem_reals.mp hr)
    obtain ⟨n, hn, hasc⟩ := hl.exists_node hk
    cases n with
    | label | line => cases hasc
    | instr i' =>
      rw [← Array.getElem?_toList] at hn
      refine ⟨_, List.mem_of_getElem? hn, ?_⟩
      rwa [Node.targets, ← mem_targets_ascending, Node.instr.inj hasc, mem_targets_ascending]

namespace Laid

open WriteContext

variable {links : Links} {l : InstrList} {e : Encoded} {slots : List Slot}
  {handlers moved : List Handler} (hl : Laid links l e slots handlers moved) {labels : List Label}
  {entries : List HandlerEntry} {points : List Nat} {o : Nat}

include hl

/-- A label is at an entry with the offset that it leads to. -/
theorem offset_position {lab : Label} {j : Nat} (hj : lab.position? l.labelPositions = some j) :
    ∃ o, e.offsets[j]? = some o ∧
      offset? lab (spelling l.nodes.toList l.labelCount slots) = some o := by
  obtain ⟨o, hns, hoffset⟩ := (hl.encoding.listed hl.documented hl.narrow).offset?_position hj
  obtain ⟨n, s, hplaced, -⟩ := (hl.encoding.getElem?_spelling hl.narrow).mp hns
  exact ⟨o, hl.encoding.offset_placed hplaced, hoffset⟩

/-- **Frames are stored where control comes to by a jump or an exception.** -/
theorem frameAt_iff (hlabels : List.Forall₂ (fun r lab =>
      offset? lab (spelling l.nodes.toList l.labelCount slots) = some r.handler.toNat) entries
        labels)
    (hpoints : framePoints l e labels = .ok points) : FrameAt e points o ↔
      GoesTo (readings (spelling l.nodes.toList l.labelCount slots)) entries o := by
  have hlisted := hl.encoding.listed hl.documented hl.narrow
  have hleads : ∀ {lab}, offset? lab (spelling l.nodes.toList l.labelCount slots) = some o →
      leadsTo (spelling l.nodes.toList l.labelCount slots) lab = o := fun h => by
    rw [leadsTo, h]
    rfl
  -- every label that needs a frame has a place
  obtain ⟨is, his, heq⟩ := bind_eq_ok.mp hpoints
  have hplace : ∀ lab ∈ labels ++ l.nodes.toList.flatMap Node.targets,
      ∃ j, lab.position? l.labelPositions = some j := by
    intro lab hlab
    obtain ⟨j, -, hj⟩ := exists_of_forall₂ (mapM_eq_ok.mp his) hlab
    exact ⟨j, FlowGraph.position_eq_ok.mp hj⟩
  have hframe : FrameAt e points o ↔ ∃ lab ∈ labels ++ l.nodes.toList.flatMap Node.targets,
      offset? lab (spelling l.nodes.toList l.labelCount slots) = some o := by
    constructor
    · rintro ⟨i, hi, ho⟩
      rw [mem_framePoints hpoints, hl.narrow] at hi
      rcases hi with hi | ⟨lab, hlab, hj⟩
      · cases hi
      · obtain ⟨o', ho', hoffset⟩ := hl.offset_position hj
        obtain rfl := Option.some.inj (ho.symm.trans ho')
        exact ⟨lab, hlab, hoffset⟩
    · rintro ⟨lab, hlab, hoffset⟩
      obtain ⟨j, hj⟩ := hplace lab hlab
      obtain ⟨o', ho', hoffset'⟩ := hl.offset_position hj
      obtain rfl := Option.some.inj (hoffset.symm.trans hoffset')
      exact ⟨j, (mem_framePoints hpoints).mpr (.inr ⟨lab, hlab, hj⟩), ho'⟩
  rw [hframe]
  constructor
  · rintro ⟨lab, hlab, hoffset⟩
    rcases List.mem_append.mp hlab with hlab | hlab
    · obtain ⟨r, hr, hoffset'⟩ := exists_of_forall₂ hlabels.flip hlab
      exact .inr ⟨r, hr, Option.some.inj (hoffset.symm.trans hoffset')⟩
    · obtain ⟨r, hr, hlab⟩ := hlisted.mem_targets.mp hlab
      refine .inl ⟨_, List.mem_map_of_mem hr, ?_⟩
      rw [Instr.targets_map, ← hleads hoffset]
      exact List.mem_map_of_mem hlab
  · rintro (⟨_, hread, ho⟩ | ⟨r, hr, rfl⟩)
    · obtain ⟨r, hr, rfl⟩ := List.mem_map.mp hread
      rw [Instr.targets_map] at ho
      obtain ⟨lab, hlab, rfl⟩ := List.mem_map.mp ho
      have hused := List.mem_append_right labels (hlisted.mem_targets.mpr ⟨r, hr, hlab⟩)
      obtain ⟨j, hj⟩ := hplace lab hused
      obtain ⟨o, -, hoffset⟩ := hl.offset_position hj
      exact ⟨lab, hused, by rw [leadsTo, hoffset]; rfl⟩
    · obtain ⟨lab, hlab, hoffset⟩ := exists_of_forall₂ hlabels hr
      exact ⟨lab, List.mem_append_left _ hlab, hoffset⟩

/-- All labels have places, those of the handlers too. -/
theorem exists_framePoints :
    ∃ points, framePoints l e (l.blocks.map TryBlock.handler) = .ok points := by
  have hplace : ∀ lab ∈ l.blocks.map TryBlock.handler ++ l.nodes.toList.flatMap Node.targets,
      ∃ j, FlowGraph.position l.labelPositions lab = .ok j := by
    intro lab hlab
    rcases List.mem_append.mp hlab with hlab | hlab
    · obtain ⟨b, hb, rfl⟩ := List.mem_map.mp hlab
      obtain ⟨k, -, hk⟩ := exists_of_forall₂ (mapM_eq_ok.mp hl.located) hb
      obtain ⟨-, -, htarget, -⟩ := FlowGraph.handler_eq_ok.mp hk
      exact ⟨k.target, FlowGraph.position_eq_ok.mpr htarget⟩
    · obtain ⟨j, hj⟩ := (hl.encoding.listed hl.documented hl.narrow).placed lab hlab
      exact ⟨j, FlowGraph.position_eq_ok.mpr hj⟩
  obtain ⟨is, his⟩ := exists_forall₂ hplace
  exact ⟨_, bind_eq_ok.mpr ⟨is, mapM_eq_ok.mpr his, rfl⟩⟩

end Laid
end Code

namespace WriteContext

open Code Linking

variable {ctx : WriteContext} {s : Links}

/-! ## Storing frames -/

/-- If the frames of all entries can be stored without adding anything, so can all of them
together. -/
theorem exists_run_addFrame {l : InstrList} {a : Analysis} {e : Encoded} {points : List Nat}
    (h : ∀ i ∈ points, ∃ o f raw, e.offsets[i]? = some o ∧ a.frameAt? l.nodes i = some f ∧
      (ofInterning (f.compact.intern fun j => e.offsets[j]?)).run.run s = (.ok raw, s))
    (frames : Std.HashMap Nat RawFrame) :
    ∃ frames', (points.foldlM (addFrame l a e) frames).run.run s = (.ok frames', s) := by
  induction points generalizing frames with
  | nil => exact ⟨frames, rfl⟩
  | cons i points ih =>
    obtain ⟨o, f, raw, ho, hf, hraw⟩ := h i List.mem_cons_self
    have hrest := ih fun j hj => h j (List.mem_cons_of_mem _ hj)
    have hstep : ∃ frames', (addFrame l a e frames i).run.run s = (.ok frames', s) := by
      unfold addFrame
      simp only [ho, hf]
      split
      · exact ⟨frames, rfl⟩
      · exact ⟨_, Growing.run_bind.mpr ⟨raw, s, hraw, rfl⟩⟩
    obtain ⟨frames', hframes'⟩ := hstep
    obtain ⟨frames'', hframes''⟩ := hrest frames'
    refine ⟨frames'', ?_⟩
    rw [List.foldlM_cons]
    exact Growing.run_bind.mpr ⟨frames', s, hframes', hframes''⟩

section again

variable {x y : InstrList} {e e' : Encoded} {slots slots' : List Code.Slot}
  {handlers moved moved' : List Handler} (hx : Laid s x e slots handlers moved)
  (hy : Laid s y e' slots' handlers moved')
  (hagree : readings (spelling y.nodes.toList y.labelCount slots') =
    readings (spelling x.nodes.toList x.labelCount slots))
  {a b : Analysis} (hm : Mirrored x.nodes.toList e slots a y.nodes.toList e' slots' b)
  {entries : List HandlerEntry} {labels : List Label}
  (hlabels : List.Forall₂ (fun r lab =>
    offset? lab (spelling x.nodes.toList x.labelCount slots) = some r.handler.toNat) entries labels)
  (hlabels' : List.Forall₂ (fun r lab =>
    offset? lab (spelling y.nodes.toList y.labelCount slots') = some r.handler.toNat) entries
      (y.blocks.map TryBlock.handler))

include hx hy hagree hm hlabels hlabels'

/-- The frames of a list that says the same are found to be stored in the same way. -/
theorem exists_gathered (hs : s.pool.Reachable) {points : List Nat}
    {frames : Std.HashMap Nat RawFrame} (hpoints : framePoints x e labels = .ok points)
    (hg : Gathered x a e (fun f raw =>
      Lasts (ofInterning (f.compact.intern fun j => e.offsets[j]?)) s raw) points frames) :
    ∃ points' frames', framePoints y e' (y.blocks.map TryBlock.handler) = .ok points' ∧
      (points'.foldlM (addFrame y b e') ∅).run.run s = (.ok frames', s) ∧
        ∀ o : Nat, frames'[o]? = frames[o]? := by
  obtain ⟨points', hpoints'⟩ := hy.exists_framePoints
  have hsame : ∀ o, FrameAt e' points' o ↔ FrameAt e points o := fun o => by
    rw [hx.frameAt_iff hlabels hpoints, hy.frameAt_iff hlabels' hpoints', hagree]
  -- an entry of the other list is stored like one at the same offset
  have hfound : ∀ {i o}, i ∈ points' → e'.offsets[i]? = some o → ∃ f raw, frames[o]? = some raw ∧
      b.frameAt? y.nodes i = some f ∧
        Lasts (ofInterning (f.compact.intern fun j => e'.offsets[j]?)) s raw := by
    intro i o hi ho
    obtain ⟨j, hj, hoj⟩ := (hsame o).mp ⟨i, hi, ho⟩
    obtain ⟨o', ho', hmem⟩ := hg.needed j hj
    obtain rfl := Option.some.inj (hoj.symm.trans ho')
    have hraw := Std.HashMap.getElem?_eq_some_getElem hmem
    obtain ⟨k, -, hok, f, hf, hlasts⟩ := hg.stored hraw
    obtain ⟨f', hf', hintern⟩ := hx.exists_frameAt? hy hagree hm hok ho hf
    exact ⟨f', _, hraw, hf', hintern ▸ hlasts⟩
  have hoffset : ∀ i ∈ points', ∃ o, e'.offsets[i]? = some o := by
    intro i hi
    rw [mem_framePoints hpoints', hy.narrow] at hi
    rcases hi with hi | ⟨lab, -, hj⟩
    · cases hi
    · obtain ⟨o, ho, -⟩ := hy.offset_position hj
      exact ⟨o, ho⟩
  have hstep : ∀ i ∈ points', ∃ o f raw, e'.offsets[i]? = some o ∧ b.frameAt? y.nodes i = some f ∧
      (ofInterning (f.compact.intern fun j => e'.offsets[j]?)).run.run s = (.ok raw, s) := by
    intro i hi
    obtain ⟨o, ho⟩ := hoffset i hi
    obtain ⟨f, raw, -, hf, hlasts⟩ := hfound hi ho
    exact ⟨o, f, raw, ho, hf, hlasts.run⟩
  obtain ⟨frames', hframes'⟩ := exists_run_addFrame hstep ∅
  obtain ⟨-, hg'⟩ := gathered_foldlM (l := y) (a := b) (e := e')
    (R := fun s f raw => Lasts (ofInterning (f.compact.intern fun j => e'.offsets[j]?)) s raw)
    Lasts.extends (fun f => lasting_ofInterning (lasting_intern _ f.compact)) points' s frames' s
    hs hframes'
  have hstored : ∀ {o : Nat} {raw : RawFrame}, frames'[o]? = some raw → frames[o]? = some raw := by
    intro o raw hraw
    obtain ⟨i, hi, ho, f, hf, hlasts⟩ := hg'.stored hraw
    obtain ⟨f', raw', hraw', hf', hlasts'⟩ := hfound hi ho
    obtain rfl := Option.some.inj (hf.symm.trans hf')
    obtain rfl := Except.ok.inj (Prod.mk.inj (hlasts.run.symm.trans hlasts'.run)).1
    exact hraw'
  refine ⟨points', frames', hpoints', hframes', fun o => ?_⟩
  cases hraw : frames[o]? with
  | none =>
    rw [Option.eq_none_iff_forall_ne_some]
    intro raw hraw'
    rw [hstored hraw'] at hraw
    cases hraw
  | some raw =>
    obtain ⟨i, hi, ho, -⟩ := hg.stored hraw
    obtain ⟨i', hi', ho'⟩ := (hsame o).mpr ⟨i, hi, ho⟩
    obtain ⟨o', ho'', hmem⟩ := hg'.needed i' hi'
    obtain rfl := Option.some.inj (ho'.symm.trans ho'')
    have hraw' := Std.HashMap.getElem?_eq_some_getElem hmem
    rw [hraw', ← hstored hraw', hraw]

/-- **Storing the frames of a list that says the same gives the same attribute**, and adds
nothing. -/
theorem MapSteps.again (hs : s.pool.Reachable) {as : List Attribute} {points : List Nat}
    {frames : Std.HashMap Nat RawFrame} (hmap : MapSteps ctx x a e labels s as points frames) :
    (ctx.stackMap y b e' (y.blocks.map TryBlock.handler)).run.run s = (.ok as, s) := by
  obtain ⟨points', frames', hpoints', hframes', hsame⟩ :=
    exists_gathered hx hy hagree hm hlabels hlabels' hs hmap.needed hmap.gathered
  have hempty : frames'.isEmpty = frames.isEmpty := by
    rw [Bool.eq_iff_iff, Std.HashMap.isEmpty_iff_forall_not_mem,
      Std.HashMap.isEmpty_iff_forall_not_mem]
    simp only [Std.HashMap.mem_iff_isSome_getElem?, hsame]
  refine Growing.run_bind.mpr ⟨points', s, Prod.ext hpoints' rfl, ?_⟩
  refine Growing.run_bind.mpr ⟨frames', s, hframes', ?_⟩
  simp only [hempty]
  rcases hmap.stored with ⟨hnone, rfl⟩ | ⟨hsome, entry, raw, stored, hentry, hraw, hstored, rfl⟩
  · rw [hnone]
    rfl
  · rw [hsome]
    refine Growing.run_bind.mpr ⟨entry, s, Prod.ext (mapError_eq_ok.mpr hentry) rfl, ?_⟩
    have hintern : entry.compact.intern (fun j => e.offsets[j]?) =
        entry.compact.intern fun j => e'.offsets[j]? := Frame.intern_compact_entry hentry
    rw [hintern] at hraw
    refine Growing.run_bind.mpr ⟨raw, s, hraw.run, ?_⟩
    rw [← mergeSort_toList_eq hsame] at hstored
    exact Growing.run_bind.mpr ⟨stored, s, hstored.run, rfl⟩

end again
end WriteContext
end ClassWeave
