import ClassWeave.Proofs.GuardedLabels

/-!
# How guarded code is built

What a computation adds to a list is known without the list: entries, blocks in front of all others
and behind them, and what the computation hands out (`Build.Turns`). From that of its parts follows
that of guarded code: it is built entry by entry.
-/

namespace ClassWeave

/-! ## Lists -/

namespace InstrList

variable (l : InstrList) (n : Node) (lab : Label)

@[simp] theorem toList_push : (l.push n).nodes.toList = l.nodes.toList ++ [n] := by simp [push]

@[simp] theorem toList_mark : (l.mark lab).nodes.toList = l.nodes.toList ++ [.label lab] := by
  simp [mark]

@[simp] theorem nodes_freshLabel : l.freshLabel.2.nodes = l.nodes := rfl

@[simp] theorem labelCount_push : (l.push n).labelCount = l.labelCount := rfl

@[simp] theorem labelCount_freshLabel : l.freshLabel.2.labelCount = l.labelCount + 1 := by
  simp [freshLabel, labelCount]

end InstrList

/-- What was built so far agrees with what the code knows. -/
structure Stock.Describes (s : Stock) (b : Builder) : Prop where
  tracked : b.list.Tracked
  labels : b.list.labelCount = s.nextLabel
  slot : b.nextLocal = s.slot
  placed : ∀ lab, .label lab ∈ b.list.nodes.toList ↔ lab ∈ s.placed
  handedOut : ∀ lab ∈ s.handedOut, lab.id < s.nextLabel

namespace Stock.Describes

variable {s : Stock} {b : Builder} {lab : Label}

theorem isPlaced_iff (hs : s.Describes b) : b.list.isPlaced lab ↔ lab ∈ s.placed := by
  rw [← hs.tracked.mem_iff, hs.placed]

theorem counted (hs : s.Describes b) : s.Counted := by
  rintro lab (h | h)
  · rw [← hs.labels]
    exact InstrList.lt_of_isPlaced (hs.isPlaced_iff.mpr h)
  · exact hs.handedOut lab h

theorem handOut (hs : s.Describes b) (hid : lab.id < s.nextLabel) :
    Stock.Describes { s with handedOut := s.handedOut ++ [lab] } b where
  tracked := hs.tracked
  labels := hs.labels
  slot := hs.slot
  placed := hs.placed
  handedOut lab' h := by
    rcases List.mem_append.mp h with h | h
    · exact hs.handedOut lab' h
    · exact List.mem_singleton.mp h ▸ hid

end Stock.Describes

/-! ## Computations -/

namespace Build

variable {α β : Type} {r : Renaming} {s s' s'' : Stock} {x : Build α} {f : α → Build β} {a : α}
  {c : β} {ns ns' : List Node} {fs fs' bs bs' : List TryBlock}

/-- A computation succeeds with a result, and adds entries and blocks in front and behind. -/
def Turns (r : Renaming) (s : Stock) (x : Build α) (a : α) (ns : List Node)
    (fs bs : List TryBlock) (s' : Stock) : Prop :=
  ∀ b, s.Describes b → ∃ b', x.on r b = (.ok a, b') ∧ s'.Describes b' ∧
    b'.list.nodes.toList = b.list.nodes.toList ++ ns ∧ b'.list.blocks = fs ++ b.list.blocks ++ bs

theorem Turns.pure (r : Renaming) (s : Stock) (a : α) :
    Turns r s (Pure.pure a : Build α) a [] [] [] s :=
  fun b hb => ⟨b, rfl, hb, by simp, by simp⟩

theorem Turns.bind (hx : Turns r s x a ns fs bs s') (hf : Turns r s' (f a) c ns' fs' bs' s'') :
    Turns r s (x >>= f) c (ns ++ ns') (fs' ++ fs) (bs ++ bs') s'' := by
  intro b hb
  obtain ⟨b₁, hon₁, hb₁, hnodes₁, hblocks₁⟩ := hx b hb
  obtain ⟨b₂, hon₂, hb₂, hnodes₂, hblocks₂⟩ := hf b₁ hb₁
  refine ⟨b₂, (on_bind hon₁).trans hon₂, hb₂, ?_, ?_⟩
  · rw [hnodes₂, hnodes₁, List.append_assoc]
  · rw [hblocks₂, hblocks₁]
    simp only [List.append_assoc]

theorem Turns.cast {ms : List Node} {gs cs : List TryBlock} {t : Stock}
    (h : Turns r s x a ns fs bs s') (hns : ns = ms) (hfs : fs = gs) (hbs : bs = cs) (hs : s' = t) :
    Turns r s x a ms gs cs t := by
  subst hns hfs hbs hs
  exact h

/-- Behind a computation that adds no blocks in front. -/
theorem Turns.next (hx : Turns r s x a ns [] bs s') (hf : Turns r s' (f a) c ns' fs bs' s'') :
    Turns r s (x >>= f) c (ns ++ ns') fs (bs ++ bs') s'' :=
  (hx.bind hf).cast rfl (List.append_nil fs) rfl rfl

/-! ## One addition -/

variable {handedOut placed : List Label} {label slot : Nat} {lab : Label}

theorem turns_push (r : Renaming) (s : Stock) {n : Node} (hn : ∀ lab, n ≠ .label lab) :
    Turns r s (push n) () [n] [] [] s := by
  intro b hb
  refine ⟨_, rfl, ⟨hb.tracked.push hn, hb.labels, hb.slot, fun lab => ?_, hb.handedOut⟩, ?_, ?_⟩
  · simp [hb.placed, (hn lab).symm]
  · simp
  · simp [InstrList.push]

theorem turns_emit (r : Renaming) (s : Stock) (i : Instr Label) :
    Turns r s (emit i) () [.instr i] [] [] s :=
  turns_push r s (by simp)

theorem turns_freshLabel : Turns r ⟨handedOut, placed, label, slot⟩ freshLabel ⟨label⟩ [] [] []
    ⟨handedOut, placed, label + 1, slot⟩ := by
  intro b hb
  refine ⟨{ b with list := b.list.freshLabel.2 }, ?_, ?_, by simp, by simp [InstrList.freshLabel]⟩
  · have hlabel : b.list.labelCount = label := hb.labels
    rw [← hlabel]
    rfl
  · exact {
      tracked := hb.tracked.freshLabel
      labels := (InstrList.labelCount_freshLabel _).trans (congrArg (· + 1) hb.labels)
      slot := hb.slot
      placed := hb.placed
      handedOut := fun lab h => Nat.lt_succ_of_lt (hb.handedOut lab h) }

theorem turns_placeLabel (hid : lab.id < label) (hlab : lab ∉ placed) :
    Turns r ⟨handedOut, placed, label, slot⟩ (placeLabel lab) () [.label lab] [] []
      ⟨handedOut, placed ++ [lab], label, slot⟩ := by
  intro b hb
  have hid' : lab.id < b.list.labelCount := hb.labels.symm ▸ hid
  have hlab' : ¬ b.list.isPlaced lab := mt hb.isPlaced_iff.mp hlab
  have hnone := InstrList.refusal?_eq_none.mpr ⟨hid', hlab'⟩
  refine ⟨{ b with list := b.list.mark lab }, ?_, ?_, by simp, by simp [InstrList.mark]⟩
  · unfold placeLabel
    simp [on, StateT.run, ExceptT.run, ExceptT.mk, ReaderT.run, hnone]
  · exact {
      tracked := hb.tracked.mark hid' hlab'
      labels := (InstrList.labelCount_mark _ _).trans hb.labels
      slot := hb.slot
      placed := fun lab' => by simp [hb.placed]
      handedOut := hb.handedOut }

theorem turns_allocate (kind : ValueKind) : Turns r ⟨handedOut, placed, label, slot⟩
    (allocate kind) ⟨UInt16.ofNat slot, kind⟩ [] [] []
    ⟨handedOut, placed, label, slot + kind.slots⟩ := by
  intro b hb
  have hslot : b.nextLocal = UInt16.ofNat slot := hb.slot
  refine ⟨{ b with nextLocal := b.nextLocal + UInt16.ofNat kind.slots }, ?_, ?_, by simp, by simp⟩
  · rw [← hslot]
    rfl
  · exact ⟨hb.tracked, hb.labels, by simp [Stock.slot, hslot], hb.placed, hb.handedOut⟩

theorem turns_addBlock (r : Renaming) (s : Stock) (block : TryBlock) :
    Turns r s (addBlock block) () [] [] [block] s := by
  intro b hb
  refine ⟨_, rfl, ⟨hb.tracked.addBlock block, hb.labels, hb.slot, hb.placed, hb.handedOut⟩, ?_, rfl⟩
  simp [InstrList.addBlock]

/-- Finished code brings its labels, and its blocks come first. -/
theorem turns_insert {l : InstrList} (hl : l.Tracked) :
    Turns r ⟨handedOut, placed, label, slot⟩ (insert l) () (l.nodes.toList.map (Node.shift label))
      (l.blocks.map (TryBlock.shift label)) []
      ⟨handedOut, placed ++ marks (l.nodes.toList.map (Node.shift label)), label + l.labelCount,
        slot⟩ := by
  intro b hb
  have hlabel : b.list.labelCount = label := hb.labels
  have hnodes : (b.list.append l).nodes.toList =
      b.list.nodes.toList ++ l.nodes.toList.map (Node.shift label) := by
    rw [InstrList.append, InstrList.toList_splice, hlabel, ← Array.length_toList, List.take_length,
      List.drop_length, List.append_nil]
  refine ⟨{ b with list := b.list.append l }, rfl, ?_, hnodes, ?_⟩
  · exact {
      tracked := hb.tracked.splice hl _
      labels := (InstrList.labelCount_splice _ _ _).trans (congrArg (· + _) hlabel)
      slot := hb.slot
      placed := fun lab => by
        dsimp only
        rw [hnodes, List.mem_append, List.mem_append, hb.placed, mem_marks]
      handedOut := fun lab h => Nat.lt_add_right _ (hb.handedOut lab h) }
  · rw [← hlabel]
    simp [InstrList.append, InstrList.splice, InstrList.labelCount]

/-! ## Monitors -/

theorem turns_storeNew : Turns r ⟨handedOut, placed, label, slot⟩ (storeNew .reference)
    ⟨UInt16.ofNat slot, .reference⟩ [.instr (.var Opcode.astore (UInt16.ofNat slot))] [] []
    ⟨handedOut, placed, label, slot + 1⟩ :=
  (turns_allocate .reference).next ((turns_emit r _ _).next (.pure r _ _))

theorem turns_enterMonitor : Turns r ⟨handedOut, placed, label, slot⟩ enterMonitor
    ⟨UInt16.ofNat slot, .reference⟩
    [.instr (.plain Opcode.dup), .instr (.var Opcode.astore (UInt16.ofNat slot)),
      .instr (.plain Opcode.monitorenter)] [] []
    ⟨handedOut, placed, label, slot + 1⟩ :=
  (turns_emit r _ _).next (turns_storeNew.next ((turns_emit r _ _).next (.pure r _ _)))

theorem turns_exitMonitor (s : Stock) (lock : UInt16) : Turns r s (exitMonitor ⟨lock, .reference⟩)
    () [.instr (.var Opcode.aload lock), .instr (.plain Opcode.monitorexit)] [] [] s :=
  (turns_emit r s _).next (turns_emit r s _)

/-- A region is built around its body. -/
theorem turns_synchronizedGuarded {body : Build Unit} {handedOut' placed' : List Label}
    {label' slot' : Nat} (hbody : Turns r ⟨handedOut, placed ++ [⟨label⟩], label + 4, slot + 1⟩
      body () ns fs bs ⟨handedOut', placed', label', slot'⟩)
    (hstart : ⟨label⟩ ∉ placed) (hle : label + 4 ≤ label')
    (hfresh : ∀ k, 1 ≤ k → k ≤ 3 → ⟨label + k⟩ ∉ placed') :
    Turns r ⟨handedOut, placed, label, slot⟩ (synchronizedGuarded body) ()
      ([.instr (.plain Opcode.dup), .instr (.var Opcode.astore (UInt16.ofNat slot)),
        .instr (.plain Opcode.monitorenter), .label ⟨label⟩] ++ (ns ++
        [.instr (.var Opcode.aload (UInt16.ofNat slot)), .instr (.plain Opcode.monitorexit),
          .label ⟨label + 1⟩, .instr (.jump Opcode.goto ⟨label + 3⟩), .label ⟨label + 2⟩,
          .instr (.var Opcode.astore (UInt16.ofNat slot')),
          .instr (.var Opcode.aload (UInt16.ofNat slot)), .instr (.plain Opcode.monitorexit),
          .instr (.var Opcode.aload (UInt16.ofNat slot')), .instr (.plain Opcode.athrow),
          .label ⟨label + 3⟩]))
      fs (bs ++ [⟨⟨label⟩, ⟨label + 1⟩, ⟨label + 2⟩, none⟩])
      ⟨handedOut', placed' ++ [⟨label + 1⟩, ⟨label + 2⟩, ⟨label + 3⟩], label', slot' + 1⟩ := by
  have hstop := hfresh 1 (by omega) (by omega)
  have hhandler := hfresh 2 (by omega) (by omega)
  have hdone := hfresh 3 (by omega) (by omega)
  unfold synchronizedGuarded
  refine Turns.cast (turns_freshLabel.next <| turns_freshLabel.next <| turns_freshLabel.next <|
    turns_freshLabel.next <| turns_enterMonitor.next <|
    (turns_placeLabel (by dsimp only; omega) hstart).next <| hbody.bind <|
    (turns_exitMonitor _ _).next <| (turns_placeLabel (by dsimp only; omega) hstop).next <|
    (turns_emit r _ _).next <| (turns_placeLabel (by dsimp only; omega) ?_).next <|
    turns_storeNew.next <| (turns_exitMonitor _ _).next <| (turns_emit r _ _).next <|
    (turns_emit r _ _).next <| (turns_placeLabel (by dsimp only; omega) ?_).next <|
    turns_addBlock r _ _) rfl (by simp) (by simp) (by simp)
  · simpa using hhandler
  · simpa [Nat.add_assoc] using hdone

end Build

theorem BodyOp.turns {o : BodyOp} {s : Scope} (ho : o.Fits s) (r : Renaming) :
    Build.Turns r s.toStock o.build () (o.nodes s.nextLabel) (o.frontBlocks s.nextLabel) o.blocks
      (o.after s).toStock := by
  obtain ⟨⟨handedOut, placed, label, slot⟩, held, own, deep, blocks⟩ := s
  cases o with
  | instr i =>
    exact (Build.turns_emit r _ i).cast rfl rfl rfl
      (by simp [after, nodes, marks, Node.mark?, handsOut, labels, slots])
  | line number =>
    exact (Build.turns_push r _ (by simp)).cast rfl rfl rfl
      (by simp [after, nodes, marks, Node.mark?, handsOut, labels, slots])
  | label =>
    have hturns : Build.Turns r ⟨handedOut, placed, label, slot⟩ BodyOp.label.build () [] [] []
        ⟨handedOut, placed, label + 1, slot⟩ :=
      Build.turns_freshLabel.next (.pure r _ ())
    intro b hb
    obtain ⟨b', hon, hb', hnodes, hblocks⟩ := hturns b hb
    refine ⟨b', hon, ?_, hnodes, hblocks⟩
    have hout := hb'.handOut (show (⟨label⟩ : Label).id < label + 1 from Nat.lt_succ_self _)
    simpa [after, nodes, marks, handsOut, labels, slots] using hout
  | place lab =>
    intro b hb
    have hid := hb.handedOut lab ho.1
    exact (Build.turns_placeLabel hid ho.2).cast rfl rfl rfl
      (by simp [after, nodes, marks, Node.mark?, handsOut, labels, slots]) b hb
  | block block =>
    exact (Build.turns_addBlock r _ block).cast rfl rfl rfl
      (by simp [after, nodes, marks, handsOut, labels, slots])
  | slot kind =>
    exact ((Build.turns_allocate kind).next (.pure r _ ())).cast rfl rfl rfl
      (by simp [after, nodes, marks, handsOut, labels, slots])
  | insert l =>
    exact (Build.turns_insert ho.1).cast rfl rfl rfl
      (by simp [after, nodes, handsOut, labels, slots])

namespace GuardedCode

/-- **Guarded code is built entry by entry.** -/
theorem turns {s : Scope} {c : GuardedCode} (hc : c.Fits s) (r : Renaming) :
    Build.Turns r s.toStock c.build () ((c.entries s).map Prod.fst) (c.frontBlocks s) (c.blocks s)
      (c.after s).toStock := by
  induction c generalizing s with
  | done => exact .pure r _ ()
  | op o rest ih =>
    refine ((o.turns hc.1 r).bind (ih hc.2)).cast ?_ rfl rfl rfl
    simp [entries, Function.comp_def]
  | guarded body rest ihbody ihrest =>
    obtain ⟨-, hbody, hrest⟩ := hc
    intro b hb
    have hstart : ⟨s.nextLabel⟩ ∉ s.placed := fun h => Nat.lt_irrefl _ (hb.counted _ (.inl h))
    have hregion := Build.turns_synchronizedGuarded (ihbody hbody) hstart
      (nextLabel_le_after (s.enter body) body) fun k => fresh_after hbody hb.counted
    have hboth : Build.Turns r s.toStock (guarded body rest).build () _ _ _ _ :=
      hregion.bind (ihrest hrest)
    refine hboth.cast ?_ rfl rfl rfl b hb
    simp [entries, Scope.entering, Scope.leaving, Scope.handling, Stock.slot]

end GuardedCode
end ClassWeave
