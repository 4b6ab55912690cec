import ClassWeave.Proofs.GuardedRegions

/-!
# Where the exceptions of guarded code go

Behind some entries of a list those blocks are open whose start was placed and whose end was not.
Inside a region, no block is open that was added before the region, so the first open block that
catches an exception is one of the body or the block of the region. Outside the regions that stand
in it, code opens no blocks but its own, whose handlers are places of the code.
-/

namespace ClassWeave

/-! ## Everywhere in a list -/

/-- Every entry has a property, together with what stands before it. -/
def Everywhere (P : List Node → Node × Mark → Prop) (before : List Node) :
    List (Node × Mark) → Prop
  | [] => True
  | e :: es => P before e ∧ Everywhere P (before ++ [e.1]) es

section everywhere

variable {P Q : List Node → Node × Mark → Prop} {before : List Node} {es fs : List (Node × Mark)}

theorem everywhere_append : Everywhere P before (es ++ fs) ↔
    Everywhere P before es ∧ Everywhere P (before ++ es.map Prod.fst) fs := by
  induction es generalizing before with
  | nil => simp [Everywhere]
  | cons e es ih => simp [Everywhere, ih, and_assoc]

theorem Everywhere.imp (h : Everywhere P before es)
    (hPQ : ∀ ns, ∀ e ∈ es, before ⊆ ns → ns ⊆ before ++ es.map Prod.fst → P ns e → Q ns e) :
    Everywhere Q before es := by
  induction es generalizing before with
  | nil => trivial
  | cons e es ih =>
    refine ⟨hPQ _ e List.mem_cons_self (List.Subset.refl _) (List.subset_append_left _ _) h.1,
      ih h.2 ?_⟩
    intro ns e' he' hbefore hns
    refine hPQ ns e' (List.mem_cons_of_mem e he') (List.append_subset.mp hbefore).1 ?_
    rwa [List.append_assoc] at hns

theorem everywhere_of_forall
    (h : ∀ ns, ∀ e ∈ es, before ⊆ ns → ns ⊆ before ++ es.map Prod.fst → P ns e) :
    Everywhere P before es := by
  have htrue : Everywhere (fun _ _ => True) before es := by
    clear h
    induction es generalizing before with
    | nil => trivial
    | cons e es ih => exact ⟨trivial, ih⟩
  exact htrue.imp fun ns e he hbefore hns _ => h ns e he hbefore hns

theorem Everywhere.at (h : Everywhere P before es) {pc : Nat} {e : Node × Mark}
    (he : es[pc]? = some e) : P (before ++ (es.take pc).map Prod.fst) e := by
  induction es generalizing before pc with
  | nil => cases he
  | cons e' es ih =>
    cases pc with
    | zero =>
      obtain rfl := Option.some.inj he
      simpa using h.1
    | succ pc => simpa using ih h.2 he

end everywhere

/-! ## Open blocks -/

/-- The block has begun behind some entries and has not ended. -/
def TryBlock.isOpen (before : List Node) (b : TryBlock) : Bool :=
  Node.label b.start ∈ before && Node.label b.stop ∉ before

theorem TryBlock.isOpen_eq_false_of_ended {before : List Node} {b : TryBlock}
    (h : .label b.stop ∈ before) : b.isOpen before = false := by
  simp [isOpen, h]

theorem TryBlock.isOpen_append_instr {before : List Node} {i : Instr Label} (b : TryBlock) :
    b.isOpen (before ++ [.instr i]) = b.isOpen before := by
  simp [isOpen]

/-- Whatever blocks of certain types catch, an exception comes to a handler where the same monitors
are entered. If there is none, then only the outer ones are. -/
def Dispatches (all : List (Node × Mark)) (blocks : List TryBlock) (held outer : List Nat)
    (before : List Node) : Prop :=
  ∀ catches : TryBlock → Bool, (∀ b, b.catchType = none → catches b) →
    (blocks.find? fun b => b.isOpen before && catches b).elim (held = outer) fun b =>
      (.label b.handler, ⟨held, .ordinary⟩) ∈ all ∨ (.label b.handler, ⟨held, .caught⟩) ∈ all

namespace Dispatches

variable {all : List (Node × Mark)} {bs bs' : List TryBlock} {b : TryBlock}
  {held outer mid : List Nat} {before : List Node}

/-- The blocks that are open have handlers at the same level. -/
theorem handled
    (h : ∀ b ∈ bs, b.isOpen before → (.label b.handler, ⟨held, .ordinary⟩) ∈ all)
    (hrest : Dispatches all bs' held outer before) :
    Dispatches all (bs ++ bs') held outer before := by
  intro catches hcatches
  rw [List.find?_append]
  cases hb : bs.find? fun b => b.isOpen before && catches b with
  | none => exact hrest catches hcatches
  | some b =>
    have hopen := List.find?_some hb
    rw [Bool.and_eq_true] at hopen
    exact .inl (h b (List.mem_of_find?_eq_some hb) hopen.1)

theorem of_own (h : ∀ b ∈ bs, b.isOpen before → (.label b.handler, ⟨held, .ordinary⟩) ∈ all) :
    Dispatches all bs held held before := by
  have hnil : Dispatches all [] held held before := fun _ _ => rfl
  simpa using handled h hnil

theorem skip (hclosed : ∀ b ∈ bs, b.isOpen before = false)
    (h : Dispatches all bs' held outer before) : Dispatches all (bs ++ bs') held outer before :=
  handled (fun b hb hopen => by simp [hclosed b hb] at hopen) h

/-- What stands before an instruction is all that counts. -/
theorem instr (h : Dispatches all bs held outer before) {i : Instr Label} :
    Dispatches all bs held outer (before ++ [.instr i]) := by
  simpa only [Dispatches, TryBlock.isOpen_append_instr] using h

/-- What goes on from inside comes to the handler of the region. -/
theorem caught (h : Dispatches all bs held mid before) (hopen : b.isOpen before)
    (hany : b.catchType = none) (hhandler : (.label b.handler, ⟨mid, .caught⟩) ∈ all) :
    Dispatches all (bs ++ b :: bs') held outer before := by
  intro catches hcatches
  have hfirst := h catches hcatches
  cases hbs : bs.find? fun b => b.isOpen before && catches b with
  | some b' =>
    rw [hbs] at hfirst
    rw [List.find?_append, hbs]
    exact hfirst
  | none =>
    rw [hbs] at hfirst
    obtain rfl : held = mid := hfirst
    rw [List.find?_append, hbs, Option.none_or, List.find?_cons_of_pos]
    · exact .inr hhandler
    · simp [hopen, hcatches b hany]

end Dispatches

/-- An exception at an entry comes to where it should. -/
def Raised (all : List (Node × Mark)) (bs : List TryBlock) (outer : List Nat) (before : List Node)
    (e : Node × Mark) : Prop :=
  e.1.isReal → (e.2.stage.isSure → e.1 = .instr (.plain Opcode.athrow)) →
    Dispatches all bs e.2.held outer before

/-- While an exception is handled, nothing is said of entries that do not throw it again. -/
theorem Raised.of_sure {all : List (Node × Mark)} {bs : List TryBlock} {outer : List Nat}
    {before : List Node} {e : Node × Mark} (hsure : e.2.stage.isSure)
    (hne : e.1 ≠ .instr (.plain Opcode.athrow)) : Raised all bs outer before e :=
  fun _ h => absurd (h hsure) hne

/-! ## The order of the blocks -/

/-- What was built before some code. -/
structure Scope.Follows (s : Scope) (c : GuardedCode) (pre : List Node) (earlier : List TryBlock) :
    Prop where
  counted : s.Counted
  placed : ∀ lab, .label lab ∈ pre ↔ lab ∈ s.placed
  blocks : ∀ b ∈ s.blocks, b.handler ∈ s.own
  /-- Blocks that are none of the region have ended. -/
  earlier : ∀ b ∈ earlier, b ∈ s.blocks ∨ .label b.stop ∈ pre

namespace Scope.Follows

variable {s : Scope} {o : BodyOp} {c body rest : GuardedCode} {pre before : List Node}
  {earlier : List TryBlock} {all : List (Node × Mark)} {b : TryBlock}

/-- Nothing was built before code that is built first. -/
theorem outermost (c : GuardedCode) (firstLocal : UInt16) :
    (Scope.outermost c firstLocal).Follows c [] [] where
  counted lab h := by simp [Scope.outermost, Stock.Knows] at h
  placed lab := by simp [Scope.outermost]
  blocks b hb := by cases hb
  earlier b hb := by cases hb

/-- A block is not open before the code that it begins in. -/
theorem notBegun (h : s.Follows c pre earlier) (hc : c.Fits s) (hbefore : before ⊆ pre)
    (hstart : .label b.start ∈ (c.entries s).map Prod.fst) : b.isOpen before = false := by
  have hnot : .label b.start ∉ before := fun hmem =>
    GuardedCode.not_mem_placed hc h.counted hstart ((h.placed _).mp (hbefore hmem))
  simp [TryBlock.isOpen, hnot]

/-- Behind an operation. -/
theorem op (h : s.Follows (.op o rest) pre earlier) (ho : o.Fits s) :
    (o.after s).Follows rest (pre ++ o.nodes s.nextLabel) (earlier ++ o.blocks) where
  counted := BodyOp.counted_after ho h.counted
  placed lab := by simp [h.placed, BodyOp.after]
  blocks b hb := by
    rcases List.mem_append.mp hb with hb | hb
    · exact h.blocks b hb
    · cases o with
      | block b' =>
        obtain rfl := List.mem_singleton.mp hb
        exact ho.1
      | _ => cases hb
  earlier b hb := by
    rcases List.mem_append.mp hb with hb | hb
    · exact (h.earlier b hb).imp (List.mem_append_left _) (List.mem_append_left _)
    · exact .inl (List.mem_append_right _ hb)

/-- At an operation, no block is open that is none of the code. -/
theorem handler_mem_own (h : s.Follows (.op o rest) pre earlier)
    (hc : (GuardedCode.op o rest).Fits s) (hpre : pre ⊆ before)
    (hbefore : before ⊆ pre ++ o.nodes s.nextLabel)
    (hb : b ∈ earlier ++ (GuardedCode.op o rest).blocks s) (hopen : b.isOpen before) :
    b.handler ∈ s.own := by
  obtain ⟨ho, hrest⟩ := hc
  rcases List.mem_append.mp hb with hb | hb
  · rcases h.earlier b hb with hb | hended
    · exact h.blocks b hb
    · simp [TryBlock.isOpen_eq_false_of_ended (hpre hended)] at hopen
  · rcases List.mem_append.mp hb with hb | hb
    · exact (h.op ho).blocks b (List.mem_append_right _ hb)
    · rcases GuardedCode.contains_of_mem_blocks hrest hb with ⟨hown, -, -⟩ | hentries
      · exact hown
      · simp [(h.op ho).notBegun hrest hbefore (hentries _ b.start_mem_labels)] at hopen

/-- In front of the body of a region. -/
theorem enter (h : s.Follows (.guarded body rest) pre earlier) :
    (s.enter body).Follows body (pre ++ s.entering.map Prod.fst) [] where
  counted := Scope.counted_enter h.counted body
  placed lab := by simp [Scope.entering, Scope.enter, h.placed]
  blocks b hb := by cases hb
  earlier b hb := by cases hb

/-- Behind a region. -/
theorem leave (h : s.Follows (.guarded body rest) pre earlier)
    (hbody : body.Fits (s.enter body)) :
    (s.leave (body.after (s.enter body))).Follows rest
      (pre ++ (GuardedCode.region s body).map Prod.fst)
      (earlier ++ GuardedCode.innerBlocks s body) where
  counted := Scope.counted_leave
    (GuardedCode.counted_after hbody (Scope.counted_enter h.counted body))
    (GuardedCode.nextLabel_le_after (s.enter body) body)
  placed lab := by rw [List.mem_append, h.placed, GuardedCode.mem_placed_leave]
  blocks := h.blocks
  earlier b hb := by
    rcases List.mem_append.mp hb with hb | hb
    · exact (h.earlier b hb).imp id (List.mem_append_left _)
    · exact .inr (List.mem_append_right _ (GuardedCode.labels_mem_region
        (GuardedCode.contains_of_mem_blocks hbody) hb b.stop_mem_labels))

section region

variable (h : s.Follows (.guarded body rest) pre earlier)
  (hc : (GuardedCode.guarded body rest).Fits s) (hpre : pre ⊆ before)
  (hbefore : before ⊆ pre ++ (GuardedCode.region s body).map Prod.fst)

include h hc hpre hbefore

/-- In a region, no block is open that was added before. -/
theorem closed (hb : b ∈ earlier) : b.isOpen before = false := by
  obtain ⟨hended, hbody, hrest⟩ := hc
  rw [Bool.eq_false_iff]
  intro hopen
  simp only [TryBlock.isOpen, Bool.and_eq_true, decide_eq_true_eq] at hopen
  obtain ⟨hstart, hstop⟩ := hopen
  have hplaced := ((h.leave hbody).placed _).mp (hbefore hstart)
  rcases h.earlier b hb with hblock | hmem
  · exact hstop (hpre ((h.placed _).mpr (hended b hblock hplaced)))
  · exact hstop (hpre hmem)

/-- Where no block of the region is open, an exception stays outside. -/
theorem dispatches_outside (hown : ∀ lab ∈ s.own, (.label lab, ⟨s.held, .ordinary⟩) ∈ all)
    (hinner : ∀ b ∈ GuardedCode.innerBlocks s body, b.isOpen before = false) :
    Dispatches all (earlier ++ (GuardedCode.guarded body rest).blocks s) s.held s.held before := by
  refine .skip (fun b hb => h.closed hc hpre hbefore hb) (.skip hinner (.of_own ?_))
  obtain ⟨-, hbody, hrest⟩ := hc
  intro b hb hopen
  rcases GuardedCode.contains_of_mem_blocks hrest hb with ⟨hhandler, -, -⟩ | hentries
  · exact hown _ hhandler
  · simp [(h.leave hbody).notBegun hrest hbefore (hentries _ b.start_mem_labels)] at hopen

/-- Where the block of the region is open, it catches what the body does not. -/
theorem dispatches_inside {held : List Nat} (hopen : s.block.isOpen before)
    (hhandler : (.label s.block.handler, ⟨s.slot.toNat :: s.held, .caught⟩) ∈ all)
    (hinside : Dispatches all (body.blocks (s.enter body)) held (s.slot.toNat :: s.held) before) :
    Dispatches all (earlier ++ (GuardedCode.guarded body rest).blocks s) held s.held before := by
  refine .skip (fun b hb => h.closed hc hpre hbefore hb) ?_
  rw [GuardedCode.blocks, List.append_assoc]
  exact hinside.caught hopen rfl hhandler

end region

/-- In the body, the block of the region is open. -/
theorem opened (h : s.Follows (.guarded body rest) pre earlier)
    (hbody : body.Fits (s.enter body)) (hstart : pre ++ s.entering.map Prod.fst ⊆ before)
    (hstop : before ⊆ pre ++ s.entering.map Prod.fst ++
      (body.entries (s.enter body)).map Prod.fst) : s.block.isOpen before := by
  simp only [TryBlock.isOpen, Bool.and_eq_true, decide_eq_true_eq]
  refine ⟨hstart (by simp [Scope.entering, Scope.block]), fun hmem => ?_⟩
  have hplaced : (⟨s.nextLabel + 1⟩ : Label) ∈ (body.after (s.enter body)).placed := by
    rw [GuardedCode.mem_placed_after, ← h.enter.placed, ← List.mem_append]
    exact hstop hmem
  exact GuardedCode.fresh_after hbody h.counted (Nat.le_refl 1) (by decide) hplaced

section entries

variable (h : s.Follows (.guarded body rest) pre earlier)
  (hc : (GuardedCode.guarded body rest).Fits s)
  (hown : ∀ lab ∈ s.own, (.label lab, ⟨s.held, .ordinary⟩) ∈ all)
  (hhandler : (.label s.block.handler, ⟨s.slot.toNat :: s.held, .caught⟩) ∈ all)

include h hc

include hown in
/-- Where a region is entered, none of its blocks is open. -/
theorem raised_entering : Everywhere
    (Raised all (earlier ++ (GuardedCode.guarded body rest).blocks s) s.held) pre s.entering := by
  have hclosed : ∀ b ∈ GuardedCode.innerBlocks s body, b.isOpen pre = false := by
    intro b hb
    refine h.notBegun hc (List.Subset.refl pre) ?_
    rw [GuardedCode.entries, List.map_append]
    exact List.mem_append_left _ (GuardedCode.labels_mem_region
      (GuardedCode.contains_of_mem_blocks hc.2.1) hb b.start_mem_labels)
  have hout := h.dispatches_outside hc (List.Subset.refl pre) (List.subset_append_left _ _) hown
    hclosed
  exact ⟨fun _ _ => hout, fun _ _ => hout.instr, fun _ _ => hout.instr.instr,
    fun hreal => (by cases hreal), trivial⟩

include hhandler in
/-- What the body does not catch comes to the handler of the region. -/
theorem raised_body
    (hraised : Everywhere (Raised all (body.blocks (s.enter body)) (s.slot.toNat :: s.held))
      (pre ++ s.entering.map Prod.fst) (body.entries (s.enter body))) :
    Everywhere (Raised all (earlier ++ (GuardedCode.guarded body rest).blocks s) s.held)
      (pre ++ s.entering.map Prod.fst) (body.entries (s.enter body)) := by
  refine hraised.imp fun ns e _ hpre hns hinside hreal hsure => ?_
  exact h.dispatches_inside hc (List.append_subset.mp hpre).1
    (List.Subset.trans hns (GuardedCode.subset_region s body pre)) (h.opened hc.2.1 hpre hns)
    hhandler (hinside hreal hsure)

include hown hhandler in
/-- Behind the body, only the block of the region is open, and only until the monitor is exited. -/
theorem raised_leaving : Everywhere
    (Raised all (earlier ++ (GuardedCode.guarded body rest).blocks s) s.held)
    (pre ++ s.entering.map Prod.fst ++ (body.entries (s.enter body)).map Prod.fst)
    (s.leaving ++ s.handling (body.after (s.enter body)).slot) := by
  have hbefore := GuardedCode.subset_region s body pre
  have hpre : pre ⊆ pre ++ s.entering.map Prod.fst ++
      (body.entries (s.enter body)).map Prod.fst := by simp [List.append_assoc]
  have hended : ∀ b ∈ body.blocks (s.enter body),
      .label b.stop ∈ (body.entries (s.enter body)).map Prod.fst :=
    fun b hb => GuardedCode.labels_mem_entries hc.2.1 rfl rfl hb b.stop_mem_labels
  have hin := h.dispatches_inside hc hpre hbefore
    (h.opened hc.2.1 (List.subset_append_left _ _) (List.Subset.refl _)) hhandler
    (.of_own fun b hb hopen => by simp [TryBlock.isOpen, hended b hb] at hopen)
  have hout : ∀ ns, pre ++ s.entering.map Prod.fst ++
        (body.entries (s.enter body)).map Prod.fst ⊆ ns →
      ns ⊆ pre ++ (GuardedCode.region s body).map Prod.fst → .label s.block.stop ∈ ns →
      Dispatches all (earlier ++ (GuardedCode.guarded body rest).blocks s) s.held s.held ns := by
    intro ns hns hregion hstop
    refine h.dispatches_outside hc (List.Subset.trans hpre hns) hregion hown fun b hb => ?_
    rcases List.mem_append.mp hb with hb | hb
    · exact TryBlock.isOpen_eq_false_of_ended (hns (List.mem_append_right _ (hended b hb)))
    · obtain rfl := List.mem_singleton.mp hb
      exact TryBlock.isOpen_eq_false_of_ended hstop
  have hexit : Node.instr (.plain Opcode.monitorexit) ≠ .instr (.plain Opcode.athrow) := by decide
  -- The entries are gone through one by one. Of what stands before each of them only three facts
  -- are used: it holds the body, it lies in the region, and whether it holds the end of the block.
  have hlast : (s.leaving ++ s.handling (body.after (s.enter body)).slot).map Prod.fst ⊆
      pre ++ (GuardedCode.region s body).map Prod.fst := by
    refine List.Subset.trans (List.map_subset _ fun e he => ?_) (List.subset_append_right _ _)
    rw [GuardedCode.region, List.append_assoc]
    exact List.mem_append_right _ he
  generalize pre ++ (GuardedCode.region s body).map Prod.fst = entire at hbefore hout hlast
  generalize pre ++ s.entering.map Prod.fst ++ (body.entries (s.enter body)).map Prod.fst = mid
    at hbefore hin hout ⊢
  simp only [Scope.leaving, Scope.handling, List.cons_append, List.nil_append, List.map_cons,
    List.map_nil, List.cons_subset] at hlast
  refine ⟨fun _ _ => hin, fun _ _ => hin.instr, fun hreal => (by cases hreal),
    fun _ _ => hout _ ?_ ?_ ?_, fun hreal => (by cases hreal), .of_sure rfl (by simp),
    .of_sure rfl (by simp), .of_sure rfl hexit, .of_sure rfl (by simp),
    fun _ _ => (hout _ ?_ ?_ ?_).instr.instr.instr.instr, fun hreal => (by cases hreal), trivial⟩
  · simp
  · simp [hbefore, hlast]
  · simp [Scope.block]
  · simp
  · simp [hbefore, hlast]
  · simp [Scope.block]

end entries

end Scope.Follows

namespace GuardedCode

/-- **An exception that no block in front catches comes to where the same monitors are entered, or
it leaves the code where no more are entered than around it.** -/
theorem raised_entries {all : List (Node × Mark)} {s : Scope} {c : GuardedCode} (hc : c.Fits s)
    (hall : c.entries s ⊆ all) (hown : ∀ lab ∈ s.own, (.label lab, ⟨s.held, .ordinary⟩) ∈ all)
    {pre : List Node} {earlier : List TryBlock} (h : s.Follows c pre earlier) :
    Everywhere (Raised all (earlier ++ c.blocks s) s.held) pre (c.entries s) := by
  -- What is behind some code has the blocks of that code among the earlier ones, a body has none.
  induction c generalizing s pre earlier with
  | done => trivial
  | op o rest ih =>
    have hrest := ih hc.2 (List.append_subset.mp hall).2 hown (h.op hc.1)
    rw [List.append_assoc] at hrest
    rw [entries, everywhere_append, map_fst_mark]
    refine ⟨everywhere_of_forall fun ns e he hpre hns _ _ => ?_, hrest⟩
    obtain ⟨n, -, rfl⟩ := List.mem_map.mp he
    rw [map_fst_mark] at hns
    exact .of_own fun b hb hopen => hown _ (h.handler_mem_own hc hpre hns hb hopen)
  | guarded body rest ihbody ihrest =>
    have hfits := hc
    obtain ⟨-, hbody, hrest⟩ := hfits
    have hregion := (List.append_subset.mp hall).1
    have hinnerAll : body.entries (s.enter body) ⊆ all := fun e he => hregion (by simp [he])
    have hhandler : (.label s.block.handler, ⟨s.slot.toNat :: s.held, .caught⟩) ∈ all :=
      hregion (by simp [Scope.handling, Scope.block])
    have hafter := ihrest hrest (List.append_subset.mp hall).2 hown (h.leave hbody)
    rw [List.append_assoc] at hafter
    refine everywhere_append.mpr ⟨?_, hafter⟩
    have hinside := ihbody hbody hinnerAll (fun lab hlab => hinnerAll (mem_entries_of_places hlab))
      h.enter
    rw [List.append_assoc, everywhere_append, everywhere_append, List.map_append,
      ← List.append_assoc]
    exact ⟨⟨h.raised_entering hc hown, h.raised_body hc hhandler hinside⟩,
      h.raised_leaving hc hown hhandler⟩

end GuardedCode

/-! ## Blocks in front -/

/-- The blocks that are open have handlers where the same monitors are entered. -/
def FrontHandled (all : List (Node × Mark)) (fs : List TryBlock) (before : List Node)
    (e : Node × Mark) : Prop :=
  ∀ b ∈ fs, b.isOpen before → (.label b.handler, ⟨e.2.held, .ordinary⟩) ∈ all

namespace GuardedCode

variable {all : List (Node × Mark)} {s : Scope} {c : GuardedCode} {before : List Node}
  {b : TryBlock}

/-- The blocks of finished code are not open behind it. -/
theorem front_ended (hc : c.Fits s) (hbefore : (c.entries s).map Prod.fst ⊆ before)
    (hb : b ∈ c.frontBlocks s) : b.isOpen before = false :=
  TryBlock.isOpen_eq_false_of_ended
    (hbefore (mem_entries_of_frontBlocks hc hb b.stop_mem_labels))

/-- The blocks of finished code are not open before it. -/
theorem front_notBegun (hc : c.Fits s) {pre : List Node} {earlier : List TryBlock}
    (h : s.Follows c pre earlier) (hbefore : before ⊆ pre) (hb : b ∈ c.frontBlocks s) :
    b.isOpen before = false :=
  h.notBegun hc hbefore (mem_entries_of_frontBlocks hc hb b.start_mem_labels)

/-- **The blocks of finished code catch what is thrown in the same region.** -/
theorem frontHandled_entries (hc : c.Fits s) (hall : c.entries s ⊆ all) {pre : List Node}
    {earlier : List TryBlock} (h : s.Follows c pre earlier) :
    Everywhere (FrontHandled all (c.frontBlocks s)) pre (c.entries s) := by
  induction c generalizing s pre earlier with
  | done => trivial
  | op o rest ih =>
    obtain ⟨ho, hrest⟩ := hc
    have hall' := List.append_subset.mp hall
    rw [entries, everywhere_append, map_fst_mark]
    refine ⟨everywhere_of_forall fun ns e he hpre hns b hb hopen => ?_,
      (ih hrest hall'.2 (h.op ho)).imp fun ns e _ hpre hns hfront b hb hopen => ?_⟩
    · obtain ⟨n, -, rfl⟩ := List.mem_map.mp he
      rw [map_fst_mark] at hns
      rcases List.mem_append.mp hb with hb | hb
      · simp [front_notBegun hrest (h.op ho) hns hb] at hopen
      · have hhandler : b.handler ∈ b.labels := by simp [TryBlock.labels]
        exact hall'.1 (List.mem_map_of_mem (ho.mem_nodes_of_frontBlocks hb hhandler))
    · rcases List.mem_append.mp hb with hb | hb
      · exact hfront b hb hopen
      · have hstop := ho.mem_nodes_of_frontBlocks hb b.stop_mem_labels
        simp [TryBlock.isOpen_eq_false_of_ended (hpre (List.mem_append_right _ hstop))] at hopen
  | guarded body rest ihbody ihrest =>
    obtain ⟨-, hbody, hrest⟩ := hc
    have hall' := List.append_subset.mp hall
    have hinside := ihbody hbody (fun e he => hall'.1 (by simp [he])) h.enter
    have hregion : Everywhere (FrontHandled all (body.frontBlocks (s.enter body))) pre
        (region s body) := by
      rw [region, List.append_assoc, everywhere_append, everywhere_append, List.map_append,
        ← List.append_assoc]
      refine ⟨⟨everywhere_of_forall fun ns e _ _ hns b hb hopen => ?_, hinside⟩,
        everywhere_of_forall fun ns e _ hpre _ b hb hopen => ?_⟩
      · simp [front_notBegun hbody h.enter hns hb] at hopen
      · simp [front_ended hbody (List.append_subset.mp hpre).2 hb] at hopen
    refine everywhere_append.mpr ⟨hregion.imp fun ns e _ _ hns hfront b hb hopen => ?_,
      (ihrest hrest hall'.2 (h.leave hbody)).imp fun ns e _ hpre _ hfront b hb hopen => ?_⟩
    · rcases List.mem_append.mp hb with hb | hb
      · simp [front_notBegun hrest (h.leave hbody) hns hb] at hopen
      · exact hfront b hb hopen
    · rcases List.mem_append.mp hb with hb | hb
      · exact hfront b hb hopen
      · have hsub := List.Subset.trans (subset_region s body pre) hpre
        simp [front_ended hbody (List.append_subset.mp hsub).2 hb] at hopen

end GuardedCode
end ClassWeave
