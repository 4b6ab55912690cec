import ClassWeave.Proofs.Recoding

/-!
# Exception tables that are accepted

Jumps are checked while instructions are read, and may not go to the end of the code. The offsets of
an exception table are checked afterwards, together with the targets of jumps; since nothing tells
any more what they stand for, the end of the code is accepted for all of them, though only a range
can end there. So a table is accepted if each of its offsets is that of an instruction or the end of
the code, and behind the labels that come from it stands an instruction unless they are for the end
(`exception_table_accepted_iff`).
-/

namespace ClassWeave

open Code

/-- An entry of an exception table whose offsets have places in the code. -/
structure HandlerEntry.Placed (length : Nat) (instrs : List (Nat × Instr Nat)) (h : HandlerEntry) :
    Prop where
  start : h.start.toNat ∈ places length instrs
  stop : h.stop.toNat ∈ places length instrs
  handler : h.handler.toNat ∈ places length instrs

theorem HandlerEntry.placed_iff {length : Nat} {instrs : List (Nat × Instr Nat)}
    {h : HandlerEntry} :
    h.Placed length instrs ↔ ∀ o ∈ handlerOffsets h, o ∈ places length instrs := by
  rw [forall_handlerOffsets]
  exact ⟨fun hp => ⟨hp.start, hp.stop, hp.handler⟩, fun hp => ⟨hp.1, hp.2.1, hp.2.2⟩⟩

namespace Code

variable {ctx : Context} {code : List UInt8} {instrs : List (Nat × Instr Nat)}
  {handlers : List HandlerEntry} {lines : List LineEntry}

/-- Some code can be read, and its jumps go to instructions. -/
structure Readable (ctx : Context) (code : List UInt8) (instrs : List (Nat × Instr Nat)) :
    Prop where
  scan : scan ctx code = .ok instrs
  targets : ∀ p ∈ instrs, ∀ t ∈ p.2.targets, t ∈ instrs.map Prod.fst

/-- A jump that goes to a place goes to an instruction, since it does not go to the end. -/
theorem readable_iff (hscan : scan ctx code = .ok instrs) : Readable ctx code instrs ↔
    ∀ p ∈ instrs, ∀ t ∈ p.2.targets, t ∈ places code.length instrs := by
  refine ⟨fun h p hp t ht => .inl (h.targets p hp t ht), fun h => ⟨hscan, fun p hp t ht => ?_⟩⟩
  have hlt : t < code.length := ((scan_spec hscan).2 p hp).1.inside t ht
  exact (h p hp t ht).resolve_right (Nat.ne_of_lt hlt)

theorem labelOffsets_placed_iff {length : Nat} :
    (∀ o ∈ labelOffsets instrs handlers, o ∈ places length instrs) ↔
      (∀ p ∈ instrs, ∀ t ∈ p.2.targets, t ∈ places length instrs) ∧
        ∀ h ∈ handlers, h.Placed length instrs := by
  simp only [mem_labelOffsets, HandlerEntry.placed_iff]
  constructor
  · exact fun h => ⟨fun p hp t ht => h t (.inl ⟨p, hp, ht⟩),
      fun b hb o ho => h o (.inr ⟨b, hb, ho⟩)⟩
  · rintro ⟨hjumps, hplaced⟩ o (⟨p, hp, ho⟩ | ⟨b, hb, ho⟩)
    · exact hjumps p hp o ho
    · exact hplaced b hb o ho

/-- What decoding asks for: code that can be read, offsets that have places and classes of
exceptions that are there. -/
theorem exists_decode_iff : (∃ r, decode ctx code handlers lines = .ok r) ↔
    ∃ instrs, Readable ctx code instrs ∧ ∀ h ∈ handlers,
      h.Placed code.length instrs ∧ ∃ c, ctx.pool.optionalClass h.catchType = .ok c := by
  constructor
  · rintro ⟨r, h⟩
    obtain ⟨instrs, blocks, hscan, hplaces, hblocks, -⟩ := decode_eq_ok_iff.mp h
    obtain ⟨hjumps, hplaced⟩ := labelOffsets_placed_iff.mp hplaces
    refine ⟨instrs, (readable_iff hscan).mpr hjumps, fun h hh => ⟨hplaced h hh, ?_⟩⟩
    obtain ⟨b, -, hb⟩ := exists_of_forall₂ (mapM_eq_ok.mp hblocks) hh
    obtain ⟨c, hc, -⟩ := tryBlock_eq_ok.mp hb
    exact ⟨c, hc⟩
  · rintro ⟨instrs, hread, hentries⟩
    have hentry : ∀ h ∈ handlers, ∃ b,
        tryBlock ctx (labelTable (labelOffsets instrs handlers)) h = .ok b := fun h hh => by
      obtain ⟨c, hc⟩ := (hentries h hh).2
      exact ⟨_, tryBlock_eq_ok.mpr ⟨c, hc, rfl⟩⟩
    obtain ⟨blocks, hblocks⟩ := exists_forall₂ hentry
    have hplaces := labelOffsets_placed_iff.mpr
      ⟨(readable_iff hread.scan).mp hread, fun h hh => (hentries h hh).1⟩
    exact ⟨_, decode_eq_ok_iff.mpr
      ⟨instrs, blocks, hread.scan, hplaces, mapM_eq_ok.mpr hblocks, rfl⟩⟩

/-- **Exception tables.** Where the instructions and the classes of exceptions can be read, the list
comes out just if every offset of the table is that of an instruction or the end of the code. Behind
every label that is jumped to stands an instruction then, and behind those that come from the table
if their offsets are those of instructions. -/
theorem exception_table_accepted_iff (hread : Readable ctx code instrs)
    (htypes : ∀ h ∈ handlers, ∃ c, ctx.pool.optionalClass h.catchType = .ok c) :
    ((∃ r, decode ctx code handlers lines = .ok r) ↔
      ∀ h ∈ handlers, h.Placed code.length instrs) ∧
    ∀ l offsets, decode ctx code handlers lines = .ok (l, offsets) →
      (∀ lab ∈ l.nodes.toList.flatMap Node.targets, Leads l.nodes.toList lab) ∧
      List.Forall₂ (fun h b =>
        (Leads l.nodes.toList b.start ↔ h.start.toNat ∈ instrs.map Prod.fst) ∧
        (Leads l.nodes.toList b.stop ↔ h.stop.toNat ∈ instrs.map Prod.fst) ∧
        (Leads l.nodes.toList b.handler ↔ h.handler.toNat ∈ instrs.map Prod.fst))
        handlers l.blocks := by
  refine ⟨?_, fun l offsets hdecode => ?_⟩
  · rw [exists_decode_iff]
    constructor
    · -- the code can be read in one way only
      rintro ⟨instrs', hread', hentries⟩ h hh
      obtain rfl := Except.ok.inj (hread.scan.symm.trans hread'.scan)
      exact (hentries h hh).1
    · exact fun hplaced => ⟨instrs, hread, fun h hh => ⟨hplaced h hh, htypes h hh⟩⟩
  · have hd := disassembled_of_scan hread.scan hdecode
    refine ⟨fun lab => hd.leads_of_mem_targets, ?_⟩
    have hblocks := (List.forall₂_and_left handlers _).mpr ⟨fun _ hh => hh, hd.blocks⟩
    refine hblocks.imp fun h b hb => ?_
    obtain ⟨c, -, rfl⟩ := tryBlock_eq_ok.mp hb.2
    exact forall_handlerOffsets.mp fun o ho =>
      hd.leads_labelAt_iff (mem_labelOffsets.mpr (.inr ⟨h, hb.1, ho⟩))

/-- The code of a method that only returns. -/
def returnOnly : List UInt8 := [177]

/-- Entries that start and are handled at the end of that code. -/
def endEntries : List HandlerEntry := [⟨0, 1, 1, 0⟩, ⟨1, 1, 0, 0⟩]

theorem readable_returnOnly : Readable ⟨.empty, #[]⟩ returnOnly [(0, .plain 177)] :=
  ⟨rfl, by simp [Instr.targets]⟩

/-- Both entries are accepted. -/
theorem exception_table_accepted_at_end : ∃ r,
    decode ⟨.empty, #[]⟩ returnOnly endEntries [] = .ok r := by
  have htypes : ∀ h ∈ endEntries, ∃ c, Pool.empty.optionalClass h.catchType = .ok c := by
    intro h hh
    refine ⟨none, ?_⟩
    obtain rfl | rfl : h = ⟨0, 1, 1, 0⟩ ∨ h = ⟨1, 1, 0, 0⟩ := by simpa [endEntries] using hh
    · rfl
    · rfl
  refine (exception_table_accepted_iff readable_returnOnly htypes).1.mpr fun h hh => ?_
  obtain rfl | rfl : h = ⟨0, 1, 1, 0⟩ ∨ h = ⟨1, 1, 0, 0⟩ := by simpa [endEntries] using hh
  · exact ⟨.inl (by decide), .inr rfl, .inr rfl⟩
  · exact ⟨.inr rfl, .inr rfl, .inl (by decide)⟩

/-- Nothing stands behind a label that comes last. -/
theorem not_leads_append_label (nodes : List Node) (lab : Label) :
    ¬ Leads (nodes ++ [.label lab]) lab := by
  rintro ⟨xs, ys, heq, hnot, hreal⟩
  obtain rfl | ⟨zs, z, rfl⟩ := List.eq_nil_or_concat ys
  · cases hreal
  · rw [List.concat_eq_append, ← List.cons_append, ← List.append_assoc] at heq
    obtain ⟨-, hlast⟩ := List.append_inj' heq rfl
    exact hnot (by simp [← hlast])

/-- The only instruction starts at 0, but the handler of one block and the start of the other are
the label at 1, behind which nothing stands. -/
theorem handler_and_start_at_end : Readable ⟨.empty, #[]⟩ returnOnly [(0, .plain 177)] ∧
    ∃ l offsets b b', decode ⟨.empty, #[]⟩ returnOnly endEntries [] = .ok (l, offsets) ∧
      l.blocks = [b, b'] ∧ ¬ Leads l.nodes.toList b.handler ∧
        ¬ Leads l.nodes.toList b'.start := by
  have hdecode : decode ⟨.empty, #[]⟩ returnOnly endEntries [] =
      .ok (⟨#[.label ⟨0⟩, .instr (.plain 177), .label ⟨1⟩], #[true, true],
        [⟨⟨0⟩, ⟨1⟩, ⟨1⟩, none⟩, ⟨⟨1⟩, ⟨1⟩, ⟨0⟩, none⟩]⟩, [0, 0, 1]) := by cbv
  have hend : ¬ Leads [.label ⟨0⟩, .instr (.plain 177), .label ⟨1⟩] ⟨1⟩ :=
    not_leads_append_label [.label ⟨0⟩, .instr (.plain 177)] ⟨1⟩
  exact ⟨readable_returnOnly, _, _, _, _, hdecode, rfl, hend, hend⟩

end Code
end ClassWeave
