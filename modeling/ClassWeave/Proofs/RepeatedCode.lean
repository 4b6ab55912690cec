import ClassWeave.Proofs.RepeatedFrames
import ClassWeave.Proofs.WrittenCode

/-!
# Code that is written again

The code of a method was written, and everything that it asked for is there. Without detours and
with an instruction behind every line, what was written is read as a list that says the same. That
list is checked with the same result and nothing of it is left out, it is encoded to the same bytes,
and its handlers, lines and frames are stored as before. So writing it gives the same attribute and
adds nothing.
-/

namespace ClassWeave

open Code Listing Linking

namespace Code

/-- What is read where documented entries were written down is documented. -/
theorem Encoding.documented_readings {links : Links} {range : JumpRange} {nodes : List Node}
    {count : Nat} {e : Encoded} {slots : List Slot}
    (he : Encoding links range nodes count e slots) (hdoc : Documented links.pool nodes)
    (hnarrow : e.wideFallthroughs = []) :
    ∀ p ∈ readings (spelling nodes count slots), p.2.Documented links.pool := by
  intro p hp
  obtain ⟨⟨o, i⟩, hr, rfl⟩ := List.mem_map.mp hp
  obtain ⟨k, hk⟩ := List.mem_iff_getElem?.mp (mem_reals.mp hr)
  obtain ⟨n, s, hplaced, hn⟩ := (he.getElem?_spelling hnarrow).mp hk
  cases n with
  | label | line => cases hn
  | instr j =>
    obtain rfl := Node.instr.inj hn
    have hj := hdoc j (List.mem_of_getElem? hplaced.node)
    exact (Instr.documented_map _ _).mpr ((Instr.documented_ascending j).mpr hj)

/-- A list that was read back is encoded with its handlers at the same offsets. -/
theorem Recoded.laid {links : Links} {bytes : List UInt8} {entries : List HandlerEntry}
    {lines : List LineEntry} {d : InstrList} {instrs : List (Nat × Instr Nat)} {e : Encoded}
    {slots : List Slot} (hr : Recoded links links bytes entries lines d instrs e slots id)
    (hspelled : spelling d.nodes.toList d.labelCount slots =
      decodedEntries bytes.length instrs entries lines) {handlers : List Handler}
    (hcatch : List.Forall₂ (CatchesAs links.pool) entries handlers)
    (hsettled : ∀ k ∈ handlers, VType.IsSettled k.catchType) :
    ∃ moved, Laid links d e slots handlers moved := by
  have hd := hr.read.decoded
  rw [← hspelled] at hd
  obtain ⟨moved, hmoved, hstands⟩ := hd.handlers hcatch
  have hoffset : ∀ {i o : Nat}, (∃ lab, (spelling d.nodes.toList d.labelCount slots)[i]? =
      some (.label lab, o)) → e.offsets[i]? = some o := by
    rintro i o ⟨lab, hi⟩
    rw [← Array.getElem?_toList, ← hr.encoding.map_snd_of_narrow hr.narrow, List.getElem?_map, hi]
    rfl
  refine ⟨moved, hr.encoding, hr.documented, hr.narrow, hr.read.closed, hmoved,
    fun k hk => ?_, fun k hk => ?_⟩
  · obtain ⟨k', hk', hat⟩ := exists_of_forall₂ hstands hk
    exact ⟨k', hk', hoffset hat.start, hoffset hat.stop, hoffset hat.target, hat.caught.symm⟩
  · obtain ⟨k', hk', hat⟩ := exists_of_forall₂ hstands.flip hk
    exact ⟨hat.caught ▸ hsettled k' hk', k', hat, fun _ => hk'⟩

theorem Recoded.offset?_handlers {links later : Links} {bytes : List UInt8}
    {entries : List HandlerEntry} {lines : List LineEntry} {d : InstrList}
    {instrs : List (Nat × Instr Nat)} {e : Encoded} {slots : List Slot} {φ : Nat → Nat}
    (hr : Recoded links later bytes entries lines d instrs e slots φ) :
    List.Forall₂ (fun r lab => offset? lab (spelling d.nodes.toList d.labelCount slots) =
      some (φ r.handler.toNat)) entries (d.blocks.map TryBlock.handler) := by
  rw [List.forall₂_map_right_iff]
  refine ((List.forall₂_and_left entries _).mpr ⟨fun _ h => h, hr.read.blocks⟩).imp ?_
  rintro r b ⟨hmem, hb⟩
  obtain ⟨-, -, hhandler⟩ := hr.labelOffset_of_tryBlock hmem hb
  exact (hr.encoding.labelOffset_eq_ok hr.documented hhandler).1

end Code

namespace WriteContext

variable {ctx : WriteContext} {body : MethodBody} {s : Links} {code : CodeAttribute}
  {l : InstrList} {a' : Analysis} {e : Encoded} {entries : List (Option HandlerEntry × Label)}

/-! ## Handlers by offsets -/

section laid

variable {a : Analysis} {slots : List Code.Slot} (hw : Wrote ctx body s code a l a' e slots entries)
  (hdoc : Documented s.pool body.list.nodes.toList)

include hw hdoc

/-- A block has an entry if there is something in its range. -/
theorem Wrote.exists_entry {b : TryBlock} (hb : b ∈ l.blocks) : ∃ start stop,
    e.labelOffset b.start = .ok start ∧ e.labelOffset b.stop = .ok stop ∧
      (start < stop → ∃ r ∈ code.handlers, StoredAt s.pool e b r) := by
  obtain ⟨⟨stored, handler⟩, hmem, hat, -⟩ := exists_of_forall₂ hw.blocks hb
  cases stored with
  | none =>
    obtain ⟨start, stop, hstart, hstop, hle⟩ := hat.dropped
    exact ⟨start, stop, hstart, hstop, fun hlt => absurd hle (Nat.not_le.mpr hlt)⟩
  | some r =>
    have hstored := hat.stored (labelOffset_le hw.encoding (hw.documented hdoc))
    refine ⟨_, _, hstored.start, hstored.stop, fun _ => ⟨r, ?_, hstored⟩⟩
    rw [hw.handlers]
    exact List.mem_map.mpr ⟨(r, handler), List.mem_filterMap.mpr ⟨(some r, handler), hmem, rfl⟩, rfl⟩

/-- The handlers of the code that was written are those of the analysis, unless there is nothing in
their ranges. -/
theorem Wrote.laid (hnarrow : e.wideFallthroughs = []) {mode : Mode} {g : FlowGraph} {entry : Frame}
    {w : Work} (hs : Analysis.Searched ctx.method l s.pool ctx.hierarchy mode a' g entry w) :
    ∃ handlers, List.Forall₂ (CatchesAs s.pool) code.handlers handlers ∧
      (∀ k ∈ handlers, VType.IsSettled k.catchType) ∧ Laid s l e slots handlers g.handlers := by
  have he := hw.encoding
  have hleft := hw.documented hdoc
  obtain ⟨handlers, hcatch, hhandlers⟩ := hw.handlers_encoded hdoc hs
  have hclosed := hw.closed_left hdoc
  rw [hnarrow] at hclosed
  refine ⟨handlers, hcatch, fun k hk => (hhandlers k hk).1, he, hleft, hnarrow, hclosed,
    mapM_eq_ok.mpr hs.handlers, fun k hk => (hhandlers k hk).2, fun k hk => ?_⟩
  obtain ⟨b, hb, hhandler⟩ := exists_of_forall₂ hs.handlers.flip hk
  obtain ⟨hstart, hstop, htarget, hcaught⟩ := FlowGraph.handler_eq_ok.mp hhandler
  have hlisted := he.listed hleft hnarrow
  obtain ⟨start, hfrom, hstart⟩ := hlisted.offset?_position hstart
  obtain ⟨stop, hto, hstop⟩ := hlisted.offset?_position hstop
  obtain ⟨target, hat, htarget⟩ := hlisted.offset?_position htarget
  have hsame : ∀ {lab o o'}, e.labelOffset lab = .ok o →
      offset? lab (spelling l.nodes.toList l.labelCount slots) = some o' → o' = o := fun h h' =>
    Option.some.inj (h'.symm.trans (he.labelOffset_eq_ok hleft h).1)
  refine ⟨hcaught ▸ trivial, ⟨start, stop, target, k.catchType⟩, ⟨⟨_, hfrom⟩, ⟨_, hto⟩, ⟨_, hat⟩, rfl⟩,
    fun hlt => ?_⟩
  obtain ⟨start', stop', hstart', hstop', hentry⟩ := hw.exists_entry hdoc hb
  obtain ⟨r, hr, hstored⟩ := hentry (by rwa [← hsame hstart' hstart, ← hsame hstop' hstop])
  obtain ⟨k', hk', hcatches⟩ := exists_of_forall₂ hcatch hr
  obtain ⟨c, hc, hcaught'⟩ := hcatches.caught
  obtain rfl := Except.ok.inj (hc.symm.trans hstored.catchType)
  convert hk' using 1
  rw [hsame hstored.start hstart, hsame hstored.stop hstop, hsame hstored.handler htarget, hcaught,
    ← hcatches.start, ← hcatches.stop, ← hcatches.target, ← hcaught']

end laid

/-! ## Steps that add nothing -/

/-- Nothing is left out of code if control comes to all of it. -/
theorem run_prune_of_reaches (ha : analyze ctx.method l s.pool ctx.hierarchy .lenient = .ok a')
    (hall : ∀ {k ins}, l.nodes[k]? = some (.instr ins) → a'.Reaches k) :
    (ctx.prune l).run.run s = (.ok (l, a'), s) := by
  refine Growing.run_bind.mpr ⟨a', s, congrArg (·, s) ha, ?_⟩
  split
  · rename_i hdead
    obtain ⟨⟨n, i⟩, hn, hdead⟩ := List.any_eq_true.mp hdead
    rw [List.mem_zipIdx_iff_getElem?, Array.getElem?_toList] at hn
    cases n with
    | label | line => cases hdead
    | instr ins =>
      have hreach : a'.frames[i]?.join.isSome := hall hn
      simp [isDead, Option.isNone_eq_false_iff.mpr hreach] at hdead
  · rfl

theorem run_sized {n : Nat} {size : UInt16} {err : Nat → ClassError} (h : size.toNat = n) :
    (sized n err).run.run s = (.ok size, s) := by
  subst h
  rw [sized, if_pos (Nat.le_of_lt_succ size.toNat_lt), UInt16.ofNat_toNat]
  rfl

theorem run_handlerEntry {b : TryBlock} {r : HandlerEntry}
    (hstart : e.labelOffset b.start = .ok r.start.toNat)
    (hstop : e.labelOffset b.stop = .ok r.stop.toNat)
    (hhandler : e.labelOffset b.handler = .ok r.handler.toNat)
    (hlt : r.start.toNat < r.stop.toNat)
    (hcatch : (optionalClass b.catchType).run.run s = (.ok r.catchType, s)) :
    (handlerEntry e b).run.run s = (.ok (some r), s) := by
  refine Growing.run_bind.mpr ⟨_, s, Prod.ext hstart rfl, ?_⟩
  refine Growing.run_bind.mpr ⟨_, s, Prod.ext hstop rfl, ?_⟩
  rw [if_neg (Nat.not_le.mpr hlt)]
  refine Growing.run_bind.mpr ⟨_, s, hcatch, Growing.run_bind.mpr ⟨_, s, Prod.ext hhandler rfl, ?_⟩⟩
  simp only [UInt16.ofNat_toNat]
  rfl

/-- The class of an entry was asked for. -/
theorem catchType_of_run {b : TryBlock} {r : HandlerEntry}
    (h : (handlerEntry e b).run.run s = (.ok (some r), s)) :
    (optionalClass b.catchType).run.run s = (.ok r.catchType, s) := by
  obtain ⟨start, t, hstart, h⟩ := Growing.run_bind.mp h
  obtain ⟨stop, u, hstop, h⟩ := Growing.run_bind.mp h
  obtain ⟨-, rfl⟩ := Prod.mk.inj hstart
  obtain ⟨-, rfl⟩ := Prod.mk.inj hstop
  split at h
  · cases (Growing.run_pure.mp h).1
  · obtain ⟨i, t, hi, h⟩ := Growing.run_bind.mp h
    obtain ⟨o, u, ho, h⟩ := Growing.run_bind.mp h
    obtain ⟨-, rfl⟩ := Prod.mk.inj ho
    obtain ⟨hr, rfl⟩ := Growing.run_pure.mp h
    rw [← Option.some.inj hr]
    exact hi

/-- The entries of blocks that all have something in their ranges. -/
theorem run_handlerEntries {handlers : List HandlerEntry} {blocks : List TryBlock}
    (h : List.Forall₂ (fun r b => (handlerEntry e b).run.run s = (.ok (some r), s)) handlers
      blocks) : ∃ entries,
        (blocks.mapM fun b => do return (← handlerEntry e b, b.handler)).run.run s =
          (.ok entries, s) ∧ (keptEntries entries).map Prod.fst = handlers ∧
            (keptEntries entries).map Prod.snd = blocks.map TryBlock.handler := by
  induction h with
  | nil => exact ⟨[], rfl, rfl, rfl⟩
  | @cons r b handlers blocks hr _ ih =>
    obtain ⟨entries, hentries, hfst, hsnd⟩ := ih
    refine ⟨(some r, b.handler) :: entries, ?_, congrArg (r :: ·) hfst,
      congrArg (b.handler :: ·) hsnd⟩
    rw [List.mapM_cons]
    exact Growing.run_bind.mpr ⟨_, s, Growing.run_bind.mpr ⟨_, s, hr, rfl⟩,
      Growing.run_bind.mpr ⟨_, s, hentries, rfl⟩⟩

/-- If no step of writing code adds anything, neither do all of them. -/
theorem run_code (body : MethodBody) {maxStack maxLocals : UInt16} {lines frames : List Attribute}
    (hprune : (ctx.prune body.list).run.run s = (.ok (l, a'), s))
    (hencode : (Code.encode l.nodes.toList l.labelCount).run.run s = (.ok e, s))
    (hentries : (l.blocks.mapM fun b => do return (← handlerEntry e b, b.handler)).run.run s =
      (.ok entries, s))
    (hstack : maxStack.toNat = a'.maxStack) (hlocals : maxLocals.toNat = a'.maxLocals)
    (hlines : (lineTable e.lines).run.run s = (.ok lines, s))
    (hframes : ctx.hasStackMaps = false ∧ frames = [] ∨ ctx.hasStackMaps = true ∧
      (ctx.stackMap l a' e ((keptEntries entries).map Prod.snd)).run.run s = (.ok frames, s)) :
    (ctx.code body).run.run s = (.ok ⟨maxStack, maxLocals, e.bytes,
      (keptEntries entries).map Prod.fst, lines ++ frames ++ body.attributes⟩, s) := by
  refine Growing.run_bind.mpr ⟨(l, a'), s, hprune, ?_⟩
  refine Growing.run_bind.mpr ⟨e, s, hencode, ?_⟩
  refine Growing.run_bind.mpr ⟨entries, s, hentries, ?_⟩
  refine Growing.run_bind.mpr ⟨maxStack, s, run_sized hstack, ?_⟩
  refine Growing.run_bind.mpr ⟨maxLocals, s, run_sized hlocals, ?_⟩
  refine Growing.run_bind.mpr ⟨lines, s, hlines, ?_⟩
  rcases hframes with ⟨hmaps, rfl⟩ | ⟨hmaps, hframes⟩
  · simp only [hmaps]
    rfl
  · simp only [hmaps]
    exact Growing.run_bind.mpr ⟨frames, s, hframes, rfl⟩

/-! ## Reading and writing again -/

/-- What was written without detours can be read, and then encoded again. -/
theorem Wrote.exists_reread {a : Analysis} {pieces : List Piece} {slots : List Code.Slot}
    (hw : Wrote ctx body s code a l a' e slots entries) (hplain : body.Plain s.pool)
    (hfits : body.Fits) (hpieces : (l.nodes.toList.mapM Piece.ofNode).run.run s = (.ok pieces, s))
    (hassemble : assemble .short l.labelCount pieces = .ok e)
    (hslots : slots = (settle .short l.labelCount (narrowSlots pieces)).1)
    (hnarrow : e.wideFallthroughs = []) (hlines : ¬ TrailingLine l.nodes.toList) :
    ∃ d, MethodBody.ofAttribute s code =
        .ok ⟨d, code.maxStack, code.maxLocals, body.attributes⟩ ∧
      Reread s l.nodes.toList l.labelCount pieces e slots code.handlers d := by
  have he := hw.encoding
  have hleft := hw.documented hplain.documented
  have hclosed := hw.closed_left hplain.documented
  obtain ⟨-, hscan⟩ := he.scanned hleft hclosed fun _ h => h
  obtain ⟨hoffsets, blocks, hblocks, -⟩ := blocks_of_entries he hleft hclosed hw.blocks e.lines
  rw [← hw.handlers] at hoffsets hblocks
  have hread := he.wellRead hleft hclosed (fun _ h => h) hoffsets
  have hdecode : Code.decode s.context e.bytes code.handlers e.lines = .ok _ :=
    decode_eq hscan hread hblocks
  refine ⟨_, ?_, hpieces, hassemble, hslots, he, hnarrow, hleft, hnarrow ▸ hclosed, hlines,
    disassembled_of_scan hscan hdecode, he.documented_readings hleft hnarrow⟩
  refine bind_eq_ok.mpr ⟨_, hw.sortAttributes hplain (hw.length_lines_le hfits), ?_⟩
  simp only [he.sorted_lines, hw.bytes]
  exact bind_eq_ok.mpr ⟨_, hdecode, rfl⟩

theorem Wrote.offset?_handlers {a : Analysis} {slots : List Code.Slot}
    (hw : Wrote ctx body s code a l a' e slots entries)
    (hdoc : Documented s.pool body.list.nodes.toList) :
    List.Forall₂ (fun r lab => offset? lab (spelling l.nodes.toList l.labelCount slots) =
      some r.handler.toNat) code.handlers ((keptEntries entries).map Prod.snd) := by
  have hleft := hw.documented hdoc
  rw [hw.handlers, List.forall₂_map_left_iff, List.forall₂_map_right_iff, List.forall₂_same]
  intro r hr
  obtain ⟨b, -, hstored, hlabel⟩ := exists_storedAt (labelOffset_le hw.encoding hleft) hw.blocks hr
  rw [hlabel]
  exact (hw.encoding.labelOffset_eq_ok hleft hstored.handler).1

/-- Every entry that is stored was asked for. -/
theorem Steps.exists_block (h : Steps ctx body s code l a' e entries) {r : HandlerEntry}
    (hr : r ∈ code.handlers) : ∃ b ∈ l.blocks, Lasts (handlerEntry e b) s (some r) := by
  rw [h.handlers] at hr
  obtain ⟨⟨_, lab⟩, hkept, rfl⟩ := List.mem_map.mp hr
  obtain ⟨⟨stored, _⟩, hmem, hsome⟩ := List.mem_filterMap.mp hkept
  obtain ⟨r, rfl, heq⟩ := Option.map_eq_some_iff.mp hsome
  obtain ⟨rfl, rfl⟩ := Prod.mk.inj heq
  obtain ⟨b, hb, hlasts, -⟩ := exists_of_forall₂ h.blocks.flip hmem
  exact ⟨b, hb, hlasts⟩

/-- The entries are stored for what was read, too. -/
theorem Steps.handlers_again (hs : s.pool.Reachable) (h : Steps ctx body s code l a' e entries)
    (hsmall : ∀ {lab o}, e.labelOffset lab = .ok o → o ≤ 65535) {bytes : List UInt8}
    {lines : List LineEntry} {d : InstrList} {instrs : List (Nat × Instr Nat)} {e' : Encoded}
    {slots' : List Code.Slot}
    (hr : Recoded s s bytes code.handlers lines d instrs e' slots' id) :
    List.Forall₂ (fun r b => (handlerEntry e' b).run.run s = (.ok (some r), s)) code.handlers
      d.blocks := by
  refine ((List.forall₂_and_left code.handlers _).mpr ⟨fun _ h => h, hr.read.blocks⟩).imp ?_
  rintro r b ⟨hmem, hb⟩
  obtain ⟨b₀, -, hlasts⟩ := h.exists_block hmem
  have hstored := (hlasts.gives hs (gives_handlerEntry e b₀)).stored hsmall
  obtain ⟨hstart, hstop, hhandler⟩ := hr.labelOffset_of_tryBlock hmem hb
  have hcatch : b.catchType = b₀.catchType := by
    obtain ⟨c, hc, rfl⟩ := tryBlock_eq_ok.mp hb
    exact Except.ok.inj (hc.symm.trans hstored.catchType)
  refine run_handlerEntry hstart hstop hhandler hstored.lt ?_
  rw [hcatch]
  exact catchType_of_run hlasts.run

/-- **Code that was written, read and written again is stored in the same way.** -/
theorem Steps.again (hs : s.pool.Reachable) (h : Steps ctx body s code l a' e entries)
    (hplain : body.Plain s.pool) (hfits : body.Fits) (hh : ctx.hierarchy.Sound) {a : Analysis}
    (ha : analyze ctx.method body.list s.pool ctx.hierarchy .strict = .ok a)
    (hnarrow : e.wideFallthroughs = []) (hlines : ¬ TrailingLine l.nodes.toList) :
    ∃ body', MethodBody.ofAttribute s code = .ok body' ∧
      (ctx.code body').run.run s = (.ok code, s) := by
  obtain ⟨_, pieces, slots, hw, hpieces, hassemble, hslots⟩ := h.exists_wrote hs
  obtain ⟨d, hbody, hr⟩ :=
    hw.exists_reread hplain hfits hpieces hassemble hslots hnarrow hlines
  refine ⟨_, hbody, ?_⟩
  -- both lists are analysed with the same result
  have hchecked := hw.pruned.checked ha
  obtain ⟨g, entry, w, hsearched⟩ := Analysis.searched_of_analyze hchecked
  obtain ⟨handlers, hcatch, hsettled, hx⟩ := hw.laid hplain.documented hnarrow hsearched
  obtain ⟨e', slots', hencode, hbytes, hrecoded, hspelled⟩ := hr.reencode hs
  obtain ⟨moved, hy⟩ := hrecoded.laid hspelled hcatch hsettled
  have hagree : readings (spelling d.nodes.toList d.labelCount slots') =
      readings (spelling l.nodes.toList l.labelCount slots) := by
    rw [hspelled]
    exact hr.read.decoded.readings_eq
  obtain ⟨b, hb, hm⟩ := hx.mirrored hy hagree hh hchecked
  have hprune : (ctx.prune d).run.run s = (.ok (d, b), s) :=
    run_prune_of_reaches (analyze_lenient hb)
      (hx.reaches hy hagree hm fun hj => hw.pruned.reached hj)
  obtain ⟨entries', hentries, hfst, hsnd⟩ := run_handlerEntries
    (h.handlers_again hs (labelOffset_le hw.encoding hx.documented) hrecoded)
  obtain ⟨lines, frames, hattributes, hline, hframes⟩ := h.attributes
  rw [← hr.lines_eq hrecoded.encoding hspelled] at hline
  have hframes' : ctx.hasStackMaps = false ∧ frames = [] ∨ ctx.hasStackMaps = true ∧
      (ctx.stackMap d b e' ((keptEntries entries').map Prod.snd)).run.run s = (.ok frames, s) := by
    refine hframes.imp_right fun ⟨hmaps, points, table, hmap⟩ => ⟨hmaps, ?_⟩
    rw [hsnd]
    exact hmap.again hx hy hagree hm (hw.offset?_handlers hplain.documented)
      hrecoded.offset?_handlers hs
  have hcode := run_code ⟨d, code.maxStack, code.maxLocals, body.attributes⟩ hprune
    hencode hentries (h.maxStack.trans hm.stack.symm) (h.maxLocals.trans hm.locals.symm) hline.run
      hframes'
  rwa [hfst, hbytes, ← h.bytes, ← hattributes] at hcode

end WriteContext
end ClassWeave
