import ClassWeave.Proofs.Acceptance
import ClassWeave.Proofs.ClassRoundTrip
import ClassWeave.Proofs.EncodedFrames
import ClassWeave.Proofs.StackMapCodec

/-!
# Written code passes its checks again

A list that says what checked code was encoded to passes its checks, too. The code of a method that
passed its checks is written, and decoding what was written gives such a list: it needs no more room
than is declared, its frames are accepted by those that are stored, and a frame is stored wherever
one is needed.
-/

namespace ClassWeave

open Code Listing

namespace Analysis.Searched

/-! ## Lists that say the same -/

variable {m : MethodContext} {l d : InstrList} {links : Links} {h : Hierarchy} {a : Analysis}
  {g : FlowGraph} {entry : Frame} {w : Work} {e : Encoded} {slots : List Code.Slot}
  {ns : List (Node × Nat)}

/-- A list that says what another one was encoded to has the instructions of that one. -/
theorem follows {range : JumpRange} {result : Option FieldType}
    (he : Encoding links range l.nodes.toList l.labelCount e slots)
    (hdoc : Documented links.pool l.nodes.toList)
    (hclosed : Closed l.nodes.toList e.wideFallthroughs) (hd : Listed d ns)
    (hagree : readings ns = readings (spelling l.nodes.toList l.labelCount slots)) :
    Program.Follows (siteAt ns (StandsAt l.nodes.toList slots))
      ⟨m, d.nodes, links.pool, h, .strict, result⟩ ⟨m, l.nodes, links.pool, h, .strict, result⟩ where
  strict := rfl
  method := rfl
  result := rfl
  pooled _ _ h := h
  sites := siteMap_siteAt hd.positioned (he.siteMap_standsAt hdoc)
  news := by
    rintro k i cls ⟨⟨n, o⟩, hk, hreal, n', slot, hi, -⟩ hn
    rw [← Array.getElem?_toList, hi.node] at hn
    obtain rfl := Option.some.inj hn
    have hnarrow : isWideCondition slot = false := by
      by_contra hwide
      obtain ⟨_, _, hjump, -⟩ := he.wide_placed hi (by simpa using hwide) o
      cases Node.instr.inj hjump
    obtain ⟨n', hn', hasc⟩ := hd.exists_node hk
    cases n with
    | label | line => cases hreal
    | instr ins =>
      cases n' with
      | label | line => cases hasc
      | instr ins' =>
        obtain ⟨o', xs, ys, ins'', hk', hasc', hsplit, -⟩ := hd.split hn'
        obtain ⟨hins, rfl⟩ := Prod.mk.inj (Option.some.inj (hk.symm.trans hk'))
        obtain rfl := Node.instr.inj hins
        have hread : (o, ins.map (leadsTo ns)) ∈
            readings (spelling l.nodes.toList l.labelCount slots) := by
          rw [← hagree, hsplit]
          simp
        have hnew := he.eq_of_placed hdoc hclosed hi hnarrow hread
        have hsame : ins' = .type Opcode.new cls := by
          cases ins <;> cases hnew
          cases ins' <;> cases hasc'
          rfl
        rw [hn', hsame]

/-- **A list that says what checked code was encoded to passes its checks**, with no more room, and
with frames below those that are known at its offsets. -/
theorem recheck (hs : Searched m l links.pool h .strict a g entry w) (hh : h.Sound)
    {range : JumpRange} (he : Encoding links range l.nodes.toList l.labelCount e slots)
    (hdoc : Documented links.pool l.nodes.toList)
    (hclosed : Closed l.nodes.toList e.wideFallthroughs) (hd : Listed d ns)
    (hagree : readings ns = readings (spelling l.nodes.toList l.labelCount slots))
    {handlers moved : List Handler} (hhandlers : ∀ k' ∈ handlers, ∃ k ∈ g.handlers, k.EncodedAs e k')
    (hmoved : d.blocks.mapM (FlowGraph.handler d.labelPositions) = .ok moved)
    (hamong : ∀ k ∈ moved, k.Among ns handlers) :
    ∃ b, analyze m d links.pool h .strict = .ok b ∧ b.maxStack ≤ a.maxStack ∧
      b.maxLocals ≤ a.maxLocals ∧ ∀ {k f}, b.frames[k]? = some (some f) → ∃ above,
        roofAt ns (roofOf w.frame? (g.behind? w) l.nodes.toList slots) k = some above ∧
          Frame.Under h (siteAt ns (StandsAt l.nodes.toList slots)) f above := by
  have hroof := hs.roof hh.lawful he hdoc hclosed hhandlers
  obtain ⟨t, htype, hprogram⟩ := hs.type
  have hfollows : Program.Follows (siteAt ns (StandsAt l.nodes.toList slots))
      ⟨m, d.nodes, links.pool, h, .strict, t.result⟩ g.program := by
    rw [hprogram]
    exact follows he hdoc hclosed hd hagree
  obtain ⟨hstart, hlocals, -⟩ := hs.settles hh.lawful
  -- the first instruction is at the start of the code
  have hfirst : entry.Meets h
      (roofAt ns (roofOf w.frame? (g.behind? w) l.nodes.toList slots)) 0 := by
    obtain ⟨n, slot, o, hplaced, hmeets⟩ := hs.meets_of_followed hh.lawful he hdoc hstart
    have hzero : o = 0 := by
      cases slots with
      | nil => cases hplaced.slot
      | cons => exact (Option.some.inj hplaced.offset).symm
    subst hzero
    have hinside := hroof.inside hmeets.choose_spec.1
    rw [← hagree, map_fst_readings] at hinside
    obtain ⟨n', hn'⟩ := hd.positioned.first hinside
    exact meets_roofAt hn' hmeets
  rw [← hagree] at hroof
  obtain rfl := hs.result
  exact analyze_below hh htype hmoved hs.start (hd.ceiling hroof hamong) hfollows hfirst hlocals

end Analysis.Searched

namespace WriteContext

variable {ctx : WriteContext} {body : MethodBody} {s : Links} {code : CodeAttribute}
  {a a' : Analysis} {l : InstrList} {e : Encoded} {slots : List Code.Slot}
  {entries : List (Option HandlerEntry × Label)}

/-! ## Decoding again -/

section decoded

variable (hw : Wrote ctx body s code a l a' e slots entries)
  (hdoc : Documented s.pool body.list.nodes.toList)

include hw hdoc

theorem Wrote.documented : Documented s.pool l.nodes.toList := by
  rw [hw.pruned.nodes]
  exact Analysis.documented_live hdoc

theorem Wrote.closed_left : Closed l.nodes.toList e.wideFallthroughs := by
  rw [hw.pruned.nodes]
  exact hw.closed hdoc

/-- The offset of a label is that of the entry at its place. -/
theorem Wrote.offset_label {lab : Label} {o j : Nat} (ho : e.labelOffset lab = .ok o)
    (hj : lab.position? l.labelPositions = some j) : e.offsets[j]? = some o := by
  obtain ⟨n, o', hplaced, hoffset⟩ := hw.encoding.offset?_position hj
  have hlabel := (hw.encoding.labelOffset_eq_ok (hw.documented hdoc) ho).1
  rw [hoffset, Option.some.injEq] at hlabel
  rw [hw.encoding.offset_placed hplaced, hlabel]

/-- The handlers that are stored are those of the analysis, by offsets. -/
theorem Wrote.handlers_encoded {mode : Mode} {g : FlowGraph} {entry : Frame} {w : Work}
    (hs : Analysis.Searched ctx.method l s.pool ctx.hierarchy mode a' g entry w) :
    ∃ handlers, List.Forall₂ (CatchesAs s.pool) code.handlers handlers ∧
      ∀ k' ∈ handlers, VType.IsSettled k'.catchType ∧ ∃ k ∈ g.handlers, k.EncodedAs e k' := by
  have hall : ∀ r ∈ code.handlers, ∃ k', CatchesAs s.pool r k' ∧
      VType.IsSettled k'.catchType ∧ ∃ k ∈ g.handlers, k.EncodedAs e k' := by
    intro r hr
    rw [hw.handlers] at hr
    obtain ⟨r, hkept, rfl⟩ := List.mem_map.mp hr
    obtain ⟨b, hb, hat, -⟩ :=
      exists_storedAt (labelOffset_le hw.encoding (hw.documented hdoc)) hw.blocks hkept
    obtain ⟨k, hk, hhandler⟩ := exists_of_forall₂ hs.handlers hb
    obtain ⟨hstart, hstop, htarget, hcaught⟩ := FlowGraph.handler_eq_ok.mp hhandler
    exact ⟨⟨r.1.start.toNat, r.1.stop.toNat, r.1.handler.toNat,
      .object (b.catchType.getD "java/lang/Throwable")⟩, ⟨rfl, rfl, rfl, b.catchType,
        hat.catchType, rfl⟩, trivial, k, hk, hw.offset_label hdoc hat.start hstart,
          hw.offset_label hdoc hat.stop hstop, hw.offset_label hdoc hat.handler htarget,
            hcaught.symm⟩
  obtain ⟨handlers, hhandlers⟩ := exists_forall₂ hall
  refine ⟨handlers, hhandlers.imp fun _ _ h => h.1, fun k' hk' => ?_⟩
  obtain ⟨r, -, -, hk'⟩ := exists_of_forall₂ hhandlers.flip hk'
  exact hk'

end decoded

/-- What is known about written code once it was decoded and analysed: it needs no more room than
the analysis in front, and its frames stay below the roof that this one has left. -/
structure Rechecked (ctx : WriteContext) (s : Links) (code : CodeAttribute) (l : InstrList)
    (a' : Analysis) (slots : List Code.Slot) (roof : Nat → Option Frame) (d : InstrList)
    (ns : List (Node × Nat)) (b : Analysis) : Prop where
  decoded : Decoded s.pool code.code.length
    (readings (spelling l.nodes.toList l.labelCount slots)) code.handlers d ns
  analysis : analyze ctx.method d s.pool ctx.hierarchy .strict = .ok b
  stack : b.maxStack ≤ a'.maxStack
  locals : b.maxLocals ≤ a'.maxLocals
  frames : ∀ {k f}, b.frames[k]? = some (some f) → ∃ above, roofAt ns roof k = some above ∧
    Frame.Under ctx.hierarchy (siteAt ns (StandsAt l.nodes.toList slots)) f above

theorem Wrote.rechecked (hw : Wrote ctx body s code a l a' e slots entries)
    (hdoc : Documented s.pool body.list.nodes.toList) (hh : ctx.hierarchy.Sound) {g : FlowGraph}
    {entry : Frame} {w : Work}
    (hs : Analysis.Searched ctx.method l s.pool ctx.hierarchy .strict a' g entry w) :
    ∃ d ns b, Code.decode s.context code.code code.handlers [] = .ok (d, ns.map Prod.snd) ∧
      Rechecked ctx s code l a' slots (roofOf w.frame? (g.behind? w) l.nodes.toList slots) d ns
        b := by
  have he := hw.encoding
  have hleft := hw.documented hdoc
  have hclosed := hw.closed_left hdoc
  obtain ⟨handlers, hcatch, hhandlers⟩ := hw.handlers_encoded hdoc hs
  obtain ⟨-, hscan⟩ := he.scanned hleft hclosed fun _ h => h
  obtain ⟨hoffsets, blocks, hblocks, -⟩ := blocks_of_entries he hleft hclosed hw.blocks []
  rw [← hw.handlers] at hoffsets hblocks
  have hread := he.wellRead hleft hclosed (fun _ h => h) hoffsets
  rw [← hw.bytes] at hscan hread
  obtain ⟨d, ns, hdecode, -, hd⟩ : ∃ d ns, Code.decode s.context code.code code.handlers [] =
      .ok (d, ns.map Prod.snd) ∧ d.blocks = blocks ∧ Decoded s.pool code.code.length
        (readings (spelling l.nodes.toList l.labelCount slots)) code.handlers d ns :=
    decoded_of_scan hscan hread hblocks
  obtain ⟨moved, hmoved, hstands⟩ := hd.handlers hcatch
  have hamong : ∀ k ∈ moved, k.Among ns handlers := by
    intro k hk
    obtain ⟨k', hk', hat⟩ := exists_of_forall₂ hstands.flip hk
    exact ⟨hat.caught ▸ (hhandlers k' hk').1, k', hat, fun _ => hk'⟩
  obtain ⟨b, hb, hstack, hlength, hframes⟩ := hs.recheck hh he hleft hclosed hd.listed
    hd.readings_eq (fun k' hk' => (hhandlers k' hk').2) hmoved hamong
  exact ⟨d, ns, b, hdecode, hd, hb, hstack, hlength, hframes⟩

end WriteContext
end ClassWeave
