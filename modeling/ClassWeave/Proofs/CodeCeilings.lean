import ClassWeave.Proofs.Ceilings
import ClassWeave.Proofs.CodeReading
import ClassWeave.Proofs.CodeRoundTrip
import ClassWeave.Proofs.LabelPlaces

/-!
# Frames above code without labels

Frames that nothing rises above that some code hands on can be given by the offsets of its
instructions. Such a roof is a ceiling for every list that says what the code says, so for the one
that the code is decoded to: entries have the frame of their offset, and every label stands at the
offset that it leads to.
-/

namespace ClassWeave

/-! ## Entries with offsets -/

namespace Listing

variable {ns as bs : List (Node × Nat)} {o : Nat} {l : Label}

/-- The first entry has the offset of the first instruction. -/
theorem Positioned.head_of_reals {i : Instr Label} {rs : List (Nat × Instr Label)}
    (h : Positioned ns) (hr : reals ns = (o, i) :: rs) : ∃ n bs, ns = (n, o) :: bs := by
  cases ns with
  | nil => cases hr
  | cons b bs =>
    obtain ⟨n, o'⟩ := b
    cases n with
    | instr j =>
      obtain ⟨hhead, -⟩ := List.cons.inj hr
      exact ⟨_, bs, by rw [(Prod.mk.inj hhead).1]⟩
    | label | line =>
      obtain ⟨rfl, -⟩ := h.reals_eq_cons rfl hr
      exact ⟨_, bs, rfl⟩

/-- Behind a marker in front of an instruction comes an entry with the same offset. -/
theorem Positioned.behind_mark {n : Node} (h : Positioned (as ++ (n, o) :: bs))
    (hn : n.isReal = false) (ho : o ∈ (reals (as ++ (n, o) :: bs)).map Prod.fst) :
    ∃ m rest, bs = (m, o) :: rest := by
  obtain ⟨_, hreal⟩ := h.exists_real_behind hn ho
  cases bs with
  | nil => cases hreal
  | cons b rest =>
    obtain ⟨m, o'⟩ := b
    have hbehind := (List.isChain_cons_cons.mp h.right_of_append).1
    obtain rfl : o = o' := by simpa [Behind, hn] using hbehind
    exact ⟨m, rest, rfl⟩

theorem Positioned.mono (h : Positioned ns) {i j : Nat} {a b : Node × Nat} (ha : ns[i]? = some a)
    (hb : ns[j]? = some b) (hij : i ≤ j) : a.2 ≤ b.2 := by
  induction ns generalizing i j with
  | nil => cases ha
  | cons c ns ih =>
    cases j with
    | zero =>
      obtain rfl := Nat.le_zero.mp hij
      rw [Option.some.inj (ha.symm.trans hb)]
    | succ j =>
      cases i with
      | zero =>
        rw [← Option.some.inj ha]
        exact h.le b (List.mem_of_getElem? hb)
      | succ i => exact ih h.tail ha hb (Nat.le_of_succ_le_succ hij)

/-- What comes behind an instruction has a larger offset. -/
theorem Positioned.strict (h : Positioned ns) {i j : Nat} {a b : Node × Nat} (ha : ns[i]? = some a)
    (hreal : a.1.isReal) (hb : ns[j]? = some b) (hij : i < j) : a.2 < b.2 := by
  induction ns generalizing i j with
  | nil => cases ha
  | cons c ns ih =>
    cases j with
    | zero => cases hij
    | succ j =>
      cases i with
      | zero =>
        obtain rfl := Option.some.inj ha
        obtain ⟨n, o'⟩ := c
        cases n with
        | instr ins => exact h.lt b (List.mem_of_getElem? hb)
        | label | line => cases hreal
      | succ i => exact ih h.tail ha hb (Nat.lt_of_succ_lt_succ hij)

/-- An instruction among those of a list, and what comes behind it. -/
theorem Positioned.split_reals (h : Positioned ns) {k : Nat} {i : Instr Label}
    (hk : ns[k]? = some (.instr i, o)) : ∃ xs ys, reals ns = xs ++ (o, i) :: ys ∧
      ∀ o' ∈ (ys.map Prod.fst).head?, ∃ n, ns[k + 1]? = some (n, o') := by
  obtain ⟨hlist, -⟩ := eq_take_cons_drop hk
  refine ⟨reals (ns.take k), reals (ns.drop (k + 1)), ?_, fun o' ho' => ?_⟩
  · conv => lhs; rw [hlist, reals_append, reals_instr]
  · have htail : Positioned (ns.drop (k + 1)) := by
      rw [hlist] at h
      exact h.right_of_append.tail
    cases hreal : reals (ns.drop (k + 1)) with
    | nil =>
      rw [hreal] at ho'
      cases ho'
    | cons r rest =>
      rw [hreal] at ho'
      obtain rfl : r.1 = o' := Option.some.inj ho'
      obtain ⟨n, bs, hdrop⟩ := htail.head_of_reals hreal
      exact ⟨n, by rw [← List.head?_drop, hdrop, List.head?_cons]⟩

/-- If an instruction starts at the start of the code, so does the list. -/
theorem Positioned.first (h : Positioned ns) (hstart : 0 ∈ (reals ns).map Prod.fst) :
    ∃ n, ns[0]? = some (n, 0) := by
  cases ns with
  | nil => cases hstart
  | cons b bs =>
    obtain ⟨n, o⟩ := b
    obtain ⟨⟨_, i⟩, hr, rfl⟩ := List.mem_map.mp hstart
    rcases List.mem_cons.mp (mem_reals.mp hr) with heq | hb
    · obtain ⟨-, rfl⟩ := Prod.mk.inj heq
      exact ⟨n, rfl⟩
    · obtain rfl := Nat.le_zero.mp (h.le _ hb)
      exact ⟨n, rfl⟩

/-- Every offset has one instruction. -/
theorem Positioned.real_unique (h : Positioned ns) {i j : Nat} {a b : Node × Nat}
    (ha : ns[i]? = some a) (hb : ns[j]? = some b) (hreal : a.1.isReal) (hreal' : b.1.isReal)
    (hab : a.2 = b.2) : i = j := by
  rcases Nat.lt_trichotomy i j with hlt | rfl | hlt
  · exact absurd hab (Nat.ne_of_lt (h.strict ha hreal hb hlt))
  · rfl
  · exact absurd hab (Nat.ne_of_gt (h.strict hb hreal' ha hlt))

end Listing

namespace Instr

variable {α β : Type}

theorem fallsThrough_map (f : α → β) (i : Instr α) : (i.map f).fallsThrough = i.fallsThrough := by
  cases i <;> rfl

/-- Where an instruction goes to does not matter to the frame. -/
theorem step_map {p : Program} {k : Nat} (f : α → β) (i : Instr α) (before : Frame) :
    p.step k (i.map f) before = p.step k i before := by
  cases i <;> rfl

theorem map_id (i : Instr α) : i.map (fun t => t) = i := by
  cases i <;> simp [map]

end Instr

/-- A handler among the entries of a list is one that is given by offsets. -/
structure Handler.StandsAt (ns : List (Node × Nat)) (k moved : Handler) : Prop where
  start : ∃ l, ns[moved.start]? = some (.label l, k.start)
  stop : ∃ l, ns[moved.stop]? = some (.label l, k.stop)
  target : ∃ l, ns[moved.target]? = some (.label l, k.target)
  caught : moved.catchType = k.catchType

/-- A handler among the entries of a list is one of some that are given by offsets, unless there is
nothing in its range. -/
structure Handler.Among (ns : List (Node × Nat)) (handlers : List Handler) (moved : Handler) :
    Prop where
  settled : VType.IsSettled moved.catchType
  stands : ∃ k, k.StandsAt ns moved ∧ (k.start < k.stop → k ∈ handlers)

namespace Code

open Listing

/-- The order of keys does not matter to the frame. -/
theorem step_ascending {τ : Type} {p : Program} {k : Nat} (i : Instr τ) (f : Frame) :
    p.step k i.ascending f = p.step k i f := by
  cases i <;> rfl

theorem fallsThrough_ascending {τ : Type} (i : Instr τ) :
    i.ascending.fallsThrough = i.fallsThrough := by
  cases i <;> rfl

/-- A handler by offsets stands for an entry of an exception table. -/
structure CatchesAs (p : Pool) (e : HandlerEntry) (k : Handler) : Prop where
  start : k.start = e.start.toNat
  stop : k.stop = e.stop.toNat
  target : k.target = e.handler.toNat
  caught : ∃ c, p.optionalClass e.catchType = .ok c ∧
    k.catchType = .object (c.getD "java/lang/Throwable")

/-- What an instruction at an offset does to the frame known there stays below a roof. The next
instruction, if there is one, is at the offset `behind`. -/
structure Roof.Step (h : Hierarchy) (handlers : List Handler) (q : Program)
    (site : Nat → Nat → Prop) (roof : Nat → Option Frame) (o : Nat) (behind : Option Nat)
    (ins : Instr Nat) (j : Nat) (above after : Frame) : Prop where
  site : ∀ cls, ins = .type Opcode.new cls → site o j
  step : q.step j ins above = .ok after
  next : ins.fallsThrough → ∃ o', behind = some o' ∧ after.Meets h roof o'
  targets : ∀ t ∈ ins.targets, after.Meets h roof t
  raised : ∀ k ∈ handlers, k.start ≤ o → o < k.stop →
    Frame.Meets h roof k.target ⟨above.locals, [k.catchType]⟩ ∧
      Frame.Meets h roof k.target ⟨after.locals, [k.catchType]⟩

/-- Frames by offsets that nothing rises above that the code hands on, and the room that they take
up. -/
structure Roof (h : Hierarchy) (instrs : List (Nat × Instr Nat)) (handlers : List Handler)
    (q : Program) (site : Nat → Nat → Prop) (roof : Nat → Option Frame) (maxStack maxLocals : Nat) :
    Prop where
  inside : ∀ {o above}, roof o = some above → o ∈ instrs.map Prod.fst
  sound : ∀ {o above}, roof o = some above → above.Sound
  room : ∀ {o above}, roof o = some above →
    above.depth ≤ maxStack ∧ above.locals.length ≤ maxLocals
  instr : ∀ {xs ys o ins above}, instrs = xs ++ (o, ins) :: ys → roof o = some above →
    ∃ j after, Roof.Step h handlers q site roof o (ys.map Prod.fst).head? ins j above after ∧
      after.depth ≤ maxStack ∧ after.locals.length ≤ maxLocals

/-! ## The ceiling of a roof -/

/-- The frame at the offset of an entry. -/
def roofAt (ns : List (Node × Nat)) (roof : Nat → Option Frame) (k : Nat) : Option Frame :=
  ns[k]?.bind fun b => roof b.2

/-- An instruction of a list stands for the one that the instruction at its offset stands for. -/
def siteAt (ns : List (Node × Nat)) (site : Nat → Nat → Prop) (k j : Nat) : Prop :=
  ∃ b, ns[k]? = some b ∧ b.1.isReal ∧ site b.2 j

section roof

variable {ns : List (Node × Nat)}

theorem roofAt_eq_some {roof : Nat → Option Frame} {k : Nat} {above : Frame} :
    roofAt ns roof k = some above ↔ ∃ n o, ns[k]? = some (n, o) ∧ roof o = some above := by
  rw [roofAt, Option.bind_eq_some_iff]
  exact ⟨fun ⟨b, hb, h⟩ => ⟨b.1, b.2, hb, h⟩, fun ⟨n, o, hb, h⟩ => ⟨(n, o), hb, h⟩⟩

theorem meets_roofAt {h : Hierarchy} {roof : Nat → Option Frame} {k o : Nat} {n : Node} {f : Frame}
    (hk : ns[k]? = some (n, o)) (hmeets : f.Meets h roof o) : f.Meets h (roofAt ns roof) k := by
  obtain ⟨above, habove, hcovers⟩ := hmeets
  exact ⟨above, roofAt_eq_some.mpr ⟨n, o, hk, habove⟩, hcovers⟩

theorem siteMap_siteAt {site : Nat → Nat → Prop} (hpositioned : Positioned ns)
    (hs : VType.SiteMap site) : VType.SiteMap (siteAt ns site) where
  unique := by
    rintro i j j' ⟨b, hb, -, hj⟩ ⟨b', hb', -, hj'⟩
    obtain rfl := Option.some.inj (hb.symm.trans hb')
    exact hs.unique hj hj'
  inj := by
    rintro i i' j ⟨b, hb, hreal, hj⟩ ⟨b', hb', hreal', hj'⟩
    exact hpositioned.real_unique hb hb' hreal hreal' (hs.inj hj hj')

end roof

/-- Up to the order of keys the entries of a list are these, with their offsets, and every label
that is used has a place. -/
structure Listed (l : InstrList) (ns : List (Node × Nat)) : Prop where
  nodes : l.nodes.toList.map Node.ascending = ns.map fun b => b.1.ascending
  positioned : Positioned ns
  placed : ∀ lab ∈ l.nodes.toList.flatMap Node.targets,
    ∃ j, lab.position? l.labelPositions = some j

section listed

variable {l : InstrList} {ns : List (Node × Nat)} (hl : Listed l ns) {k o : Nat} {n : Node}

include hl

theorem Listed.getElem? (k : Nat) :
    l.nodes[k]?.map Node.ascending = ns[k]?.map fun b => b.1.ascending := by
  rw [← Array.getElem?_toList, ← List.getElem?_map, hl.nodes, List.getElem?_map]

theorem Listed.exists_node (hk : ns[k]? = some (n, o)) :
    ∃ n', l.nodes[k]? = some n' ∧ n'.ascending = n.ascending := by
  have hnode := hl.getElem? k
  rw [hk, Option.map_some, Option.map_eq_some_iff] at hnode
  exact hnode

theorem Listed.exists_entry (hk : l.nodes[k]? = some n) :
    ∃ n' o, ns[k]? = some (n', o) ∧ n'.ascending = n.ascending := by
  have hnode := (hl.getElem? k).symm
  rw [hk, Option.map_some, Option.map_eq_some_iff] at hnode
  obtain ⟨⟨n', o⟩, hns, heq⟩ := hnode
  exact ⟨n', o, hns, heq⟩

/-- A label is at the entry that leads to its offset. -/
theorem Listed.offset?_position {lab : Label} {j : Nat}
    (hj : lab.position? l.labelPositions = some j) :
    ∃ o, ns[j]? = some (.label lab, o) ∧ offset? lab ns = some o := by
  obtain ⟨as, bs, hsplit, rfl, hnot⟩ := InstrList.position?_labelPositions hj
  have hmark : ∀ {n : Node}, n.ascending = .label lab → n = .label lab := by
    intro n hn
    cases n with
    | label => exact hn
    | instr | line => cases hn
  have hnodes := hl.nodes
  rw [hsplit, List.map_append, List.map_cons] at hnodes
  obtain ⟨xs, rest, rfl, has, hrest⟩ := List.map_eq_append_iff.mp hnodes.symm
  obtain ⟨⟨n, o⟩, ys, rfl, hn, hbs⟩ := List.map_eq_cons_iff.mp hrest
  obtain rfl := hmark hn
  have hlength : as.length = xs.length := by
    rw [← List.length_map Node.ascending, ← has, List.length_map]
  refine ⟨o, by rw [hlength]; simp, offset?_of_split fun hmem => hnot ?_⟩
  obtain ⟨b, hb, hlab⟩ := List.mem_map.mp hmem
  have hasc : Node.label lab ∈ bs.map Node.ascending := by
    rw [← hbs]
    exact List.mem_map.mpr ⟨b, hb, by rw [hlab]; rfl⟩
  obtain ⟨n', hn', hlab'⟩ := List.mem_map.mp hasc
  rwa [hmark hlab'] at hn'

/-- An instruction of the list is one that is read. -/
theorem Listed.split {ins : Instr Label} (hk : l.nodes[k]? = some (.instr ins)) :
    ∃ o xs ys ins', ns[k]? = some (.instr ins', o) ∧ ins'.ascending = ins.ascending ∧
      readings ns = xs ++ (o, ins'.map (leadsTo ns)) :: ys ∧
      ∀ o' ∈ (ys.map Prod.fst).head?, ∃ n, ns[k + 1]? = some (n, o') := by
  obtain ⟨n, o, hns, hn⟩ := hl.exists_entry hk
  cases n with
  | label | line => cases hn
  | instr ins' =>
    obtain ⟨xs, ys, hreals, hnext⟩ := hl.positioned.split_reals hns
    have hread : readings ns = xs.map (fun r => (r.1, r.2.map (leadsTo ns))) ++
        (o, ins'.map (leadsTo ns)) :: ys.map fun r => (r.1, r.2.map (leadsTo ns)) := by
      rw [readings, hreals, List.map_append, List.map_cons]
    refine ⟨o, _, _, ins', hns, Node.instr.inj hn, hread, ?_⟩
    rw [List.map_map]
    exact hnext

/-- **A roof over what a list says is a ceiling for the list.** Of its handlers those count whose
ranges are not empty. -/
theorem Listed.ceiling {h : Hierarchy} {q : Program} {site : Nat → Nat → Prop}
    {roof : Nat → Option Frame} {handlers moved : List Handler} {maxStack maxLocals : Nat}
    (hroof : Roof h (readings ns) handlers q site roof maxStack maxLocals)
    (hmoved : ∀ k ∈ moved, k.Among ns handlers) {m : MethodContext} {pool : Pool}
    {result : Option FieldType} :
    Ceiling ⟨⟨m, l.nodes, pool, h, .strict, result⟩, l.labelPositions, moved⟩ q (siteAt ns site)
      (roofAt ns roof) maxStack maxLocals := by
  constructor
  · exact fun k hk => (hmoved k hk).settled
  · intro k above habove
    obtain ⟨n, o, hk, -⟩ := roofAt_eq_some.mp habove
    obtain ⟨n', hn', -⟩ := hl.exists_node hk
    exact (Array.getElem?_eq_some_iff.mp hn').1
  · intro k above habove
    obtain ⟨n, o, -, hat⟩ := roofAt_eq_some.mp habove
    exact hroof.sound hat
  · intro k above habove
    obtain ⟨n, o, -, hat⟩ := roofAt_eq_some.mp habove
    exact hroof.room hat
  · -- the entry behind a marker has the same offset
    intro k above n habove hn hreal
    obtain ⟨n', o, hk, hat⟩ := roofAt_eq_some.mp habove
    obtain ⟨m', hm', hasc⟩ := hl.exists_node hk
    obtain rfl := Option.some.inj (hn.symm.trans hm')
    have hreal' : n'.isReal = false := by rw [← isReal_ascending, ← hasc, isReal_ascending, hreal]
    obtain ⟨hlist, -⟩ := eq_take_cons_drop hk
    have hin := hroof.inside hat
    have hpositioned := hl.positioned
    rw [map_fst_readings, starts, hlist] at hin
    rw [hlist] at hpositioned
    obtain ⟨n'', bs, hdrop⟩ := hpositioned.behind_mark hreal' hin
    have hnext : ns[k + 1]? = some (n'', o) := by
      rw [← List.head?_drop, hdrop, List.head?_cons]
    exact ⟨above, roofAt_eq_some.mpr ⟨n'', o, hnext, hat⟩, Frame.covers_refl above⟩
  · intro k above ins habove hn
    obtain ⟨n, o, hk, hat⟩ := roofAt_eq_some.mp habove
    obtain ⟨o', xs, ys, ins', hk', hasc, hsplit, hnext⟩ := hl.split hn
    obtain ⟨rfl, rfl⟩ := Prod.mk.inj (Option.some.inj (hk.symm.trans hk'))
    obtain ⟨j, after, hstep, hroom⟩ := hroof.instr hsplit hat
    refine ⟨j, after, ⟨fun cls hcls => ?_, ?_, fun hfall => ?_, fun lab hlab => ?_,
      fun k' hk' hstart hstop => ?_⟩, hroom⟩
    · subst hcls
      have hnew : ins' = .type Opcode.new cls := by
        cases ins' <;> first | exact hasc | cases hasc
      exact ⟨_, hk, rfl, hstep.site cls (by rw [hnew]; rfl)⟩
    · rw [← step_ascending, ← hasc, step_ascending, ← Instr.step_map (leadsTo ns)]
      exact hstep.step
    · rw [← fallsThrough_ascending, ← hasc, fallsThrough_ascending] at hfall
      obtain ⟨o', ho', hmeets⟩ := hstep.next (by rwa [Instr.fallsThrough_map])
      obtain ⟨n, hn⟩ := hnext o' ho'
      exact meets_roofAt hn hmeets
    · have hused : lab ∈ l.nodes.toList.flatMap Node.targets := by
        rw [← Array.getElem?_toList] at hn
        exact List.mem_flatMap.mpr ⟨_, List.mem_of_getElem? hn, hlab⟩
      obtain ⟨j, hj⟩ := hl.placed lab hused
      obtain ⟨o', hmark, hoffset⟩ := hl.offset?_position hj
      have hleads : leadsTo ns lab = o' := by rw [leadsTo, hoffset]; rfl
      rw [← mem_targets_ascending, ← hasc, mem_targets_ascending] at hlab
      refine ⟨j, hj, meets_roofAt hmark (hstep.targets o' ?_)⟩
      rw [Instr.targets_map, ← hleads]
      exact List.mem_map_of_mem hlab
    · obtain ⟨k₀, hat, hkept⟩ := (hmoved k' hk').stands
      obtain ⟨_, hfrom⟩ := hat.start
      obtain ⟨_, hto⟩ := hat.stop
      obtain ⟨_, htarget⟩ := hat.target
      have hlower := hl.positioned.mono hfrom hk hstart
      have hupper := hl.positioned.strict hk rfl hto hstop
      rw [hat.caught]
      obtain ⟨hbefore, hafter⟩ :=
        hstep.raised k₀ (hkept (Nat.lt_of_le_of_lt hlower hupper)) hlower hupper
      exact ⟨meets_roofAt htarget hbefore, meets_roofAt htarget hafter⟩

end listed

/-! ## Decoded lists -/

/-- A list was decoded from some code; `ns` are its entries with their offsets. -/
structure Decoded (p : Pool) (length : Nat) (instrs : List (Nat × Instr Nat))
    (entries : List HandlerEntry) (d : InstrList) (ns : List (Node × Nat)) : Prop where
  read : WellRead length instrs entries
  nodes : d.nodes.toList = ns.map Prod.fst
  positioned : Positioned ns
  inside : ∀ b ∈ ns, b.2 ∈ instrs.map Prod.fst ∨ b.2 = length
  reals : reals ns = instrs.map fun r => (r.1, r.2.map (labelAt instrs entries))
  marked : ∀ o ∈ labelOffsets instrs entries, ∃ t l,
    (labelAt instrs entries o).position? d.labelPositions = some t ∧ ns[t]? = some (.label l, o)
  blocks : List.Forall₂ (fun e b => ∃ c, p.optionalClass e.catchType = .ok c ∧
    b = ⟨labelAt instrs entries e.start.toNat, labelAt instrs entries e.stop.toNat,
      labelAt instrs entries e.handler.toNat, c⟩) entries d.blocks

/-- A list that was read is one that was decoded. -/
theorem Disassembled.decoded {ctx : Context} {code : List UInt8} {entries : List HandlerEntry}
    {lines : List LineEntry} {d : InstrList} {instrs : List (Nat × Instr Nat)}
    (hd : Disassembled ctx code entries lines d instrs) : Decoded ctx.pool code.length instrs entries
      d (decodedEntries code.length instrs entries lines) := by
  have hnodes : d.nodes.toList =
      (decodedEntries code.length instrs entries lines).map Prod.fst := by
    rw [hd.nodes, List.toList_toArray]
  refine ⟨hd.wellRead, hnodes, hd.wellRead.positioned, fun b hb => entries_offset hb,
    reals_decodedEntries, ?_, ?_⟩
  · intro o ho
    have hoffset : offset? (labelAt instrs entries o)
        (decodedEntries code.length instrs entries lines) = some o := hd.wellRead.offset?_labelAt ho
    obtain ⟨as, bs, hsplit, hnot⟩ := offset?_split hoffset
    refine ⟨as.length, labelAt instrs entries o, ?_, by rw [hsplit]; simp⟩
    rw [← List.length_map Prod.fst]
    refine InstrList.position?_of_split ?_ ?_ hnot
    · rw [hd.placed, size_markedLabels]
      exact labelAt_lt ho
    · rw [hnodes, hsplit, List.map_append, List.map_cons]
  · refine hd.blocks.imp fun e b hb => ?_
    obtain ⟨c, hc, hb⟩ := bind_eq_ok.mp hb
    exact ⟨c, hc, (pure_eq_ok.mp hb).symm⟩

/-- What decoding gives. -/
theorem decoded_of_scan {ctx : Context} {code : List UInt8} {entries : List HandlerEntry}
    {lines : List LineEntry} {instrs : List (Nat × Instr Nat)} {blocks : List TryBlock}
    (hscan : scan ctx code = .ok instrs) (hread : WellRead code.length instrs entries)
    (hblocks : entries.mapM (tryBlock ctx (labelTable (labelOffsets instrs entries))) =
      .ok blocks) :
    ∃ d ns, decode ctx code entries lines = .ok (d, ns.map Prod.snd) ∧ d.blocks = blocks ∧
      Decoded ctx.pool code.length instrs entries d ns := by
  have hdecode : decode ctx code entries lines = .ok _ := decode_eq hscan hread hblocks
  exact ⟨_, decodedEntries code.length instrs entries lines, hdecode, rfl,
    (disassembled_of_scan hscan hdecode).decoded⟩

section decoded

variable {p : Pool} {length : Nat} {instrs : List (Nat × Instr Nat)} {entries : List HandlerEntry}
  {d : InstrList} {ns : List (Node × Nat)} (hd : Decoded p length instrs entries d ns)

include hd

theorem Decoded.getElem? {k : Nat} : d.nodes[k]? = ns[k]?.map Prod.fst := by
  rw [← Array.getElem?_toList, hd.nodes, List.getElem?_map]

theorem Decoded.listed : Listed d ns where
  nodes := by rw [hd.nodes, List.map_map]; rfl
  positioned := hd.positioned
  placed lab hlab := by
    obtain ⟨n, hn, hlab⟩ := List.mem_flatMap.mp hlab
    rw [hd.nodes, List.mem_map] at hn
    obtain ⟨⟨n, o⟩, hb, rfl⟩ := hn
    cases n with
    | label | line => cases hlab
    | instr ins =>
      have hmem := mem_reals.mpr hb
      rw [hd.reals] at hmem
      obtain ⟨r, hr, heq⟩ := List.mem_map.mp hmem
      obtain ⟨-, rfl⟩ := Prod.mk.inj heq
      rw [Node.targets, Instr.targets_map, List.mem_map] at hlab
      obtain ⟨t, ht, rfl⟩ := hlab
      obtain ⟨j, _, hj, -⟩ := hd.marked t (mem_labelOffsets.mpr (.inl ⟨r, hr, ht⟩))
      exact ⟨j, hj⟩

/-- What is read in the list is what was read before. -/
theorem Decoded.readings_eq : readings ns = instrs := by
  rw [readings, hd.reals, List.map_map]
  refine (List.map_congr_left fun r hr => ?_).trans (List.map_id instrs)
  have htargets : ∀ t ∈ r.2.targets, leadsTo ns (labelAt instrs entries t) = t := by
    intro t ht
    obtain ⟨j, l, hj, hns⟩ := hd.marked t (mem_labelOffsets.mpr (.inl ⟨r, hr, ht⟩))
    obtain ⟨o, hns', hoffset⟩ := hd.listed.offset?_position hj
    obtain ⟨-, rfl⟩ := Prod.mk.inj (Option.some.inj (hns.symm.trans hns'))
    rw [leadsTo, hoffset]
    rfl
  simp only [Function.comp_apply, Instr.map_map, id_eq]
  rw [Instr.map_congr htargets, Instr.map_id]

/-- An instruction of the list is one of the code. -/
theorem Decoded.split {k o : Nat} {ins : Instr Label} (hk : ns[k]? = some (.instr ins, o)) :
    ∃ xs ys ins', instrs = xs ++ (o, ins') :: ys ∧ ins = ins'.map (labelAt instrs entries) ∧
      ∀ o' ∈ (ys.map Prod.fst).head?, ∃ n, ns[k + 1]? = some (n, o') := by
  obtain ⟨xs, rest, hreals, hnext⟩ := hd.positioned.split_reals hk
  rw [hd.reals] at hreals
  obtain ⟨xs, rest', rfl, -, hrest⟩ := List.map_eq_append_iff.mp hreals
  obtain ⟨⟨o', ins'⟩, ys, rfl, hhead, rfl⟩ := List.map_eq_cons_iff.mp hrest
  obtain ⟨rfl, rfl⟩ := Prod.mk.inj hhead
  rw [List.map_map] at hnext
  exact ⟨xs, ys, ins', rfl, rfl, hnext⟩

/-- The handlers of the list are those of the code. -/
theorem Decoded.handlers {handlers : List Handler}
    (hcatch : List.Forall₂ (CatchesAs p) entries handlers) :
    ∃ moved, d.blocks.mapM (FlowGraph.handler d.labelPositions) = .ok moved ∧
      List.Forall₂ (Handler.StandsAt ns) handlers moved := by
  have hplace : ∀ e ∈ entries, ∀ o ∈ handlerOffsets e, o ∈ labelOffsets instrs entries :=
    fun e he o ho => mem_labelOffsets.mpr (.inr ⟨e, he, ho⟩)
  have hmarked := hd.marked
  have hblocks := hd.blocks
  clear hd
  revert hplace hblocks
  generalize d.blocks = blocks
  generalize labelAt instrs entries = label at hmarked
  generalize labelOffsets instrs entries = offsets at hmarked
  intro hplace hblocks
  induction hcatch generalizing blocks with
  | nil =>
    cases hblocks
    exact ⟨[], rfl, .nil⟩
  | @cons e k entries handlers hk _ ih =>
    cases hblocks with
    | @cons _ b _ blocks hb hblocks =>
      obtain ⟨moved, hmoved, hall⟩ :=
        ih blocks (fun e' he' => hplace e' (List.mem_cons_of_mem _ he')) hblocks
      obtain ⟨c, hc, rfl⟩ := hb
      have hat : ∀ o ∈ handlerOffsets e, ∃ t l,
          (label o).position? d.labelPositions = some t ∧ ns[t]? = some (.label l, o) :=
        fun o ho => hmarked o (hplace e List.mem_cons_self o ho)
      obtain ⟨⟨start, l, hstart, hns⟩, ⟨stop, l', hstop, hns'⟩, target, l'', htarget, hns''⟩ :=
        forall_handlerOffsets.mp hat
      obtain ⟨c', hc', hcaught⟩ := hk.caught
      obtain rfl := Except.ok.inj (hc.symm.trans hc')
      refine ⟨⟨start, stop, target, .object (c.getD "java/lang/Throwable")⟩ :: moved, ?_,
        .cons ⟨⟨l, by rw [hk.start]; exact hns⟩, ⟨l', by rw [hk.stop]; exact hns'⟩,
          ⟨l'', by rw [hk.target]; exact hns''⟩, hcaught.symm⟩ hall⟩
      refine mapM_eq_ok.mpr (.cons ?_ (mapM_eq_ok.mp hmoved))
      exact FlowGraph.handler_eq_ok.mpr ⟨hstart, hstop, htarget, rfl⟩

end decoded

end Code
end ClassWeave
