import Mathlib
import ClassWeave.Proofs.CodeReading
import ClassWeave.Proofs.CodeRoundTrip

/-!
# Code that is decoded, encoded and decoded again

Encoding a list that was decoded moves its entries to other offsets and leaves their order alone,
unless a conditional jump has to become a detour. Labels are numbered in the order of their
offsets, so they get the same numbers again, and what is decoded the second time is what was
encoded, but for the keys of switches.
-/

namespace ClassWeave

namespace Instr

variable {α β : Type}

theorem map_ascending (f : α → β) (i : Instr α) : (i.map f).ascending = i.ascending.map f := by
  cases i with
  | lookupSwitch d ps =>
    refine congrArg (lookupSwitch (f d)) (List.map_mergeSort fun a _ b _ => ?_).symm
    rfl
  | _ => rfl

theorem documented_map {p : Pool} (f : α → β) (i : Instr α) :
    (i.map f).Documented p ↔ i.Documented p := by
  cases i <;> rfl

theorem documented_ascending {p : Pool} (i : Instr α) :
    i.ascending.Documented p ↔ i.Documented p := by
  cases i <;> rfl

end Instr

/-- The list with the keys of its switches in ascending order. -/
def InstrList.ascending (l : InstrList) : InstrList :=
  { l with nodes := l.nodes.map Node.ascending }

theorem InstrList.markedLabels_ascending (nodes : List Node) (count : Nat) :
    markedLabels (nodes.map Node.ascending) count = markedLabels nodes count := by
  rw [markedLabels, List.foldl_map]
  refine List.foldl_ext _ _ _ fun flags n _ => ?_
  cases n <;> rfl

/-! ## Moving entries -/

namespace Listing

variable {φ : Nat → Nat} {ns ms : List (Node × Nat)} {l : Label} {o : Nat}

/-- The entries at other offsets, with their keys in ascending order. -/
def moved (φ : Nat → Nat) (ns : List (Node × Nat)) : List (Node × Nat) :=
  ns.map fun b => (b.1.ascending, φ b.2)

theorem reals_moved : reals (moved φ ns) = (reals ns).map fun r => (φ r.1, r.2.ascending) := by
  induction ns with
  | nil => rfl
  | cons b ns ih =>
    obtain ⟨n, o⟩ := b
    cases n with
    | instr i => exact congrArg ((φ o, i.ascending) :: ·) ih
    | label | line => exact ih

theorem offset?_moved : offset? l (moved φ ns) = (offset? l ns).map φ := by
  induction ns with
  | nil => rfl
  | cons b ns ih =>
    obtain ⟨n, o⟩ := b
    have hcons : moved φ ((n, o) :: ns) = (n.ascending, φ o) :: moved φ ns := rfl
    rw [hcons]
    cases n with
    | instr | line => simp [Node.ascending, ih]
    | label l' =>
      simp only [Node.ascending, offset?_label, ih]
      cases offset? l ns with
      | some => rfl
      | none => by_cases hl : l' = l <;> simp [hl]

theorem linesAt_moved (hinj : ∀ b ∈ ns, φ b.2 = φ o → b.2 = o) :
    linesAt (moved φ ns) (φ o) = linesAt ns o := by
  induction ns with
  | nil => rfl
  | cons b ns ih =>
    obtain ⟨n, o'⟩ := b
    obtain ⟨hhead, hrest⟩ := List.forall_mem_cons.mp hinj
    cases n with
    | instr | label => exact ih hrest
    | line m =>
      have hcons : moved φ ((.line m, o') :: ns) = (.line m, φ o') :: moved φ ns := rfl
      have hiff : φ o' = φ o ↔ o' = o := ⟨hhead, congrArg φ⟩
      rw [hcons, linesAt_line, linesAt_line, ih hrest]
      simp only [hiff]

/-- The offsets of some entries. -/
def offsetsOf (ns : List (Node × Nat)) : Set Nat := {o | o ∈ ns.map Prod.snd}

theorem mem_offsetsOf_cons {b : Node × Nat} :
    o ∈ offsetsOf (b :: ns) ↔ o = b.2 ∨ o ∈ offsetsOf ns := List.mem_cons

/-- Where the first entry goes to is told by the entries behind it, if one has its offset. -/
theorem first_moved {n : Node} {o' : Nat} (hn : Positioned ((n, o) :: ns))
    (hm : Positioned ((n.ascending, o') :: moved φ ns)) (hmono : StrictMonoOn φ (offsetsOf ns)) :
    ∀ a ∈ offsetsOf ns, o ≤ a ∧ (a = o → φ o = o') ∧ (o < a → o' < φ a) := by
  intro a ha
  obtain ⟨b, hb, rfl⟩ := List.mem_map.mp ha
  have hb' : (b.1.ascending, φ b.2) ∈ moved φ ns := List.mem_map_of_mem hb
  refine ⟨hn.le b hb, ?_⟩
  cases n with
  | instr i =>
    have hlt : o < b.2 := hn.lt b hb
    exact ⟨fun h => absurd h (Nat.ne_of_gt hlt), fun _ => hm.lt _ hb'⟩
  | label | line =>
    -- a marker has the offset of the next entry, in both lists
    cases ns with
    | nil => cases hb
    | cons c ns =>
      obtain rfl : o = c.2 := (List.isChain_cons_cons.mp hn).1
      obtain rfl : o' = φ c.2 := (List.isChain_cons_cons.mp hm).1
      exact ⟨fun _ => rfl, hmono (mem_offsetsOf_cons.mpr (.inl rfl)) ha⟩

/-- The same entries at other offsets were moved there, and their order stays. -/
theorem exists_moved (hn : Positioned ns) (hm : Positioned ms)
    (h : ms.map Prod.fst = ns.map fun b => b.1.ascending) :
    ∃ φ, ms = moved φ ns ∧ StrictMonoOn φ (offsetsOf ns) := by
  induction ns generalizing ms with
  | nil =>
    obtain rfl := List.map_eq_nil_iff.mp h
    exact ⟨id, rfl, fun _ ha => nomatch ha⟩
  | cons b ns ih =>
    obtain ⟨n, o⟩ := b
    obtain ⟨⟨_, o'⟩, ms, rfl, rfl, hrest⟩ := List.map_eq_cons_iff.mp h
    obtain ⟨φ, rfl, hmono⟩ := ih hn.tail hm.tail hrest
    have hfirst := first_moved hn hm hmono
    -- entries behind the first one stay where they are, even if they have its offset
    have hagree : ∀ a ∈ offsetsOf ns, Function.update φ o o' a = φ a := by
      intro a ha
      by_cases heq : a = o
      · rw [heq, Function.update_self]
        exact ((hfirst a ha).2.1 heq).symm
      · exact Function.update_of_ne heq _ _
    refine ⟨Function.update φ o o', ?_, fun a ha b hb hlt => ?_⟩
    · refine congrArg₂ List.cons ?_ (List.map_congr_left fun b hb => ?_)
      · exact congrArg (n.ascending, ·) (Function.update_self o o' φ).symm
      · rw [hagree b.2 (List.mem_map_of_mem hb)]
    · rcases mem_offsetsOf_cons.mp hb with rfl | hmemb
      · rcases mem_offsetsOf_cons.mp ha with rfl | hmema
        · exact absurd hlt (Nat.lt_irrefl _)
        · exact absurd (hfirst a hmema).1 (Nat.not_le_of_lt hlt)
      · rw [hagree b hmemb]
        rcases mem_offsetsOf_cons.mp ha with rfl | hmema
        · rw [Function.update_self]
          exact (hfirst b hmemb).2.2 hlt
        · rw [hagree a hmema]
          exact hmono hmema hmemb hlt

end Listing

theorem idxOf?_map {φ : Nat → Nat} {offsets : List Nat} {o : Nat}
    (hinj : ∀ a ∈ offsets, φ a = φ o → a = o) :
    (offsets.map φ).idxOf? (φ o) = offsets.idxOf? o := by
  induction offsets with
  | nil => rfl
  | cons a offsets ih =>
    obtain ⟨hhead, hrest⟩ := List.forall_mem_cons.mp hinj
    have hiff : φ a = φ o ↔ a = o := ⟨hhead, congrArg φ⟩
    rw [List.map_cons, List.idxOf?_cons, List.idxOf?_cons, ih hrest]
    simp only [beq_iff_eq, hiff]

namespace Code

open Listing

/-! ## Moving code -/

section moves

variable {φ : Nat → Nat} {length o : Nat} {instrs : List (Nat × Instr Nat)}
  {handlers stored : List HandlerEntry} {lines lines' : List LineEntry}

/-- The offsets of the instructions of some code, and its end. -/
def places (length : Nat) (instrs : List (Nat × Instr Nat)) : Set Nat :=
  {o | o ∈ instrs.map Prod.fst ∨ o = length}

/-- The instructions at other offsets, with their keys in ascending order. -/
def movedInstrs (φ : Nat → Nat) (instrs : List (Nat × Instr Nat)) : List (Nat × Instr Nat) :=
  instrs.map fun p => (φ p.1, (p.2.map φ).ascending)

/-- What is read where the entries were moved to. -/
theorem WellRead.readings_moved (h : WellRead length instrs handlers) :
    readings (moved φ (decodedEntries length instrs handlers lines)) = movedInstrs φ instrs := by
  have htargets : ∀ p ∈ instrs, ∀ t ∈ p.2.targets,
      leadsTo (moved φ (decodedEntries length instrs handlers lines))
        (labelAt instrs handlers t) = φ t := by
    intro p hp t ht
    rw [leadsTo, offset?_moved, h.offset?_labelAt (mem_labelOffsets.mpr (.inl ⟨p, hp, ht⟩))]
    rfl
  rw [readings, reals_moved, reals_decodedEntries, List.map_map, List.map_map]
  refine List.map_congr_left fun p hp => ?_
  have hinstr := Instr.map_congr (i := p.2) (htargets p hp)
  simp only [Function.comp_apply, ← Instr.map_ascending, Instr.map_map]
  exact congrArg (fun i : Instr Nat => (φ p.1, i.ascending)) hinstr

theorem nodesAt_moved {labels labels' : Std.HashMap Nat Label}
    {lines lines' : Std.HashMap Nat (List UInt16)} {i : Instr Nat}
    (hlabel : labels'[φ o]? = labels[o]?) (hlines : lines'.getD (φ o) [] = lines.getD o [])
    (htargets : ∀ t ∈ i.targets, labelOf labels' (φ t) = labelOf labels t) :
    nodesAt labels' lines' (φ o) (i.map φ).ascending = moved φ (nodesAt labels lines o i) := by
  have hinstr : (i.map φ).ascending.map (labelOf labels') = (i.map (labelOf labels)).ascending := by
    rw [← Instr.map_ascending, Instr.map_map, Instr.map_congr htargets]
  simp only [nodesAt, hlabel, hlines, hinstr, moved, List.map_append, List.map_map]
  rfl

/-- Some code that was read goes to other offsets, with its handlers and lines. -/
structure Moves (φ : Nat → Nat) (length : Nat) (instrs : List (Nat × Instr Nat))
    (handlers stored : List HandlerEntry) (lines lines' : List LineEntry) : Prop where
  read : WellRead length instrs handlers
  mono : StrictMonoOn φ (places length instrs)
  handlers : List.Forall₂ (fun b b' => handlerOffsets b' = (handlerOffsets b).map φ) handlers stored
  lines : ∀ o ∈ instrs.map Prod.fst,
    (lineTable lines').getD (φ o) [] = (lineTable lines).getD o []

namespace Moves

variable (hm : Moves φ length instrs handlers stored lines lines')

include hm

theorem inj {a : Nat} (ha : a ∈ labelOffsets instrs handlers) (ho : o ∈ places length instrs)
    (h : φ a = φ o) : a = o := hm.mono.injOn (hm.read.labelled a ha) ho h

theorem mem_labelOffsets_iff : o ∈ labelOffsets (movedInstrs φ instrs) stored ↔
    o ∈ (labelOffsets instrs handlers).map φ := by
  simp only [mem_labelOffsets, List.mem_map]
  constructor
  · rintro (⟨q, hq, ho⟩ | ⟨b', hb', ho⟩)
    · obtain ⟨p, hp, rfl⟩ := List.mem_map.mp hq
      rw [mem_targets_ascending, Instr.targets_map, List.mem_map] at ho
      obtain ⟨t, ht, rfl⟩ := ho
      exact ⟨t, .inl ⟨p, hp, ht⟩, rfl⟩
    · obtain ⟨b, hb, hoffsets⟩ := exists_of_forall₂ hm.handlers.flip hb'
      rw [hoffsets, List.mem_map] at ho
      obtain ⟨a, ha, rfl⟩ := ho
      exact ⟨a, .inr ⟨b, hb, ha⟩, rfl⟩
  · rintro ⟨a, ⟨p, hp, ht⟩ | ⟨b, hb, ha⟩, rfl⟩
    · refine .inl ⟨_, List.mem_map_of_mem hp, ?_⟩
      rw [mem_targets_ascending, Instr.targets_map]
      exact List.mem_map_of_mem ht
    · obtain ⟨b', hb', hoffsets⟩ := exists_of_forall₂ hm.handlers hb
      refine .inr ⟨b', hb', ?_⟩
      rw [hoffsets]
      exact List.mem_map_of_mem ha

/-- Labels stay in order. -/
theorem labelOffsets_eq : labelOffsets (movedInstrs φ instrs) stored =
    (labelOffsets instrs handlers).map φ := by
  have hsorted : ((labelOffsets instrs handlers).map φ).Pairwise (· < ·) := by
    refine List.pairwise_map.mpr ((sorted_labelOffsets instrs handlers).imp_of_mem ?_)
    exact fun ha hb => hm.mono (hm.read.labelled _ ha) (hm.read.labelled _ hb)
  exact eq_of_ascending id (sorted_labelOffsets _ _) hsorted fun _ => hm.mem_labelOffsets_iff

/-- Labels keep their numbers. -/
theorem getElem?_labelTable_eq (ho : o ∈ places length instrs) :
    (labelTable (labelOffsets (movedInstrs φ instrs) stored))[φ o]? =
      (labelTable (labelOffsets instrs handlers))[o]? := by
  rw [getElem?_labelTable nodup_labelOffsets, getElem?_labelTable nodup_labelOffsets,
    hm.labelOffsets_eq, idxOf?_map fun a ha => hm.inj ha ho]

theorem labelAt_eq (ho : o ∈ places length instrs) :
    labelAt (movedInstrs φ instrs) stored (φ o) = labelAt instrs handlers o := by
  rw [labelAt, labelAt, labelOf, labelOf, Std.HashMap.getD_eq_getD_getElem?,
    Std.HashMap.getD_eq_getD_getElem?, hm.getElem?_labelTable_eq ho]

/-- What is decoded are the same entries. -/
theorem decodedEntries_eq : decodedEntries (φ length) (movedInstrs φ instrs) stored lines' =
    moved φ (decodedEntries length instrs handlers lines) := by
  rw [decodedEntries, decodedEntries, entries, entries, hm.getElem?_labelTable_eq (.inr rfl), moved,
    List.map_append, List.map_flatMap, movedInstrs, List.flatMap_map]
  refine congrArg₂ (· ++ ·) (List.flatMap_congr fun p hp => ?_) ?_
  · have ho : p.1 ∈ instrs.map Prod.fst := List.mem_map_of_mem hp
    exact nodesAt_moved (hm.getElem?_labelTable_eq (.inl ho)) (hm.lines p.1 ho) fun t ht =>
      hm.labelAt_eq (.inl (hm.read.targets p hp t ht))
  · rw [List.map_map]
    rfl

end Moves

end moves

/-! ## Labels and what is behind them -/

/-- Behind a label stands an instruction if one has its offset or a larger one. -/
theorem leads_iff {ns : List (Node × Nat)} {lab : Label} {o : Nat} (h : Positioned ns)
    (hlab : offset? lab ns = some o) :
    Leads (ns.map Prod.fst) lab ↔ ∃ r ∈ reals ns, o ≤ r.1 := by
  constructor
  · rintro ⟨xs, ys, heq, hnot, hreal⟩
    obtain ⟨as, rest, rfl, rfl, hrest⟩ := List.map_eq_append_iff.mp heq
    obtain ⟨⟨_, o'⟩, bs, rfl, rfl, rfl⟩ := List.map_eq_cons_iff.mp hrest
    obtain rfl := Option.some.inj ((offset?_of_split hnot).symm.trans hlab)
    have hbehind : Positioned ((.label lab, o') :: bs) := h.right_of_append
    obtain ⟨n, hn, hn'⟩ := List.any_eq_true.mp hreal
    obtain ⟨⟨n, o⟩, hb, rfl⟩ := List.mem_map.mp hn
    cases n with
    | instr i =>
      refine ⟨(o, i), mem_reals.mpr ?_, hbehind.le _ hb⟩
      exact List.mem_append_right _ (List.mem_cons_of_mem _ hb)
    | label | line => cases hn'
  · rintro ⟨⟨o', i⟩, hi, hle⟩
    obtain ⟨as, bs, rfl, hnot⟩ := offset?_split hlab
    refine ⟨as.map Prod.fst, bs.map Prod.fst, by rw [List.map_append, List.map_cons], hnot, ?_⟩
    have hbehind : (.instr i, o') ∈ bs := h.mem_behind rfl (mem_reals.mp hi) hle
    exact List.any_eq_true.mpr ⟨_, List.mem_map_of_mem hbehind, rfl⟩

/-! ## A list that was decoded -/

namespace Disassembled

variable {ctx : Context} {code : List UInt8} {handlers : List HandlerEntry}
  {lines : List LineEntry} {l : InstrList} {instrs : List (Nat × Instr Nat)}
  (hd : Disassembled ctx code handlers lines l instrs)

include hd

theorem toList_nodes : l.nodes.toList =
    (decodedEntries code.length instrs handlers lines).map Prod.fst := by
  rw [hd.nodes, List.toList_toArray]

theorem labelCount_eq : l.labelCount = (labelOffsets instrs handlers).length := by
  rw [InstrList.labelCount, hd.placed, size_markedLabels]

theorem exists_instr {i : Instr Label} (hi : .instr i ∈ l.nodes.toList) :
    ∃ p ∈ instrs, i = p.2.map (labelAt instrs handlers) := by
  rw [hd.toList_nodes] at hi
  obtain ⟨⟨_, o⟩, hb, rfl⟩ := List.mem_map.mp hi
  have hmem := mem_reals.mpr hb
  rw [reals_decodedEntries] at hmem
  obtain ⟨p, hp, heq⟩ := List.mem_map.mp hmem
  exact ⟨p, hp, (Prod.mk.inj heq).2.symm⟩

/-- Only behind the label of the end of the code stands no instruction. -/
theorem leads_labelAt_iff {o : Nat} (ho : o ∈ labelOffsets instrs handlers) :
    Leads l.nodes.toList (labelAt instrs handlers o) ↔ o ∈ instrs.map Prod.fst := by
  have hoffset : offset? (labelAt instrs handlers o)
      (decodedEntries code.length instrs handlers lines) = some o := hd.wellRead.offset?_labelAt ho
  rw [hd.toList_nodes, leads_iff hd.wellRead.positioned hoffset, reals_decodedEntries]
  constructor
  · rintro ⟨r, hr, hle⟩
    obtain ⟨p, hp, rfl⟩ := List.mem_map.mp hr
    have hlt := hd.wellRead.inside p hp
    exact (hd.wellRead.labelled o ho).resolve_right (by omega)
  · intro hstart
    obtain ⟨p, hp, rfl⟩ := List.mem_map.mp hstart
    exact ⟨_, List.mem_map_of_mem hp, Nat.le_refl _⟩

/-- Behind every label that is jumped to stands an instruction. -/
theorem leads_of_mem_targets {lab : Label} (h : lab ∈ l.nodes.toList.flatMap Node.targets) :
    Leads l.nodes.toList lab := by
  obtain ⟨n, hn, hlab⟩ := List.mem_flatMap.mp h
  cases n with
  | label | line => cases hlab
  | instr i =>
    obtain ⟨p, hp, rfl⟩ := hd.exists_instr hn
    rw [Node.targets, Instr.targets_map, List.mem_map] at hlab
    obtain ⟨o, ho, rfl⟩ := hlab
    exact (hd.leads_labelAt_iff (mem_labelOffsets.mpr (.inl ⟨p, hp, ho⟩))).mpr
      (hd.wellRead.targets p hp o ho)

end Disassembled

namespace Read

variable {ctx : Context} {code : List UInt8} {handlers : List HandlerEntry}
  {lines : List LineEntry} {l : InstrList} {instrs : List (Nat × Instr Nat)}
  (hr : Read ctx code handlers lines l instrs)

include hr

theorem documented_nodes : Documented ctx.pool l.nodes.toList := by
  intro i hi
  obtain ⟨p, hp, rfl⟩ := hr.exists_instr hi
  exact (Instr.documented_map _ _).mpr (hr.documented p hp)

theorem closed : Closed l.nodes.toList [] :=
  ⟨fun _ => hr.leads_of_mem_targets, fun _ hi => nomatch hi⟩

end Read

/-! ## Encoding it -/

namespace Encoding

variable {links : Links} {range : JumpRange} {nodes : List Node} {count : Nat} {e : Encoded}
  {slots : List Slot} (he : Encoding links range nodes count e slots)

include he

theorem labelOffset_eq {l : Label} {o : Nat} (hl : l.id < count)
    (h : offset? l (spelling nodes count slots) = some o) : e.labelOffset l = .ok o := by
  have hcell : e.labels[l.id]?.join = some o := by
    rw [he.labels]
    exact (he.offset?_eq hl).trans h
  rw [Encoded.labelOffset, hcell]

variable (hnarrow : e.wideFallthroughs = [])

include hnarrow

/-- Without detours the entries stay what they are, but for the keys of switches. -/
theorem map_fst_of_narrow :
    (spelling nodes count slots).map Prod.fst = nodes.map Node.ascending := by
  rw [he.map_fst_spelling, hnarrow, spellOut]
  simp only [List.not_mem_nil, if_false]
  have hfst := congrArg (List.map Node.ascending) (List.zipIdx_map_fst 0 nodes)
  rwa [List.map_map, List.map_eq_flatMap] at hfst

theorem isWideCondition_of_narrow : ∀ p ∈ nodes.zip slots, isWideCondition p.2 = false := by
  rintro ⟨n, s⟩ hp
  obtain ⟨xs, ys, heq⟩ := List.append_of_mem hp
  rw [Bool.eq_false_iff]
  intro hs
  have hbehind := he.mem_wideFallthroughs heq hs
  rw [hnarrow] at hbehind
  cases hbehind

theorem map_snd_of_narrow : (spelling nodes count slots).map Prod.snd = e.offsets.toList := by
  rw [spelling, map_snd_spelledFrom _ _ (he.isWideCondition_of_narrow hnarrow), he.map_snd,
    he.offsets]

end Encoding

/-- An entry of an exception table stands for a block of some code that was encoded. -/
structure BlockEntry (p : Pool) (e : Encoded) (b : TryBlock) (h : HandlerEntry) : Prop where
  start : e.labelOffset b.start = .ok h.start.toNat
  stop : e.labelOffset b.stop = .ok h.stop.toNat
  handler : e.labelOffset b.handler = .ok h.handler.toNat
  catchType : p.optionalClass h.catchType = .ok b.catchType

theorem tryBlock_eq_ok {ctx : Context} {labels : Std.HashMap Nat Label} {h : HandlerEntry}
    {b : TryBlock} : tryBlock ctx labels h = .ok b ↔
      ∃ c, ctx.pool.optionalClass h.catchType = .ok c ∧ b = ⟨labelOf labels h.start.toNat,
        labelOf labels h.stop.toNat, labelOf labels h.handler.toNat, c⟩ := by
  refine bind_eq_ok.trans (exists_congr fun c => and_congr_right fun _ => ?_)
  exact pure_eq_ok.trans eq_comm

/-- A list that was decoded was encoded without detours, which moved its entries. -/
structure Recoded (links later : Links) (code : List UInt8) (handlers : List HandlerEntry)
    (lines : List LineEntry) (l : InstrList) (instrs : List (Nat × Instr Nat)) (e : Encoded)
    (slots : List Slot) (φ : Nat → Nat) : Prop where
  read : Read links.context code handlers lines l instrs
  encoding : Encoding later .short l.nodes.toList l.labelCount e slots
  grown : links.Extends later
  narrow : e.wideFallthroughs = []
  spelled : spelling l.nodes.toList l.labelCount slots =
    moved φ (decodedEntries code.length instrs handlers lines)
  stop : endFrom 0 slots = φ code.length
  mono : StrictMonoOn φ (places code.length instrs)

section recoded

variable {links later : Links} {code : List UInt8} {handlers : List HandlerEntry}
  {lines : List LineEntry} {l : InstrList} {instrs : List (Nat × Instr Nat)} {e : Encoded}
  {slots : List Slot} {φ : Nat → Nat} {o : Nat}

theorem exists_recoded (hr : Read links.context code handlers lines l instrs)
    (he : Encoding later .short l.nodes.toList l.labelCount e slots)
    (hgrown : links.Extends later) (hnarrow : e.wideFallthroughs = []) :
    ∃ φ, Recoded links later code handlers lines l instrs e slots φ := by
  have hdoc : Documented later.pool l.nodes.toList := fun i hi =>
    (hr.documented_nodes i hi).extends hgrown.pool
  -- a marker behind both lists stands for the ends of the code
  have hn : Positioned (decodedEntries code.length instrs handlers lines ++
      [(.label ⟨0⟩, code.length)]) :=
    positioned_entries_end hr.wellRead.sorted hr.wellRead.inside ⟨0⟩
  have hm : Positioned (spelling l.nodes.toList l.labelCount slots ++
      [(.label ⟨0⟩, endFrom 0 ((l.nodes.toList.zip slots).map Prod.snd))]) :=
    (positioned_spelledFrom_end he.settled_zip hdoc.zip 0 0 ⟨0⟩).1
  rw [he.map_snd] at hm
  have hsame : (spelling l.nodes.toList l.labelCount slots ++
        [(Node.label ⟨0⟩, endFrom 0 slots)]).map Prod.fst =
      (decodedEntries code.length instrs handlers lines ++
        [(Node.label ⟨0⟩, code.length)]).map fun b => b.1.ascending := by
    rw [List.map_append, List.map_append, he.map_fst_of_narrow hnarrow, hr.toList_nodes,
      List.map_map]
    rfl
  obtain ⟨φ, hmoved, hmono⟩ := exists_moved hn hm hsame
  rw [moved, List.map_append] at hmoved
  obtain ⟨hspelled, hstop⟩ := List.append_inj' hmoved rfl
  refine ⟨φ, hr, he, hgrown, hnarrow, hspelled, (Prod.mk.inj (List.cons.inj hstop).1).2,
    hmono.mono ?_⟩
  rintro o (ho | rfl)
  · obtain ⟨p, hp, rfl⟩ := List.mem_map.mp ho
    have hentry : (.instr (p.2.map (labelAt instrs handlers)), p.1) ∈
        decodedEntries code.length instrs handlers lines :=
      mem_entries.mpr (.inl ⟨p, hp, .inr rfl⟩)
    exact List.mem_map.mpr ⟨_, List.mem_append_left _ hentry, rfl⟩
  · exact List.mem_map.mpr ⟨_, List.mem_append_right _ List.mem_cons_self, rfl⟩

namespace Recoded

variable (hr : Recoded links later code handlers lines l instrs e slots φ)

include hr

theorem documented : Documented later.pool l.nodes.toList := fun i hi =>
  (hr.read.documented_nodes i hi).extends hr.grown.pool

theorem closed : Closed l.nodes.toList e.wideFallthroughs := by
  rw [hr.narrow]
  exact hr.read.closed

theorem readings_eq :
    readings (spelling l.nodes.toList l.labelCount slots) = movedInstrs φ instrs := by
  rw [hr.spelled]
  exact hr.read.wellRead.readings_moved

theorem starts_eq : starts (spelling l.nodes.toList l.labelCount slots) =
    (instrs.map Prod.fst).map φ := by
  rw [← map_fst_readings, hr.readings_eq, movedInstrs, List.map_map, List.map_map]
  rfl

theorem le (ho : o ∈ places code.length instrs) : φ o ≤ 65535 := by
  have hlength := hr.encoding.length
  rw [hr.stop] at hlength
  rcases ho with ho | rfl
  · obtain ⟨p, hp, rfl⟩ := List.mem_map.mp ho
    have hlt := hr.mono (.inl ho) (.inr rfl) (hr.read.wellRead.inside p hp)
    omega
  · exact hlength

theorem labelOffset_labelAt (ho : o ∈ labelOffsets instrs handlers) :
    e.labelOffset (labelAt instrs handlers o) = .ok (φ o) := by
  refine hr.encoding.labelOffset_eq ?_ ?_
  · rw [hr.read.labelCount_eq]
    exact labelAt_lt ho
  · rw [hr.spelled, offset?_moved, hr.read.wellRead.offset?_labelAt ho]
    rfl

/-- A block has the labels of the offsets of its entry, which go to other offsets. -/
theorem labelOffset_of_tryBlock {h : HandlerEntry} {b : TryBlock} (hh : h ∈ handlers)
    (hb : tryBlock links.context (labelTable (labelOffsets instrs handlers)) h = .ok b) :
    e.labelOffset b.start = .ok (φ h.start.toNat) ∧ e.labelOffset b.stop = .ok (φ h.stop.toNat) ∧
      e.labelOffset b.handler = .ok (φ h.handler.toNat) := by
  obtain ⟨c, -, rfl⟩ := tryBlock_eq_ok.mp hb
  have hoffset : ∀ o ∈ handlerOffsets h, e.labelOffset (labelAt instrs handlers o) = .ok (φ o) :=
    fun o ho => hr.labelOffset_labelAt (mem_labelOffsets.mpr (.inr ⟨h, hh, ho⟩))
  exact forall_handlerOffsets.mp hoffset

/-- Every block has an entry. -/
theorem exists_stored : ∃ stored, List.Forall₂ (BlockEntry later.pool e) l.blocks stored := by
  refine exists_forall₂ fun b hb => ?_
  obtain ⟨h, hh, hblock⟩ := exists_of_forall₂ hr.read.blocks.flip hb
  obtain ⟨hstart, hstop, hhandler⟩ := hr.labelOffset_of_tryBlock hh hblock
  have hsmall : ∀ o ∈ handlerOffsets h, (UInt16.ofNat (φ o)).toNat = φ o := fun o ho =>
    Reader.toNat_ofNat_u16 (hr.le (hr.read.wellRead.handlers h hh o ho))
  obtain ⟨hsmall, hsmall', hsmall''⟩ := forall_handlerOffsets.mp hsmall
  refine ⟨⟨.ofNat (φ h.start.toNat), .ofNat (φ h.stop.toNat), .ofNat (φ h.handler.toNat),
    h.catchType⟩, ?_, ?_, ?_, ?_⟩
  · rwa [hsmall]
  · rwa [hsmall']
  · rwa [hsmall'']
  · obtain ⟨c, hc, rfl⟩ := tryBlock_eq_ok.mp hblock
    exact hr.grown.pool.optionalClass hc

/-- The offsets of an entry were moved. -/
theorem handlerOffsets_eq {h h' : HandlerEntry} {b : TryBlock} (hh : h ∈ handlers)
    (hb : tryBlock links.context (labelTable (labelOffsets instrs handlers)) h = .ok b)
    (hentry : BlockEntry later.pool e b h') :
    handlerOffsets h' = (handlerOffsets h).map φ := by
  obtain ⟨hstart, hstop, hhandler⟩ := hr.labelOffset_of_tryBlock hh hb
  rw [handlerOffsets, Except.ok.inj (hentry.start.symm.trans hstart),
    Except.ok.inj (hentry.stop.symm.trans hstop),
    Except.ok.inj (hentry.handler.symm.trans hhandler)]
  rfl

section stored

variable {stored : List HandlerEntry}
  (hstored : List.Forall₂ (BlockEntry later.pool e) l.blocks stored)

include hstored

theorem moves : Moves φ code.length instrs handlers stored lines e.lines where
  read := hr.read.wellRead
  mono := hr.mono
  handlers := by
    have hblocks := (List.forall₂_and_left handlers _).mpr ⟨fun _ hh => hh, hr.read.blocks⟩
    refine (forall₂_comp hblocks hstored).imp ?_
    rintro h h' ⟨b, ⟨hh, hb⟩, hentry⟩
    exact hr.handlerOffsets_eq hh hb hentry
  lines := by
    intro o ho
    have hinj : ∀ b ∈ decodedEntries code.length instrs handlers lines, φ b.2 = φ o → b.2 = o :=
      fun b hb => hr.mono.injOn (entries_offset hb) (.inl ho)
    have hlines := hr.encoding.linesAt_spelling (φ o)
    rw [hr.spelled, linesAt_moved hinj, decodedEntries,
      linesAt_entries hr.read.wellRead.sorted hr.read.wellRead.inside ho] at hlines
    rw [getD_lineTable]
    exact hlines.symm

/-- The blocks are read back from their entries. -/
theorem mapM_tryBlock : stored.mapM (tryBlock later.context (labelTable
    (labelOffsets (movedInstrs φ instrs) stored))) = .ok l.blocks := by
  have hsource : ∀ b ∈ l.blocks, ∃ h ∈ handlers,
      tryBlock links.context (labelTable (labelOffsets instrs handlers)) h = .ok b :=
    fun b hb => exists_of_forall₂ hr.read.blocks.flip hb
  have hall := (List.forall₂_and_left _ _).mpr ⟨hsource, hstored⟩
  refine mapM_eq_ok.mpr (List.Forall₂.flip (hall.imp ?_))
  rintro b h' ⟨⟨h, hh, hb⟩, hentry⟩
  have hoffsets := hr.handlerOffsets_eq hh hb hentry
  simp only [handlerOffsets, List.map_cons, List.map_nil, List.cons.injEq, and_true] at hoffsets
  obtain ⟨hstart, hstop, hhandler⟩ := hoffsets
  have hlabel : ∀ o ∈ handlerOffsets h,
      labelOf (labelTable (labelOffsets (movedInstrs φ instrs) stored)) (φ o) =
        labelOf (labelTable (labelOffsets instrs handlers)) o := fun o ho =>
    (hr.moves hstored).labelAt_eq (hr.read.wellRead.handlers h hh o ho)
  obtain ⟨hlabel, hlabel', hlabel''⟩ := forall_handlerOffsets.mp hlabel
  refine tryBlock_eq_ok.mpr ⟨_, hentry.catchType, ?_⟩
  rw [hstart, hstop, hhandler, hlabel, hlabel', hlabel'']
  obtain ⟨c, -, rfl⟩ := tryBlock_eq_ok.mp hb
  rfl

theorem wellRead_stored :
    WellRead e.bytes.length (movedInstrs φ instrs) stored := by
  rw [← hr.readings_eq]
  refine hr.encoding.wellRead hr.documented hr.closed (fun _ h => h) fun h' hh' o ho => ?_
  obtain ⟨h, hh, hoffsets⟩ := exists_of_forall₂ (hr.moves hstored).handlers.flip hh'
  rw [hoffsets, List.mem_map] at ho
  obtain ⟨a, ha, rfl⟩ := ho
  rw [hr.starts_eq, hr.stop]
  exact (hr.read.wellRead.handlers h hh a ha).imp List.mem_map_of_mem (congrArg φ)

theorem decode_eq : decode later.context e.bytes stored e.lines =
    .ok (l.ascending, e.offsets.toList) := by
  obtain ⟨hlength, hscan⟩ := hr.encoding.scanned hr.documented hr.closed fun _ h => h
  rw [hr.readings_eq] at hscan
  have hentries : decodedEntries e.bytes.length (movedInstrs φ instrs) stored e.lines =
      spelling l.nodes.toList l.labelCount slots := by
    rw [hlength, hr.stop, (hr.moves hstored).decodedEntries_eq, hr.spelled]
  have hlist : InstrList.ofNodes (l.nodes.toList.map Node.ascending)
      (labelOffsets instrs handlers).length l.blocks = l.ascending := by
    rw [InstrList.ofNodes, InstrList.ascending, InstrList.markedLabels_ascending, ← hr.read.placed,
      ← List.map_toArray, Array.toArray_toList]
  rw [Code.decode_eq hscan (hr.wellRead_stored hstored) (hr.mapM_tryBlock hstored), hentries,
    hr.encoding.map_fst_of_narrow hr.narrow, hr.encoding.map_snd_of_narrow hr.narrow,
    (hr.moves hstored).labelOffsets_eq, List.length_map, hlist]

end stored

end Recoded

/-- **Decoding, encoding and decoding again.** A list that was decoded and encoded without detours
is decoded again from what encoding gave: its blocks have entries by the offsets of their labels,
and with any such entries the same list comes back, with its labels and their numbers, its lines
and its blocks, but for the keys of switches, which ascend. Every entry of the list has the offset
that encoding gave it. -/
theorem decode_encode_decode (hpool : links.pool.Reachable) (hfields : links.pool.FieldHandles)
    {offsets : List Nat} (hdecode : decode links.context code handlers lines = .ok (l, offsets))
    (hencode : (encode l.nodes.toList l.labelCount).run.run links = (.ok e, later))
    (hnarrow : e.wideFallthroughs = []) :
    (∃ stored, List.Forall₂ (BlockEntry later.pool e) l.blocks stored) ∧
      ∀ stored, List.Forall₂ (BlockEntry later.pool e) l.blocks stored →
        decode later.context e.bytes stored e.lines = .ok (l.ascending, e.offsets.toList) := by
  obtain ⟨instrs, hread⟩ := read_of_decode hfields hdecode
  obtain ⟨hgrown, slots, he⟩ := gives_encodeWithin _ _ _ links e later hpool hencode
  obtain ⟨φ, hr⟩ := exists_recoded hread he hgrown hnarrow
  exact ⟨hr.exists_stored, fun stored hstored => hr.decode_eq hstored⟩

end recoded

/-- A load in its wide form, and a switch whose keys descend. -/
def descendingSwitch : List UInt8 :=
  [196, 21, 0, 5, 171, 0, 0, 0, 255, 255, 255, 252, 0, 0, 0, 2, 0, 0, 0, 2, 0, 0, 0, 0, 0, 0, 0, 1,
    255, 255, 255, 252]

/-- The list that this code is decoded to, with the keys and labels of its switch. -/
def switchList (pairs : List (Int32 × Label)) : InstrList :=
  ⟨#[.label ⟨0⟩, .instr (.var 21 5), .label ⟨1⟩, .line 7, .instr (.lookupSwitch ⟨0⟩ pairs),
    .label ⟨2⟩], #[true, true, true], [⟨⟨0⟩, ⟨2⟩, ⟨1⟩, none⟩]⟩

/-- The load becomes short, so everything behind it moves, and the keys ascend. -/
theorem decode_encode_decode_switch : ∃ e : Encoded,
    decode ⟨.empty, #[]⟩ descendingSwitch [⟨0, 32, 4, 0⟩] [⟨4, 7⟩] =
      .ok (switchList [(2, ⟨1⟩), (1, ⟨0⟩)], [0, 0, 4, 4, 4, 32]) ∧
    (encode (switchList [(2, ⟨1⟩), (1, ⟨0⟩)]).nodes.toList 3).run.run ⟨.empty, #[]⟩ =
      (.ok e, ⟨.empty, #[]⟩) ∧ e.bytes.length = 28 ∧
    decode ⟨.empty, #[]⟩ e.bytes [⟨0, 28, 2, 0⟩] e.lines =
      .ok (switchList [(1, ⟨0⟩), (2, ⟨1⟩)], [0, 0, 2, 2, 2, 28]) := by
  have hdecode : decode ⟨.empty, #[]⟩ descendingSwitch [⟨0, 32, 4, 0⟩] [⟨4, 7⟩] =
      .ok (switchList [(2, ⟨1⟩), (1, ⟨0⟩)], [0, 0, 4, 4, 4, 32]) := by cbv
  have hencode : (encode (switchList [(2, ⟨1⟩), (1, ⟨0⟩)]).nodes.toList 3).run.run
      ⟨.empty, #[]⟩ = (.ok ⟨[21, 5, 171, 0, 255, 255, 255, 254, 0, 0, 0, 2, 0, 0, 0, 1, 255, 255,
        255, 254, 0, 0, 0, 2, 0, 0, 0, 0], #[0, 0, 2, 2, 2, 28], #[some 0, some 2, some 28],
        [⟨2, 7⟩], []⟩, ⟨.empty, #[]⟩) := by cbv
  have hfields : Pool.empty.FieldHandles := fun _ _ _ h => absurd h Pool.get_empty
  have hempty : (⟨.empty, #[]⟩ : Links).pool.Reachable := Pool.Extends.refl
  have hascending : (switchList [(2, ⟨1⟩), (1, ⟨0⟩)]).ascending =
      switchList [(1, ⟨0⟩), (2, ⟨1⟩)] := by cbv
  obtain ⟨-, hagain⟩ := decode_encode_decode hempty hfields hdecode hencode rfl
  refine ⟨_, hdecode, hencode, rfl, ?_⟩
  rw [← hascending]
  exact hagain _ (.cons ⟨rfl, rfl, rfl, rfl⟩ .nil)

end Code
end ClassWeave
