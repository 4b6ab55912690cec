import Mathlib.Data.List.Range
import ClassWeave.Proofs.Findings
import ClassWeave.Proofs.FramePoints
import ClassWeave.Proofs.FreshObjects

/-!
# Stored frames pass their checks

Written code is decoded and analysed, and what was stored with it is compared with what the
analysis finds. Every frame that the decoded list needs was stored, since it goes nowhere but where
the written list went; and every stored frame is the one that the analysis in front knew at its
offset, which no frame of the analysis behind rises above.
-/

namespace ClassWeave

open Listing

/-! ## Sizes of frames that are stored -/

theorem Frame.length_wholeOnto (found locals : List NamedType) :
    (wholeOnto found locals).length ≤ found.length + locals.length := by
  fun_induction wholeOnto found locals with
  | case1 found => exact Nat.le_refl _
  | case2 found t ht => simp
  | case3 found t ht u rest ih =>
    simp only [List.length_cons] at ih ⊢
    omega
  | case4 found t rest ht ih =>
    simp only [List.length_cons] at ih ⊢
    omega

theorem Frame.length_compactLocals (locals : List NamedType) :
    (compactLocals locals).length ≤ locals.length := by
  have hdrop := (List.dropWhile_sublist (· == VType.top) (l := wholeOnto [] locals)).length_le
  have hwhole := length_wholeOnto [] locals
  rw [List.length_nil, Nat.zero_add] at hwhole
  rw [compactLocals, List.length_reverse]
  omega

theorem Frame.length_stack_le (f : Frame) : f.stack.length ≤ f.depth := by
  have general : ∀ (n : Nat) (ts : List NamedType),
      n + ts.length ≤ ts.foldl (fun n t => n + t.slots) n := by
    intro n ts
    induction ts generalizing n with
    | nil => exact Nat.le_refl n
    | cons t ts ih =>
      have hrest := ih (n + t.slots)
      have hslots : 1 ≤ t.slots := by cases t <;> exact Nat.le_of_ble_eq_true rfl
      rw [List.foldl_cons, List.length_cons]
      omega
  have hall := general 0 f.stack
  rwa [Nat.zero_add] at hall

/-- There are not more numbers in ascending order than numbers below a bound. -/
theorem length_le_of_sorted {os : List Nat} {n : Nat} (hsorted : os.Pairwise (· < ·))
    (hlt : ∀ o ∈ os, o < n) : os.length ≤ n := by
  have hnodup : os.Nodup := hsorted.imp fun h => Nat.ne_of_lt h
  have hsub : os ⊆ List.range n := fun o ho => List.mem_range.mpr (hlt o ho)
  have := (List.subperm_of_subset hnodup hsub).length_le
  rwa [List.length_range] at this

/-- The frames of an analysis are those of its search. -/
theorem Analysis.Searched.frame?_eq_some {m : MethodContext} {l : InstrList} {pool : Pool}
    {h : Hierarchy} {mode : Mode} {a : Analysis} {g : FlowGraph} {entry : Frame} {w : Work}
    (hs : Searched m l pool h mode a g entry w) {j : Nat} {f : Frame}
    (hf : a.frames[j]? = some (some f)) : w.frame? j = some f := by
  rw [hs.result] at hf
  exact Work.frame?_eq_some.mpr hf

namespace Code

/-! ## The entries of a decoded list -/

section decoded

variable {p : Pool} {length : Nat} {instrs : List (Nat × Instr Nat)} {entries : List HandlerEntry}
  {d : InstrList} {ns : List (Node × Nat)} (hd : Decoded p length instrs entries d ns)
  {a : Analysis} {h : Hierarchy} {o : Nat}

include hd

/-- Labels lead to the offsets that they were made for. -/
theorem Decoded.eq_of_label {o' j : Nat} (ho' : o' ∈ labelOffsets instrs entries)
    (hj : (labelAt instrs entries o').position? d.labelPositions = some j)
    (ho : (ns.map Prod.snd)[j]? = some o) : o = o' := by
  obtain ⟨t, l, hposition, hns⟩ := hd.marked o' ho'
  obtain rfl := Option.some.inj (hj.symm.trans hposition)
  rw [List.getElem?_map, hns] at ho
  exact (Option.some.inj ho).symm

/-- A decoded list needs frames where the code goes, behind instructions that control does not pass,
and at handlers. -/
theorem Decoded.needs_cases
    (ho : Verify.Subject.Needs ⟨d, (ns.map Prod.snd).toArray, length, a, h⟩ o) :
    (∃ q ins, (q, ins) ∈ instrs ∧ o ∈ ins.targets) ∨
    (∃ xs q ins ins' ys, instrs = xs ++ (q, ins) :: (o, ins') :: ys ∧
      ins.fallsThrough = false) ∨
    ∃ r ∈ entries, o = r.handler.toNat := by
  have hnode : ∀ {i : Nat} {n : Node}, d.nodes[i]? = some n → ∃ q, ns[i]? = some (n, q) := by
    intro i n hn
    rw [hd.getElem?, Option.map_eq_some_iff] at hn
    obtain ⟨⟨_, q⟩, hb, rfl⟩ := hn
    exact ⟨q, hb⟩
  cases ho with
  | @target i j n lab hn hlab hj ho =>
    obtain ⟨q, hns⟩ := hnode hn
    cases n with
    | label | line => cases hlab
    | instr ins =>
      obtain ⟨xs, ys, ins', hsplit, rfl, -⟩ := hd.split hns
      have hmem : (q, ins') ∈ instrs := by
        rw [hsplit]
        simp
      rw [Node.targets, Instr.targets_map, List.mem_map] at hlab
      obtain ⟨t, ht, rfl⟩ := hlab
      rw [List.getElem?_toArray] at ho
      obtain rfl := hd.eq_of_label (mem_labelOffsets.mpr (.inl ⟨_, hmem, ht⟩)) hj ho
      exact .inl ⟨q, ins', hmem, ht⟩
  | @behind i n hn hreal hfall ho hlt =>
    obtain ⟨q, hns⟩ := hnode hn
    cases n with
    | label | line => cases hreal
    | instr ins =>
      obtain ⟨xs, ys, ins', hsplit, rfl, hnext⟩ := hd.split hns
      rw [Node.fallsThrough, Instr.fallsThrough_map] at hfall
      rw [List.getElem?_toArray, List.getElem?_map, Option.map_eq_some_iff] at ho
      obtain ⟨⟨n', o⟩, hns', rfl⟩ := ho
      cases ys with
      | cons y ys =>
        obtain ⟨o', ins''⟩ := y
        obtain ⟨n'', hn''⟩ := hnext o' rfl
        obtain ⟨-, rfl⟩ := Prod.mk.inj (Option.some.inj (hns'.symm.trans hn''))
        exact .inr (.inl ⟨xs, q, ins', ins'', ys, hsplit, hfall⟩)
      | nil =>
        -- behind the last instruction is the end of the code
        exfalso
        have hbehind := hd.positioned.strict hns rfl hns' (Nat.lt_succ_self i)
        rcases hd.inside _ (List.mem_of_getElem? hns') with hmem | hend
        · have hsorted := hd.read.sorted
          rw [hsplit, List.map_append, List.map_singleton] at hsorted hmem
          obtain ⟨-, -, hcross⟩ := List.pairwise_append.mp hsorted
          rcases List.mem_append.mp hmem with hmem | hmem
          · have := hcross _ hmem q List.mem_cons_self
            simp only at hbehind
            omega
          · rw [List.mem_singleton.mp hmem] at hbehind
            exact Nat.lt_irrefl q hbehind
        · exact Nat.ne_of_lt hlt hend
  | @handler b j hb hj ho =>
    obtain ⟨r, hr, c, -, rfl⟩ := exists_of_forall₂ hd.blocks.flip hb
    have hplace : r.handler.toNat ∈ labelOffsets instrs entries :=
      mem_labelOffsets.mpr (.inr ⟨r, hr, by simp [handlerOffsets]⟩)
    rw [List.getElem?_toArray] at ho
    exact .inr (.inr ⟨r, hr, hd.eq_of_label hplace hj ho⟩)

/-- From the first entry at the offset of an instruction on, that instruction comes next. -/
theorem Decoded.first_at (ho : o ∈ instrs.map Prod.fst) :
    ∃ k, (ns.map Prod.snd).idxOf? o = some k ∧ ∀ j, nextReal? d.nodes k = some j →
      ∃ n, ns[j]? = some (n, o) := by
  have hstarts : instrs.map Prod.fst = (Listing.reals ns).map Prod.fst := by
    rw [hd.reals, List.map_map]
    rfl
  rw [hstarts] at ho
  obtain ⟨⟨o, ins⟩, hr, rfl⟩ := List.mem_map.mp ho
  obtain ⟨i, hi⟩ := List.mem_iff_getElem?.mp (mem_reals.mp hr)
  have hoffset : (ns.map Prod.snd)[i]? = some o := by
    rw [List.getElem?_map, hi]
    rfl
  cases hk : (ns.map Prod.snd).idxOf? o with
  | none => exact absurd (List.mem_of_getElem? hoffset) (List.idxOf?_eq_none_iff.mp hk)
  | some k =>
    refine ⟨k, rfl, fun j hj => ?_⟩
    obtain ⟨hlength, hat, hbefore⟩ := List.idxOf?_eq_some_iff.mp hk
    have hki : k ≤ i := by
      by_contra hgt
      have hlt : i < k := Nat.lt_of_not_le hgt
      obtain ⟨_, hi'⟩ := List.getElem?_eq_some_iff.mp hoffset
      exact hbefore i hlt hi'
    obtain ⟨hkj, ⟨n, hn, hreal⟩, hmarks⟩ := nextReal?_eq_some hj
    have hji : j ≤ i := by
      by_contra hgt
      have hreal : Node.isReal (.instr ins) = false := hmarks i _ hki (Nat.lt_of_not_le hgt) (by
        rw [hd.getElem?, hi]
        rfl)
      cases hreal
    -- offsets ascend, so all entries in between have the same one
    rw [hd.getElem?, Option.map_eq_some_iff] at hn
    obtain ⟨⟨_, o'⟩, hns, rfl⟩ := hn
    have hat' := (List.getElem?_eq_getElem hlength).trans (congrArg some hat)
    rw [List.getElem?_map, Option.map_eq_some_iff] at hat'
    obtain ⟨⟨m, q⟩, hfirst, rfl⟩ := hat'
    have hlower := hd.positioned.mono hfirst hns hkj
    have hupper := hd.positioned.mono hns hi hji
    obtain rfl : o' = q := Nat.le_antisymm hupper hlower
    exact ⟨_, hns⟩

end decoded

/-- The next instruction has the offset of the markers in front of it. -/
theorem Encoding.standsAt_of_nextReal? {links : Links} {range : JumpRange} {l : InstrList}
    {e : Encoded} {slots : List Slot}
    (he : Encoding links range l.nodes.toList l.labelCount e slots) {i j o : Nat}
    (ho : e.offsets[i]? = some o) (hj : nextReal? l.nodes i = some j) :
    StandsAt l.nodes.toList slots o j := by
  obtain ⟨hij, ⟨n, hn, hreal⟩, hmarks⟩ := nextReal?_eq_some hj
  rw [← Array.getElem?_toList] at hn
  obtain ⟨m, t, hi⟩ := he.placed_of_offset ho
  obtain ⟨t', o', hplaced⟩ := exists_placed he.settled.length_eq hn
  obtain rfl := he.offset_eq_of_marks hi hplaced hij fun k m hik hkj hm =>
    hmarks k m hik hkj (by rwa [← Array.getElem?_toList])
  exact ⟨n, t', hplaced, hreal⟩

end Code

/-! ## The frame at entry -/

/-- Without fresh objects it does not matter where instructions stand. -/
theorem NamedType.At.of_settled {p : Pool} {offset? other? : Nat → Option Nat} {t : NamedType}
    {r : RawType} (ht : ∀ i, t ≠ .fresh i) (h : NamedType.At p offset? r t) :
    NamedType.At p other? r t := by
  cases t with
  | fresh i => exact absurd rfl (ht i)
  | _ => exact h

/-- No instruction made anything before the first one. -/
theorem Frame.entry_ne_fresh {m : MethodContext} {f : Frame} (hf : entry m = .ok f) :
    (∀ t ∈ f.locals, ∀ i, t ≠ .fresh i) ∧ ∀ t ∈ f.stack, ∀ i, t ≠ .fresh i := by
  have hself : Covers .unknown (fun _ _ => False) f f := covers_entry hf
  constructor
  · rintro t ht i rfl
    obtain ⟨k, hk⟩ := List.mem_iff_getElem?.mp ht
    have hslot := hself.locals k
    rw [slot_eq_of_getElem? hk] at hslot
    cases hslot with
    | fresh hs => exact hs
  · rintro t ht i rfl
    have hvalue := List.forall₂_same.mp hself.stack _ ht
    cases hvalue with
    | fresh hs => exact hs

open CompactFrame in
/-- The stored form of the frame at entry names it. -/
theorem Frame.names_entry {p : Pool} {offset? : Nat → Option Nat} {m : MethodContext} {f : Frame}
    {raw : RawFrame} (hf : entry m = .ok f) (h : NamedFrame.At p offset? f.compact raw) :
    ∃ named, Names p raw named ∧ f.compact.relocate (fun _ => none) = .ok named := by
  obtain ⟨hlocals, hstack⟩ := entry_ne_fresh hf
  have hall : ∀ {ts : List NamedType} {rs : List RawType}, (∀ t ∈ ts, ∀ i, t ≠ .fresh i) →
      List.Forall₂ (fun t r => NamedType.At p offset? r t) ts rs →
        List.Forall₂ (fun t r => NamedType.At p (fun _ => none) r t) ts rs := by
    intro ts rs hts h
    obtain ⟨hlength, hzip⟩ := List.forall₂_iff_zip.mp h
    exact List.forall₂_iff_zip.mpr ⟨hlength, fun hmem =>
      (hzip hmem).of_settled (hts _ (List.of_mem_zip hmem).1)⟩
  refine names_of_at (fun h => by cases h) ⟨hall (fun t ht => ?_) h.locals, hall (fun t ht => ?_) h.stack⟩
  · exact hlocals t (mem_compactLocals ht)
  · exact hstack t (List.mem_reverse.mp ht)

namespace WriteContext

open Code

variable {ctx : WriteContext} {body : MethodBody} {s : Links} {code : CodeAttribute}
  {a a' : Analysis} {l : InstrList} {e : Encoded} {slots : List Code.Slot}
  {entries : List (Option HandlerEntry × Label)} {points : List Nat}

/-! ## Frames that are read back -/

/-- The frames that were stored, in terms of names: one for every entry that needs one, and each
is that of an entry at its offset. -/
structure RecordedAs (l : InstrList) (a : Analysis) (e : Encoded) (points : List Nat)
    (recorded : List (Nat × NamedFrame)) : Prop where
  needed : ∀ i ∈ points, ∃ o, e.offsets[i]? = some o ∧ o ∈ recorded.map Prod.fst
  stored : ∀ r ∈ recorded, ∃ i ∈ points, e.offsets[i]? = some r.1 ∧ ∃ f,
    a.frameAt? l.nodes i = some f ∧ f.compact.relocate (fun j => e.offsets[j]?) = .ok r.2

/-- Offsets fit into two bytes. -/
theorem Wrote.offset_le (hw : Wrote ctx body s code a l a' e slots entries) {i o : Nat}
    (ho : e.offsets[i]? = some o) : o ≤ 65535 := by
  rw [← Array.getElem?_toList, hw.encoding.offsets] at ho
  exact Nat.le_trans (offsetsFrom_le 0 slots o (List.mem_of_getElem? ho)) hw.encoding.length

theorem Wrote.recorded (hw : Wrote ctx body s code a l a' e slots entries)
    {table : List (Nat × RawFrame)} (ht : FrameTable l a' e s.pool points table) :
    ∃ recorded, List.Forall₂ (CompactFrame.NamesAt s.pool) table recorded ∧
      RecordedAs l a' e points recorded := by
  have hnamed : ∀ t ∈ table, ∃ c, CompactFrame.NamesAt s.pool t c ∧ ∃ i ∈ points,
      e.offsets[i]? = some c.1 ∧ ∃ f, a'.frameAt? l.nodes i = some f ∧
        f.compact.relocate (fun j => e.offsets[j]?) = .ok c.2 := by
    intro t hmem
    obtain ⟨i, hi, ho, f, hf, hraw⟩ := ht.stored t hmem
    obtain ⟨named, hnames, hrelocate⟩ :=
      CompactFrame.names_of_at (fun {i o} h => hw.offset_le (i := i) (o := o) h) hraw
    exact ⟨(t.1, named), ⟨rfl, hnames⟩, i, hi, ho, f, hf, hrelocate⟩
  obtain ⟨recorded, hall⟩ := exists_forall₂ hnamed
  refine ⟨recorded, hall.imp fun _ _ h => h.1, fun i hi => ?_, fun r hr => ?_⟩
  · obtain ⟨o, ho, hmem⟩ := ht.needed i hi
    obtain ⟨t, htable, rfl⟩ := List.mem_map.mp hmem
    obtain ⟨c, hc, ⟨hoffset, -⟩, -⟩ := exists_of_forall₂ hall htable
    exact ⟨t.1, ho, List.mem_map.mpr ⟨c, hc, hoffset⟩⟩
  · obtain ⟨t, -, -, hr⟩ := exists_of_forall₂ hall.flip hr
    exact hr

section checked

variable (hw : Wrote ctx body s code a l a' e slots entries)
  (hdoc : Documented s.pool body.list.nodes.toList) (hh : ctx.hierarchy.Sound) {g : FlowGraph}
  {entry : Frame} {w : Work}
  (hs : Analysis.Searched ctx.method l s.pool ctx.hierarchy .strict a' g entry w)

include hw hdoc hs

/-- The frame of an entry is known at its offset, where an instruction is. -/
theorem Wrote.roof_of_frameAt {i o : Nat} {f : Frame} (ho : e.offsets[i]? = some o)
    (hf : a'.frameAt? l.nodes i = some f) :
    o ∈ starts (spelling l.nodes.toList l.labelCount slots) ∧
      roofOf w.frame? (g.behind? w) l.nodes.toList slots o = some f := by
  have he := hw.encoding
  obtain ⟨j, hj, hframe⟩ := Analysis.frameAt?_eq_some.mp hf
  obtain ⟨n, t, hplaced, hreal⟩ := he.standsAt_of_nextReal? ho hj
  refine ⟨?_, (he.roofOf_eq_some (hw.documented hdoc)).mpr
    ⟨j, n, t, o, hplaced, .inl ⟨hreal, rfl, hs.frame?_eq_some hframe⟩⟩⟩
  cases n with
  | label | line => cases hreal
  | instr ins => exact (he.mem_starts_placed hplaced).1

include hh

/-- The types in a frame that is stored can be counted in two bytes. -/
theorem Wrote.length_stored {i o : Nat} {f : Frame} {raw : RawFrame}
    (ho : e.offsets[i]? = some o) (hf : a'.frameAt? l.nodes i = some f)
    (hraw : NamedFrame.At s.pool (fun j => e.offsets[j]?) f.compact raw) :
    raw.locals.length ≤ 65535 ∧ raw.stack.length ≤ 65535 := by
  have hleft := hw.documented hdoc
  obtain ⟨-, hknown⟩ := hw.roof_of_frameAt hdoc hs ho hf
  have hnone : ∀ k' ∈ ([] : List Handler), ∃ k ∈ g.handlers, k.EncodedAs e k' :=
    fun _ hk => absurd hk List.not_mem_nil
  have hroof := hs.roof hh.lawful hw.encoding hleft (hw.closed_left hdoc) hnone
  obtain ⟨hdepth, hlength⟩ := hroof.room hknown
  have hstack := hw.maxStack
  have hlocals := hw.maxLocals
  rw [hs.result] at hstack hlocals
  have hfirst := hraw.locals.length_eq
  have hsecond := hraw.stack.length_eq
  have hcompact := Frame.length_compactLocals f.locals
  have hvalues := f.length_stack_le
  have hcells : code.maxStack.toNat < 65536 := code.maxStack.toNat_lt
  have hvars : code.maxLocals.toNat < 65536 := code.maxLocals.toNat_lt
  simp only at hstack hlocals
  simp only [Frame.compact, List.length_reverse] at hfirst hsecond
  omega

/-- What was stored about frames is read as the frames that were recorded. -/
theorem Wrote.read_frames {as bs frames : List Attribute}
    (hframes : FramesAt ctx l a' e ((keptEntries entries).map Prod.snd) s.pool frames)
    (has : Verify.Others s.pool StackMapFrame.tableName as)
    (hbs : Verify.Others s.pool StackMapFrame.tableName bs) :
    ∃ read named recorded points, Verify.readAttribute s.pool StackMapFrame.tableName
        StackMapFrame.tableReader (as ++ frames ++ bs) = .ok read ∧
      entry.compact.relocate (fun _ => none) = .ok named ∧
      CompactFrame.ofTable s.pool named (read.getD []) = .ok recorded ∧
      framePoints l e ((keptEntries entries).map Prod.snd) = .ok points ∧
      RecordedAs l a' e points recorded := by
  obtain ⟨points, table, hpoints, htable, hstored⟩ := hframes
  obtain ⟨recorded, hnames, hrec⟩ := hw.recorded htable
  rcases hstored with ⟨rfl, rfl⟩ | ⟨stored, rfl, hnamed, entry', raw, hentry, hraw, hbytes⟩
  · -- nothing was stored, since no entry needs a frame
    obtain rfl := List.forall₂_nil_left_iff.mp hnames
    obtain ⟨hlocals, hstack⟩ := Frame.entry_ne_fresh hs.start
    have hentry : ∃ named, entry.compact.relocate (fun _ => none) = .ok named := by
      apply CompactFrame.exists_relocate
      · exact fun i hi => absurd rfl (hlocals _ (Frame.mem_compactLocals hi) i)
      · exact fun i hi => absurd rfl (hstack _ (List.mem_reverse.mp hi) i)
    obtain ⟨named, hentry⟩ := hentry
    refine ⟨none, named, [], points, ?_, hentry, rfl, hpoints, hrec⟩
    rw [List.append_nil]
    exact Verify.readAttribute_others fun a ha =>
      (List.mem_append.mp ha).elim (has a) (hbs a)
  · obtain rfl := Except.ok.inj (hs.start.symm.trans hentry)
    obtain ⟨named, hentry', hrelocate⟩ := Frame.names_entry hs.start hraw
    have hoffset : ∀ r ∈ table, r.1 < 65535 ∧ r.2.locals.length ≤ 65535 ∧
        r.2.stack.length ≤ 65535 := by
      intro r hmem
      obtain ⟨i, -, ho, f, hf, hraw⟩ := htable.stored r hmem
      obtain ⟨hstart, -⟩ := hw.roof_of_frameAt hdoc hs ho hf
      have hlt := hw.encoding.starts_lt (hw.documented hdoc) hstart
      have hlength := hw.encoding.length
      exact ⟨Nat.lt_of_lt_of_le hlt hlength, hw.length_stored hdoc hh hs ho hf hraw⟩
    have hcount : table.length ≤ 65535 := by
      rw [← List.length_map (f := Prod.fst)]
      refine length_le_of_sorted htable.sorted fun o ho => ?_
      obtain ⟨r, hmem, rfl⟩ := List.mem_map.mp ho
      exact (hoffset r hmem).1
    have hread : StackMapFrame.tableReader.Reads stored.info (CompactFrame.table raw table) := by
      refine StackMapFrame.reads_table ?_ (CompactFrame.fits_tableOnto raw none
        fun r hmem => (hoffset r hmem).2) hbytes
      rwa [CompactFrame.length_table]
    refine ⟨some (CompactFrame.table raw table), named, recorded, points, ?_, hrelocate, ?_,
      hpoints, hrec⟩
    · rw [List.append_assoc, List.singleton_append]
      refine Verify.readAttribute_one has hbs hnamed ?_
      rw [ClassError.reading, hread.read]
      rfl
    · exact CompactFrame.ofTable_table hentry' hnames htable.sorted
        fun r hmem => Nat.le_of_lt (hoffset r hmem).1

variable {d : InstrList} {ns : List (Node × Nat)} {b : Analysis}
  (hr : Rechecked ctx s code l a' slots (roofOf w.frame? (g.behind? w) l.nodes.toList slots) d ns b)

include hr

/-- **Nothing is wrong with a frame that was stored.** -/
theorem Wrote.checkStored {i o : Nat} {f : Frame} {recorded : NamedFrame}
    (ho : e.offsets[i]? = some o) (hf : a'.frameAt? l.nodes i = some f)
    (hrecorded : f.compact.relocate (fun j => e.offsets[j]?) = .ok recorded) :
    let subject : Verify.Subject :=
      ⟨d, (ns.map Prod.snd).toArray, code.code.length, b, ctx.hierarchy⟩
    subject.checkStored subject.nodeTable o recorded = none := by
  intro subject
  have he := hw.encoding
  obtain ⟨hstart, hknown⟩ := hw.roof_of_frameAt hdoc hs ho hf
  rw [← map_fst_readings] at hstart
  have hinside : o < code.code.length := by
    obtain ⟨r, hmem, rfl⟩ := List.mem_map.mp hstart
    exact hr.decoded.read.inside r hmem
  obtain ⟨k, hk, hnext⟩ := hr.decoded.first_at hstart
  have hnode : subject.nodeTable[o]? = some k := by
    rw [subject.getElem?_nodeTable]
    exact hk
  unfold Verify.Subject.checkStored
  simp only [hnode]
  rw [if_pos hinside]
  cases hfound : subject.analysis.frameAt? subject.list.nodes k with
  | none => rfl
  | some f' =>
    obtain ⟨j, hj, hframe⟩ := Analysis.frameAt?_eq_some.mp hfound
    obtain ⟨n, hns⟩ := hnext j hj
    obtain ⟨above, habove, hunder⟩ := hr.frames hframe
    obtain rfl : above = f := by
      obtain ⟨n', o', hns', hroof⟩ := roofAt_eq_some.mp habove
      obtain ⟨-, rfl⟩ := Prod.mk.inj (Option.some.inj (hns.symm.trans hns'))
      exact Option.some.inj (hroof.symm.trans hknown)
    -- every instruction of the decoded list has an offset, so fresh objects have one
    obtain ⟨g', entry', w', hs'⟩ := Analysis.searched_of_analyze hr.analysis
    have hmade : f'.Made g'.program := hs'.made hh.lawful (hs'.frame?_eq_some hframe)
    have hoffset : ∀ i < g'.program.nodes.size, ∃ o, subject.offsets[i]? = some o := by
      intro i hi
      have hsize : i < (ns.map Prod.snd).length := by
        rw [hs'.program] at hi
        rw [List.length_map, ← List.length_map (f := Prod.fst), ← hr.decoded.nodes]
        exact hi
      exact ⟨_, List.getElem?_toArray.trans (List.getElem?_eq_getElem hsize)⟩
    obtain ⟨found, hplaced⟩ := hmade.exists_relocate hoffset
    have hsame : Verify.SameOffsets (siteAt ns (StandsAt l.nodes.toList slots))
        (fun j => subject.offsets[j]?) fun j => e.offsets[j]? := by
      rintro i j p p' ⟨⟨m, q⟩, hi, -, m', t, hj, -⟩ hp hp'
      simp only [subject, List.getElem?_toArray, List.getElem?_map, hi, Option.map_some,
        Option.some.injEq] at hp
      have hp'' := (he.offset_placed hj).symm.trans hp'
      exact hp.symm.trans (Option.some.inj hp'')
    have haccepts : Verify.checkFrame subject.hierarchy o found recorded = .ok () :=
      Verify.checkFrame_of_covers hh hsame hunder.covers hunder.closed hunder.sound.closed hplaced
        hrecorded o
    simp only [hplaced, haccepts]

/-- **Every frame that is needed was stored, and nothing is wrong with those that were.** -/
theorem Wrote.check_recorded
    (hpoints : framePoints l e ((keptEntries entries).map Prod.snd) = .ok points) {recorded : List (Nat × NamedFrame)} (hrec : RecordedAs l a' e points recorded) :
    Verify.Subject.check ⟨d, (ns.map Prod.snd).toArray, code.code.length, b, ctx.hierarchy⟩
      recorded = [] := by
  refine Verify.Subject.check_eq_nil _ (fun o ho => ?_) fun r hmem => ?_
  · have hframe : FrameAt e points o := by
      rcases hr.decoded.needs_cases ho with ⟨q, ins, hread, ht⟩ |
        ⟨xs, q, ins, ins', ys, hread, hfall⟩ | ⟨r, hmem, rfl⟩
      · exact hw.frameAt_goes hdoc hpoints hread ht
      · exact hw.frameAt_behind hdoc hpoints hread hfall
      · exact hw.frameAt_handler hdoc hpoints hmem
    obtain ⟨i, hi, hoffset⟩ := hframe
    obtain ⟨o', ho', hmem⟩ := hrec.needed i hi
    rwa [Option.some.inj (hoffset.symm.trans ho')]
  · obtain ⟨i, -, ho, f, hf, hrelocate⟩ := hrec.stored r hmem
    exact hw.checkStored hdoc hh hs hr ho hf hrelocate

end checked
end WriteContext
end ClassWeave
