import ClassWeave.Model.Read
import ClassWeave.Proofs.ClassCodec
import ClassWeave.Proofs.Writing

/-!
# Methods that are written and read back

The code of a method comes back with the instructions that its analysis reached, each with the lines
in front of it, and with the handlers of all ranges that still hold an instruction. Places in code
are told by the number of instructions in front of them, so that they can be compared.
-/

namespace ClassWeave

open Listing Code

/-! ## Where labels lead to -/

namespace Code

variable {links : Links} {count k o o' : Nat} {l : Label} {pairs : List (Node × Slot)}

/-- Without instructions no room is taken up. -/
theorem endFrom_of_marks (hsettled : Settled links pairs)
    (h : (pairs.map Prod.fst).any Node.isReal = false) : endFrom o (pairs.map Prod.snd) = o := by
  induction pairs generalizing o with
  | nil => rfl
  | cons p pairs ih =>
    obtain ⟨n, s⟩ := p
    have hn : n.Settled links s.piece := hsettled _ List.mem_cons_self
    rw [List.map_cons, List.any_cons, Bool.or_eq_false_iff] at h
    rw [List.map_cons, endFrom, width_mark hn h.1]
    exact ih (fun q hq => hsettled q (List.mem_cons_of_mem _ hq)) h.2

/-- A label stands in front of an instruction or at the end of the code. -/
theorem offset?_cases (hsettled : Settled links pairs)
    (hdoc : ∀ p ∈ pairs, ∀ i, p.1 = .instr i → i.Documented links.pool) (hl : l.id < count)
    (h : offset? l (spelledFrom count k o pairs) = some o') :
    o' ∈ (reals (spelledFrom count k o pairs)).map Prod.fst ∨
      o' = endFrom o (pairs.map Prod.snd) := by
  induction pairs generalizing k o with
  | nil => cases h
  | cons p pairs ih =>
    obtain ⟨n, s⟩ := p
    have hn : n.Settled links s.piece := hsettled _ List.mem_cons_self
    have hsettled' : Settled links pairs := fun q hq => hsettled q (List.mem_cons_of_mem _ hq)
    have hne : (⟨count + k⟩ : Label) ≠ l := by
      rintro rfl
      simp only at hl
      omega
    have hpositioned : Positioned (spelledFrom count k o ((n, s) :: pairs)) :=
      (positioned_spelledFrom hsettled hdoc k o).1
    rw [spelledFrom] at h hpositioned ⊢
    rw [offset?_append, offset?_spelledAt hn hne, Option.or_eq_some_iff] at h
    rcases h with h | ⟨-, h⟩
    · rw [reals_append, List.map_append, List.mem_append]
      rcases ih hsettled' (fun q hq => hdoc q (List.mem_cons_of_mem _ hq)) h with h | h
      · exact .inl (.inr h)
      · exact .inr h
    · split at h
      · rename_i hlabel
        subst hlabel
        obtain rfl := Option.some.inj h
        have hat : spelledAt ⟨count + k⟩ (.label l) s o = [(.label l, o)] := by
          rcases spelledAt_cases hn ⟨count + k⟩ o with ⟨_, _, h, -⟩ | ⟨-, h⟩
          · cases h
          · exact h
        have hwidth := width_mark hn rfl o
        rw [hat, List.singleton_append] at hpositioned ⊢
        cases hreal : (pairs.map Prod.fst).any Node.isReal with
        | true =>
          rw [← List.nil_append ((Node.label l, o) :: _)] at hpositioned ⊢
          exact .inl (mem_starts hpositioned rfl (reals_spelledFrom_ne_nil hsettled' hreal))
        | false =>
          rw [List.map_cons, endFrom, hwidth]
          exact .inr (endFrom_of_marks hsettled' hreal).symm
      · cases h

namespace Encoding

variable {range : JumpRange} {nodes : List Node} {e : Encoded} {slots : List Slot}
  (he : Encoding links range nodes count e slots)

include he

/-- The offset of a label is that of an instruction or the end of the code. -/
theorem labelOffset_eq_ok (hdoc : Documented links.pool nodes) (h : e.labelOffset l = .ok o) :
    offset? l (spelling nodes count slots) = some o ∧
      (o ∈ starts (spelling nodes count slots) ∨ o = endFrom 0 slots) := by
  have hoffset : (Layout.ofSlots count slots).offset? l = some o := by
    unfold Encoded.labelOffset at h
    rw [he.labels] at h
    split at h
    · rename_i o' ho
      rw [← Except.ok.inj h]
      exact ho
    · cases h
  have hsizes : ∀ (slots : List Slot) (lay : Layout),
      (slots.foldl Layout.place lay).labels.size = lay.labels.size := by
    intro slots
    induction slots with
    | nil => exact fun _ => rfl
    | cons s slots ih =>
      intro lay
      rw [List.foldl_cons, ih]
      unfold Layout.place
      split <;> simp
  have hsize : (Layout.ofSlots count slots).labels.size = count := by
    rw [Layout.ofSlots, hsizes, Layout.start, Array.size_replicate]
  have hl : l.id < count := by
    rw [← hsize]
    unfold Layout.offset? at hoffset
    have hcell := Option.join_eq_some_iff.mp hoffset
    exact (Array.getElem?_eq_some_iff.mp hcell).1
  have hsome : offset? l (spelling nodes count slots) = some o :=
    (he.offset?_eq hl).symm.trans hoffset
  refine ⟨hsome, ?_⟩
  have hcases := offset?_cases he.settled_zip hdoc.zip hl hsome
  rwa [he.map_snd] at hcases

end Encoding
end Code

/-! ## Blocks -/

/-- A block in terms of how many instructions stand in front of its labels. -/
structure Span where
  start : Option Nat
  stop : Option Nat
  handler : Option Nat
  catchType : Option String
deriving DecidableEq

/-- An instruction lies in the range of the block. -/
def Span.covers (b : Span) : Bool := b.start.getD 0 < b.stop.getD 0

/-- A block among some entries. -/
def TryBlock.span (nodes : List Node) (b : TryBlock) : Span :=
  ⟨place? b.start nodes, place? b.stop nodes, place? b.handler nodes, b.catchType⟩

namespace Listing

theorem countBelow_mono (starts : List Nat) {o o' : Nat} (h : o ≤ o') :
    countBelow starts o ≤ countBelow starts o' :=
  List.countP_mono_left fun x _ hx => by
    simp only [decide_eq_true_eq] at hx ⊢
    omega

theorem countBelow_lt {starts : List Nat} {o o' : Nat} (hmem : o ∈ starts) (h : o < o') :
    countBelow starts o < countBelow starts o' := by
  obtain ⟨xs, ys, rfl⟩ := List.append_of_mem hmem
  have hxs := countBelow_mono xs (Nat.le_of_lt h)
  have hys := countBelow_mono ys (Nat.le_of_lt h)
  unfold countBelow at hxs hys ⊢
  rw [List.countP_append, List.countP_append, List.countP_cons_of_neg (by simp),
    List.countP_cons_of_pos (by simpa using h)]
  omega

end Listing

namespace WriteContext

section blocks

variable {p : Pool} {e : Encoded} {blocks : List TryBlock} {b : TryBlock} {entry : HandlerEntry}
  {entries : List (Option HandlerEntry × Label)}

/-- The offsets of an entry are those of the labels of its block. -/
structure StoredAt (p : Pool) (e : Encoded) (b : TryBlock) (entry : HandlerEntry) : Prop where
  start : e.labelOffset b.start = .ok entry.start.toNat
  stop : e.labelOffset b.stop = .ok entry.stop.toNat
  handler : e.labelOffset b.handler = .ok entry.handler.toNat
  catchType : p.optionalClass entry.catchType = .ok b.catchType
  lt : entry.start.toNat < entry.stop.toNat

theorem HandlerAt.stored (hsmall : ∀ {l o}, e.labelOffset l = .ok o → o ≤ 65535)
    (h : HandlerAt p e b (some entry)) : StoredAt p e b entry := by
  obtain ⟨start, stop, hstart, hstop, ⟨-, h⟩ | ⟨hlt, handler, i, hhandler, hcatch, h⟩⟩ := h
  · cases h
  · obtain rfl := Option.some.inj h
    refine ⟨?_, ?_, ?_, hcatch, ?_⟩
    · rwa [Reader.toNat_ofNat_u16 (hsmall hstart)]
    · rwa [Reader.toNat_ofNat_u16 (hsmall hstop)]
    · rwa [Reader.toNat_ofNat_u16 (hsmall hhandler)]
    · rwa [Reader.toNat_ofNat_u16 (hsmall hstart), Reader.toNat_ofNat_u16 (hsmall hstop)]

theorem HandlerAt.dropped (h : HandlerAt p e b none) : ∃ start stop,
    e.labelOffset b.start = .ok start ∧ e.labelOffset b.stop = .ok stop ∧ stop ≤ start := by
  obtain ⟨start, stop, hstart, hstop, ⟨hle, -⟩ | ⟨-, handler, i, -, -, h⟩⟩ := h
  · exact ⟨start, stop, hstart, hstop, hle⟩
  · cases h

/-- An entry that is stored comes from a block. -/
theorem exists_storedAt (hsmall : ∀ {l o}, e.labelOffset l = .ok o → o ≤ 65535)
    (hblocks : List.Forall₂ (BlockAt p e) blocks entries) {r : HandlerEntry × Label}
    (hr : r ∈ keptEntries entries) : ∃ b ∈ blocks, StoredAt p e b r.1 ∧ r.2 = b.handler := by
  obtain ⟨⟨stored, handler⟩, hmem, heq⟩ := List.mem_filterMap.mp hr
  obtain ⟨entry, rfl, hentry⟩ := Option.map_eq_some_iff.mp heq
  obtain ⟨b, hb, hat, hhandler⟩ := exists_of_forall₂ hblocks.flip hmem
  subst hentry
  exact ⟨b, hb, hat.stored hsmall, hhandler⟩

/-- Blocks are read back from their entries, where none is stored for a range without an
instruction. -/
theorem spans_of_entries {f : HandlerEntry → ClassResult TryBlock} {ns ns' : List Node}
    (hall : List.Forall₂ (fun b r => (b.span ns).covers = false ∧ r.1 = none ∨
      (b.span ns).covers = true ∧ ∃ entry b', r.1 = some entry ∧ f entry = .ok b' ∧
        b'.span ns' = b.span ns) blocks entries) :
    ∃ bs, ((keptEntries entries).map Prod.fst).mapM f = .ok bs ∧
      bs.map (TryBlock.span ns') = (blocks.map (TryBlock.span ns)).filter Span.covers := by
  induction hall with
  | nil => exact ⟨[], rfl, rfl⟩
  | @cons b r blocks entries hb _ ih =>
    obtain ⟨bs, hbs, hspans⟩ := ih
    obtain ⟨stored, handler⟩ := r
    rcases hb with ⟨hcovers, rfl⟩ | ⟨hcovers, entry, b', rfl, hb', hspan⟩
    · refine ⟨bs, hbs, ?_⟩
      rw [List.map_cons, List.filter_cons_of_neg (by simp [hcovers]), hspans]
    · refine ⟨b' :: bs, ?_, ?_⟩
      · exact mapM_eq_ok.mpr (.cons hb' (mapM_eq_ok.mp hbs))
      · rw [List.map_cons, List.map_cons, List.filter_cons_of_pos hcovers, hspans, hspan]

end blocks

section code

variable {s : Links} {e : Encoded} {nodes : List Node} {count : Nat} {slots : List Code.Slot}
  (he : Encoding s .short nodes count e slots) (hdoc : Documented s.pool nodes)

include he hdoc

theorem labelOffset_le {l : Label} {o : Nat} (h : e.labelOffset l = .ok o) : o ≤ 65535 := by
  have hlength := he.length
  rcases (he.labelOffset_eq_ok hdoc h).2 with hmem | rfl
  · have := he.starts_lt hdoc hmem
    omega
  · exact hlength

/-- Of two places in code the one with the smaller offset has fewer instructions in front of it. -/
theorem covers_iff {b : TryBlock} {start stop : Nat} (hstart : e.labelOffset b.start = .ok start)
    (hstop : e.labelOffset b.stop = .ok stop) :
    (b.span ((spelling nodes count slots).map Prod.fst)).covers = true ↔ start < stop := by
  obtain ⟨ho, hcase⟩ := he.labelOffset_eq_ok hdoc hstart
  obtain ⟨ho', hcase'⟩ := he.labelOffset_eq_ok hdoc hstop
  have hpositioned := he.positioned hdoc
  simp only [Span.covers, TryBlock.span, place?_eq hpositioned, ho, ho', Option.map_some,
    Option.getD_some, decide_eq_true_eq]
  constructor
  · intro hlt
    by_contra hle
    have := countBelow_mono ((reals (spelling nodes count slots)).map Prod.fst)
      (Nat.le_of_not_lt hle)
    omega
  · intro hlt
    refine countBelow_lt ?_ hlt
    rcases hcase with hmem | rfl
    · exact hmem
    · -- nothing lies behind the end of the code
      rcases hcase' with hmem | rfl
      · have := he.starts_lt hdoc hmem
        omega
      · omega

/-- The blocks of some code are read back from what is stored for them. -/
theorem blocks_of_entries (hclosed : Closed nodes e.wideFallthroughs)
    {blocks : List TryBlock} {entries : List (Option HandlerEntry × Label)}
    (hblocks : List.Forall₂ (BlockAt s.pool e) blocks entries) (lines : List LineEntry) :
    (∀ h ∈ (keptEntries entries).map Prod.fst, ∀ o ∈ handlerOffsets h,
      o ∈ starts (spelling nodes count slots) ∨ o = endFrom 0 slots) ∧
    ∃ bs, ((keptEntries entries).map Prod.fst).mapM (tryBlock s.context (labelTable (labelOffsets
        (readings (spelling nodes count slots)) ((keptEntries entries).map Prod.fst)))) = .ok bs ∧
      bs.map (TryBlock.span ((decodedEntries (endFrom 0 slots)
          (readings (spelling nodes count slots)) ((keptEntries entries).map Prod.fst)
            lines).map Prod.fst)) =
        (blocks.map (TryBlock.span ((spelling nodes count slots).map Prod.fst))).filter
          Span.covers := by
  have hkept : ∀ h ∈ (keptEntries entries).map Prod.fst, ∃ b, StoredAt s.pool e b h := by
    intro h hh
    obtain ⟨r, hr, rfl⟩ := List.mem_map.mp hh
    obtain ⟨b, -, hb, -⟩ := exists_storedAt (labelOffset_le he hdoc) hblocks hr
    exact ⟨b, hb⟩
  have hhandlers : ∀ h ∈ (keptEntries entries).map Prod.fst, ∀ o ∈ handlerOffsets h,
      o ∈ starts (spelling nodes count slots) ∨ o = endFrom 0 slots := by
    intro h hh o ho
    obtain ⟨b, hb⟩ := hkept h hh
    simp only [handlerOffsets, List.mem_cons, List.not_mem_nil, or_false] at ho
    rcases ho with rfl | rfl | rfl
    · exact (he.labelOffset_eq_ok hdoc hb.start).2
    · exact (he.labelOffset_eq_ok hdoc hb.stop).2
    · exact (he.labelOffset_eq_ok hdoc hb.handler).2
  refine ⟨hhandlers, spans_of_entries (List.forall₂_iff_zip.mpr ⟨hblocks.length_eq, ?_⟩)⟩
  have hread := he.wellRead hdoc hclosed (fun _ h => h) hhandlers
  rw [(he.scanned hdoc hclosed fun _ h => h).1] at hread
  -- the label of an offset stands behind as many instructions as the label it was made from
  have hplace : ∀ {h : HandlerEntry} {l : Label} {o : Nat},
      h ∈ (keptEntries entries).map Prod.fst → o ∈ handlerOffsets h → e.labelOffset l = .ok o →
      place? (labelOf (labelTable (labelOffsets (readings (spelling nodes count slots))
        ((keptEntries entries).map Prod.fst))) o) ((decodedEntries (endFrom 0 slots)
          (readings (spelling nodes count slots)) ((keptEntries entries).map Prod.fst)
            lines).map Prod.fst) =
        place? l ((spelling nodes count slots).map Prod.fst) := by
    intro h l o hh ho hl
    rw [place?_decodedEntries hread (mem_labelOffsets.mpr (.inr ⟨h, hh, ho⟩)),
      place?_eq (he.positioned hdoc), (he.labelOffset_eq_ok hdoc hl).1, map_fst_readings]
    rfl
  intro b r hbr
  obtain ⟨hb, -⟩ := (List.forall₂_iff_zip.mp hblocks).2 hbr
  obtain ⟨stored, handler⟩ := r
  cases stored with
  | none =>
    obtain ⟨start, stop, hstart, hstop, hle⟩ := hb.dropped
    refine .inl ⟨?_, rfl⟩
    rw [← Bool.not_eq_true, covers_iff he hdoc hstart hstop]
    omega
  | some entry =>
    have hstored := hb.stored (labelOffset_le he hdoc)
    have hmem : entry ∈ (keptEntries entries).map Prod.fst :=
      List.mem_map.mpr ⟨(entry, handler), List.mem_filterMap.mpr
        ⟨(some entry, handler), (List.of_mem_zip hbr).2, rfl⟩, rfl⟩
    refine .inr ⟨(covers_iff he hdoc hstored.start hstored.stop).mpr hstored.lt, entry, _, rfl,
      bind_eq_ok.mpr ⟨b.catchType, hstored.catchType, rfl⟩, ?_⟩
    have hin : ∀ {o}, o ∈ [entry.start.toNat, entry.stop.toNat, entry.handler.toNat] →
        o ∈ handlerOffsets entry := fun h => h
    rw [TryBlock.span, TryBlock.span, hplace hmem (hin (by simp)) hstored.start,
      hplace hmem (hin (by simp)) hstored.stop, hplace hmem (hin (by simp)) hstored.handler]

end code
end WriteContext

/-! ## Lines -/

/-- The entry is a line. -/
def Node.isLine : Node → Bool
  | line _ => true
  | _ => false

namespace Code

variable {links : Links} {nodes : List Node} {slots : List Slot} {o : Nat}

theorem sorted_offsetsFrom (o : Nat) (slots : List Slot) :
    (offsetsFrom o slots).Pairwise (· ≤ ·) ∧ ∀ o' ∈ offsetsFrom o slots, o ≤ o' := by
  induction slots generalizing o with
  | nil => exact ⟨.nil, fun _ h => absurd h List.not_mem_nil⟩
  | cons s slots ih =>
    obtain ⟨hsorted, hle⟩ := ih (o + s.width o)
    have hle' : ∀ o' ∈ offsetsFrom (o + s.width o) slots, o ≤ o' := fun o' ho' =>
      Nat.le_trans (Nat.le_add_right _ _) (hle o' ho')
    refine ⟨List.pairwise_cons.mpr ⟨hle', hsorted⟩, fun o' ho' => ?_⟩
    rcases List.mem_cons.mp ho' with rfl | ho'
    · exact Nat.le_refl _
    · exact hle' o' ho'

theorem offsetsFrom_le (o : Nat) (slots : List Slot) :
    ∀ o' ∈ offsetsFrom o slots, o' ≤ endFrom o slots := by
  induction slots generalizing o with
  | nil => exact fun _ h => absurd h List.not_mem_nil
  | cons s slots ih =>
    intro o' ho'
    rcases List.mem_cons.mp ho' with rfl | ho'
    · exact le_endFrom o' (s :: slots)
    · exact ih _ o' ho'

/-- Every line that is stored comes from an entry. -/
theorem length_lines_le (h : List.Forall₂ (fun n s => n.Settled links s.piece) nodes slots) :
    ((slots.zip (offsetsFrom o slots)).filterMap fun (s, o) => lineAt s o).length ≤
      nodes.countP Node.isLine := by
  induction h generalizing o with
  | nil => exact Nat.le_refl 0
  | @cons n s nodes slots hn _ ih =>
    have hrest := ih (o := o + s.width o)
    rw [offsetsFrom, List.zip_cons_cons, List.filterMap_cons, List.countP_cons]
    cases n with
    | line =>
      simp only [lineAt_of_settled hn o]
      exact Nat.succ_le_succ hrest
    | label | instr =>
      simp only [lineAt_of_settled hn o]
      exact hrest

theorem start_of_lineAt {s : Slot} {b : LineEntry} (h : lineAt s o = some b) :
    b.start = UInt16.ofNat o := by
  unfold lineAt at h
  split at h
  · rw [← Option.some.inj h]
  · cases h

/-- Lines are stored in the order of the code, so sorting them changes nothing. -/
theorem Encoding.sorted_lines {range : JumpRange} {count : Nat} {e : Encoded}
    (he : Encoding links range nodes count e slots) :
    e.lines.mergeSort (fun a b => a.start ≤ b.start) = e.lines := by
  refine List.mergeSort_of_pairwise ?_
  rw [he.lines, List.pairwise_filterMap]
  have hzip : (slots.zip (offsetsFrom 0 slots)).Pairwise fun p q => p.2 ≤ q.2 := by
    have hsorted := (sorted_offsetsFrom 0 slots).1
    rw [← List.map_snd_zip (Nat.le_of_eq (length_offsetsFrom 0 slots)), List.pairwise_map] at hsorted
    exact hsorted
  refine (List.Pairwise.and_mem.mp hzip).imp ?_
  rintro ⟨s, o⟩ ⟨s', o'⟩ ⟨hs, hs', hle⟩ b hb b' hb'
  have hsmall : ∀ {q : Slot × Nat}, q ∈ slots.zip (offsetsFrom 0 slots) → q.2 ≤ 65535 := fun hq =>
    Nat.le_trans (offsetsFrom_le 0 slots _ (List.of_mem_zip hq).2) he.length
  rw [decide_eq_true_eq, start_of_lineAt hb, start_of_lineAt hb', UInt16.le_iff_toNat_le,
    Reader.toNat_ofNat_u16 (hsmall hs), Reader.toNat_ofNat_u16 (hsmall hs')]
  exact hle

end Code

/-! ## The code of a method -/

namespace MethodBody

/-- The lists of some code are short enough to be stored. Lines and frames take two attributes. -/
structure Fits (b : MethodBody) : Prop where
  blocks : b.list.blocks.length ≤ 65535
  lines : b.list.nodes.toList.countP Node.isLine ≤ 65535
  attributes : b.attributes.length + 2 ≤ 65535

/-- The code comes in the forms that it is decoded to, and its attributes do not depend on its
layout. -/
structure Plain (p : Pool) (b : MethodBody) : Prop where
  documented : Documented p b.list.nodes.toList
  attributes : ∀ a ∈ b.attributes, ∃ name, a.Named p name ∧ name ∉ layoutAttributes

/-- The entries that an analysis reached, as they are written down when the jumps in front of some
of them become wide. -/
def written (b : MethodBody) (a : Analysis) (behind : List Nat) : List Node :=
  spellOut behind b.list.labelCount (a.live b.list)

/-- Some code is what is left of other code: what an analysis reached. -/
structure Keeps (b : MethodBody) (a : Analysis) (behind : List Nat) (b' : MethodBody) : Prop where
  /-- What becomes wide in another form are conditional jumps. -/
  jumps : ∀ i ∈ behind, ∃ k op t, i = k + 1 ∧
    (a.live b.list)[k]? = some (.instr (.jump op t)) ∧ (Opcode.invertJump? op).isSome
  program : program b'.list.nodes.toList = program (b.written a behind)
  blocks : b'.list.blocks.map (TryBlock.span b'.list.nodes.toList) =
    (b.list.blocks.map (TryBlock.span (b.written a behind))).filter Span.covers
  attributes : b'.attributes = b.attributes

theorem sortAttributesOnto_append {p : Pool} {lines : List LineEntry} {kept rest : List Attribute}
    {as : List Attribute}
    (h : ∀ a ∈ as, ∃ name, a.Named p name ∧ name ∉ layoutAttributes) :
    sortAttributesOnto p lines kept (as ++ rest) =
      sortAttributesOnto p lines (as.reverse ++ kept) rest := by
  induction as generalizing kept with
  | nil => rfl
  | cons a as ih =>
    obtain ⟨name, hname, hnot⟩ := h a List.mem_cons_self
    have hne : name ≠ LineEntry.tableName := by
      rintro rfl
      exact hnot (by decide)
    rw [List.cons_append, sortAttributesOnto, show p.utf8 a.name = .ok name from hname]
    show (if name = _ then _ else if name ∈ layoutAttributes then _ else _) = _
    rw [if_neg hne, if_neg hnot, ih fun b hb => h b (List.mem_cons_of_mem _ hb),
      List.reverse_cons, List.append_assoc]
    rfl

end MethodBody
end ClassWeave
