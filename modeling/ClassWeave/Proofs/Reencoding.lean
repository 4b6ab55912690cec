import ClassWeave.Proofs.LineNumbers
import ClassWeave.Proofs.MethodRoundTrip
import ClassWeave.Proofs.Recoding
import ClassWeave.Proofs.RelabelledLayouts

/-!
# Encoding what was read back

A list that is encoded without detours and decoded again is encoded to the same code: it has the
same instructions, and its labels lead to the same ones as before. So its instructions ask for the
same constants, every entry gets the offset that it was read at, and lines that have an instruction
behind them keep it.
-/

namespace ClassWeave

variable {α : Type}

/-- Two lists in the order of their keys are equal if they have the same elements for each key, in
the same order. -/
theorem eq_of_filter_eq (key : α → Nat) {as bs : List α}
    (has : as.Pairwise fun x y => key x ≤ key y) (hbs : bs.Pairwise fun x y => key x ≤ key y)
    (h : ∀ k, as.filter (key · = k) = bs.filter (key · = k)) : as = bs := by
  induction as generalizing bs with
  | nil =>
    cases bs with
    | nil => rfl
    | cons b bs => simpa using h (key b)
  | cons a as ih =>
    cases bs with
    | nil => simpa using h (key a)
    | cons b bs =>
      obtain ⟨ha, has⟩ := List.pairwise_cons.mp has
      obtain ⟨hb, hrest⟩ := List.pairwise_cons.mp hbs
      have hmem : ∀ {x : α} {xs ys : List α}, xs.filter (key · = key x) = ys.filter (key · = key x) →
          x ∈ xs → x ∈ ys := fun h hx =>
        (List.mem_filter.mp (h ▸ List.mem_filter.mpr ⟨hx, by simp⟩)).1
      have hle : key b ≤ key a := by
        rcases List.mem_cons.mp (hmem (h (key a)) List.mem_cons_self) with rfl | hin
        · exact Nat.le_refl _
        · exact hb a hin
      have hge : key a ≤ key b := by
        rcases List.mem_cons.mp (hmem (h (key b)).symm List.mem_cons_self) with rfl | hin
        · exact Nat.le_refl _
        · exact ha b hin
      have hkey : key b = key a := Nat.le_antisymm hle hge
      have hhead := h (key a)
      simp only [List.filter_cons, hkey, decide_true, if_true] at hhead
      obtain rfl := (List.cons.inj hhead).1
      refine congrArg _ (ih has hrest fun k => ?_)
      have hk := h k
      rw [List.filter_cons, List.filter_cons] at hk
      split at hk
      · exact (List.cons.inj hk).2
      · exact hk

namespace Code

open Listing

variable {ρ : Label → Label} {s t : Links} {piece : Piece} {pieces : List Piece}
  {instrs : List (Instr Label)} {nodes : List Node}

/-! ## The same constants -/

theorem sorted_pairs {τ : Type} (ps : List (Int32 × τ)) :
    (ps.mergeSort fun a b => a.1 ≤ b.1).Pairwise fun a b => decide (a.1 ≤ b.1) = true :=
  List.pairwise_mergeSort (fun a b c hab hbc => by simp at *; exact Int32.le_trans hab hbc)
    (fun a b => by simpa using Int32.le_total a.1 b.1) ps

theorem ascending_ascending {τ : Type} (i : Instr τ) : i.ascending.ascending = i.ascending := by
  cases i with
  | lookupSwitch d ps =>
    exact congrArg (Instr.lookupSwitch d) (List.mergeSort_of_pairwise (sorted_pairs ps))
  | _ => rfl

/-- An instruction asks for the same constants whatever its labels are. -/
theorem run_ofInstr_map {i : Instr Label} (h : (Piece.ofInstr i).run.run s = (.ok piece, t)) :
    (Piece.ofInstr (i.ascending.map ρ)).run.run s = (.ok (piece.map ρ), t) := by
  have hstands : Piece.Stands (.instr i) piece :=
    (Piece.fulfils_ofInstr (E := fun _ => False) i s).ok (congrArg Prod.fst h)
  cases hstands with
  | jump op l =>
    obtain ⟨-, rfl⟩ := Growing.run_pure.mp h
    rfl
  | tableSwitch low high d ls =>
    simp only [Piece.ofInstr, Instr.ascending, Instr.map, List.length_map] at h ⊢
    split at h
    · rename_i hrange
      obtain ⟨-, rfl⟩ := Growing.run_pure.mp h
      rw [if_pos hrange]
      rfl
    · exact absurd h Growing.run_throw
  | lookupSwitch d ps =>
    obtain ⟨-, rfl⟩ := Growing.run_pure.mp h
    have hps : ((ps.mergeSort fun a b => a.1 ≤ b.1).map fun p => (p.1, ρ p.2)).mergeSort
        (fun a b => a.1 ≤ b.1) = (ps.mergeSort fun a b => a.1 ≤ b.1).map fun p => (p.1, ρ p.2) :=
      List.mergeSort_of_pairwise (List.pairwise_map.mpr (sorted_pairs ps))
    simp only [Piece.ofInstr, Instr.ascending, Instr.map, Piece.map, hps]
    rfl
  | bytes htargets bs =>
    have hsame : i.ascending.map ρ = i := by
      cases i with
      | jump | tableSwitch | lookupSwitch => cases htargets
      | _ => rfl
    rw [hsame]
    exact h

theorem run_mapM_map {α β γ : Type} {f : α → Linking β} {f' : γ → Linking β} {g : α → γ}
    {g' : β → β} (hf : ∀ {a b s t}, (f a).run.run s = (.ok b, t) →
      (f' (g a)).run.run s = (.ok (g' b), t)) {as : List α} {bs : List β}
    (h : (as.mapM f).run.run s = (.ok bs, t)) :
    ((as.map g).mapM f').run.run s = (.ok (bs.map g'), t) := by
  induction as generalizing s bs with
  | nil =>
    rw [List.mapM_nil] at h
    obtain ⟨rfl, rfl⟩ := Growing.run_pure.mp h
    rfl
  | cons a as ih =>
    rw [List.mapM_cons] at h
    obtain ⟨b, u, hb, h⟩ := Growing.run_bind.mp h
    obtain ⟨bs, v, hbs, h⟩ := Growing.run_bind.mp h
    obtain ⟨rfl, rfl⟩ := Growing.run_pure.mp h
    rw [List.map_cons, List.mapM_cons]
    exact Growing.run_bind.mpr ⟨_, u, hf hb, Growing.run_bind.mpr ⟨_, v, ih hbs, rfl⟩⟩

/-- Marks ask for nothing. -/
theorem run_instrsOf (h : (nodes.mapM Piece.ofNode).run.run s = (.ok pieces, t)) :
    ((instrsOf nodes).mapM Piece.ofInstr).run.run s =
      (.ok (pieces.filter fun p => !p.isMark), t) := by
  induction nodes generalizing s pieces with
  | nil =>
    rw [List.mapM_nil] at h
    obtain ⟨rfl, rfl⟩ := Growing.run_pure.mp h
    rfl
  | cons n nodes ih =>
    rw [List.mapM_cons] at h
    obtain ⟨piece, u, hpiece, h⟩ := Growing.run_bind.mp h
    obtain ⟨pieces, v, hpieces, h⟩ := Growing.run_bind.mp h
    obtain ⟨rfl, rfl⟩ := Growing.run_pure.mp h
    have hmark := isMark_of_stands
      ((Piece.fulfils_ofNode (E := fun _ => False) n s).ok (congrArg Prod.fst hpiece))
    cases n with
    | label | line =>
      obtain ⟨rfl, rfl⟩ := Growing.run_pure.mp hpiece
      rw [List.filter_cons_of_neg (by simp [Piece.isMark])]
      exact ih hpieces
    | instr i =>
      rw [List.filter_cons_of_pos (by simp [hmark, Node.isReal])]
      show ((i :: instrsOf nodes).mapM Piece.ofInstr).run.run s = _
      rw [List.mapM_cons]
      exact Growing.run_bind.mpr ⟨piece, u, hpiece, Growing.run_bind.mpr ⟨_, v, ih hpieces, rfl⟩⟩

/-- Among other marks, the instructions of a list give the same pieces. -/
theorem exists_run_nodes (h : ((instrsOf nodes).mapM Piece.ofInstr).run.run s = (.ok pieces, t)) :
    ∃ pieces', (nodes.mapM Piece.ofNode).run.run s = (.ok pieces', t) ∧
      pieces'.filter (fun p => !p.isMark) = pieces := by
  induction nodes generalizing s pieces with
  | nil =>
    obtain ⟨rfl, rfl⟩ := Growing.run_pure.mp h
    exact ⟨[], rfl, rfl⟩
  | cons n nodes ih =>
    have hcons : ∀ {piece : Piece} {u : Links} {pieces' : List Piece},
        (Piece.ofNode n).run.run s = (.ok piece, u) →
        (nodes.mapM Piece.ofNode).run.run u = (.ok pieces', t) →
          ((n :: nodes).mapM Piece.ofNode).run.run s = (.ok (piece :: pieces'), t) := by
      intro piece u pieces' hpiece hpieces
      rw [List.mapM_cons]
      exact Growing.run_bind.mpr ⟨piece, u, hpiece, Growing.run_bind.mpr ⟨pieces', t, hpieces, rfl⟩⟩
    cases n with
    | label | line =>
      obtain ⟨pieces', hpieces', hfilter⟩ := ih h
      exact ⟨_, hcons rfl hpieces', hfilter⟩
    | instr i =>
      have h : ((i :: instrsOf nodes).mapM Piece.ofInstr).run.run s = (.ok pieces, t) := h
      rw [List.mapM_cons] at h
      obtain ⟨piece, u, hpiece, h⟩ := Growing.run_bind.mp h
      obtain ⟨rest, v, hrest, h⟩ := Growing.run_bind.mp h
      obtain ⟨rfl, rfl⟩ := Growing.run_pure.mp h
      obtain ⟨pieces', hpieces', rfl⟩ := ih hrest
      have hmark := isMark_of_stands
        ((Piece.fulfils_ofInstr (E := fun _ => False) i s).ok (congrArg Prod.fst hpiece))
      refine ⟨piece :: pieces', hcons hpiece hpieces', ?_⟩
      rw [List.filter_cons_of_pos (by simp [hmark, Node.isReal])]

/-! ## The same instructions -/

section instrs

variable {ns : List (Node × Nat)}

theorem instrsOf_map_fst (ns : List (Node × Nat)) :
    instrsOf (ns.map Prod.fst) = (reals ns).map Prod.snd := by
  induction ns with
  | nil => rfl
  | cons b ns ih =>
    obtain ⟨n, o⟩ := b
    cases n with
    | instr i => exact congrArg (i :: ·) ih
    | label | line => exact ih

theorem instrsOf_ascending (nodes : List Node) :
    instrsOf (nodes.map Node.ascending) = (instrsOf nodes).map Instr.ascending := by
  induction nodes with
  | nil => rfl
  | cons n nodes ih =>
    cases n with
    | instr i => exact congrArg (i.ascending :: ·) ih
    | label | line => exact ih

theorem place?_ascending (l : Label) (nodes : List Node) :
    place? l (nodes.map Node.ascending) = place? l nodes := by
  induction nodes with
  | nil => rfl
  | cons n nodes ih =>
    rw [List.map_cons, place?, place?, ih, isReal_ascending]
    cases n <;> rfl

theorem mem_instrsOf {i : Instr Label} : i ∈ instrsOf nodes ↔ .instr i ∈ nodes := by
  induction nodes with
  | nil => simp [instrsOf]
  | cons n nodes ih =>
    cases n with
    | instr j =>
      show i ∈ j :: instrsOf nodes ↔ _
      simp [ih]
    | label | line => simp [← ih, instrsOf]

theorem solid_narrowSlots (pieces : List Piece) :
    solid (narrowSlots pieces) = narrowSlots (pieces.filter fun p => !p.isMark) := by
  rw [solid, narrowSlots, List.filter_map]
  rfl

theorem map_narrowSlots (ρ : Label → Label) (pieces : List Piece) :
    (narrowSlots pieces).map (Slot.map ρ) = narrowSlots (pieces.map (Piece.map ρ)) := by
  rw [narrowSlots, narrowSlots, List.map_map, List.map_map]
  rfl

/-- The labels of a piece are those of its entry. -/
theorem targets_of_stands {n : Node} {l : Label} (h : Piece.Stands n piece) :
    l ∈ piece.targets ↔ l ∈ n.targets := by
  cases h with
  | bytes htargets => simp [Piece.targets, Node.targets, htargets]
  | lookupSwitch d ps =>
    simp [Piece.targets, Node.targets, Instr.targets, List.mem_mergeSort]
  | _ => rfl

end instrs

/-! ## Without detours -/

section narrow

variable {count : Nat} {e : Encoded} {slots : List Slot} {range : JumpRange}

theorem wideFallthroughs_eq_nil (he : e.wideFallthroughs = slots.zipIdx.filterMap fun (s, i) =>
    if isWideCondition s then some (i + 1) else none) :
    e.wideFallthroughs = [] ↔ ∀ s ∈ solid slots, isWideCondition s = false := by
  rw [he, List.filterMap_eq_nil_iff]
  constructor
  · intro h s hs
    obtain ⟨i, hi⟩ := List.mem_iff_getElem?.mp (List.mem_of_mem_filter hs)
    simpa using h (s, i) (List.mem_zipIdx_iff_getElem?.mpr hi)
  · rintro h ⟨s, i⟩ hs
    have hmem : s ∈ slots := List.mem_of_getElem? (List.mem_zipIdx_iff_getElem?.mp hs)
    cases hmark : s.piece.isMark with
    | false => simp [h s (List.mem_filter.mpr ⟨hmem, by simp [hmark]⟩)]
    | true =>
      obtain ⟨piece, wide⟩ := s
      cases piece <;> first | rfl | cases hmark

/-- Without detours the instructions start where their pieces start. -/
theorem Encoding.starts_of_narrow (he : Encoding s range nodes count e slots)
    (hnarrow : e.wideFallthroughs = []) :
    starts (spelling nodes count slots) = offsetsFrom 0 (solid slots) := by
  have general : ∀ (pairs : List (Node × Slot)) (k o : Nat), Settled s pairs →
      (∀ p ∈ pairs, isWideCondition p.2 = false) →
      starts (spelledFrom count k o pairs) = offsetsFrom o (solid (pairs.map Prod.snd)) := by
    intro pairs
    induction pairs with
    | nil => exact fun _ _ _ _ => rfl
    | cons p pairs ih =>
      intro k o hsettled hwide
      obtain ⟨n, slot⟩ := p
      have hn : n.Settled s slot.piece := hsettled _ List.mem_cons_self
      have hrest := ih (k + 1) (o + slot.width o)
        (fun q hq => hsettled q (List.mem_cons_of_mem _ hq))
        (fun q hq => hwide q (List.mem_cons_of_mem _ hq))
      have hslot : isWideCondition slot = false := hwide _ List.mem_cons_self
      have hat : spelledAt ⟨count + k⟩ n slot o = [(n.ascending, o)] := by
        rw [spelledAt, if_neg (by simp [hslot])]
      rw [starts] at hrest ⊢
      rw [spelledFrom, hat, reals_append, List.map_append, hrest, List.map_cons, solid_cons]
      cases n with
      | label l =>
        have hpiece : slot.piece = .label l := hn
        have hmark : slot.piece.isMark := by rw [hpiece]; rfl
        rw [if_pos hmark, width_of_isMark hmark]
        rfl
      | line m =>
        have hpiece : slot.piece = .line m := hn
        have hmark : slot.piece.isMark := by rw [hpiece]; rfl
        rw [if_pos hmark, width_of_isMark hmark]
        rfl
      | instr i =>
        have hmark : slot.piece.isMark = false := by
          obtain ⟨piece, wide⟩ := slot
          cases Instr.Settled.shape hn <;> rfl
        rw [if_neg (by simp [hmark])]
        rfl
  rw [spelling, general _ 0 0 he.settled_zip (he.isWideCondition_of_narrow hnarrow), he.map_snd]

end narrow

/-! ## The same lines -/

section lines

variable {count : Nat} {e : Encoded} {slots : List Slot} {range : JumpRange}
  {lines : List LineEntry} {o : Nat}

/-- A line entry is told from its offset and its number. -/
theorem filter_lines (lines : List LineEntry) (o : Nat) :
    lines.filter (·.start.toNat = o) =
      ((lines.filter (·.start.toNat = o)).map LineEntry.line).map fun n => ⟨.ofNat o, n⟩ := by
  rw [List.map_map]
  refine ((List.map_congr_left fun l hl => ?_).trans (List.map_id _)).symm
  obtain ⟨-, rfl⟩ := List.mem_filter.mp hl |>.imp_right of_decide_eq_true
  rw [Function.comp_apply, UInt16.ofNat_toNat]
  rfl

theorem Encoding.pairwise_lines (he : Encoding s range nodes count e slots) :
    e.lines.Pairwise fun a b => a.start.toNat ≤ b.start.toNat := by
  rw [← he.sorted_lines]
  have hsorted : (e.lines.mergeSort fun a b => a.start ≤ b.start).Pairwise
      fun a b => decide (a.start ≤ b.start) = true :=
    List.pairwise_mergeSort (fun a b c hab hbc => by simp at *; exact UInt16.le_trans hab hbc)
      (fun a b => by simpa using UInt16.le_total a.start b.start) _
  exact hsorted.imp fun h => UInt16.le_iff_toNat_le.mp (of_decide_eq_true h)

/-- A line with an instruction behind it has the offset of that instruction. -/
theorem Encoding.start_mem_starts (he : Encoding s range nodes count e slots)
    (hdoc : Documented s.pool nodes) (hnarrow : e.wideFallthroughs = [])
    (hlines : ¬ TrailingLine nodes) {l : LineEntry} (hl : l ∈ e.lines) :
    l.start.toNat ∈ starts (spelling nodes count slots) := by
  have hat : l.line ∈ linesAt (spelling nodes count slots) l.start.toNat := by
    rw [he.linesAt_spelling]
    exact List.mem_map_of_mem (List.mem_filter.mpr ⟨hl, by simp⟩)
  obtain ⟨⟨n, o⟩, hb, hn⟩ := List.mem_filterMap.mp hat
  cases n with
  | instr | label => cases hn
  | line m =>
    simp only [Option.ite_none_right_eq_some, Option.some.injEq] at hn
    obtain ⟨rfl, rfl⟩ := hn
    obtain ⟨as, bs, hsplit⟩ := List.append_of_mem hb
    have hpositioned := he.positioned hdoc
    have hnodes := he.map_fst_of_narrow hnarrow
    rw [starts]
    rw [hsplit] at hpositioned hnodes ⊢
    refine mem_starts hpositioned rfl fun hnone => hlines ?_
    rw [List.map_append, List.map_cons] at hnodes
    obtain ⟨before, rest, rfl, -, hrest⟩ := List.map_eq_append_iff.mp hnodes.symm
    obtain ⟨n, after, rfl, hn, hafter⟩ := List.map_eq_cons_iff.mp hrest
    obtain rfl : n = .line l.line := by
      cases n with
      | line => exact hn
      | _ => cases hn
    refine ⟨before, l.line, after, rfl, ?_⟩
    rw [Bool.eq_false_iff]
    intro hany
    obtain ⟨n, hmem, hreal⟩ := List.any_eq_true.mp hany
    have hinstrs := instrsOf_map_fst bs
    rw [hnone, ← hafter, instrsOf_ascending, List.map_nil, List.map_eq_nil_iff] at hinstrs
    cases n with
    | label | line => cases hreal
    | instr i =>
      have := mem_instrsOf.mpr hmem
      rw [hinstrs] at this
      cases this

end lines

/-! ## Encoding again -/

/-- A list was encoded with constants that were all there, without detours and with an instruction
behind every line, and what was encoded was read back. -/
structure Reread (s : Links) (nodes : List Node) (count : Nat) (pieces : List Piece) (e : Encoded)
    (slots : List Slot) (handlers : List HandlerEntry) (d : InstrList) : Prop where
  run : (nodes.mapM Piece.ofNode).run.run s = (.ok pieces, s)
  assembled : assemble .short count pieces = .ok e
  laidOut : slots = (settle .short count (narrowSlots pieces)).1
  encoding : Encoding s .short nodes count e slots
  narrow : e.wideFallthroughs = []
  documented : Documented s.pool nodes
  closed : Closed nodes []
  lines : ¬ TrailingLine nodes
  read : Read s.context e.bytes handlers e.lines d (readings (spelling nodes count slots))

/-- The label of a list that was read back which stands for one of the list that was encoded. -/
def relabel (ns : List (Node × Nat)) (handlers : List HandlerEntry) (l : Label) : Label :=
  labelAt (readings ns) handlers (leadsTo ns l)

namespace Reread

variable {count : Nat} {e : Encoded} {slots : List Slot} {handlers : List HandlerEntry}
  {d : InstrList} (hr : Reread s nodes count pieces e slots handlers d)

include hr

theorem closed_wide : Closed nodes e.wideFallthroughs := by
  rw [hr.narrow]
  exact hr.closed

theorem instrsOf_eq : instrsOf d.nodes.toList =
    (instrsOf nodes).map fun i => i.ascending.map (relabel (spelling nodes count slots) handlers) := by
  rw [hr.read.toList_nodes, instrsOf_map_fst, reals_decodedEntries, readings, List.map_map,
    List.map_map]
  have hinstrs : (reals (spelling nodes count slots)).map Prod.snd =
      (instrsOf nodes).map Instr.ascending := by
    rw [← instrsOf_map_fst, hr.encoding.map_fst_of_narrow hr.narrow, instrsOf_ascending]
  have hmap := congrArg (List.map fun i => i.map (relabel (spelling nodes count slots) handlers))
    hinstrs
  rw [List.map_map, List.map_map] at hmap
  refine Eq.trans (List.map_congr_left fun r _ => ?_) hmap
  simp only [Function.comp_apply, Instr.map_map]
  rfl

/-- Labels lead to the same instructions as before. -/
theorem place?_relabel {l : Label} (hl : l ∈ nodes.flatMap Node.targets) :
    (relabel (spelling nodes count slots) handlers l).id < d.labelCount ∧
      ∃ k, place? l nodes = some k ∧
        place? (relabel (spelling nodes count slots) handlers l) d.nodes.toList = some k := by
  have he := hr.encoding
  obtain ⟨o, ho, -⟩ := he.offset?_target hr.documented hr.closed_wide hl
  have hleads : leadsTo (spelling nodes count slots) l = o := by rw [leadsTo, ho]; rfl
  -- the label is one that an instruction was read with
  have hmem : o ∈ labelOffsets (readings (spelling nodes count slots)) handlers := by
    obtain ⟨n, hn, hl⟩ := List.mem_flatMap.mp hl
    cases n with
    | label | line => cases hl
    | instr i =>
      have hasc : Node.instr i.ascending ∈ (spelling nodes count slots).map Prod.fst := by
        rw [he.map_fst_of_narrow hr.narrow]
        exact List.mem_map_of_mem hn
      obtain ⟨⟨_, o'⟩, hb, rfl⟩ := List.mem_map.mp hasc
      refine mem_labelOffsets.mpr (.inl ⟨_, List.mem_map_of_mem (mem_reals.mpr hb), ?_⟩)
      rw [Instr.targets_map, ← hleads]
      exact List.mem_map_of_mem ((mem_targets_ascending i).mpr hl)
  refine ⟨?_, countBelow (starts (spelling nodes count slots)) o, ?_, ?_⟩
  · rw [relabel, hleads, hr.read.labelCount_eq]
    exact labelAt_lt hmem
  · rw [← place?_ascending, ← he.map_fst_of_narrow hr.narrow, place?_eq (he.positioned hr.documented),
      ho]
    rfl
  · rw [relabel, hleads, hr.read.toList_nodes, ← map_fst_readings]
    exact place?_decodedEntries hr.read.wellRead hmem

theorem marks : ∀ l, .label l ∈ d.nodes.toList → l.id < d.labelCount := by
  intro l hl
  rw [hr.read.toList_nodes] at hl
  obtain ⟨⟨_, o⟩, hb, rfl⟩ := List.mem_map.mp hl
  have hlabel : ∃ o' : Nat, (labelTable (labelOffsets (readings (spelling nodes count slots))
      handlers))[o']? = some l := by
    rcases mem_entries.mp hb with ⟨p, -, hmark | heq⟩ | ⟨l', hl', heq⟩
    · rcases mem_marksAt.mp hmark with ⟨l', hl', heq⟩ | ⟨_, -, heq⟩
      · exact ⟨_, by rw [hl', Node.label.inj (Prod.mk.inj heq).1]⟩
      · cases heq
    · cases heq
    · exact ⟨_, by rw [hl', Node.label.inj (Prod.mk.inj heq).1]⟩
  obtain ⟨o', ho'⟩ := hlabel
  rw [getElem?_labelTable nodup_labelOffsets] at ho'
  obtain ⟨k, hk, rfl⟩ := Option.map_eq_some_iff.mp ho'
  rw [hr.read.labelCount_eq]
  exact (List.idxOf?_eq_some_iff.mp hk).1

theorem marked : ∀ l ∈ d.nodes.toList.flatMap Node.targets, .label l ∈ d.nodes.toList := by
  intro l hl
  obtain ⟨xs, ys, heq, -⟩ := hr.read.leads_of_mem_targets hl
  rw [heq]
  simp

/-- The list that was read back is laid out like the one that was encoded. -/
theorem exists_alike : ∃ pieces', (d.nodes.toList.mapM Piece.ofNode).run.run s = (.ok pieces', s) ∧
    Alike (relabel (spelling nodes count slots) handlers) count d.labelCount nodes d.nodes.toList
      (narrowSlots pieces) (narrowSlots pieces') := by
  have hinstrs : (((instrsOf nodes).map fun i =>
      i.ascending.map (relabel (spelling nodes count slots) handlers)).mapM Piece.ofInstr).run.run s =
        (.ok ((pieces.filter fun p => !p.isMark).map
          (Piece.map (relabel (spelling nodes count slots) handlers))), s) :=
    run_mapM_map run_ofInstr_map (run_instrsOf hr.run)
  rw [← hr.instrsOf_eq] at hinstrs
  obtain ⟨pieces', hpieces', hfilter⟩ := exists_run_nodes hinstrs
  have hpieces : ∀ pieces : List Piece, (narrowSlots pieces).map Slot.piece = pieces := fun pieces => by
    rw [narrowSlots, List.map_map]
    exact List.map_id _
  have hstands := stands_all hr.run
  refine ⟨pieces', hpieces', by rwa [hpieces], by rw [hpieces]; exact stands_all hpieces', ?_, ?_⟩
  · rw [solid_narrowSlots, solid_narrowSlots, hfilter, map_narrowSlots]
  · intro slot hslot t ht
    have hmem : slot.piece ∈ pieces := by
      rw [← hpieces pieces]
      exact List.mem_map_of_mem (List.mem_of_mem_filter hslot)
    obtain ⟨n, hn, hpiece⟩ := exists_of_forall₂ hstands.flip hmem
    have htarget : t ∈ nodes.flatMap Node.targets :=
      List.mem_flatMap.mpr ⟨n, hn, (targets_of_stands hpiece).mp ht⟩
    exact ⟨hr.encoding.marks t (hr.encoding.targets t htarget), hr.place?_relabel htarget⟩

/-- Keys ascend in what was read back. -/
theorem ascending_of_mem {b : Node × Nat} (hb : b ∈ decodedEntries e.bytes.length
    (readings (spelling nodes count slots)) handlers e.lines) : b.1.ascending = b.1 := by
  obtain ⟨n, o⟩ := b
  cases n with
  | label | line => rfl
  | instr i =>
    have hmem : Node.instr i ∈ d.nodes.toList := by
      rw [hr.read.toList_nodes]
      exact List.mem_map_of_mem hb
    rw [← mem_instrsOf, hr.instrsOf_eq] at hmem
    obtain ⟨j, -, rfl⟩ := List.mem_map.mp hmem
    show Node.instr _ = _
    rw [Instr.map_ascending, ascending_ascending]

theorem moved_eq_self {φ : Nat → Nat}
    (hφ : ∀ o ∈ places e.bytes.length (readings (spelling nodes count slots)), φ o = o) :
    moved φ (decodedEntries e.bytes.length (readings (spelling nodes count slots)) handlers
      e.lines) = decodedEntries e.bytes.length (readings (spelling nodes count slots)) handlers
        e.lines := by
  refine (List.map_congr_left fun b hb => ?_).trans (List.map_id _)
  exact Prod.ext (hr.ascending_of_mem hb) (hφ b.2 (entries_offset hb))

/-- **What was read back is encoded to the same code.** It asks for no more constants, and its
entries were read at the offsets that they get. -/
theorem reencode (hs : s.pool.Reachable) : ∃ e' slots',
    (encode d.nodes.toList d.labelCount).run.run s = (.ok e', s) ∧ e'.bytes = e.bytes ∧
      Recoded s s e.bytes handlers e.lines d (readings (spelling nodes count slots)) e' slots' id ∧
      spelling d.nodes.toList d.labelCount slots' =
        decodedEntries e.bytes.length (readings (spelling nodes count slots)) handlers e.lines := by
  obtain ⟨pieces', hpieces', halike⟩ := hr.exists_alike
  obtain ⟨e', hassemble', hbytes⟩ := halike.assemble hr.assembled
  have hstrange := strangeLabel?_of_marks (stands_all hpieces') hr.marks
  have hmissing := missingLabels_of_marked hr.marks hr.marked
  have hsettled : List.Forall₂ (fun n piece => n.Settled s piece) d.nodes.toList pieces' :=
    (Gives.mapM Node.Settled.extends (fun n _ => Piece.gives_ofNode n) s pieces' s hs hpieces').2
  have he' := assemble_spec hassemble' hsettled hr.marks hr.marked
  have hlaid := halike.settle .short
  have hnarrow : e'.wideFallthroughs = [] := by
    have hbefore := (wideFallthroughs_eq_nil hr.encoding.behind).mp hr.narrow
    refine (wideFallthroughs_eq_nil he'.behind).mpr fun slot hslot => ?_
    have hslot := hlaid.solid ▸ hslot
    obtain ⟨before, hbefore', rfl⟩ := List.mem_map.mp hslot
    rw [isWideCondition_map]
    exact hbefore before (hr.laidOut ▸ hbefore')
  obtain ⟨φ, hφ⟩ := exists_recoded hr.read he' (Links.Extends.refl s) hnarrow
  -- instructions and the end of the code stay where they are
  have hstarts := he'.starts_of_narrow hnarrow
  rw [← narrowSlots, hlaid.solid, offsetsFrom_map, ← hr.laidOut,
    ← hr.encoding.starts_of_narrow hr.narrow, ← map_fst_readings (spelling nodes _ _)] at hstarts
  have hfixed : ∀ o ∈ places e.bytes.length (readings (spelling nodes count slots)), φ o = o := by
    have hmap := hφ.starts_eq.symm.trans hstarts
    rintro o (ho | rfl)
    · exact List.map_inj_left.mp (hmap.trans (List.map_id _).symm) o ho
    · have hend := hlaid.endFrom_eq 0
      rw [← hr.laidOut,
        ← (hr.encoding.scanned hr.documented hr.closed_wide fun _ h => h).1] at hend
      exact hφ.stop.symm.trans hend
  have hspelled := hφ.spelled.trans (hr.moved_eq_self hfixed)
  have hrun := encodeWithin_eq_ok hpieces' hstrange hmissing hassemble'
  refine ⟨e', _, hrun, hbytes, ?_, hspelled⟩
  exact { hφ with
    spelled := hspelled.trans (hr.moved_eq_self fun _ _ => rfl).symm
    stop := hφ.stop.trans (hfixed _ (.inr rfl))
    mono := strictMonoOn_id }

theorem lines_eq {e' : Encoded} {slots' : List Slot}
    (he' : Encoding s .short d.nodes.toList d.labelCount e' slots')
    (hspelled : spelling d.nodes.toList d.labelCount slots' = decodedEntries e.bytes.length
      (readings (spelling nodes count slots)) handlers e.lines) : e'.lines = e.lines := by
  refine eq_of_filter_eq (fun l => l.start.toNat) he'.pairwise_lines
    hr.encoding.pairwise_lines fun o => ?_
  rw [filter_lines, filter_lines e.lines]
  refine congrArg _ ?_
  rw [← he'.linesAt_spelling o, hspelled]
  by_cases ho : o ∈ (readings (spelling nodes count slots)).map Prod.fst
  · rw [decodedEntries, linesAt_entries hr.read.wellRead.sorted hr.read.wellRead.inside ho,
      getD_lineTable]
  · -- at the end of the code there are no lines
    have hnone : e.lines.filter (·.start.toNat = o) = [] := by
      rw [List.filter_eq_nil_iff]
      intro l hl heq
      rw [map_fst_readings, ← of_decide_eq_true heq] at ho
      exact ho (hr.encoding.start_mem_starts hr.documented hr.narrow hr.lines hl)
    rw [hnone, List.map_nil, linesAt, List.filterMap_eq_nil_iff]
    rintro ⟨n, o'⟩ hb
    cases n with
    | instr | label => rfl
    | line m =>
      refine if_neg fun heq => ho ?_
      rcases mem_entries.mp hb with ⟨p, hp, hmark | hinstr⟩ | ⟨_, -, hlabel⟩
      · obtain rfl : o' = p.1 := (marksAt_mark hmark).2
        exact heq ▸ List.mem_map_of_mem hp
      · cases hinstr
      · cases hlabel

end Reread

end Code
end ClassWeave
