import ClassWeave.Proofs.JumpLayouts

/-!
# Layouts do not depend on marks

Marks take up no room. So where everything is in some code, which jumps are wide and what is
written down are told by the instructions alone, and by the number of instructions in front of the
places that they go to: code with other labels that lead to the same instructions, with marks in
other places and with other lines, is laid out the same and gives the same bytes.
-/

namespace ClassWeave

/-- Only a label without a marker has no place. -/
theorem Listing.place?_eq_none {l : Label} {nodes : List Node} :
    place? l nodes = none ↔ .label l ∉ nodes := by
  induction nodes with
  | nil => simp [place?]
  | cons n nodes ih =>
    rw [place?, List.mem_cons, not_or, ← ih]
    cases place? l nodes with
    | some => simp
    | none => simp [eq_comm]

namespace Code

open Listing

/-! ## Other labels -/

/-- The piece with other labels. -/
def Piece.map (ρ : Label → Label) : Piece → Piece
  | jump op t => jump op (ρ t)
  | tableSwitch low high d ts => tableSwitch low high (ρ d) (ts.map ρ)
  | lookupSwitch d ps => lookupSwitch (ρ d) (ps.map fun p => (p.1, ρ p.2))
  | piece => piece

/-- The piece is a label or a line. -/
def Piece.isMark : Piece → Bool
  | label _ | line _ => true
  | _ => false

/-- The slot with other labels. -/
def Slot.map (ρ : Label → Label) (s : Slot) : Slot := ⟨s.piece.map ρ, s.wide⟩

/-- The slots without the marks. -/
def solid (slots : List Slot) : List Slot := slots.filter fun s => !s.piece.isMark

/-- The instructions of a list. -/
def instrsOf (nodes : List Node) : List (Instr Label) :=
  nodes.filterMap fun
    | .instr i => some i
    | _ => none

variable {ρ : Label → Label} {range : JumpRange} {count count' o k : Nat} {s : Slot}
  {slots slots' : List Slot} {nodes nodes' : List Node} {pieces pieces' : List Piece}
  {lay lay' : Layout} {l : Label}

section map

variable (ρ) (s)

@[simp] theorem Slot.width_map : (s.map ρ).width o = s.width o := by
  obtain ⟨piece, wide⟩ := s
  cases piece with
  | tableSwitch | lookupSwitch => simp [Slot.map, Piece.map, Slot.width]
  | _ => rfl

@[simp] theorem Slot.isNarrowJump_map : (s.map ρ).isNarrowJump = s.isNarrowJump := by
  obtain ⟨piece, wide⟩ := s
  cases piece <;> rfl

@[simp] theorem isWideCondition_map : isWideCondition (s.map ρ) = isWideCondition s := by
  obtain ⟨piece, wide⟩ := s
  cases piece <;> rfl

@[simp] theorem Piece.isMark_map (piece : Piece) : (piece.map ρ).isMark = piece.isMark := by
  cases piece <;> rfl

@[simp] theorem endFrom_map (o : Nat) (slots : List Slot) :
    endFrom o (slots.map (Slot.map ρ)) = endFrom o slots := by
  induction slots generalizing o with
  | nil => rfl
  | cons s slots ih => rw [List.map_cons, endFrom, Slot.width_map, ih, endFrom]

@[simp] theorem offsetsFrom_map (o : Nat) (slots : List Slot) :
    offsetsFrom o (slots.map (Slot.map ρ)) = offsetsFrom o slots := by
  induction slots generalizing o with
  | nil => rfl
  | cons s slots ih => rw [List.map_cons, offsetsFrom, Slot.width_map, ih, offsetsFrom]

@[simp] theorem narrowJumps_map (slots : List Slot) :
    narrowJumps (slots.map (Slot.map ρ)) = narrowJumps slots := by
  rw [narrowJumps, List.countP_map]
  exact List.countP_congr fun s _ => by rw [Function.comp_apply, Slot.isNarrowJump_map]

end map

/-! ## Marks take up no room -/

theorem width_of_isMark (h : s.piece.isMark) : s.width o = 0 := by
  obtain ⟨piece, wide⟩ := s
  cases piece <;> first | rfl | cases h

theorem solid_cons (s : Slot) (slots : List Slot) :
    solid (s :: slots) = if s.piece.isMark then solid slots else s :: solid slots := by
  rw [solid, List.filter_cons]
  cases s.piece.isMark <;> rfl

theorem endFrom_solid (o : Nat) (slots : List Slot) : endFrom o (solid slots) = endFrom o slots := by
  induction slots generalizing o with
  | nil => rfl
  | cons s slots ih =>
    rw [solid_cons, endFrom]
    split
    · rename_i hmark
      rw [width_of_isMark hmark, Nat.add_zero, ih]
    · rw [endFrom, ih]

theorem narrowJumps_solid (slots : List Slot) : narrowJumps (solid slots) = narrowJumps slots := by
  rw [narrowJumps, narrowJumps, solid, List.countP_filter]
  refine List.countP_congr fun s _ => ?_
  obtain ⟨piece, wide⟩ := s
  cases piece <;> simp [Slot.isNarrowJump, Piece.isMark]

/-- What becomes wide can be told without the marks. -/
theorem solid_zipWith_widen (o : Nat) (slots : List Slot) :
    solid (slots.zipWith (lay.widen range) (offsetsFrom o slots)) =
      (solid slots).zipWith (lay.widen range) (offsetsFrom o (solid slots)) := by
  induction slots generalizing o with
  | nil => rfl
  | cons s slots ih =>
    rw [offsetsFrom, List.zipWith_cons_cons, solid_cons, solid_cons, Layout.widen_piece]
    split
    · rename_i hmark
      rw [width_of_isMark hmark, Nat.add_zero, ih]
    · rw [offsetsFrom, List.zipWith_cons_cons, ih]

/-! ## Where labels lead -/

theorem isMark_of_stands {n : Node} {piece : Piece} (h : Piece.Stands n piece) :
    piece.isMark = !n.isReal := by
  cases h <;> rfl

/-- A label has the end of the instructions in front of it as its offset, where some pieces are laid
out behind others. -/
theorem offset?_of_place {n : Nat} (hstands : List.Forall₂ Piece.Stands nodes (slots.map Slot.piece))
    (hsize : l.id < lay.labels.size) (h : place? l nodes = some n) :
    (slots.foldl Layout.place lay).offset? l = some (endFrom lay.length ((solid slots).take n)) := by
  induction slots generalizing nodes lay n with
  | nil =>
    obtain rfl := List.forall₂_nil_right_iff.mp hstands
    cases h
  | cons s slots ih =>
    rw [List.map_cons] at hstands
    obtain ⟨m, nodes, hm, hrest, rfl⟩ := List.forall₂_cons_right_iff.mp hstands
    have hsize' : l.id < (lay.place s).labels.size := by rwa [Layout.size_labels_place]
    have hmark := isMark_of_stands hm
    rw [List.foldl_cons, solid_cons]
    rw [place?] at h
    cases hplace : place? l nodes with
    | some k =>
      rw [hplace] at h
      rw [ih hrest hsize' hplace]
      cases hreal : m.isReal with
      | true =>
        obtain rfl : k + 1 = n := by simpa [hreal] using h
        simp [hmark, hreal, endFrom, Layout.place]
      | false =>
        obtain rfl : k = n := by simpa [hreal] using h
        have hwidth : s.width lay.length = 0 := width_of_isMark (by simp [hmark, hreal])
        simp [hmark, hreal, Layout.place, hwidth]
    | none =>
      rw [hplace] at h
      by_cases hlabel : m = .label l
      · subst hlabel
        obtain rfl : 0 = n := by simpa using h
        have hpiece : s.piece = .label l := (hm.label_iff l).mpr rfl
        have hnot : .label l ∉ slots.map Slot.piece :=
          fun hmem => place?_eq_none.mp hplace ((Piece.Stands.mem_iff hrest l).mp hmem)
        rw [Layout.offset?_foldl_of_not_mem hnot, List.take_zero, endFrom]
        simp [Layout.offset?, Layout.place, hpiece, hsize]
      · simp [hlabel] at h

theorem target_of_place (hstands : List.Forall₂ Piece.Stands nodes (slots.map Slot.piece))
    (hid : l.id < count) (h : place? l nodes = some k) :
    (Layout.ofSlots count slots).target l = endFrom 0 ((solid slots).take k) := by
  have hsize : l.id < (Layout.start count).labels.size := by simpa [Layout.start] using hid
  rw [Layout.target, Layout.ofSlots, offset?_of_place hstands hsize h]
  rfl

/-! ## Code that is alike -/

/-- Two layouts have the targets of a slot at the same offsets. -/
def Agree (ρ : Label → Label) (lay lay' : Layout) (s : Slot) : Prop :=
  ∀ t ∈ s.piece.targets, lay'.target (ρ t) = lay.target t

theorem widen_map (h : Agree ρ lay lay' s) :
    lay'.widen range (s.map ρ) o = (lay.widen range s o).map ρ := by
  obtain ⟨piece, wide⟩ := s
  cases piece with
  | jump op t =>
    have ht : lay'.target (ρ t) = lay.target t := h t List.mem_cons_self
    simp only [Layout.widen, Slot.map, Piece.map, ht]
    split <;> rfl
  | _ => rfl

theorem zipWith_widen_map (h : ∀ s ∈ slots, Agree ρ lay lay' s) (o : Nat) :
    (slots.map (Slot.map ρ)).zipWith (lay'.widen range) (offsetsFrom o slots) =
      (slots.zipWith (lay.widen range) (offsetsFrom o slots)).map (Slot.map ρ) := by
  induction slots generalizing o with
  | nil => rfl
  | cons s slots ih =>
    rw [List.map_cons, offsetsFrom, List.zipWith_cons_cons, List.zipWith_cons_cons, List.map_cons,
      widen_map (h s List.mem_cons_self), ih fun t ht => h t (List.mem_cons_of_mem _ ht)]

theorem emit_map (h : Agree ρ lay lay' s) : emit lay' (s.map ρ) o = emit lay s o := by
  obtain ⟨piece, wide⟩ := s
  cases piece with
  | jump op t =>
    have ht : lay'.target (ρ t) = lay.target t := h t List.mem_cons_self
    simp only [emit, Slot.map, Piece.map, ht]
  | tableSwitch low high d ts =>
    have hd : lay'.target (ρ d) = lay.target d := h d List.mem_cons_self
    have hts : ((ts.map ρ).flatMap fun t => distance (lay'.target t) o) =
        ts.flatMap fun t => distance (lay.target t) o := by
      rw [List.flatMap_map]
      exact List.flatMap_congr fun t ht => by rw [h t (List.mem_cons_of_mem _ ht)]
    simp only [emit, Slot.map, Piece.map, hd, hts]
  | lookupSwitch d ps =>
    have hd : lay'.target (ρ d) = lay.target d := h d List.mem_cons_self
    have hps : ((ps.map fun p => (p.1, ρ p.2)).flatMap fun p =>
          Bytes.i32 p.1 ++ distance (lay'.target p.2) o) =
        ps.flatMap fun p => Bytes.i32 p.1 ++ distance (lay.target p.2) o := by
      rw [List.flatMap_map]
      refine List.flatMap_congr fun p hp => ?_
      rw [h p.2 (List.mem_cons_of_mem _ (List.mem_map_of_mem hp))]
    simp only [emit, Slot.map, Piece.map, hd, hps, List.length_map]
  | _ => rfl

/-- The same instructions are laid out, with other labels that lead to the same ones. -/
structure Alike (ρ : Label → Label) (count count' : Nat) (nodes nodes' : List Node)
    (slots slots' : List Slot) : Prop where
  stands : List.Forall₂ Piece.Stands nodes (slots.map Slot.piece)
  stands' : List.Forall₂ Piece.Stands nodes' (slots'.map Slot.piece)
  solid : solid slots' = (solid slots).map (Slot.map ρ)
  targets : ∀ s ∈ Code.solid slots, ∀ t ∈ s.piece.targets, t.id < count ∧ (ρ t).id < count' ∧
    ∃ k, place? t nodes = some k ∧ place? (ρ t) nodes' = some k

namespace Alike

variable (ha : Alike ρ count count' nodes nodes' slots slots')

include ha

theorem agree (hs : s ∈ Code.solid slots) :
    Agree ρ (.ofSlots count slots) (.ofSlots count' slots') s := by
  intro t ht
  obtain ⟨hid, hid', k, hk, hk'⟩ := ha.targets s hs t ht
  rw [target_of_place ha.stands' hid' hk', target_of_place ha.stands hid hk, ha.solid,
    ← List.map_take, endFrom_map]

theorem endFrom_eq (o : Nat) : endFrom o slots' = endFrom o slots := by
  rw [← endFrom_solid, ha.solid, endFrom_map, endFrom_solid]

theorem narrowJumps_eq : narrowJumps slots' = narrowJumps slots := by
  rw [← narrowJumps_solid, ha.solid, narrowJumps_map, narrowJumps_solid]

/-- The same jumps become wide. -/
theorem widened : Alike ρ count count' nodes nodes' (widened range count slots)
    (widened range count' slots') := by
  have hpieces : ∀ (count : Nat) (slots : List Slot),
      (Code.widened range count slots).map Slot.piece = slots.map Slot.piece := fun count slots =>
    Layout.widenAll_map_piece range (by rw [Layout.offsets_ofSlots, length_offsetsFrom])
  have hsolid : ∀ (count : Nat) (slots : List Slot), Code.solid (Code.widened range count slots) =
      (Code.solid slots).zipWith ((Layout.ofSlots count slots).widen range)
        (offsetsFrom 0 (Code.solid slots)) := fun count slots => by
    rw [Code.widened, Layout.widenAll, Layout.offsets_ofSlots, solid_zipWith_widen]
  refine ⟨by rw [hpieces]; exact ha.stands, by rw [hpieces]; exact ha.stands', ?_, ?_⟩
  · rw [hsolid, hsolid, ha.solid, offsetsFrom_map, zipWith_widen_map fun s hs => ha.agree hs]
  · intro s hs
    rw [hsolid, List.mem_iff_getElem] at hs
    obtain ⟨i, hi, rfl⟩ := hs
    rw [List.getElem_zipWith, Layout.widen_piece]
    exact ha.targets _ (List.getElem_mem _)

end Alike

theorem settle_of_lt (h : narrowJumps (widened range count slots) < narrowJumps slots) :
    settle range count slots = settle range count (widened range count slots) := by
  rw [settle]
  exact if_pos h

theorem settle_of_not_lt (h : ¬ narrowJumps (widened range count slots) < narrowJumps slots) :
    settle range count slots = (slots, .ofSlots count slots) := by
  rw [settle]
  exact if_neg h

/-- The loop over layouts takes the same course. -/
theorem Alike.settle (ha : Alike ρ count count' nodes nodes' slots slots') (range : JumpRange) :
    Alike ρ count count' nodes nodes' (settle range count slots).1 (settle range count' slots').1 := by
  have hfewer : ∀ {slots slots'}, Alike ρ count count' nodes nodes' slots slots' →
      (narrowJumps (Code.widened range count' slots') < narrowJumps slots' ↔
        narrowJumps (Code.widened range count slots) < narrowJumps slots) := fun ha => by
    rw [ha.widened.narrowJumps_eq, ha.narrowJumps_eq]
  obtain ⟨n, -, hsettles⟩ := exists_settles range count slots
  generalize Code.settle range count slots = result at hsettles
  induction hsettles generalizing slots' with
  | done h =>
    rw [settle_of_not_lt (mt (hfewer ha).mp (widened_eq_self_iff.mp h))]
    exact ha
  | again h _ ih =>
    have hlt := Classical.not_not.mp (mt widened_eq_self_iff.mpr h)
    rw [settle_of_lt ((hfewer ha).mpr hlt)]
    exact ih ha.widened

/-! ## What is written down -/

/-- These bytes are written down for some slots that start at an offset. -/
def Writes (lay : Layout) (o : Nat) (slots : List Slot) (bytes : List UInt8) : Prop :=
  ∃ bss, List.Forall₂ (fun p bs => emit lay p.1 p.2 = .ok bs) (slots.zip (offsetsFrom o slots)) bss ∧
    bytes = bss.flatten

theorem writes_nil {bytes : List UInt8} : Writes lay o [] bytes ↔ bytes = [] := by
  constructor
  · rintro ⟨bss, hall, rfl⟩
    cases hall
    rfl
  · rintro rfl
    exact ⟨[], .nil, rfl⟩

theorem writes_cons {bytes : List UInt8} : Writes lay o (s :: slots) bytes ↔
    ∃ bs rest, emit lay s o = .ok bs ∧ Writes lay (o + s.width o) slots rest ∧
      bytes = bs ++ rest := by
  constructor
  · rintro ⟨bss, hall, rfl⟩
    rw [offsetsFrom, List.zip_cons_cons] at hall
    obtain ⟨bs, bss, hbs, hrest, rfl⟩ := List.forall₂_cons_left_iff.mp hall
    exact ⟨bs, bss.flatten, hbs, ⟨bss, hrest, rfl⟩, List.flatten_cons⟩
  · rintro ⟨bs, _, hbs, ⟨bss, hall, rfl⟩, rfl⟩
    exact ⟨bs :: bss, .cons hbs hall, List.flatten_cons.symm⟩

theorem emit_of_isMark (h : s.piece.isMark) : emit lay s o = .ok [] := by
  obtain ⟨piece, wide⟩ := s
  cases piece <;> first | rfl | cases h

theorem writes_solid {bytes : List UInt8} :
    Writes lay o (solid slots) bytes ↔ Writes lay o slots bytes := by
  induction slots generalizing o bytes with
  | nil => exact Iff.rfl
  | cons s slots ih =>
    rw [solid_cons, writes_cons]
    split
    · rename_i hmark
      simp [emit_of_isMark hmark, width_of_isMark hmark, ih]
    · simp only [writes_cons, ih]

theorem writes_map {bytes : List UInt8} (h : ∀ s ∈ slots, Agree ρ lay lay' s) :
    Writes lay' o (slots.map (Slot.map ρ)) bytes ↔ Writes lay o slots bytes := by
  induction slots generalizing o bytes with
  | nil => exact writes_nil.trans writes_nil.symm
  | cons s slots ih =>
    rw [List.map_cons, writes_cons, writes_cons, emit_map (h s List.mem_cons_self),
      Slot.width_map]
    simp only [ih fun t ht => h t (List.mem_cons_of_mem _ ht)]

/-- The same bytes are written down. -/
theorem Alike.writes (ha : Alike ρ count count' nodes nodes' slots slots') {bytes : List UInt8} :
    Writes (.ofSlots count' slots') 0 slots' bytes ↔
      Writes (.ofSlots count slots) 0 slots bytes := by
  rw [← writes_solid, ha.solid, writes_map fun s hs => ha.agree hs, writes_solid]

/-- Assembling succeeds if the code is not too long and everything in it can be written down. -/
theorem assemble_eq_ok {bytes : List UInt8}
    (hlength : endFrom 0 (settle range count (narrowSlots pieces)).1 ≤ 65535)
    (hwrites : Writes (.ofSlots count (settle range count (narrowSlots pieces)).1) 0
      (settle range count (narrowSlots pieces)).1 bytes) :
    ∃ e, assemble range count pieces = .ok e ∧ e.bytes = bytes := by
  obtain ⟨hlay, -, -⟩ := settle_spec range count (narrowSlots pieces)
  obtain ⟨bss, hbss, rfl⟩ := hwrites
  unfold assemble
  rw [← narrowSlots]
  generalize settle range count (narrowSlots pieces) = settled at *
  obtain ⟨slots, lay⟩ := settled
  simp only at hlay hlength hbss ⊢
  subst hlay
  rw [Layout.length_ofSlots, if_neg (Nat.not_lt.mpr hlength), Layout.offsets_ofSlots]
  exact ⟨_, bind_eq_ok.mpr ⟨bss, mapM_eq_ok.mpr hbss, rfl⟩, rfl⟩

/-- **The same code is assembled.** -/
theorem Alike.assemble {e : Encoded}
    (ha : Alike ρ count count' nodes nodes' (narrowSlots pieces) (narrowSlots pieces'))
    (h : assemble range count pieces = .ok e) :
    ∃ e', assemble range count' pieces' = .ok e' ∧ e'.bytes = e.bytes := by
  have hsettled := ha.settle range
  have hassembled := assembled h
  refine assemble_eq_ok ?_ (hsettled.writes.mpr hassembled.bytes)
  rw [hsettled.endFrom_eq]
  exact hassembled.length

end Code
end ClassWeave
