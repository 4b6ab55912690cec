import ClassWeave.Proofs.Decoding
import ClassWeave.Proofs.Emission

/-!
# What encoding has done when it succeeds

`Encoding` collects what is known about some code that was encoded: which pieces stand for the
entries, that all labels have their places, that all narrow jumps reach their targets, and what
was written down. It goes on to hold while constants are added.
-/

namespace ClassWeave.Code

open Listing

/-- Encoding a list gave some code, with these pieces for the entries. -/
structure Encoding (links : Links) (range : JumpRange) (nodes : List Node) (count : Nat)
    (e : Encoded) (slots : List Slot) : Prop where
  settled : List.Forall₂ (fun n s => n.Settled links s.piece) nodes slots
  marks : ∀ l, .label l ∈ nodes → l.id < count
  targets : ∀ l ∈ nodes.flatMap Node.targets, .label l ∈ nodes
  narrow : ∀ p ∈ slots.zip (offsetsFrom 0 slots), ∀ op t, p.1.piece = .jump op t →
    p.1.wide = false →
      range.contains (((Layout.ofSlots count slots).target t : Int) - p.2)
  length : endFrom 0 slots ≤ 65535
  bytes : ∃ bss, List.Forall₂ (fun p bs => emit (.ofSlots count slots) p.1 p.2 = .ok bs)
    (slots.zip (offsetsFrom 0 slots)) bss ∧ e.bytes = bss.flatten
  offsets : e.offsets.toList = offsetsFrom 0 slots
  labels : e.labels = (Layout.ofSlots count slots).labels
  lines : e.lines = (slots.zip (offsetsFrom 0 slots)).filterMap fun (s, o) => lineAt s o
  behind : e.wideFallthroughs = slots.zipIdx.filterMap fun (s, i) =>
    if isWideCondition s then some (i + 1) else none

variable {links : Links} {range : JumpRange} {nodes : List Node} {count : Nat} {e : Encoded}
  {slots : List Slot} {pieces : List Piece}

/-! ## Labels are checked first -/

theorem getD_markedLabels (nodes : List Node) (count : Nat) (l : Label) :
    (InstrList.markedLabels nodes count).getD l.id false = true ↔
      .label l ∈ nodes ∧ l.id < count := by
  have general : ∀ flags : Array Bool,
      (nodes.foldl InstrList.flag flags).getD l.id false = true ↔
        (.label l ∈ nodes ∧ l.id < flags.size) ∨ flags.getD l.id false = true := by
    induction nodes with
    | nil => intro flags; simp
    | cons n nodes ih =>
      intro flags
      rw [List.foldl_cons, ih]
      cases n with
      | instr | line => simp [InstrList.flag]
      | label l' =>
        simp only [InstrList.flag, Array.size_setIfInBounds, List.mem_cons, Node.label.injEq]
        by_cases hl : l' = l
        · subst hl
          by_cases hlt : l'.id < flags.size
          · simp [hlt, Array.getD_eq_getD_getElem?]
          · simp [hlt, Array.getD_eq_getD_getElem?]
        · have hid : l'.id ≠ l.id := fun h => hl (by cases l; cases l'; simp_all)
          have hne : ¬ l = l' := fun h => hl h.symm
          simp [hne, Array.getD_eq_getD_getElem?, hid]
  have hnone : (Array.replicate count false).getD l.id false = false := by
    rw [Array.getD_eq_getD_getElem?, Array.getElem?_replicate]
    split <;> rfl
  refine (general (Array.replicate count false)).trans ?_
  simp [hnone]

theorem size_markedLabels (nodes : List Node) (count : Nat) :
    (InstrList.markedLabels nodes count).size = count := by
  have general : ∀ flags : Array Bool, (nodes.foldl InstrList.flag flags).size = flags.size := by
    induction nodes with
    | nil => exact fun _ => rfl
    | cons n nodes ih =>
      intro flags
      rw [List.foldl_cons, ih]
      cases n with
      | instr | line => rfl
      | label => exact Array.size_setIfInBounds
  exact (general _).trans Array.size_replicate

theorem Label.mem_sorted {labels : List Label} {l : Label} :
    l ∈ Label.sorted labels ↔ l ∈ labels := by
  rw [Label.sorted, mem_eraseReps, List.mem_mergeSort]

theorem Label.sorted_eq_nil {labels : List Label} : Label.sorted labels = [] ↔ labels = [] := by
  constructor
  · intro h
    rw [List.eq_nil_iff_forall_not_mem]
    intro l hl
    have hmem : l ∈ Label.sorted labels := Label.mem_sorted.mpr hl
    rw [h] at hmem
    cases hmem
  · rintro rfl
    rw [Label.sorted, List.mergeSort_nil]
    rfl

theorem missingLabels_eq_nil (h : missingLabels count nodes = []) :
    ∀ l ∈ nodes.flatMap Node.targets, .label l ∈ nodes := by
  intro l hl
  have hfilter := Label.sorted_eq_nil.mp h
  rw [List.filter_eq_nil_iff] at hfilter
  have hmarked := hfilter l hl
  simp only [Bool.not_eq_true', Bool.not_eq_false] at hmarked
  exact ((getD_markedLabels nodes count l).mp hmarked).1

/-- If no marker is that of a label that was not handed out, all of them were. -/
theorem lt_of_strangeLabel? (h : strangeLabel? count pieces = none) {l : Label}
    (hl : .label l ∈ pieces) : l.id < count := by
  rw [strangeLabel?, List.findSome?_eq_none_iff] at h
  have := h _ hl
  by_contra hge
  simp [hge] at this

theorem strangeLabel?_eq_none (h : strangeLabel? count pieces = none)
    (hsettled : List.Forall₂ (fun n piece => n.Settled links piece) nodes pieces) :
    ∀ l, .label l ∈ nodes → l.id < count := by
  intro l hl
  obtain ⟨piece, hmem, hpiece⟩ := exists_of_forall₂ hsettled hl
  obtain rfl : piece = .label l := hpiece
  exact lt_of_strangeLabel? h hmem

/-! ## The whole of it -/

theorem narrow_of_widenAll {lay : Layout} (hlength : lay.offsets.toList.length = slots.length)
    (h : lay.widenAll range slots = slots) : ∀ p ∈ slots.zip lay.offsets.toList, ∀ op t,
      p.1.piece = .jump op t → p.1.wide = false →
        range.contains ((lay.target t : Int) - p.2) := by
  rw [Layout.widenAll] at h
  generalize lay.offsets.toList = offsets at *
  induction slots generalizing offsets with
  | nil => simp
  | cons s slots ih =>
    cases offsets with
    | nil => cases hlength
    | cons o offsets =>
      rw [List.zipWith_cons_cons] at h
      obtain ⟨hs, hrest⟩ := List.cons.inj h
      intro p hp op t hpiece hwide
      rw [List.zip_cons_cons] at hp
      rcases List.mem_cons.mp hp with rfl | hp
      · obtain ⟨piece, wide⟩ := s
        simp only at hpiece hwide
        subst hpiece hwide
        by_contra hnot
        simp [Layout.widen, hnot] at hs
      · exact ih offsets (Nat.succ.inj hlength) hrest p hp op t hpiece hwide

/-- Assembling pieces gave some code, with these slots for the pieces. -/
structure Assembled (range : JumpRange) (count : Nat) (pieces : List Piece) (e : Encoded)
    (slots : List Slot) : Prop where
  pieces : slots.map Slot.piece = pieces
  narrow : ∀ p ∈ slots.zip (offsetsFrom 0 slots), ∀ op t, p.1.piece = .jump op t →
    p.1.wide = false →
      range.contains (((Layout.ofSlots count slots).target t : Int) - p.2)
  length : endFrom 0 slots ≤ 65535
  bytes : ∃ bss, List.Forall₂ (fun p bs => emit (.ofSlots count slots) p.1 p.2 = .ok bs)
    (slots.zip (offsetsFrom 0 slots)) bss ∧ e.bytes = bss.flatten
  offsets : e.offsets.toList = offsetsFrom 0 slots
  labels : e.labels = (Layout.ofSlots count slots).labels
  lines : e.lines = (slots.zip (offsetsFrom 0 slots)).filterMap fun (s, o) => lineAt s o
  behind : e.wideFallthroughs = slots.zipIdx.filterMap fun (s, i) =>
    if isWideCondition s then some (i + 1) else none

theorem assembled (h : assemble range count pieces = .ok e) :
    Assembled range count pieces e (settle range count (pieces.map (⟨·, false⟩))).1 := by
  obtain ⟨hlay, hpieces, hfixed⟩ := settle_spec range count (pieces.map (⟨·, false⟩))
  unfold assemble at h
  generalize settle range count (pieces.map (⟨·, false⟩)) = settled at *
  obtain ⟨slots, lay⟩ := settled
  simp only at hlay hpieces hfixed h ⊢
  subst hlay
  have hoffsets := Layout.offsets_ofSlots count slots
  rw [List.map_map] at hpieces
  split at h
  · cases h
  · rename_i hlength
    rw [Layout.length_ofSlots] at hlength
    obtain ⟨bss, hbss, h⟩ := bind_eq_ok.mp h
    obtain rfl := pure_eq_ok.mp h
    rw [hoffsets] at hbss
    refine ⟨hpieces.trans (List.map_id _), ?_, by omega, ⟨bss, mapM_eq_ok.mp hbss, rfl⟩, hoffsets,
      rfl, by rw [hoffsets], rfl⟩
    have := narrow_of_widenAll (by rw [hoffsets, length_offsetsFrom]) hfixed
    rwa [hoffsets] at this

theorem assemble_spec (h : assemble range count pieces = .ok e)
    (hsettled : List.Forall₂ (fun n piece => n.Settled links piece) nodes pieces)
    (hmarks : ∀ l, .label l ∈ nodes → l.id < count)
    (htargets : ∀ l ∈ nodes.flatMap Node.targets, .label l ∈ nodes) :
    Encoding links range nodes count e (settle range count (pieces.map (⟨·, false⟩))).1 := by
  have ha := assembled h
  rw [← ha.pieces, List.forall₂_map_right_iff] at hsettled
  exact ⟨hsettled, hmarks, htargets, ha.narrow, ha.length, ha.bytes, ha.offsets, ha.labels,
    ha.lines, ha.behind⟩

/-- What encoding adds and gives. -/
theorem gives_encodeWithin (range : JumpRange) (nodes : List Node) (count : Nat) :
    Gives (encodeWithin range nodes count) fun s e =>
      ∃ slots, Encoding s range nodes count e slots := by
  have hpieces : Gives (nodes.mapM Piece.ofNode) fun s pieces =>
      List.Forall₂ (fun n piece => n.Settled s piece) nodes pieces :=
    .mapM Node.Settled.extends fun n _ => Piece.gives_ofNode n
  refine hpieces.bind (fun h hall => hall.imp fun _ _ => Node.Settled.extends h) fun pieces => ?_
  cases hstrange : strangeLabel? count pieces with
  | some l => exact .throw
  | none =>
    simp only
    cases hmissing : missingLabels count nodes with
    | cons => exact .throw
    | nil =>
      refine (Linking.gives_ofResult _).imp fun {s e} _ he hsettled => ?_
      exact ⟨_, assemble_spec he hsettled (strangeLabel?_eq_none hstrange hsettled)
        (missingLabels_eq_nil hmissing)⟩

end ClassWeave.Code
