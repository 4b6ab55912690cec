import ClassWeave.Instr.List

/-!
# Where labels are

A label is where its last marker stands. Entries that are no markers of it do not matter, so the
place of a label can be read off any split of the entries at that marker.
-/

namespace ClassWeave.InstrList

variable {l : InstrList} {lab : Label} {as bs : List Node} {j : Nat}

/-- Entries that are no markers of a label do not change its place. -/
theorem notePositions_of_not_mem {nodes : List Node} (hnot : .label lab ∉ nodes) (k : Nat)
    (positions : Array (Option Nat)) :
    lab.position? ((nodes.zipIdx k).foldl notePosition positions) = lab.position? positions := by
  induction nodes generalizing k positions with
  | nil => rfl
  | cons n nodes ih =>
    rw [List.mem_cons, not_or] at hnot
    rw [List.zipIdx_cons, List.foldl_cons, ih hnot.2]
    cases n with
    | instr | line => rfl
    | label l' =>
      have hid : l'.id ≠ lab.id := by
        rintro hid
        exact hnot.1 (congrArg Node.label (congrArg Label.mk hid).symm)
      rw [Label.position?, Label.position?, notePosition, Array.getElem?_setIfInBounds_ne hid]

theorem size_notePositions (ps : List (Node × Nat)) (positions : Array (Option Nat)) :
    (ps.foldl notePosition positions).size = positions.size := by
  induction ps generalizing positions with
  | nil => rfl
  | cons p ps ih =>
    rw [List.foldl_cons, ih]
    obtain ⟨n, i⟩ := p
    cases n with
    | instr | line => rfl
    | label => exact Array.size_setIfInBounds

theorem position?_of_split (hid : lab.id < l.placed.size)
    (hnodes : l.nodes.toList = as ++ .label lab :: bs) (hnot : .label lab ∉ bs) :
    lab.position? l.labelPositions = some as.length := by
  have hsize := size_notePositions (as.zipIdx 0) (Array.replicate l.placed.size none)
  rw [Array.size_replicate] at hsize
  rw [labelPositions, hnodes, List.zipIdx_append, List.foldl_append, List.zipIdx_cons,
    List.foldl_cons, notePositions_of_not_mem hnot, Label.position?, notePosition,
    Array.getElem?_setIfInBounds_self_of_lt (by rw [hsize]; exact hid), Nat.zero_add]
  rfl

theorem lt_of_position? (h : lab.position? l.labelPositions = some j) : lab.id < l.placed.size := by
  have hcell := Option.join_eq_some_iff.mp h
  obtain ⟨hlt, -⟩ := Array.getElem?_eq_some_iff.mp hcell
  rwa [labelPositions, size_notePositions, Array.size_replicate] at hlt

/-- The place of a label is that of its last marker. -/
theorem position?_labelPositions (h : lab.position? l.labelPositions = some j) :
    ∃ as bs, l.nodes.toList = as ++ .label lab :: bs ∧ as.length = j ∧ .label lab ∉ bs := by
  have general : ∀ (nodes : List Node) (k : Nat) (positions : Array (Option Nat)),
      lab.position? ((nodes.zipIdx k).foldl notePosition positions) = some j →
      (∃ as bs, nodes = as ++ .label lab :: bs ∧ k + as.length = j ∧ .label lab ∉ bs) ∨
        (.label lab ∉ nodes ∧ lab.position? positions = some j) := by
    intro nodes
    induction nodes with
    | nil => exact fun k positions h => .inr ⟨List.not_mem_nil, h⟩
    | cons n nodes ih =>
      intro k positions h
      rw [List.zipIdx_cons, List.foldl_cons] at h
      rcases ih (k + 1) _ h with ⟨as, bs, rfl, hj, hbs⟩ | ⟨hnot, h⟩
      · refine .inl ⟨n :: as, bs, rfl, ?_, hbs⟩
        rw [List.length_cons]
        omega
      · by_cases hn : n = .label lab
        · subst hn
          refine .inl ⟨[], nodes, rfl, ?_, hnot⟩
          unfold Label.position? at h
          rw [notePosition, Array.getElem?_setIfInBounds_self] at h
          split at h
          · exact Option.some.inj h
          · cases h
        · refine .inr ⟨?_, ?_⟩
          · rw [List.mem_cons, not_or]
            exact ⟨Ne.symm hn, hnot⟩
          · cases n with
            | instr | line => exact h
            | label l' =>
              have hid : l'.id ≠ lab.id := fun h => hn (by cases l'; cases lab; simp_all)
              unfold Label.position? at h ⊢
              rwa [notePosition, Array.getElem?_setIfInBounds_ne hid] at h
  rcases general _ 0 _ h with ⟨as, bs, heq, hj, hbs⟩ | ⟨-, h⟩
  · exact ⟨as, bs, heq, by omega, hbs⟩
  · unfold Label.position? at h
    rw [Array.getElem?_replicate] at h
    split at h <;> cases h

/-! ## Flags -/

/-- Labels that were not handed out are not flagged. -/
theorem lt_of_isPlaced (h : l.isPlaced lab) : lab.id < l.labelCount := by
  refine Nat.lt_of_not_le fun hge => ?_
  rw [isPlaced, Array.getD_eq_getD_getElem?, Array.getElem?_eq_none hge] at h
  cases h

theorem isPlaced_freshLabel (l : InstrList) (lab : Label) :
    l.freshLabel.2.isPlaced lab ↔ l.isPlaced lab := by
  simp only [freshLabel, isPlaced, Array.getD_eq_getD_getElem?, Array.getElem?_push]
  split
  · rename_i hlab
    simp [hlab]
  · rfl

theorem labelCount_mark (l : InstrList) (lab : Label) : (l.mark lab).labelCount = l.labelCount := by
  simp [mark, labelCount]

theorem isPlaced_mark {lab' : Label} (hid : lab.id < l.labelCount) :
    (l.mark lab).isPlaced lab' ↔ l.isPlaced lab' ∨ lab' = lab := by
  simp only [mark, isPlaced, Array.getD_eq_getD_getElem?, Array.set!_eq_setIfInBounds,
    Array.getElem?_setIfInBounds]
  by_cases heq : lab' = lab
  · subst heq
    have hlt : lab'.id < l.placed.size := hid
    simp [hlt]
  · have hne : lab.id ≠ lab'.id := fun h => heq (by cases lab; cases lab'; exact congrArg _ h.symm)
    simp [heq, hne]

/-- Exactly the labels that were handed out and not placed can be placed. -/
theorem refusal?_eq_none : l.refusal? lab = none ↔ lab.id < l.labelCount ∧ ¬ l.isPlaced lab := by
  unfold refusal? isPlaced
  rw [Array.getD_eq_getD_getElem?]
  by_cases hid : lab.id < l.labelCount
  · rw [Array.getElem?_eq_getElem hid]
    cases l.placed[lab.id] <;> simp [hid]
  · rw [Array.getElem?_eq_none (Nat.le_of_not_lt hid)]
    simp [hid]

end ClassWeave.InstrList
