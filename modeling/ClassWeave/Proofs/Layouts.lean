import Mathlib.Data.List.Forall2
import ClassWeave.Code.Encode

/-!
# Where everything ends up

A layout places pieces one behind the other; where a piece starts depends on those in front of it
only. Making jumps wide comes to an end when every jump that is still narrow reaches its target, and
all that changes on the way is which jumps are wide.
-/

namespace ClassWeave.Code

variable {lay : Layout} {slots : List Slot} {o : Nat}

/-- The offset behind some pieces that start at an offset. -/
def endFrom (o : Nat) : List Slot → Nat
  | [] => o
  | s :: slots => endFrom (o + s.width o) slots

/-- The offsets of some pieces, the first of which starts at an offset. -/
def offsetsFrom (o : Nat) : List Slot → List Nat
  | [] => []
  | s :: slots => o :: offsetsFrom (o + s.width o) slots

theorem length_offsetsFrom (o : Nat) (slots : List Slot) :
    (offsetsFrom o slots).length = slots.length := by
  induction slots generalizing o with
  | nil => rfl
  | cons s slots ih => rw [offsetsFrom, List.length_cons, List.length_cons, ih]

theorem endFrom_append (xs ys : List Slot) (o : Nat) :
    endFrom o (xs ++ ys) = endFrom (endFrom o xs) ys := by
  induction xs generalizing o with
  | nil => rfl
  | cons s xs ih => exact ih _

theorem offsetsFrom_append (xs ys : List Slot) (o : Nat) :
    offsetsFrom o (xs ++ ys) = offsetsFrom o xs ++ offsetsFrom (endFrom o xs) ys := by
  induction xs generalizing o with
  | nil => rfl
  | cons s xs ih => exact congrArg _ (ih _)

theorem le_endFrom (o : Nat) (slots : List Slot) : o ≤ endFrom o slots := by
  induction slots generalizing o with
  | nil => exact Nat.le_refl o
  | cons s slots ih => exact Nat.le_trans (Nat.le_add_right _ _) (ih _)

namespace Layout

theorem toList_offsets_foldl (lay : Layout) (slots : List Slot) :
    (slots.foldl place lay).offsets.toList = lay.offsets.toList ++ offsetsFrom lay.length slots ∧
      (slots.foldl place lay).length = endFrom lay.length slots := by
  induction slots generalizing lay with
  | nil => exact ⟨(List.append_nil _).symm, rfl⟩
  | cons s slots ih =>
    obtain ⟨h1, h2⟩ := ih (lay.place s)
    refine ⟨?_, h2⟩
    rw [List.foldl_cons, h1]
    simp [place, offsetsFrom]

theorem offsets_ofSlots (count : Nat) (slots : List Slot) :
    (ofSlots count slots).offsets.toList = offsetsFrom 0 slots :=
  (toList_offsets_foldl (start count) slots).1

theorem length_ofSlots (count : Nat) (slots : List Slot) :
    (ofSlots count slots).length = endFrom 0 slots :=
  (toList_offsets_foldl (start count) slots).2

theorem offset?_place_of_ne {s : Slot} {l : Label} (h : s.piece ≠ .label l) :
    (lay.place s).offset? l = lay.offset? l := by
  unfold offset? place
  split
  · rename_i l' hl
    have hne : l'.id ≠ l.id := by
      rintro heq
      exact h (by rw [hl, show l' = l from by cases l'; cases l; simp_all])
    simp [hne]
  · rfl

/-- A label with a place keeps one, whatever comes behind. -/
theorem exists_offset?_foldl {l : Label} {o : Nat} (h : lay.offset? l = some o)
    (slots : List Slot) : ∃ o', (slots.foldl place lay).offset? l = some o' := by
  induction slots generalizing lay o with
  | nil => exact ⟨o, h⟩
  | cons s slots ih =>
    by_cases hs : s.piece = .label l
    · have hcell := Option.join_eq_some_iff.mp h
      obtain ⟨hlt, -⟩ := Array.getElem?_eq_some_iff.mp hcell
      exact ih (o := lay.length) (by simp [offset?, place, hs, hlt])
    · exact ih ((offset?_place_of_ne hs).trans h)

theorem size_labels_place (s : Slot) : (lay.place s).labels.size = lay.labels.size := by
  unfold place
  split <;> simp

/-- Every marker of a label that was handed out gives it a place. -/
theorem exists_offset?_ofSlots {l : Label} {count : Nat} (hid : l.id < count)
    (hl : .label l ∈ slots.map Slot.piece) : ∃ o, (ofSlots count slots).offset? l = some o := by
  have general : ∀ lay : Layout, l.id < lay.labels.size →
      ∃ o, (slots.foldl place lay).offset? l = some o := by
    induction slots with
    | nil => cases hl
    | cons s slots ih =>
      intro lay hlt
      by_cases hs : s.piece = .label l
      · exact exists_offset?_foldl (o := lay.length) (by simp [offset?, place, hs, hlt]) slots
      · refine ih ?_ (lay.place s) (by rwa [size_labels_place])
        exact (List.mem_cons.mp hl).resolve_left fun h => hs h.symm
  exact general (start count) (by simpa [start] using hid)

/-! ## Making jumps wide -/

theorem widen_piece (range : JumpRange) (s : Slot) (o : Nat) :
    (lay.widen range s o).piece = s.piece := by
  unfold widen
  split
  · split <;> rfl
  · rfl

/-- A piece that is made wide is no narrow jump any more. -/
theorem widen_eq_or (range : JumpRange) (s : Slot) (o : Nat) :
    lay.widen range s o = s ∨ (s.isNarrowJump ∧ (lay.widen range s o).isNarrowJump = false) := by
  obtain ⟨piece, wide⟩ := s
  unfold widen
  split
  · rename_i op l hpiece
    obtain rfl : piece = .jump op l := hpiece
    split
    · exact .inl rfl
    · cases wide with
      | true => exact .inl rfl
      | false => exact .inr ⟨rfl, rfl⟩
  · exact .inl rfl

theorem widenAll_map_piece (range : JumpRange) (h : lay.offsets.toList.length = slots.length) :
    (lay.widenAll range slots).map Slot.piece = slots.map Slot.piece := by
  rw [widenAll]
  generalize lay.offsets.toList = offsets at h
  induction slots generalizing offsets with
  | nil => simp
  | cons s slots ih =>
    cases offsets with
    | nil => cases h
    | cons o offsets =>
      rw [List.zipWith_cons_cons, List.map_cons, List.map_cons, widen_piece,
        ih offsets (Nat.succ.inj h)]

/-- If making jumps wide leaves as many narrow ones as there were, it changes nothing. -/
theorem widenAll_eq_self (range : JumpRange) (h : lay.offsets.toList.length = slots.length) :
    narrowJumps (lay.widenAll range slots) ≤ narrowJumps slots ∧
      (¬ narrowJumps (lay.widenAll range slots) < narrowJumps slots →
        lay.widenAll range slots = slots) := by
  rw [widenAll]
  generalize lay.offsets.toList = offsets at h
  induction slots generalizing offsets with
  | nil => simp
  | cons s slots ih =>
    cases offsets with
    | nil => cases h
    | cons o offsets =>
      obtain ⟨hle, heq⟩ := ih offsets (Nat.succ.inj h)
      simp only [narrowJumps, List.zipWith_cons_cons, List.countP_cons] at *
      have hor : lay.widen range s o = s ∨ _ := widen_eq_or range s o
      rcases hor with hsame | ⟨hnarrow, hwide⟩
      · rw [hsame]
        refine ⟨by omega, fun hlt => ?_⟩
        rw [heq (by omega)]
      · simp only [hnarrow, hwide, if_true, Bool.false_eq_true, if_false]
        exact ⟨by omega, fun hlt => absurd hlt (by omega)⟩

end Layout

/-- What is known when no more jumps have to become wide. -/
theorem settle_spec (range : JumpRange) (count : Nat) (slots : List Slot) :
    (settle range count slots).2 = .ofSlots count (settle range count slots).1 ∧
      (settle range count slots).1.map Slot.piece = slots.map Slot.piece ∧
      (settle range count slots).2.widenAll range (settle range count slots).1 =
        (settle range count slots).1 := by
  have hlength : ∀ slots : List Slot,
      (Layout.ofSlots count slots).offsets.toList.length = slots.length := fun slots => by
    rw [Layout.offsets_ofSlots, length_offsetsFrom]
  induction slots using settle.induct range count with
  | case1 slots lay next hlt ih =>
    rw [settle]
    simp only [lay, next] at *
    rw [if_pos hlt]
    refine ⟨ih.1, ?_, ih.2.2⟩
    rw [ih.2.1, Layout.widenAll_map_piece range (hlength slots)]
  | case2 slots lay next hge =>
    rw [settle]
    simp only [lay, next] at *
    rw [if_neg hge]
    exact ⟨rfl, rfl, (Layout.widenAll_eq_self range (hlength slots)).2 hge⟩

end ClassWeave.Code
