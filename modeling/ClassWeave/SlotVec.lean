/-!
# Vectors of slots

A slot vector holds elements of different widths one after the other, and an element is found by
the slot that it starts at: the first slot of the vector plus the widths of the elements before it.
Every element is kept together with its slot. Since slots ascend, an element is looked up by
halving the part of the vector that it can be in.
-/

namespace ClassWeave

/-- Elements that take up a number of consecutive slots. -/
class Width (α : Type) where
  width : α → Nat
  width_pos : ∀ a, 0 < width a

export Width (width)

structure SlotVec (α : Type) where
  /-- The slot of the first element. -/
  start : Nat
  /-- The elements in order, each with the slot that it starts at. -/
  cells : Array (Nat × α)
  /-- The slot of the next element to be added. -/
  next : Nat
  start_le : start ≤ next
  ascending : cells.toList.Pairwise fun x y => x.1 < y.1
  within : ∀ x ∈ cells.toList, start ≤ x.1 ∧ x.1 < next

namespace SlotVec

variable {α : Type}

/-- No elements, the first one to come at slot `start`. -/
def empty (start : Nat) : SlotVec α where
  start := start
  cells := #[]
  next := start
  start_le := Nat.le_refl _
  ascending := .nil
  within := by simp

instance : Inhabited (SlotVec α) := ⟨empty 0⟩

variable (v : SlotVec α)

/-- The elements in order, each with its slot. -/
def entries : List (Nat × α) := v.cells.toList

/-- The elements in order. -/
def values : List α := v.entries.map Prod.snd

/-- Adds an element behind the others. -/
def push [Width α] (a : α) : SlotVec α where
  start := v.start
  cells := v.cells.push (v.next, a)
  next := v.next + width a
  start_le := Nat.le_trans v.start_le (Nat.le_add_right _ _)
  ascending := by
    rw [Array.toList_push, List.pairwise_append]
    refine ⟨v.ascending, List.pairwise_singleton _ _, fun x hx y hy => ?_⟩
    rw [List.mem_singleton.mp hy]
    exact (v.within x hx).2
  within x hx := by
    have hstart := v.start_le
    have hpos := Width.width_pos a
    rw [Array.toList_push, List.mem_append, List.mem_singleton] at hx
    rcases hx with hx | rfl
    · have := v.within x hx
      omega
    · show v.start ≤ v.next ∧ v.next < v.next + width a
      omega

theorem toList_cells_split (h : 0 < v.cells.size) :
    v.cells.toList = v.cells.pop.toList ++ [v.cells.back h] := by
  have hne : v.cells.toList ≠ [] := by
    intro hnil
    rw [← Array.length_toList, hnil] at h
    cases h
  rw [Array.toList_pop, ← Array.getLast_toList (h := hne), List.dropLast_concat_getLast]

/-- Takes the last element off. -/
def pop : Option α × SlotVec α :=
  if h : 0 < v.cells.size then
    have hsplit := v.toList_cells_split h
    have hascending := List.pairwise_append.mp (hsplit ▸ v.ascending)
    have hlast : v.cells.back h ∈ v.cells.toList := hsplit ▸ List.mem_append_right _ List.mem_cons_self
    (some (v.cells.back h).2, {
      start := v.start
      cells := v.cells.pop
      next := (v.cells.back h).1
      start_le := (v.within _ hlast).1
      ascending := hascending.1
      within := fun x hx => ⟨(v.within x (hsplit ▸ List.mem_append_left _ hx)).1,
        hascending.2.2 x hx _ List.mem_cons_self⟩ })
  else (none, v)

/-- Takes all elements off. -/
def clear : SlotVec α := empty v.start

/-- The element at a slot among the cells from `low` on and in front of `high`. Lookups in a vector at
hand can be evaluated. -/
@[semireducible] def search (cells : Array (Nat × α)) (slot low high : Nat) : Option α :=
  if _h : low < high then
    let middle := low + (high - low) / 2
    match cells[middle]? with
    | none => none
    | some (s, a) =>
      if s = slot then some a
      else if s < slot then search cells slot (middle + 1) high
      else search cells slot low middle
  else none
termination_by high - low

/-- The element that starts at a slot. A slot inside a wide element starts none. -/
def get? (slot : Nat) : Option α := search v.cells slot 0 v.cells.size

end SlotVec
end ClassWeave
