import Mathlib.Tactic.ByContra
import ClassWeave.SlotVec

/-!
# Where elements start

The slots of a vector are sums: an element starts behind all that was put in front of it and is
still there, however elements came and went before. Looking a slot up halves the part of the vector
that the element can be in, which is right since slots ascend, and finds an element exactly at the
slot that it starts at.
-/

namespace ClassWeave.SlotVec

variable {α : Type} {v : SlotVec α} {a b : α} {slot : Nat}

/-! ## Looking elements up -/

/-- The search looks at all cells between its bounds, though not at one after the other. -/
theorem search_eq_some {cells : Array (Nat × α)} {low high : Nat}
    (hascending : cells.toList.Pairwise fun x y => x.1 < y.1) (hhigh : high ≤ cells.size) :
    search cells slot low high = some a ↔
      ∃ i, low ≤ i ∧ i < high ∧ cells[i]? = some (slot, a) := by
  have hlt : ∀ {i j : Nat} {x y : Nat × α}, cells[i]? = some x → cells[j]? = some y → i < j →
      x.1 < y.1 := by
    intro i j x y hx hy hij
    rw [← Array.getElem?_toList] at hx hy
    obtain ⟨hi, rfl⟩ := List.getElem?_eq_some_iff.mp hx
    obtain ⟨hj, rfl⟩ := List.getElem?_eq_some_iff.mp hy
    exact List.pairwise_iff_getElem.mp hascending i j hi hj hij
  -- what stands at a slot stands in one place only
  have hplace : ∀ {i j : Nat} {x y : Nat × α}, cells[i]? = some x → cells[j]? = some y →
      x.1 = y.1 → i = j := by
    intro i j x y hx hy hxy
    rcases Nat.lt_trichotomy i j with hij | hij | hij
    · exact absurd hxy (Nat.ne_of_lt (hlt hx hy hij))
    · exact hij
    · exact absurd hxy.symm (Nat.ne_of_lt (hlt hy hx hij))
  fun_induction search cells slot low high with
  | case1 low high hbounds middle hnone =>
    have hmiddle : middle < cells.size := by omega
    rw [Array.getElem?_eq_getElem hmiddle] at hnone
    cases hnone
  | case2 low high hbounds middle b hmiddle =>
    constructor
    · intro hab
      obtain rfl := Option.some.inj hab
      exact ⟨middle, by omega, by omega, hmiddle⟩
    · rintro ⟨i, -, -, hi⟩
      obtain rfl := hplace hi hmiddle rfl
      rw [hmiddle] at hi
      exact congrArg (·.map Prod.snd) hi
  | case3 low high hbounds middle s b hmiddle hne hless ih =>
    refine (ih hhigh).trans ?_
    constructor
    · rintro ⟨i, hlow, hi⟩
      exact ⟨i, by omega, hi⟩
    · rintro ⟨i, hlow, hi, hcell⟩
      refine ⟨i, ?_, hi, hcell⟩
      -- the element cannot be in front of the middle
      by_contra hfront
      rcases Nat.lt_or_eq_of_le (show i ≤ middle by omega) with him | rfl
      · have := hlt hcell hmiddle him
        omega
      · rw [hmiddle] at hcell
        exact hne (congrArg Prod.fst (Option.some.inj hcell))
  | case4 low high hbounds middle s b hmiddle hne hless ih =>
    refine (ih (by omega)).trans ?_
    constructor
    · rintro ⟨i, hlow, hi, hcell⟩
      exact ⟨i, hlow, by omega, hcell⟩
    · rintro ⟨i, hlow, hi, hcell⟩
      refine ⟨i, hlow, ?_, hcell⟩
      -- the element cannot be behind the middle
      by_contra hbehind
      rcases Nat.lt_or_eq_of_le (show middle ≤ i by omega) with him | rfl
      · have := hlt hmiddle hcell him
        omega
      · rw [hmiddle] at hcell
        exact hne (congrArg Prod.fst (Option.some.inj hcell))
  | case5 low high hbounds =>
    constructor
    · intro hnone
      cases hnone
    · rintro ⟨i, hlow, hi, -⟩
      omega

/-- An element is found exactly at the slot that it starts at. -/
theorem get?_eq_some : v.get? slot = some a ↔ (slot, a) ∈ v.entries := by
  rw [get?, search_eq_some v.ascending (Nat.le_refl _), entries, List.mem_iff_getElem?]
  constructor
  · rintro ⟨i, -, -, hi⟩
    exact ⟨i, by rwa [Array.getElem?_toList]⟩
  · rintro ⟨i, hi⟩
    rw [Array.getElem?_toList] at hi
    obtain ⟨hlt, -⟩ := Array.getElem?_eq_some_iff.mp hi
    exact ⟨i, Nat.zero_le i, hlt, hi⟩

theorem get?_lt (h : v.get? slot = some a) : v.start ≤ slot ∧ slot < v.next :=
  v.within _ (get?_eq_some.mp h)

/-! ## Adding elements and taking them off -/

@[simp] theorem entries_empty (start : Nat) : (empty start : SlotVec α).entries = [] := rfl

section push

variable [Width α]

@[simp] theorem start_push : (v.push a).start = v.start := rfl

@[simp] theorem next_push : (v.push a).next = v.next + width a := rfl

@[simp] theorem entries_push : (v.push a).entries = v.entries ++ [(v.next, a)] :=
  Array.toList_push

theorem values_push : (v.push a).values = v.values ++ [a] := by
  rw [values, entries_push, List.map_append]
  rfl

theorem get?_push_of_get? (h : v.get? slot = some b) : (v.push a).get? slot = some b := by
  rw [get?_eq_some] at h ⊢
  rw [entries_push]
  exact List.mem_append_left _ h

theorem get?_push_next : (v.push a).get? v.next = some a := by
  rw [get?_eq_some, entries_push]
  exact List.mem_append_right _ List.mem_cons_self

/-- Behind an element that is added there is what was there before, and the element. -/
theorem get?_push_cases (h : (v.push a).get? slot = some b) :
    v.get? slot = some b ∨ slot = v.next ∧ b = a := by
  rw [get?_eq_some, entries_push, List.mem_append, List.mem_singleton, Prod.mk.injEq] at h
  exact h.imp_left get?_eq_some.mpr

end push

theorem pop_of_nil (h : v.entries = []) : v.pop = (none, v) := by
  have hsize : ¬ 0 < v.cells.size := by
    rw [← Array.length_toList, show v.cells.toList = [] from h]
    exact Nat.lt_irrefl 0
  rw [pop, dif_neg hsize]

/-- What taking the last element off leaves. -/
theorem pop_of_append {es : List (Nat × α)} {s : Nat} (h : v.entries = es ++ [(s, a)]) :
    v.pop.1 = some a ∧ v.pop.2.start = v.start ∧ v.pop.2.entries = es ∧ v.pop.2.next = s := by
  have hsize : 0 < v.cells.size := by
    rw [← Array.length_toList, show v.cells.toList = es ++ [(s, a)] from h]
    simp
  have hsplit := (v.toList_cells_split hsize).symm.trans h
  obtain ⟨hes, hlast⟩ := List.append_inj' hsplit rfl
  obtain hlast : v.cells.back hsize = (s, a) := List.cons.inj hlast |>.1
  rw [pop, dif_pos hsize]
  exact ⟨congrArg (some ∘ Prod.snd) hlast, rfl, hes, congrArg Prod.fst hlast⟩

/-! ## A history of a vector -/

variable [Width α] {start : Nat} {as bs : List α}

/-- How many slots some elements take up together. -/
def widths : List α → Nat
  | [] => 0
  | a :: as => width a + widths as

/-- Elements one behind the other from a slot on, each with the slot that it starts at. -/
def placedFrom (slot : Nat) : List α → List (Nat × α)
  | [] => []
  | a :: as => (slot, a) :: placedFrom (slot + width a) as

theorem widths_append (as bs : List α) : widths (as ++ bs) = widths as + widths bs := by
  induction as with
  | nil => exact (Nat.zero_add _).symm
  | cons a as ih => rw [List.cons_append, widths, widths, ih, Nat.add_assoc]

theorem placedFrom_append (slot : Nat) (as bs : List α) :
    placedFrom slot (as ++ bs) = placedFrom slot as ++ placedFrom (slot + widths as) bs := by
  induction as generalizing slot with
  | nil => rfl
  | cons a as ih =>
    rw [List.cons_append, placedFrom, placedFrom, ih, widths, Nat.add_assoc, List.cons_append]

/-- **An element starts behind those in front of it.** -/
theorem getElem?_placedFrom (slot : Nat) (as : List α) (i : Nat) :
    (placedFrom slot as)[i]? = as[i]?.map fun a => (slot + widths (as.take i), a) := by
  induction as generalizing slot i with
  | nil => rfl
  | cons a as ih =>
    cases i with
    | zero => rfl
    | succ i =>
      rw [placedFrom, List.getElem?_cons_succ, ih, List.getElem?_cons_succ, List.take_succ_cons,
        widths, Nat.add_assoc]

/-- What may be done to a vector. -/
inductive Step (α : Type) where
  | push (a : α)
  | pop
  | clear

namespace Step

/-- What a step does to a vector. -/
def on (v : SlotVec α) : Step α → SlotVec α
  | push a => v.push a
  | pop => v.pop.2
  | clear => v.clear

/-- What a step does to the elements. -/
def onElements (as : List α) : Step α → List α
  | push a => as ++ [a]
  | pop => as.dropLast
  | clear => []

end Step

/-- The vector behind some steps. -/
def run (start : Nat) (steps : List (Step α)) : SlotVec α := steps.foldl Step.on (empty start)

/-- The elements that are there after some steps. -/
def elements (steps : List (Step α)) : List α := steps.foldl Step.onElements []

/-- The vector holds these elements from its first slot on. -/
structure Holds (v : SlotVec α) (start : Nat) (as : List α) : Prop where
  start_eq : v.start = start
  entries_eq : v.entries = placedFrom start as
  next_eq : v.next = start + widths as

theorem holds_empty (start : Nat) : (empty start : SlotVec α).Holds start [] := ⟨rfl, rfl, rfl⟩

theorem Holds.push (h : v.Holds start as) (a : α) : (v.push a).Holds start (as ++ [a]) where
  start_eq := h.start_eq
  entries_eq := by
    rw [entries_push, h.entries_eq, h.next_eq, placedFrom_append]
    rfl
  next_eq := by
    rw [next_push, h.next_eq, widths_append, widths, Nat.add_assoc]
    rfl

theorem Holds.pop (h : v.Holds start as) :
    v.pop.1 = as.getLast? ∧ v.pop.2.Holds start as.dropLast := by
  rcases List.eq_nil_or_concat as with rfl | ⟨rest, a, rfl⟩
  · rw [pop_of_nil h.entries_eq]
    exact ⟨rfl, h⟩
  · rw [List.concat_eq_append] at h ⊢
    have hentries := h.entries_eq
    rw [placedFrom_append] at hentries
    obtain ⟨hlast, hstart, hrest, hnext⟩ := pop_of_append hentries
    rw [List.getLast?_concat, List.dropLast_concat]
    exact ⟨hlast, hstart.trans h.start_eq, hrest, hnext⟩

/-- What one step does to the elements that a vector holds. -/
theorem Holds.step (h : v.Holds start as) (s : Step α) :
    (s.on v).Holds start (s.onElements as) := by
  cases s with
  | push a => exact h.push a
  | pop => exact h.pop.2
  | clear =>
    have hempty := holds_empty (α := α) v.start
    rw [h.start_eq] at hempty
    rw [Step.on, clear, h.start_eq]
    exact hempty

/-- An element is found at the slot behind those in front of it, and nowhere else. -/
theorem Holds.get?_eq_some (h : v.Holds start as) :
    v.get? slot = some a ↔ ∃ i, as[i]? = some a ∧ slot = start + widths (as.take i) := by
  rw [SlotVec.get?_eq_some, h.entries_eq, List.mem_iff_getElem?]
  simp only [getElem?_placedFrom, Option.map_eq_some_iff, Prod.mk.injEq]
  constructor
  · rintro ⟨i, b, hi, rfl, rfl⟩
    exact ⟨i, hi, rfl⟩
  · rintro ⟨i, hi, rfl⟩
    exact ⟨i, a, hi, rfl, rfl⟩

end ClassWeave.SlotVec
