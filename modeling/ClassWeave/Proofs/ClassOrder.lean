import ClassWeave.Proofs.Hierarchies

/-!
# The order of classes

A table of super classes without cycles puts all classes in order, whether it names them or not: a
class is below those in its chain of super classes, and below the root class. The class that two
classes have in common is the least one above both. That settles everything about it, since
there is only one such class: the laws of joins follow without another look at how it is found.
-/

namespace ClassWeave.SuperTable

variable {t : SuperTable} {a b c m n : String}

/-- The second class is the root class, or occurs in the chain of super classes that starts at the
first. -/
def Below (t : SuperTable) (a b : String) : Prop := b = rootClass ∨ t.Extends a b

/-- The class is above two others, and below every class above both. -/
structure LeastAbove (t : SuperTable) (a b m : String) : Prop where
  left : t.Below a m
  right : t.Below b m
  least : ∀ n, t.Below a n → t.Below b n → t.Below m n

/-! ## An order -/

theorem Extends.below (h : t.Extends a b) : t.Below a b := .inr h

theorem below_refl (a : String) : t.Below a a := .inr Relation.ReflTransGen.refl

theorem below_root (a : String) : t.Below a rootClass := .inl rfl

theorem Forest.eq_root_of_below (ht : t.Forest) (h : t.Below rootClass a) : a = rootClass :=
  h.elim id ht.eq_of_root_extends

theorem Forest.below_trans (ht : t.Forest) (hab : t.Below a b) (hbc : t.Below b c) :
    t.Below a c := by
  rcases hbc with hc | hbc
  · exact .inl hc
  · rcases hab with rfl | hab
    · exact .inl (ht.eq_of_root_extends hbc)
    · exact .inr (Relation.ReflTransGen.trans hab hbc)

theorem Forest.below_antisymm (ht : t.Forest) (hab : t.Below a b) (hba : t.Below b a) : a = b := by
  rcases hab with rfl | hab
  · exact ht.eq_root_of_below hba
  · rcases hba with rfl | hba
    · exact (ht.eq_of_root_extends hab).symm
    · exact ht.extends_antisymm hab hba

/-! ## The least class above two others -/

theorem LeastAbove.symm (h : t.LeastAbove a b m) : t.LeastAbove b a m where
  left := h.right
  right := h.left
  least n hb ha := h.least n ha hb

theorem LeastAbove.of_below (h : t.Below a b) : t.LeastAbove a b b where
  left := h
  right := below_refl b
  least _ _ hb := hb

theorem LeastAbove.unique (ht : t.Forest) (hm : t.LeastAbove a b m) (hn : t.LeastAbove a b n) :
    m = n :=
  ht.below_antisymm (hm.least n hn.left hn.right) (hn.least m hm.left hm.right)

/-- The least class above two classes and a third one, whichever two are looked at first. -/
theorem LeastAbove.assoc (ht : t.Forest) {ab bc : String} (hab : t.LeastAbove a b ab)
    (hbc : t.LeastAbove b c bc) (hm : t.LeastAbove ab c m) : t.LeastAbove a bc m where
  left := ht.below_trans hab.left hm.left
  right := hbc.least m (ht.below_trans hab.right hm.left) hm.right
  least n ha hn := by
    have hb : t.Below b n := ht.below_trans hbc.left hn
    have hc : t.Below c n := ht.below_trans hbc.right hn
    exact hm.least n (hab.least n ha hb) hc

/-- Two chains that have a class in common meet at the first such class; two that have none, at the
root class, even if neither of them leads there. -/
theorem Forest.leastAbove_commonSuper (ht : t.Forest) (a b : String) :
    t.LeastAbove a b (t.commonSuper a b) := by
  rcases commonSuper_cases ht a b with ⟨ha, hb, hleast⟩ | ⟨hroot, hnone⟩
  · refine ⟨.inr ha, .inr hb, fun n hna hnb => ?_⟩
    rcases hna with hn | hna
    · exact .inl hn
    · rcases hnb with hn | hnb
      · exact .inl hn
      · exact .inr (hleast n hna hnb)
  · rw [hroot]
    refine ⟨below_root a, below_root b, fun n hna hnb => ?_⟩
    rcases hna with hn | hna
    · exact .inl hn
    · rcases hnb with hn | hnb
      · exact .inl hn
      · exact absurd hnb (hnone n hna)

/-- **The class in common is the least one above both**, so it does not matter in which order
classes meet, and a class that is above another one takes its place. -/
theorem commonSuper_least (ht : t.Forest) :
    (∀ a b, t.LeastAbove a b (t.commonSuper a b)) ∧
      (∀ a b, t.commonSuper a b = t.commonSuper b a) ∧
      (∀ a b c, t.commonSuper (t.commonSuper a b) c = t.commonSuper a (t.commonSuper b c)) ∧
      (∀ a, t.commonSuper a a = a) ∧
      (∀ a, t.commonSuper a rootClass = rootClass ∧ t.commonSuper rootClass a = rootClass) ∧
      ∀ a b, t.Extends a b → t.commonSuper a b = b := by
  have hleast := ht.leastAbove_commonSuper
  have hbelow : ∀ a b, t.Below a b → t.commonSuper a b = b := fun a b h =>
    (hleast a b).unique ht (.of_below h)
  have hcomm : ∀ a b, t.commonSuper a b = t.commonSuper b a := fun a b =>
    (hleast a b).unique ht (hleast b a).symm
  refine ⟨hleast, hcomm, fun a b c => ?_, fun a => ?_, fun a => ?_, fun a b h => ?_⟩
  · exact ((hleast a b).assoc ht (hleast b c) (hleast _ c)).unique ht (hleast a _)
  · exact hbelow a a (below_refl a)
  · exact ⟨hbelow a _ (below_root a), (hcomm _ a).trans (hbelow a _ (below_root a))⟩
  · exact hbelow a b h.below

/-! ## A small forest -/

/-- A table in which every class has a lower rank than its super class has no cycles. -/
theorem forest_of_rank (rank : String → Nat) (hrank : ∀ a b, t.Parent a b → rank a < rank b)
    (hroot : t[rootClass]? = none) : t.Forest where
  acyclic := by
    have hup : ∀ {a b}, Relation.TransGen t.Parent a b → rank a < rank b := by
      intro a b hab
      induction hab with
      | single h => exact hrank _ _ h
      | tail _ h ih => exact Nat.lt_trans ih (hrank _ _ h)
    exact fun a ha => Nat.lt_irrefl _ (hup ha)
  root := hroot

/-- Pets and vans: one chain leads to the root class, the other one just ends. -/
def petsAndVans : SuperTable :=
  (((((∅ : SuperTable).insert "a/Cat" "a/Animal").insert "a/Dog" "a/Animal").insert
    "a/Animal" rootClass).insert "a/Puppy" "a/Dog").insert "b/Van" "b/Car"

theorem parent_petsAndVans : petsAndVans.Parent a b ↔ (a, b) ∈ [("a/Cat", "a/Animal"),
    ("a/Dog", "a/Animal"), ("a/Animal", rootClass), ("a/Puppy", "a/Dog"), ("b/Van", "b/Car")] := by
  simp only [Parent, petsAndVans, Std.HashMap.getElem?_insert, beq_iff_eq, Std.HashMap.getElem?_empty,
    List.mem_cons, Prod.mk.injEq, List.not_mem_nil, or_false]
  grind

/-- How far above the lowest pets a class is. -/
def petRank (cls : String) : Nat :=
  if cls = "a/Dog" then 1
  else if cls = "a/Animal" ∨ cls = "b/Car" then 2
  else if cls = rootClass then 3
  else 0

theorem forest_petsAndVans : petsAndVans.Forest := by
  have hrank : ∀ p ∈ [("a/Cat", "a/Animal"), ("a/Dog", "a/Animal"), ("a/Animal", rootClass),
      ("a/Puppy", "a/Dog"), ("b/Van", "b/Car")], petRank p.1 < petRank p.2 := by
    decide +kernel
  refine forest_of_rank petRank (fun a b hab => ?_) ?_
  · exact hrank (a, b) (parent_petsAndVans.mp hab)
  · simp [petsAndVans, rootClass]

theorem petsAndVans_least :
    petsAndVans.Forest ∧
      petsAndVans.LeastAbove "a/Cat" "a/Puppy" (petsAndVans.commonSuper "a/Cat" "a/Puppy") ∧
      petsAndVans.commonSuper "a/Cat" "b/Van" = petsAndVans.commonSuper "b/Van" "a/Cat" ∧
      petsAndVans.commonSuper "b/Van" rootClass = rootClass ∧
      petsAndVans.commonSuper "a/Puppy" "a/Animal" = "a/Animal" := by
  obtain ⟨hleast, hcomm, -, -, hroot, hup⟩ := commonSuper_least forest_petsAndVans
  have hpuppy : petsAndVans.Parent "a/Puppy" "a/Dog" := parent_petsAndVans.mpr (by simp)
  have hdog : petsAndVans.Parent "a/Dog" "a/Animal" := parent_petsAndVans.mpr (by simp)
  exact ⟨forest_petsAndVans, hleast _ _, hcomm _ _, (hroot _).1,
    hup _ _ (.head hpuppy (.head hdog .refl))⟩

end ClassWeave.SuperTable
