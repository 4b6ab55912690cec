import Mathlib.Logic.Relation
import ClassWeave.Frame.Hierarchy

/-!
# What a table of super classes has to be like

A class should have one chain of super classes that leads up and never back. Then the class
that two classes have in common is the least one above both: `Hierarchy.Lawful` collects the few
laws that everything about frames rests on, and `Hierarchy.Sound.lawful` derives them for tables
without cycles.
-/

namespace ClassWeave

namespace SuperTable

variable (t : SuperTable)

/-- The table gives the second class as the super class of the first. -/
def Parent (a b : String) : Prop := t[a]? = some b

/-- The second class is the first one or comes above it in the table. -/
def Extends (a b : String) : Prop := Relation.ReflTransGen t.Parent a b

/-- No class is above itself, and nothing is above the root class. -/
structure Forest : Prop where
  acyclic : ∀ a, ¬ Relation.TransGen t.Parent a a
  root : t[rootClass]? = none

/-- No class is above itself, nothing is above the root class, and arrays are left out. -/
structure Sound : Prop where
  acyclic : ∀ a, ¬ Relation.TransGen t.Parent a a
  root : t[rootClass]? = none
  plain : ∀ a b, t.Parent a b → ¬ a.startsWith "[" ∧ ¬ b.startsWith "["

variable {t}

theorem Sound.forest (ht : t.Sound) : t.Forest := ⟨ht.acyclic, ht.root⟩

theorem parent_unique {a b c : String} (hb : t.Parent a b) (hc : t.Parent a c) : b = c :=
  Option.some.inj (hb.symm.trans hc)

theorem Forest.extends_antisymm (ht : t.Forest) {a b : String} (hab : t.Extends a b)
    (hba : t.Extends b a) : a = b := by
  rcases Relation.reflTransGen_iff_eq_or_transGen.mp hab with h | h
  · exact h.symm
  · exact absurd (h.trans_left hba) (ht.acyclic a)

/-- Two classes above the same one lie on one chain. -/
theorem extends_total {a b c : String} (hb : t.Extends a b) (hc : t.Extends a c) :
    t.Extends b c ∨ t.Extends c b :=
  Relation.ReflTransGen.total_of_right_unique (fun _ _ _ => parent_unique) hb hc

/-! ## Chains -/

/-- How far the walk of `chain` has come: the classes seen are different, all of them lead to the
class that comes next, and all but that one have a super class. -/
structure Walk (seen : List String) (cls : String) (fuel : Nat) : Prop where
  nodup : seen.Nodup
  reach : ∀ s ∈ seen, t.Extends s cls
  keys : ∀ s ∈ seen, s ≠ cls → s ∈ t
  mem : cls ∈ seen
  room : seen.length + fuel = t.size + 1

theorem Walk.start (cls : String) : Walk (t := t) [cls] cls t.size where
  nodup := by simp
  reach := by
    intro s hs
    rw [List.mem_singleton.mp hs]
    exact Relation.ReflTransGen.refl
  keys := by simp
  mem := by simp
  room := by simp [Nat.add_comm]

theorem Walk.not_seen (ht : t.Forest) {seen : List String} {cls parent : String} {fuel : Nat}
    (w : Walk (t := t) seen cls fuel) (h : t[cls]? = some parent) : parent ∉ seen := fun hmem =>
  ht.acyclic cls (Relation.TransGen.head' h (w.reach parent hmem))

theorem Walk.step (ht : t.Forest) {seen : List String} {cls parent : String} {fuel : Nat}
    (w : Walk (t := t) seen cls (fuel + 1)) (h : t[cls]? = some parent) :
    Walk (t := t) (parent :: seen) parent fuel where
  nodup := List.nodup_cons.mpr ⟨w.not_seen ht h, w.nodup⟩
  reach := by
    intro s hs
    rcases List.mem_cons.mp hs with rfl | hs
    · exact Relation.ReflTransGen.refl
    · exact (w.reach s hs).tail h
  keys := by
    intro s hs hne
    rcases List.mem_cons.mp hs with rfl | hs
    · exact absurd rfl hne
    · by_cases hc : s = cls
      · subst hc
        rw [← Std.HashMap.isSome_getElem?_iff_mem, h]
        rfl
      · exact w.keys s hs hc
  mem := List.mem_cons_self
  room := by
    have := w.room
    simp only [List.length_cons]
    omega

/-- Where the walk runs out of steps, the chain is at its end. -/
theorem Walk.ended {seen : List String} {cls : String} (w : Walk (t := t) seen cls 0) :
    t[cls]? = none := by
  refine Std.HashMap.getElem?_eq_none fun hcls => ?_
  have hsub : seen ⊆ t.keys := by
    intro s hs
    rw [Std.HashMap.mem_keys]
    by_cases hc : s = cls
    · exact hc ▸ hcls
    · exact w.keys s hs hc
  have hle := w.nodup.length_le_of_subset hsub
  rw [Std.HashMap.length_keys] at hle
  have := w.room
  omega

theorem mem_chain (ht : t.Forest) {seen : List String} {cls d : String} {fuel : Nat}
    (w : Walk (t := t) seen cls fuel) : d ∈ chain t seen cls fuel ↔ t.Extends cls d := by
  have atEnd : ∀ {c : String}, t[c]? = none → (d ∈ [c] ↔ t.Extends c d) := by
    intro c hc
    rw [List.mem_singleton]
    refine ⟨fun h => h ▸ Relation.ReflTransGen.refl, fun h => ?_⟩
    rcases Relation.ReflTransGen.cases_head h with h | ⟨e, he, _⟩
    · exact h.symm
    · exact absurd (hc.symm.trans he) (by simp)
  induction fuel generalizing seen cls with
  | zero => exact atEnd w.ended
  | succ fuel ih =>
    unfold chain
    split
    · exact atEnd ‹_›
    · rename_i parent h
      rw [if_neg (w.not_seen ht h), List.mem_cons]
      constructor
      · rintro (rfl | hd)
        · exact Relation.ReflTransGen.refl
        · exact Relation.ReflTransGen.head h ((ih (w.step ht h)).mp hd)
      · intro hd
        rcases Relation.ReflTransGen.cases_head hd with hd | ⟨e, he, hd⟩
        · exact .inl hd.symm
        · exact .inr ((ih (w.step ht h)).mpr (parent_unique h he ▸ hd))

/-- A chain leads upwards. -/
theorem chain_pairwise (ht : t.Forest) {seen : List String} {cls : String} {fuel : Nat}
    (w : Walk (t := t) seen cls fuel) : (chain t seen cls fuel).Pairwise t.Extends := by
  induction fuel generalizing seen cls with
  | zero => exact List.pairwise_singleton _ _
  | succ fuel ih =>
    unfold chain
    split
    · exact List.pairwise_singleton _ _
    · rename_i parent h
      rw [if_neg (w.not_seen ht h)]
      refine List.pairwise_cons.mpr ⟨fun d hd => ?_, ih (w.step ht h)⟩
      exact Relation.ReflTransGen.head h ((mem_chain ht (w.step ht h)).mp hd)

theorem mem_ancestors (ht : t.Forest) {cls d : String} :
    d ∈ t.ancestors cls ↔ t.Extends cls d :=
  mem_chain ht (.start cls)

/-! ## The class in common -/

/-- The class in common is above both classes, and below every other class above both. Where there
is none, the root class takes its place. -/
theorem commonSuper_cases (ht : t.Forest) (a b : String) :
    (t.Extends a (t.commonSuper a b) ∧ t.Extends b (t.commonSuper a b) ∧
      ∀ m, t.Extends a m → t.Extends b m → t.Extends (t.commonSuper a b) m) ∨
    (t.commonSuper a b = rootClass ∧ ∀ m, t.Extends a m → ¬ t.Extends b m) := by
  have eq : t.commonSuper a b =
      ((t.ancestors b).find? fun cls => cls ∈ t.ancestors a).getD rootClass := rfl
  cases h : (t.ancestors b).find? fun cls => cls ∈ t.ancestors a with
  | none =>
    rw [eq, h]
    refine .inr ⟨rfl, fun m ha hb => ?_⟩
    have := List.find?_eq_none.mp h m ((mem_ancestors ht).mpr hb)
    exact this (by simpa using (mem_ancestors ht).mpr ha)
  | some m =>
    rw [eq, h, Option.getD_some]
    obtain ⟨hm, before, after, hlist, hbefore⟩ := List.find?_eq_some_iff_append.mp h
    have hma : m ∈ t.ancestors a := by simpa using hm
    have hmb : m ∈ t.ancestors b := hlist ▸ by simp
    refine .inl ⟨(mem_ancestors ht).mp hma, (mem_ancestors ht).mp hmb, fun m' ha hb => ?_⟩
    have hb' := (mem_ancestors ht).mpr hb
    rw [hlist, List.mem_append, List.mem_cons] at hb'
    rcases hb' with hb' | rfl | hb'
    · have := hbefore m' hb'
      simp [(mem_ancestors ht).mpr ha] at this
    · exact Relation.ReflTransGen.refl
    · have hp := chain_pairwise ht (.start b)
      rw [show chain t [b] b t.size = before ++ m :: after from hlist] at hp
      exact (List.pairwise_cons.mp (List.pairwise_append.mp hp).2.1).1 m' hb'

theorem Forest.eq_of_root_extends (ht : t.Forest) {a : String} (h : t.Extends rootClass a) :
    a = rootClass := by
  rcases Relation.ReflTransGen.cases_head h with h | ⟨e, he, _⟩
  · exact h.symm
  · exact absurd (ht.root.symm.trans he) (by simp)

/-- The first class takes the place of the second. -/
theorem commonSuper_eq_left_iff (ht : t.Forest) {m a : String} :
    t.commonSuper m a = m ↔ m = rootClass ∨ t.Extends a m := by
  rcases commonSuper_cases ht m a with ⟨hm, ha, least⟩ | ⟨hroot, none⟩
  · constructor
    · intro h
      exact .inr (h ▸ ha)
    · rintro (rfl | h)
      · exact ht.eq_of_root_extends hm
      · exact ht.extends_antisymm (least m Relation.ReflTransGen.refl h) hm
  · rw [hroot]
    constructor
    · intro h
      exact .inl h.symm
    · rintro (rfl | h)
      · rfl
      · exact absurd h (none m Relation.ReflTransGen.refl)

end SuperTable

namespace Hierarchy

/-- The table has no cycles, if there is one. Nothing is promised by hierarchies of other kinds. -/
def Sound : Hierarchy → Prop
  | unknown => True
  | known table => table.Sound
  | other _ => False

/-- A class that takes the place of another one when both meet, the first one being there already,
is said to cover it. What covers a class covers all that it covers, and the class that
two classes have in common is the least one that covers both. -/
structure Lawful (h : Hierarchy) : Prop where
  root : ∀ a, h.commonSuper rootClass a = rootClass
  top : ∀ m, h.commonSuper m rootClass = m → m = rootClass
  self : ∀ m a, h.commonSuper m a = m → h.commonSuper m m = m
  left : ∀ a b, h.commonSuper (h.commonSuper a b) a = h.commonSuper a b
  right : ∀ a b, h.commonSuper (h.commonSuper a b) b = h.commonSuper a b
  trans : ∀ m n a, h.commonSuper m n = m → h.commonSuper n a = n → h.commonSuper m a = m
  least : ∀ m a b, h.commonSuper m a = m → h.commonSuper m b = m →
    h.commonSuper m (h.commonSuper a b) = m
  plain : ∀ a b, ¬ a.startsWith "[" → ¬ b.startsWith "[" → ¬ (h.commonSuper a b).startsWith "["

theorem rootClass_plain : ¬ rootClass.startsWith "[" := by
  rw [String.startsWith_string_iff]
  simp [rootClass]

theorem lawful_unknown : Lawful unknown where
  root _ := rfl
  top _ h := h.symm
  self _ _ h := h
  left _ _ := rfl
  right _ _ := rfl
  trans _ _ _ h _ := h
  least _ _ _ h _ := h
  plain _ _ _ _ := rootClass_plain

theorem lawful_known {t : SuperTable} (ht : t.Sound) : Lawful (known t) where
  root a := (SuperTable.commonSuper_eq_left_iff ht.forest).mpr (.inl rfl)
  top m h := by
    rcases (SuperTable.commonSuper_eq_left_iff ht.forest).mp h with hm | hm
    · exact hm
    · exact ht.forest.eq_of_root_extends hm
  self m a _ := (SuperTable.commonSuper_eq_left_iff ht.forest).mpr (.inr Relation.ReflTransGen.refl)
  left a b := by
    refine (SuperTable.commonSuper_eq_left_iff ht.forest).mpr ?_
    rcases SuperTable.commonSuper_cases ht.forest a b with ⟨ha, _, _⟩ | ⟨hroot, _⟩
    · exact .inr ha
    · exact .inl hroot
  right a b := by
    refine (SuperTable.commonSuper_eq_left_iff ht.forest).mpr ?_
    rcases SuperTable.commonSuper_cases ht.forest a b with ⟨_, hb, _⟩ | ⟨hroot, _⟩
    · exact .inr hb
    · exact .inl hroot
  trans m n a hm hn := by
    refine (SuperTable.commonSuper_eq_left_iff ht.forest).mpr ?_
    rcases (SuperTable.commonSuper_eq_left_iff ht.forest).mp hm with hm | hm
    · exact .inl hm
    · rcases (SuperTable.commonSuper_eq_left_iff ht.forest).mp hn with rfl | hn
      · exact .inl (ht.forest.eq_of_root_extends hm)
      · exact .inr (Relation.ReflTransGen.trans hn hm)
  least m a b ha hb := by
    refine (SuperTable.commonSuper_eq_left_iff ht.forest).mpr ?_
    rcases (SuperTable.commonSuper_eq_left_iff ht.forest).mp ha with hm | ha
    · exact .inl hm
    · rcases (SuperTable.commonSuper_eq_left_iff ht.forest).mp hb with hm | hb
      · exact .inl hm
      · rcases SuperTable.commonSuper_cases ht.forest a b with ⟨_, _, least⟩ | ⟨_, none⟩
        · exact .inr (least m ha hb)
        · exact absurd hb (none m ha)
  plain a b ha hb := by
    have up : ∀ {c d : String}, t.Extends c d → ¬ c.startsWith "[" → ¬ d.startsWith "[" := by
      intro c d hcd hc
      induction hcd with
      | refl => exact hc
      | tail _ hstep _ => exact (ht.plain _ _ hstep).2
    rcases SuperTable.commonSuper_cases ht.forest a b with ⟨hm, _, _⟩ | ⟨hroot, _⟩
    · exact up hm ha
    · simp only [Hierarchy.commonSuper, hroot]
      exact rootClass_plain

theorem Sound.lawful {h : Hierarchy} (hh : h.Sound) : h.Lawful :=
  match h, hh with
  | unknown, _ => lawful_unknown
  | known _, ht => lawful_known ht

/-- Classes that take the place of each other are the same. -/
theorem Sound.commonSuper_antisymm {h : Hierarchy} (hh : h.Sound) {a b : String}
    (hab : h.commonSuper a b = a) (hba : h.commonSuper b a = b) : a = b := by
  cases h with
  | unknown => exact hab.symm.trans hba
  | other => exact hh.elim
  | known t =>
    have ht : t.Sound := hh
    rcases (SuperTable.commonSuper_eq_left_iff ht.forest).mp hab with rfl | hup
    · exact (hh.lawful.top b hba).symm
    · rcases (SuperTable.commonSuper_eq_left_iff ht.forest).mp hba with rfl | hup'
      · exact hh.lawful.top a hab
      · exact ht.forest.extends_antisymm hup' hup

end Hierarchy
end ClassWeave
