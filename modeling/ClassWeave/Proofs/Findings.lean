import ClassWeave.Frame.Verify
import ClassWeave.Proofs.Decoding
import ClassWeave.Proofs.StoredFrames

/-!
# What checking finds

Checking looks up the first entry at an offset, collects the offsets that need a frame, and reads
attributes by their names. Nothing is found if every needed frame is stored and every stored frame
accepts what the code brings.
-/

namespace ClassWeave

/-- In front of the next instruction there are nothing but markers. -/
theorem nextReal?_eq_some {nodes : Array Node} {i j : Nat} (h : nextReal? nodes i = some j) :
    i ≤ j ∧ (∃ n, nodes[j]? = some n ∧ n.isReal) ∧
      ∀ k n, i ≤ k → k < j → nodes[k]? = some n → n.isReal = false := by
  fun_induction nextReal? nodes i with
  | case1 i hlt hreal =>
    obtain rfl := Option.some.inj h
    refine ⟨Nat.le_refl i, ⟨_, Array.getElem?_eq_getElem hlt, hreal⟩, fun k n hik hki => ?_⟩
    omega
  | case2 i hlt hreal ih =>
    obtain ⟨hle, hj, hmarks⟩ := ih h
    refine ⟨Nat.le_of_succ_le hle, hj, fun k n hik hkj hk => ?_⟩
    rcases Nat.lt_or_eq_of_le hik with hik | rfl
    · exact hmarks k n hik hkj hk
    · rw [Array.getElem?_eq_getElem hlt, Option.some.injEq] at hk
      rw [← hk]
      simpa using hreal
  | case3 i hge => cases h

/-- The frame at an entry is that of the next instruction. -/
theorem Analysis.frameAt?_eq_some {a : Analysis} {nodes : Array Node} {i : Nat} {f : Frame} :
    a.frameAt? nodes i = some f ↔
      ∃ j, nextReal? nodes i = some j ∧ a.frames[j]? = some (some f) := by
  simp only [frameAt?, Option.bind_eq_some_iff, Option.join_eq_some_iff]

namespace Verify

namespace Subject

variable (s : Subject)

/-- At an offset the first entry is looked up. -/
theorem getElem?_nodeTable (o : Nat) : s.nodeTable[o]? = s.offsets.toList.idxOf? o := by
  have general : ∀ (k : Nat) (table : Std.HashMap Nat Nat) (offsets : List Nat),
      ((offsets.zipIdx k).foldl (fun table p => table.insertIfNew p.1 p.2) table)[o]? =
        table[o]?.or ((offsets.idxOf? o).map (k + ·)) := by
    intro k table offsets
    induction offsets generalizing k table with
    | nil => simp
    | cons o' offsets ih =>
      rw [List.zipIdx_cons, List.foldl_cons, ih, Std.HashMap.getElem?_insertIfNew, List.idxOf?_cons]
      by_cases ho : o' = o
      · subst ho
        by_cases hmem : o' ∈ table
        · simp [hmem]
        · simp [hmem]
      · have hshift : ∀ i : Nat, k + 1 + i = k + (i + 1) := fun i => by omega
        simp [ho, Function.comp_def, hshift]
  have hall := general 0 ∅ s.offsets.toList
  simp only [Nat.zero_add, Std.HashMap.getElem?_empty, Option.none_or, Option.map_id'] at hall
  exact hall

/-- An offset needs a frame if control goes there by a jump or an exception, or if it is behind an
instruction that control does not pass. -/
inductive Needs (o : Nat) : Prop
  | target {i j : Nat} {n : Node} {lab : Label} (hn : s.list.nodes[i]? = some n)
      (hlab : lab ∈ n.targets) (hj : lab.position? s.list.labelPositions = some j)
      (ho : s.offsets[j]? = some o) : Needs o
  | behind {i : Nat} {n : Node} (hn : s.list.nodes[i]? = some n) (hreal : n.isReal)
      (hfall : n.fallsThrough = false) (ho : s.offsets[i + 1]? = some o)
      (hlt : o < s.codeLength) : Needs o
  | handler {b : TryBlock} {j : Nat} (hb : b ∈ s.list.blocks)
      (hj : b.handler.position? s.list.labelPositions = some j)
      (ho : s.offsets[j]? = some o) : Needs o

theorem needs_of_mem {o : Nat} (ho : o ∈ s.needed) : s.Needs o := by
  rw [needed, mem_eraseReps, List.mem_mergeSort] at ho
  rcases List.mem_append.mp ho with ho | ho
  · obtain ⟨⟨n, i⟩, hmem, ho⟩ := List.mem_flatMap.mp ho
    have hn := List.mem_zipIdx_iff_getElem?.mp hmem
    rw [Array.getElem?_toList] at hn
    rcases List.mem_append.mp ho with ho | ho
    · obtain ⟨lab, hlab, ho⟩ := List.mem_filterMap.mp ho
      obtain ⟨j, hj, ho⟩ := Option.bind_eq_some_iff.mp ho
      exact .target hn hlab hj ho
    · obtain ⟨ho, hlt⟩ := List.mem_filter.mp ho
      by_cases hnext : (n.isReal && !n.fallsThrough) = true
      · rw [if_pos hnext, Option.mem_toList] at ho
        rw [Bool.and_eq_true, Bool.not_eq_true'] at hnext
        exact .behind hn hnext.1 hnext.2 ho (of_decide_eq_true hlt)
      · rw [if_neg hnext] at ho
        cases ho
  · obtain ⟨b, hb, ho⟩ := List.mem_filterMap.mp ho
    obtain ⟨j, hj, ho⟩ := Option.bind_eq_some_iff.mp ho
    exact .handler hb hj ho

/-- Nothing is found if every needed frame is stored and nothing is wrong with those stored. -/
theorem check_eq_nil {recorded : List (Nat × NamedFrame)}
    (hneeded : ∀ o, s.Needs o → o ∈ recorded.map Prod.fst)
    (hstored : ∀ r ∈ recorded, s.checkStored s.nodeTable r.1 r.2 = none) :
    s.check recorded = [] := by
  have hcontains : ∀ o, (recorded.foldl (fun (set : Std.HashSet Nat) p => set.insert p.1) ∅).contains
      o = (recorded.map Prod.fst).contains o := Code.contains_starts recorded
  refine List.append_eq_nil_iff.mpr ⟨?_, List.filterMap_eq_nil_iff.mpr hstored⟩
  rw [List.map_eq_nil_iff, List.filter_eq_nil_iff]
  intro o ho
  have hmem := List.contains_iff_mem.mpr (hneeded o (s.needs_of_mem ho))
  rw [← hcontains] at hmem
  simpa using hmem

end Subject

/-! ## Attributes by name -/

section attributes

variable {α : Type} {pool : Pool} {name : String} {r : Reader α} {as bs : List Attribute}

/-- The attributes have names, and not the given one. -/
def Others (pool : Pool) (name : String) (as : List Attribute) : Prop :=
  ∀ a ∈ as, ∃ other, a.Named pool other ∧ other ≠ name

theorem foldlM_others (h : Others pool name as) (found : Option α) :
    as.foldlM (fun found a => do
      if (← pool.utf8 a.name) = name then return some (← ClassError.reading r a.info)
      else return found) found = .ok found := by
  induction as with
  | nil => rfl
  | cons a as ih =>
    obtain ⟨other, hother, hne⟩ := h a List.mem_cons_self
    refine bind_eq_ok.mpr ⟨found, ?_, ih fun b hb => h b (List.mem_cons_of_mem _ hb)⟩
    refine bind_eq_ok.mpr ⟨other, hother, ?_⟩
    rw [if_neg hne]
    rfl

/-- Nothing is read if no attribute has the name. -/
theorem readAttribute_others (h : Others pool name as) : readAttribute pool name r as = .ok none :=
  foldlM_others h none

/-- The one attribute with the name is read. -/
theorem readAttribute_one {a : Attribute} {v : α} (has : Others pool name as)
    (hbs : Others pool name bs) (ha : a.Named pool name)
    (hv : ClassError.reading r a.info = .ok v) :
    readAttribute pool name r (as ++ a :: bs) = .ok (some v) := by
  unfold readAttribute
  rw [List.foldlM_append, foldlM_others has]
  refine bind_eq_ok.mpr ⟨none, rfl, bind_eq_ok.mpr ⟨some v, ?_, foldlM_others hbs _⟩⟩
  refine bind_eq_ok.mpr ⟨name, ha, ?_⟩
  rw [if_pos rfl, hv]
  rfl

end attributes

end Verify
end ClassWeave
