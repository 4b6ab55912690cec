import ClassWeave.Code.Decode
import ClassWeave.Proofs.Listings
import ClassWeave.Proofs.Results

/-!
# Labels in place of offsets

What decoding makes of instructions that were read. Labels are numbered by their offsets, so the
entries of the list that comes out have offsets by which every label can be found; what the list
says can then be told from the instructions that were read.
-/

namespace ClassWeave

/-! ## Runs of the same element -/

section eraseReps

variable {α : Type} [DecidableEq α] {a x : α} {as found : List α}

theorem mem_eraseReps_loop :
    x ∈ List.eraseRepsBy.loop (· == ·) a as found ↔ x = a ∨ x ∈ as ∨ x ∈ found := by
  induction as generalizing a found with
  | nil => simp [List.eraseRepsBy.loop, or_comm]
  | cons b as ih =>
    rw [List.eraseRepsBy.loop]
    split
    · rename_i heq
      obtain rfl := eq_of_beq heq
      rw [ih, List.mem_cons]
      tauto
    · rw [ih, List.mem_cons, List.mem_cons]
      tauto

theorem mem_eraseReps : x ∈ as.eraseReps ↔ x ∈ as := by
  unfold List.eraseReps List.eraseRepsBy
  cases as with
  | nil => rfl
  | cons b as =>
    rw [mem_eraseReps_loop]
    simp

end eraseReps

section sorted

variable {α : Type} [DecidableEq α] {key : α → Nat} {a : α} {as found : List α}

/-- The elements found so far are kept last first, so they descend. -/
theorem sorted_eraseReps_loop (hkey : key.Injective)
    (has : (a :: as).Pairwise fun x y => key x ≤ key y)
    (hfound : (a :: found).Pairwise fun x y => key x > key y) :
    (List.eraseRepsBy.loop (· == ·) a as found).Pairwise fun x y => key x < key y := by
  induction as generalizing a found with
  | nil =>
    rw [List.eraseRepsBy.loop, List.pairwise_reverse]
    exact hfound
  | cons b as ih =>
    obtain ⟨hle, hrest⟩ := List.pairwise_cons.mp has
    rw [List.eraseRepsBy.loop]
    split
    · rename_i heq
      obtain rfl := eq_of_beq heq
      exact ih hrest hfound
    · rename_i hne
      have hlt : key a < key b := by
        have := hle b List.mem_cons_self
        have : key a ≠ key b := fun h => beq_eq_false_iff_ne.mp hne (hkey h)
        omega
      refine ih hrest (List.pairwise_cons.mpr ⟨fun c hc => ?_, hfound⟩)
      rcases List.mem_cons.mp hc with rfl | hc
      · exact hlt
      · exact Nat.lt_trans ((List.pairwise_cons.mp hfound).1 c hc) hlt

/-- Elements in ascending order of their keys, each once. -/
theorem sorted_eraseReps (hkey : key.Injective) (has : as.Pairwise fun x y => key x ≤ key y) :
    as.eraseReps.Pairwise fun x y => key x < key y := by
  unfold List.eraseReps List.eraseRepsBy
  cases as with
  | nil => exact .nil
  | cons a as => exact sorted_eraseReps_loop hkey has (by simp)

omit [DecidableEq α] in
/-- Two lists that ascend are equal if they have the same elements. -/
theorem eq_of_ascending (key : α → Nat) {bs : List α} (has : as.Pairwise fun x y => key x < key y)
    (hbs : bs.Pairwise fun x y => key x < key y) (h : ∀ x, x ∈ as ↔ x ∈ bs) : as = bs := by
  have hnodup : ∀ {cs : List α}, cs.Pairwise (fun x y => key x < key y) → cs.Nodup :=
    fun hcs => hcs.imp fun hlt heq => absurd (congrArg key heq) (Nat.ne_of_lt hlt)
  have hperm := (List.perm_ext_iff_of_nodup (hnodup has) (hnodup hbs)).mpr h
  exact hperm.eq_of_pairwise (fun x y _ _ hxy hyx => absurd hxy (Nat.lt_asymm hyx)) has hbs

end sorted

namespace Code

/-! ## Tables -/

theorem mem_labelOffsets {instrs : List (Nat × Instr Nat)} {handlers : List HandlerEntry}
    {o : Nat} : o ∈ labelOffsets instrs handlers ↔
      (∃ p ∈ instrs, o ∈ p.2.targets) ∨ ∃ h ∈ handlers, o ∈ handlerOffsets h := by
  rw [labelOffsets, mem_eraseReps, List.mem_mergeSort]
  simp

theorem forall_handlerOffsets {h : HandlerEntry} {P : Nat → Prop} :
    (∀ o ∈ handlerOffsets h, P o) ↔ P h.start.toNat ∧ P h.stop.toNat ∧ P h.handler.toNat := by
  simp [handlerOffsets]

theorem sorted_labelOffsets (instrs : List (Nat × Instr Nat)) (handlers : List HandlerEntry) :
    (labelOffsets instrs handlers).Pairwise (· < ·) := by
  refine sorted_eraseReps Function.injective_id ?_
  have hsorted : (List.mergeSort ((instrs.flatMap fun p => p.2.targets) ++
      handlers.flatMap handlerOffsets)).Pairwise fun a b => decide (a ≤ b) = true :=
    List.pairwise_mergeSort (fun a b c hab hbc => by simp at *; omega)
      (fun a b => by simp; omega) _
  exact hsorted.imp fun h => of_decide_eq_true h

/-- Every offset gets the label with its number. -/
theorem getElem?_labelTable {offsets : List Nat} (hnodup : offsets.Nodup) (o : Nat) :
    (labelTable offsets)[o]? = (offsets.idxOf? o).map Label.mk := by
  have general : ∀ (k : Nat) (table : Std.HashMap Nat Label),
      ((offsets.zipIdx k).foldl (fun table p => table.insert p.1 ⟨p.2⟩) table)[o]? =
        ((offsets.idxOf? o).map fun i => ⟨k + i⟩).or table[o]? := by
    induction offsets with
    | nil => intro k table; rfl
    | cons o' offsets ih =>
      intro k table
      obtain ⟨hnot, hnodup⟩ := List.nodup_cons.mp hnodup
      rw [List.zipIdx_cons, List.foldl_cons, ih hnodup, List.idxOf?_cons]
      by_cases ho : o' = o
      · subst ho
        rw [List.idxOf?_eq_none_iff.mpr hnot]
        simp
      · simp only [beq_iff_eq, ho, if_false]
        cases offsets.idxOf? o with
        | none => simp [Std.HashMap.getElem?_insert, ho]
        | some i => simp [Nat.add_assoc, Nat.add_comm 1]
  have := general 0 ∅
  rw [labelTable, this]
  cases offsets.idxOf? o <;> simp

/-- The lines of an offset in order. -/
theorem getD_lineTable (lines : List LineEntry) (o : Nat) :
    (lineTable lines).getD o [] =
      (lines.filter fun l => l.start.toNat = o).map LineEntry.line := by
  rw [lineTable, List.foldl_reverse]
  induction lines with
  | nil => simp
  | cons l lines ih =>
    rw [List.foldr_cons, Std.HashMap.getD_insert]
    by_cases ho : l.start.toNat = o
    · subst ho
      simp [ih]
    · simp [ih, ho]

theorem contains_starts {α : Type} (entries : List (Nat × α)) (o : Nat) :
    (entries.foldl (fun (set : Std.HashSet Nat) p => set.insert p.1) ∅).contains o =
      (entries.map Prod.fst).contains o := by
  have general : ∀ set : Std.HashSet Nat,
      (entries.foldl (fun (set : Std.HashSet Nat) p => set.insert p.1) set).contains o =
        ((entries.map Prod.fst).contains o || set.contains o) := by
    induction entries with
    | nil => intro set; simp
    | cons p entries ih =>
      intro set
      rw [List.foldl_cons, ih, Std.HashSet.contains_insert, List.map_cons, List.contains_cons]
      rw [Bool.beq_comm (a := p.1)]
      cases (entries.map Prod.fst).contains o <;> cases (o == p.1) <;> simp
  simpa using general ∅

/-- Every offset with a label is that of an instruction or the end of the code. -/
theorem strayOffset?_eq_none {length : Nat} {instrs : List (Nat × Instr Nat)}
    {offsets : List Nat} : strayOffset? length instrs offsets = none ↔
      ∀ o ∈ offsets, o ∈ instrs.map Prod.fst ∨ o = length := by
  rw [strayOffset?, List.find?_eq_none]
  refine forall₂_congr fun o _ => ?_
  rw [contains_starts]
  simp only [Bool.and_eq_true, Bool.not_eq_true', bne_iff_ne, not_and, not_not,
    Bool.eq_false_iff, ne_eq, List.contains_iff_mem]
  tauto

/-! ## The entries at every instruction -/

open Listing

section entries

variable {length o : Nat} {labels : Std.HashMap Nat Label}
  {lines : Std.HashMap Nat (List UInt16)} {instrs : List (Nat × Instr Nat)}

/-- The markers in front of the instruction at an offset. -/
def marksAt (labels : Std.HashMap Nat Label) (lines : Std.HashMap Nat (List UInt16))
    (o : Nat) : List (Node × Nat) :=
  (labels[o]?.toList.map fun l => (.label l, o)) ++
    (lines.getD o []).map fun n => (.line n, o)

theorem nodesAt_eq (o : Nat) (i : Instr Nat) :
    nodesAt labels lines o i = marksAt labels lines o ++ [(.instr (i.map (labelOf labels)), o)] :=
  rfl

theorem entries_nil : entries length labels lines [] =
    labels[length]?.toList.map fun l => (.label l, length) := rfl

theorem entries_cons (p : Nat × Instr Nat) : entries length labels lines (p :: instrs) =
    marksAt labels lines p.1 ++
      (.instr (p.2.map (labelOf labels)), p.1) :: entries length labels lines instrs := by
  simp [entries, nodesAt_eq]

theorem mem_marksAt {b : Node × Nat} : b ∈ marksAt labels lines o ↔
    (∃ l, labels[o]? = some l ∧ b = (.label l, o)) ∨
      ∃ n ∈ lines.getD o [], b = (.line n, o) := by
  simp [marksAt, eq_comm]

theorem marksAt_mark {b : Node × Nat} (hb : b ∈ marksAt labels lines o) :
    b.1.isReal = false ∧ b.2 = o := by
  rcases mem_marksAt.mp hb with ⟨_, -, rfl⟩ | ⟨_, -, rfl⟩ <;> exact ⟨rfl, rfl⟩

theorem mem_entries {b : Node × Nat} : b ∈ entries length labels lines instrs ↔
    (∃ p ∈ instrs, b ∈ marksAt labels lines p.1 ∨
      b = (.instr (p.2.map (labelOf labels)), p.1)) ∨
    ∃ l, labels[length]? = some l ∧ b = (.label l, length) := by
  induction instrs with
  | nil => simp [entries_nil, eq_comm]
  | cons p instrs ih =>
    rw [entries_cons, List.mem_append, List.mem_cons, ih]
    simp only [List.mem_cons, exists_eq_or_imp, or_assoc]

theorem entries_offset {b : Node × Nat} (hb : b ∈ entries length labels lines instrs) :
    b.2 ∈ instrs.map Prod.fst ∨ b.2 = length := by
  rcases mem_entries.mp hb with ⟨p, hp, hb⟩ | ⟨_, -, rfl⟩
  · left
    rcases hb with hb | rfl
    · rw [(marksAt_mark hb).2]
      exact List.mem_map_of_mem hp
    · exact List.mem_map_of_mem hp
  · exact .inr rfl

theorem positioned_marks {ms : List (Node × Nat)} {n : Node} {ns : List (Node × Nat)}
    (hms : ∀ b ∈ ms, b.1.isReal = false ∧ b.2 = o) (h : Positioned ((n, o) :: ns)) :
    Positioned (ms ++ (n, o) :: ns) := by
  induction ms with
  | nil => exact h
  | cons a ms ih =>
    obtain ⟨ha, hao⟩ := hms a List.mem_cons_self
    have hrest := ih fun b hb => hms b (List.mem_cons_of_mem _ hb)
    cases ms with
    | nil =>
      refine List.isChain_cons_cons.mpr ⟨?_, hrest⟩
      rw [Behind, if_neg (by simp [ha])]
      exact hao
    | cons b ms =>
      refine List.isChain_cons_cons.mpr ⟨?_, hrest⟩
      rw [Behind, if_neg (by simp [ha]), hao]
      exact (hms b (by simp)).2.symm

/-- The entries have the offset of what comes behind them, which is the end of the code in the end.
-/
theorem positioned_entries_end (hsorted : (instrs.map Prod.fst).Pairwise (· < ·))
    (hlt : ∀ p ∈ instrs, p.1 < length) (l : Label) :
    Positioned (entries length labels lines instrs ++ [(.label l, length)]) := by
  induction instrs with
  | nil =>
    rw [entries_nil]
    cases labels[length]? with
    | none => exact .singleton _
    | some => exact List.isChain_cons_cons.mpr ⟨rfl, .singleton _⟩
  | cons p instrs ih =>
    rw [List.map_cons, List.pairwise_cons] at hsorted
    have hrest := ih hsorted.2 fun q hq => hlt q (List.mem_cons_of_mem _ hq)
    rw [entries_cons, List.append_assoc, List.cons_append]
    refine positioned_marks (fun b hb => marksAt_mark hb) ?_
    have hbehind : ∀ b ∈ entries length labels lines instrs ++ [(.label l, length)], p.1 < b.2 := by
      intro b hb
      rcases List.mem_append.mp hb with hb | hb
      · rcases entries_offset hb with hmem | hend
        · exact hsorted.1 _ hmem
        · rw [hend]
          exact hlt p List.mem_cons_self
      · rw [List.mem_singleton.mp hb]
        exact hlt p List.mem_cons_self
    cases hentries : entries length labels lines instrs ++ [(.label l, length)] with
    | nil => exact .singleton _
    | cons b ns =>
      rw [hentries] at hbehind hrest
      exact List.isChain_cons_cons.mpr ⟨hbehind b List.mem_cons_self, hrest⟩

theorem positioned_entries (hsorted : (instrs.map Prod.fst).Pairwise (· < ·))
    (hlt : ∀ p ∈ instrs, p.1 < length) : Positioned (entries length labels lines instrs) :=
  (positioned_entries_end hsorted hlt ⟨0⟩).left_of_append

theorem reals_marks {ms : List (Node × Nat)} (h : ∀ b ∈ ms, b.1.isReal = false) :
    reals ms = [] := by
  rw [reals, List.filterMap_eq_nil_iff]
  rintro ⟨n, o⟩ hb
  cases n with
  | instr => cases h _ hb
  | _ => rfl

theorem reals_entries : reals (entries length labels lines instrs) =
    instrs.map fun p => (p.1, p.2.map (labelOf labels)) := by
  induction instrs with
  | nil =>
    rw [entries_nil]
    cases labels[length]? <;> rfl
  | cons p instrs ih =>
    rw [entries_cons, reals_append, reals_marks fun b hb => (marksAt_mark hb).1, List.nil_append,
      reals_instr, ih, List.map_cons]

theorem linesAt_marksAt : linesAt (marksAt labels lines o) o = lines.getD o [] := by
  rw [marksAt, linesAt_append]
  have hlabels : linesAt (labels[o]?.toList.map fun l => (.label l, o)) o = [] := by
    cases labels[o]? <;> rfl
  rw [hlabels, List.nil_append]
  induction lines.getD o [] with
  | nil => rfl
  | cons n ns ih => rw [List.map_cons, linesAt_line, if_pos rfl, ih]

theorem linesAt_entries (hsorted : (instrs.map Prod.fst).Pairwise (· < ·))
    (hlt : ∀ p ∈ instrs, p.1 < length) (ho : o ∈ instrs.map Prod.fst) :
    linesAt (entries length labels lines instrs) o = lines.getD o [] := by
  induction instrs with
  | nil => cases ho
  | cons p instrs ih =>
    rw [List.map_cons, List.pairwise_cons] at hsorted
    rw [entries_cons, linesAt_append]
    have hinstr : ∀ ns : List (Node × Nat),
        linesAt ((.instr (p.2.map (labelOf labels)), p.1) :: ns) o = linesAt ns o := fun _ => rfl
    rw [hinstr]
    rcases List.mem_cons.mp ho with rfl | ho
    · -- nothing behind the instruction has its offset
      have hbehind : linesAt (entries length labels lines instrs) p.1 = [] := by
        refine linesAt_eq_nil fun b hb => ?_
        rcases entries_offset hb with hmem | hend
        · exact Nat.ne_of_gt (hsorted.1 _ hmem)
        · rw [hend]
          exact Nat.ne_of_gt (hlt p List.mem_cons_self)
      rw [hbehind, List.append_nil, linesAt_marksAt]
    · have hne : linesAt (marksAt labels lines p.1) o = [] := by
        refine linesAt_eq_nil fun b hb => ?_
        rw [(marksAt_mark hb).2]
        exact Nat.ne_of_lt (hsorted.1 _ ho)
      rw [hne, List.nil_append,
        ih hsorted.2 (fun q hq => hlt q (List.mem_cons_of_mem _ hq)) ho]

theorem offset?_of_mem {l : Label} {ns : List (Node × Nat)} (h : (.label l, o) ∈ ns) :
    ∃ o', offset? l ns = some o' := by
  induction ns with
  | nil => cases h
  | cons p ns ih =>
    obtain ⟨n, o''⟩ := p
    rcases List.mem_cons.mp h with heq | hmem
    · obtain ⟨rfl, rfl⟩ := Prod.mk.inj heq
      rw [offset?_label]
      cases offset? l ns <;> simp
    · obtain ⟨o', ho'⟩ := ih hmem
      rw [offset?, ho']
      exact ⟨o', rfl⟩

end entries

/-! ## The whole list -/

section decode

variable {ctx : Context} {code : List UInt8} {handlers : List HandlerEntry}
  {lines : List LineEntry} {instrs : List (Nat × Instr Nat)} {offsets : List Nat} {length : Nat}

theorem labelOf_labelTable (hnodup : offsets.Nodup) {o k : Nat} (hk : offsets.idxOf? o = some k) :
    labelOf (labelTable offsets) o = ⟨k⟩ := by
  rw [labelOf, Std.HashMap.getD_eq_getD_getElem?, getElem?_labelTable hnodup, hk]
  rfl

theorem eq_of_idxOf? {o o' k : Nat} (h : offsets.idxOf? o = some k)
    (h' : offsets.idxOf? o' = some k) : o = o' := by
  obtain ⟨_, ho, -⟩ := List.idxOf?_eq_some_iff.mp h
  obtain ⟨_, ho', -⟩ := List.idxOf?_eq_some_iff.mp h'
  exact ho.symm.trans ho'

/-- The label of an offset stands at that offset. -/
theorem offset?_entries (hnodup : offsets.Nodup) {o : Nat} (hmem : o ∈ offsets)
    (ho : o ∈ instrs.map Prod.fst ∨ o = length) {table : Std.HashMap Nat (List UInt16)} :
    offset? (labelOf (labelTable offsets) o)
      (entries length (labelTable offsets) table instrs) = some o := by
  obtain ⟨k, hk⟩ : ∃ k, offsets.idxOf? o = some k := by
    cases h : offsets.idxOf? o with
    | none => exact absurd hmem (List.idxOf?_eq_none_iff.mp h)
    | some k => exact ⟨k, rfl⟩
  rw [labelOf_labelTable hnodup hk]
  have hlabel : (labelTable offsets)[o]? = some ⟨k⟩ := by
    rw [getElem?_labelTable hnodup, hk]
    rfl
  have hentry : (.label ⟨k⟩, o) ∈ entries length (labelTable offsets) table instrs := by
    refine mem_entries.mpr ?_
    rcases ho with ho | rfl
    · obtain ⟨p, hp, rfl⟩ := List.mem_map.mp ho
      exact .inl ⟨p, hp, .inl (mem_marksAt.mpr (.inl ⟨_, hlabel, rfl⟩))⟩
    · exact .inr ⟨_, hlabel, rfl⟩
  obtain ⟨o', ho'⟩ := offset?_of_mem hentry
  -- no other offset has the same label
  have hunique : (labelTable offsets)[o']? = some ⟨k⟩ := by
    rcases mem_entries.mp (offset?_mem ho') with ⟨p, -, hmark | heq⟩ | ⟨l, hl, heq⟩
    · rcases mem_marksAt.mp hmark with ⟨l, hl, heq⟩ | ⟨_, -, heq⟩
      · obtain ⟨hnode, rfl⟩ := Prod.mk.inj heq
        rw [hl, Node.label.inj hnode]
      · cases heq
    · cases heq
    · obtain ⟨hnode, rfl⟩ := Prod.mk.inj heq
      rw [hl, Node.label.inj hnode]
  rw [getElem?_labelTable hnodup] at hunique
  obtain ⟨k', hk', heq⟩ := Option.map_eq_some_iff.mp hunique
  rw [Label.mk.inj heq] at hk'
  rw [ho', eq_of_idxOf? hk' hk]

/-- The label of an offset that control goes to. -/
def labelAt (instrs : List (Nat × Instr Nat)) (entries : List HandlerEntry) : Nat → Label :=
  labelOf (labelTable (labelOffsets instrs entries))

/-- Instructions that were read, as they have to be for labels to be found. -/
structure WellRead (length : Nat) (instrs : List (Nat × Instr Nat))
    (handlers : List HandlerEntry) : Prop where
  sorted : (instrs.map Prod.fst).Pairwise (· < ·)
  inside : ∀ p ∈ instrs, p.1 < length
  targets : ∀ p ∈ instrs, ∀ t ∈ p.2.targets, t ∈ instrs.map Prod.fst
  handlers : ∀ h ∈ handlers, ∀ o ∈ handlerOffsets h, o ∈ instrs.map Prod.fst ∨ o = length

theorem WellRead.labelled (h : WellRead length instrs handlers) :
    ∀ o ∈ labelOffsets instrs handlers, o ∈ instrs.map Prod.fst ∨ o = length := by
  intro o ho
  rcases mem_labelOffsets.mp ho with ⟨p, hp, ht⟩ | ⟨b, hb, ho⟩
  · exact .inl (h.targets p hp o ht)
  · exact h.handlers b hb o ho

theorem nodup_labelOffsets : (labelOffsets instrs handlers).Nodup :=
  (sorted_labelOffsets instrs handlers).imp fun h => Nat.ne_of_lt h

/-- The entries of a list that is decoded, with their offsets. -/
def decodedEntries (length : Nat) (instrs : List (Nat × Instr Nat)) (handlers : List HandlerEntry)
    (lines : List LineEntry) : List (Node × Nat) :=
  entries length (labelTable (labelOffsets instrs handlers)) (lineTable lines) instrs

theorem reals_decodedEntries : reals (decodedEntries length instrs handlers lines) =
    instrs.map fun p => (p.1, p.2.map (labelAt instrs handlers)) := reals_entries

theorem WellRead.positioned (h : WellRead length instrs handlers) :
    Positioned (decodedEntries length instrs handlers lines) :=
  positioned_entries h.sorted h.inside

theorem WellRead.offset?_labelAt (h : WellRead length instrs handlers) {o : Nat}
    (ho : o ∈ labelOffsets instrs handlers) : offset? (labelAt instrs handlers o)
      (decodedEntries length instrs handlers lines) = some o :=
  offset?_entries nodup_labelOffsets ho (h.labelled o ho)

theorem labelAt_lt {o : Nat} (ho : o ∈ labelOffsets instrs handlers) :
    (labelAt instrs handlers o).id < (labelOffsets instrs handlers).length := by
  cases hk : (labelOffsets instrs handlers).idxOf? o with
  | none => exact absurd ho (List.idxOf?_eq_none_iff.mp hk)
  | some k =>
    rw [labelAt, labelOf_labelTable nodup_labelOffsets hk]
    exact (List.idxOf?_eq_some_iff.mp hk).1

/-- In front of the label of an offset stand the instructions below it. -/
theorem place?_decodedEntries (h : WellRead length instrs handlers) {o : Nat}
    (ho : o ∈ labelOffsets instrs handlers) :
    place? (labelOf (labelTable (labelOffsets instrs handlers)) o)
      ((decodedEntries length instrs handlers lines).map Prod.fst) =
        some (countBelow (instrs.map Prod.fst) o) := by
  have hoffset : offset? (labelOf (labelTable (labelOffsets instrs handlers)) o)
      (decodedEntries length instrs handlers lines) = some o := h.offset?_labelAt ho
  rw [place?_eq h.positioned, hoffset, reals_decodedEntries, List.map_map]
  rfl

/-- What a list that is decoded says is what the instructions say that were read. -/
theorem view_decodedEntries (h : WellRead length instrs handlers) :
    view (decodedEntries length instrs handlers lines) = instrs.map fun p =>
      (p.1, (lines.filter fun l => l.start.toNat = p.1).map LineEntry.line, p.2.map some) := by
  rw [view, decodedEntries, reals_entries, List.map_map]
  refine List.map_congr_left fun p hp => ?_
  have hlines : linesAt (entries length (labelTable (labelOffsets instrs handlers))
      (lineTable lines) instrs) p.1 = (lineTable lines).getD p.1 [] :=
    linesAt_entries h.sorted h.inside (List.mem_map_of_mem hp)
  simp only [Function.comp_apply, hlines, getD_lineTable, Instr.map_map, Prod.mk.injEq, true_and]
  refine Instr.map_congr fun t ht => ?_
  exact h.offset?_labelAt (mem_labelOffsets.mpr (.inl ⟨p, hp, ht⟩))

/-- Decoding puts labels into the instructions that were read, if every offset with a label has a
place for it and every entry of the exception table can be read. -/
theorem decode_eq_ok_iff {r : InstrList × List Nat} : decode ctx code handlers lines = .ok r ↔
    ∃ instrs blocks, scan ctx code = .ok instrs ∧
      (∀ o ∈ labelOffsets instrs handlers, o ∈ instrs.map Prod.fst ∨ o = code.length) ∧
      handlers.mapM (tryBlock ctx (labelTable (labelOffsets instrs handlers))) = .ok blocks ∧
      r = (InstrList.ofNodes ((decodedEntries code.length instrs handlers lines).map Prod.fst)
          (labelOffsets instrs handlers).length blocks,
        (decodedEntries code.length instrs handlers lines).map Prod.snd) := by
  refine bind_eq_ok.trans (exists_congr fun instrs => ?_)
  rw [exists_and_left]
  refine and_congr_right fun _ => ?_
  simp only [← strayOffset?_eq_none]
  cases strayOffset? code.length instrs (labelOffsets instrs handlers) with
  | some o => simp
  | none =>
    simp only [true_and]
    refine bind_eq_ok.trans (exists_congr fun blocks => and_congr_right fun _ => ?_)
    exact pure_eq_ok.trans eq_comm

theorem decode_eq {blocks : List TryBlock} (hscan : scan ctx code = .ok instrs)
    (h : WellRead code.length instrs handlers)
    (hblocks : handlers.mapM (tryBlock ctx (labelTable (labelOffsets instrs handlers))) =
      .ok blocks) :
    decode ctx code handlers lines = .ok
      (InstrList.ofNodes ((decodedEntries code.length instrs handlers lines).map Prod.fst)
        (labelOffsets instrs handlers).length blocks,
      (decodedEntries code.length instrs handlers lines).map Prod.snd) :=
  decode_eq_ok_iff.mpr ⟨instrs, blocks, hscan, h.labelled, hblocks, rfl⟩

end decode

end Code

namespace Listing

variable {ns : List (Node × Nat)} {o : Nat} {l : Label}

/-- A label stands at its last marker. -/
theorem offset?_split (h : offset? l ns = some o) :
    ∃ as bs, ns = as ++ (.label l, o) :: bs ∧ .label l ∉ bs.map Prod.fst := by
  induction ns with
  | nil => cases h
  | cons b ns ih =>
    obtain ⟨n, o'⟩ := b
    rw [offset?] at h
    cases hrest : offset? l ns with
    | some o'' =>
      rw [hrest] at h
      obtain ⟨as, bs, rfl, hnot⟩ := ih (hrest.trans h)
      exact ⟨(n, o') :: as, bs, rfl, hnot⟩
    | none =>
      rw [hrest] at h
      simp only at h
      split at h
      · rename_i hlabel
        obtain rfl := Option.some.inj h
        refine ⟨[], ns, by rw [hlabel]; rfl, fun hmem => ?_⟩
        obtain ⟨⟨_, o'⟩, hb, rfl⟩ := List.mem_map.mp hmem
        obtain ⟨_, hsome⟩ := Code.offset?_of_mem hb
        rw [hsome] at hrest
        cases hrest
      · cases h

theorem offset?_of_split {as bs : List (Node × Nat)} (hnot : .label l ∉ bs.map Prod.fst) :
    offset? l (as ++ (.label l, o) :: bs) = some o := by
  have hbehind : offset? l bs = none := by
    rw [Option.eq_none_iff_forall_ne_some]
    exact fun o' ho' => hnot (List.mem_map_of_mem (offset?_mem ho'))
  rw [offset?_append, offset?_label, hbehind, if_pos rfl]
  rfl

end Listing
end ClassWeave
