import ClassWeave.Proofs.GuardedCode

/-!
# The labels of guarded code

Labels are handed out with ascending numbers and placed once. So the labels that a region takes for
itself are placed nowhere else, and behind the entries of some code those labels are placed that
were placed before or that have an entry there. The labels of every block have entries in the region
that the block was added in.
-/

namespace ClassWeave

/-! ## Blocks -/

namespace TryBlock

variable (b : TryBlock)

theorem start_mem_labels : b.start ∈ b.labels := by simp [labels]

theorem stop_mem_labels : b.stop ∈ b.labels := by simp [labels]

end TryBlock

/-! ## Operations -/

/-- Labels that get a place were handed out, or they come with finished code. -/
theorem BodyOp.Fits.mem_marks {o : BodyOp} {s : Scope} (ho : o.Fits s) {lab : Label}
    (h : lab ∈ marks (o.nodes s.nextLabel)) :
    lab ∈ s.handedOut ∨ s.nextLabel ≤ lab.id ∧ lab.id < s.nextLabel + o.labels := by
  cases o with
  | place lab' =>
    obtain rfl : lab = lab' := by simpa [nodes] using h
    exact .inl ho.1
  | insert l =>
    right
    obtain ⟨n, hn, heq⟩ := List.mem_map.mp (ClassWeave.mem_marks.mp h)
    obtain ⟨lab', rfl, rfl⟩ := Node.shift_eq_label.mp heq
    have hid : lab'.id < l.labelCount := (ho.1.marked lab').2 hn
    simp only [Label.shift, labels]
    omega
  | _ => simp [nodes] at h

/-- Labels do not matter for what an instruction does to monitors and variables. -/
theorem Instr.KeepsTo.shift {held : List Nat} {own : List Label} {i : Instr Label}
    (h : i.KeepsTo held own) (k : Nat) :
    (i.map (Label.shift k)).KeepsTo held (own.map (Label.shift k)) := by
  have hstored : (i.map (Label.shift k)).stored? = i.stored? := by cases i <;> rfl
  have htargets := Node.targets_shift k (.instr i)
  refine ⟨?_, fun j hj hstores => ?_, fun lab hlab => ?_, fun hop => h.returns ?_⟩
  · rw [← h.monitor]
    cases i <;> rfl
  · refine h.stores j hj ?_
    rwa [StoresTo, hstored] at hstores
  · have hlab' : lab ∈ i.targets.map (Label.shift k) := htargets ▸ hlab
    obtain ⟨lab', hmem, rfl⟩ := List.mem_map.mp hlab'
    exact List.mem_map_of_mem (h.targets lab' hmem)
  · rw [← hop]
    cases i <;> rfl

/-- The labels that the instructions of an operation can reach. -/
def BodyOp.reach (s : Scope) : BodyOp → List Label
  | insert l => marks (l.nodes.toList.map (Node.shift s.nextLabel))
  | _ => s.own

theorem BodyOp.of_mem_reach {o : BodyOp} {s : Scope} {lab : Label} (h : lab ∈ o.reach s) :
    lab ∈ s.own ∨ .label lab ∈ o.nodes s.nextLabel := by
  cases o with
  | insert l => exact .inr (mem_marks.mp h)
  | _ => exact .inl h

theorem marks_shift (ns : List Node) (k : Nat) :
    marks (ns.map (Node.shift k)) = (marks ns).map (Label.shift k) := by
  induction ns with
  | nil => rfl
  | cons n ns ih =>
    rw [marks] at ih ⊢
    cases n <;> simp [marks, List.filterMap_cons, Node.shift, Node.mark?, ih]

theorem BodyOp.Fits.keepsTo {o : BodyOp} {s : Scope} (ho : o.Fits s) {i : Instr Label}
    (hi : .instr i ∈ o.nodes s.nextLabel) : i.KeepsTo s.held (o.reach s) := by
  cases o with
  | instr i' =>
    obtain rfl : i = i' := by simpa [nodes] using hi
    exact ho
  | insert l =>
    obtain ⟨n, hn, heq⟩ := List.mem_map.mp hi
    cases n with
    | instr i' =>
      obtain rfl := Node.instr.inj heq
      rw [reach, marks_shift]
      exact (ho.2.1 i' (List.mem_filterMap.mpr ⟨_, hn, rfl⟩)).shift s.nextLabel
    | label | line => cases heq
  | _ => simp [nodes] at hi

theorem BodyOp.id_of_handsOut {o : BodyOp} {next : Nat} {lab : Label} (h : lab ∈ o.handsOut next) :
    lab.id = next ∧ 0 < o.labels := by
  cases o with
  | label =>
    obtain rfl := List.mem_singleton.mp h
    exact ⟨rfl, Nat.one_pos⟩
  | _ => cases h

theorem BodyOp.counted_after {o : BodyOp} {s : Scope} (ho : o.Fits s) (hs : s.Counted) :
    (o.after s).Counted := by
  rintro lab (hlab | hlab)
  · rcases List.mem_append.mp hlab with hlab | hlab
    · exact Nat.lt_add_right _ (hs lab (.inl hlab))
    · rcases ho.mem_marks hlab with hlab | ⟨-, hlt⟩
      · exact Nat.lt_add_right _ (hs lab (.inr hlab))
      · exact hlt
  · rcases List.mem_append.mp hlab with hlab | hlab
    · exact Nat.lt_add_right _ (hs lab (.inr hlab))
    · obtain ⟨hid, hpos⟩ := BodyOp.id_of_handsOut hlab
      exact Nat.lt_of_le_of_lt (Nat.le_of_eq hid) (Nat.lt_add_of_pos_right hpos)

theorem BodyOp.Fits.not_mem_placed {o : BodyOp} {s : Scope} (ho : o.Fits s) (hs : s.Counted)
    {lab : Label} (h : .label lab ∈ o.nodes s.nextLabel) : lab ∉ s.placed := by
  cases o with
  | place lab' =>
    obtain rfl : lab = lab' := by simpa [nodes] using h
    exact ho.2
  | insert l =>
    obtain ⟨n, -, heq⟩ := List.mem_map.mp h
    obtain ⟨lab', -, rfl⟩ := Node.shift_eq_label.mp heq
    exact fun hlab => absurd (hs _ (.inl hlab)) (Nat.not_lt.mpr (Nat.le_add_left _ _))
  | _ => simp [nodes] at h

/-- Finished code places the labels of its blocks. -/
theorem BodyOp.Fits.mem_nodes_of_frontBlocks {o : BodyOp} {s : Scope} (ho : o.Fits s)
    {b : TryBlock} (hb : b ∈ o.frontBlocks s.nextLabel) {lab : Label} (hlab : lab ∈ b.labels) :
    .label lab ∈ o.nodes s.nextLabel := by
  cases o with
  | insert l =>
    obtain ⟨b', hb', rfl⟩ := List.mem_map.mp hb
    rw [TryBlock.labels_shift] at hlab
    obtain ⟨lab', hlab', rfl⟩ := List.mem_map.mp hlab
    exact List.mem_map.mpr ⟨_, ClassWeave.mem_marks.mp (ho.2.2 b' hb' lab' hlab'), rfl⟩
  | _ => cases hb

theorem Scope.counted_enter {s : Scope} (hs : s.Counted) (body : GuardedCode) :
    (s.enter body).Counted := by
  rintro lab (hlab | hlab)
  · rcases List.mem_append.mp hlab with hlab | hlab
    · exact Nat.lt_add_right 4 (hs lab (.inl hlab))
    · obtain rfl := List.mem_singleton.mp hlab
      exact Nat.lt_add_of_pos_right (by decide)
  · exact Nat.lt_add_right 4 (hs lab (.inr hlab))

theorem Scope.counted_leave {s inner : Scope} (hinner : inner.Counted)
    (hle : s.nextLabel + 4 ≤ inner.nextLabel) : (s.leave inner).Counted := by
  rintro lab (hlab | hlab)
  · rcases List.mem_append.mp hlab with hlab | hlab
    · exact hinner lab (.inl hlab)
    · show lab.id < inner.nextLabel
      simp only [List.mem_cons, List.not_mem_nil, or_false] at hlab
      rcases hlab with rfl | rfl | rfl
      all_goals
        dsimp only
        omega
  · exact hinner lab (.inr hlab)

namespace GuardedCode

/-! ## Numbers of labels -/

theorem nextLabel_le_after (s : Scope) (c : GuardedCode) : s.nextLabel ≤ (c.after s).nextLabel := by
  induction c generalizing s with
  | done => exact Nat.le_refl _
  | op o rest ih => exact Nat.le_trans (Nat.le_add_right _ _) (ih (o.after s))
  | guarded body rest ihbody ihrest =>
    have hbody : s.nextLabel + 4 ≤ (body.after (s.enter body)).nextLabel := ihbody (s.enter body)
    have hrest : (body.after (s.enter body)).nextLabel ≤ ((guarded body rest).after s).nextLabel :=
      ihrest (s.leave (body.after (s.enter body)))
    omega

/-- Code gets to know no labels but its own. -/
theorem knows_after {s : Scope} {c : GuardedCode} (hc : c.Fits s) {lab : Label}
    (h : (c.after s).Knows lab) : s.Knows lab ∨ s.nextLabel ≤ lab.id := by
  induction c generalizing s with
  | done => exact .inl h
  | op o rest ih =>
    obtain ⟨ho, hrest⟩ := hc
    rcases ih hrest h with (hlab | hlab) | hle
    · rcases List.mem_append.mp hlab with hlab | hlab
      · exact .inl (.inl hlab)
      · exact (ho.mem_marks hlab).imp .inr And.left
    · rcases List.mem_append.mp hlab with hlab | hlab
      · exact .inl (.inr hlab)
      · exact .inr (Nat.le_of_eq (BodyOp.id_of_handsOut hlab).1.symm)
    · exact .inr (Nat.le_trans (Nat.le_add_right _ _) hle)
  | guarded body rest ihbody ihrest =>
    obtain ⟨-, hbody, hrest⟩ := hc
    have hinner : (body.after (s.enter body)).Knows lab → s.Knows lab ∨ s.nextLabel ≤ lab.id := by
      intro h
      rcases ihbody hbody h with (hlab | hlab) | hle
      · rcases List.mem_append.mp hlab with hlab | hlab
        · exact .inl (.inl hlab)
        · obtain rfl := List.mem_singleton.mp hlab
          exact .inr (Nat.le_refl _)
      · exact .inl (.inr hlab)
      · exact .inr (Nat.le_trans (Nat.le_add_right _ _) hle)
    rcases ihrest hrest h with (hlab | hlab) | hle
    · rcases List.mem_append.mp hlab with hlab | hlab
      · exact hinner (.inl hlab)
      · right
        simp only [List.mem_cons, List.not_mem_nil, or_false] at hlab
        rcases hlab with rfl | rfl | rfl <;> simp
    · exact hinner (.inr hlab)
    · have hle' := nextLabel_le_after (s.enter body) body
      have hnext : (s.enter body).nextLabel = s.nextLabel + 4 := rfl
      have hleave : (s.leave (body.after (s.enter body))).nextLabel =
        (body.after (s.enter body)).nextLabel := rfl
      exact .inr (by omega)

/-- The labels that a region takes for itself are not placed by its body. -/
theorem fresh_after {s : Scope} {body : GuardedCode} (hbody : body.Fits (s.enter body))
    (hs : s.Counted) {k : Nat} (hk : 1 ≤ k) (hk' : k ≤ 3) :
    ⟨s.nextLabel + k⟩ ∉ (body.after (s.enter body)).placed := by
  intro hplaced
  rcases knows_after hbody (.inl hplaced) with (hlab | hlab) | hle
  · rcases List.mem_append.mp hlab with hlab | hlab
    · have hlt : s.nextLabel + k < s.nextLabel := hs _ (.inl hlab)
      omega
    · simp only [List.mem_singleton, Label.mk.injEq] at hlab
      omega
  · have hlt : s.nextLabel + k < s.nextLabel := hs _ (.inr hlab)
    omega
  · have hle' : s.nextLabel + 4 ≤ s.nextLabel + k := hle
    omega

theorem counted_after {s : Scope} {c : GuardedCode} (hc : c.Fits s) (hs : s.Counted) :
    (c.after s).Counted := by
  induction c generalizing s with
  | done => exact hs
  | op o rest ih => exact ih hc.2 (BodyOp.counted_after hc.1 hs)
  | guarded body rest ihbody ihrest =>
    obtain ⟨-, hbody, hrest⟩ := hc
    exact ihrest hrest (Scope.counted_leave (ihbody hbody (Scope.counted_enter hs body))
      (nextLabel_le_after (s.enter body) body))

/-! ## Places -/

/-- The places of the region are marked as ordinary ones. -/
theorem mem_entries_of_places {s : Scope} {c : GuardedCode} {lab : Label} (h : lab ∈ c.places) :
    (.label lab, ⟨s.held, .ordinary⟩) ∈ c.entries s := by
  induction c generalizing s with
  | done => cases h
  | op o rest ih =>
    rcases List.mem_append.mp h with h | h
    · cases o with
      | place lab' =>
        obtain rfl := List.mem_singleton.mp h
        exact List.mem_append_left _ (List.mem_singleton.mpr rfl)
      | _ => cases h
    · exact List.mem_append_right _ (ih (s := o.after s) h)
  | guarded body rest _ ih =>
    exact List.mem_append_right _ (ih (s := s.leave (body.after (s.enter body))) h)

theorem mem_nodes_of_deepPlaces {s : Scope} {c : GuardedCode} {lab : Label}
    (h : lab ∈ c.deepPlaces) : .label lab ∈ (c.entries s).map Prod.fst := by
  induction c generalizing s with
  | done => cases h
  | op o rest ih =>
    rw [entries, List.map_append, map_fst_mark, List.mem_append]
    refine (List.mem_append.mp h).imp (fun h => ?_) fun h => ih h
    cases o with
    | place lab' => simpa [BodyOp.nodes, BodyOp.places] using h
    | _ => cases h
  | guarded body rest ihbody ihrest =>
    simp only [entries, List.map_append, List.mem_append]
    rcases List.mem_append.mp h with h | h
    · exact .inl (.inl (.inl (.inr (ihbody h))))
    · exact .inr (ihrest h)

/-- The labels are placed that have an entry. -/
theorem mem_placed_after {s : Scope} {c : GuardedCode} {lab : Label} :
    lab ∈ (c.after s).placed ↔ lab ∈ s.placed ∨ .label lab ∈ (c.entries s).map Prod.fst := by
  induction c generalizing s with
  | done => simp [after, entries]
  | op o rest ih =>
    rw [after, ih, entries]
    simp [BodyOp.after, or_assoc]
  | guarded body rest ihbody ihrest =>
    rw [after, ihrest, entries, Scope.leave]
    simp only [List.mem_append, ihbody]
    simp [Scope.enter, Scope.entering, Scope.leaving, Scope.handling, or_assoc]

/-- No label is placed twice. -/
theorem not_mem_placed {s : Scope} {c : GuardedCode} (hc : c.Fits s) (hs : s.Counted)
    {lab : Label} (h : .label lab ∈ (c.entries s).map Prod.fst) : lab ∉ s.placed := by
  induction c generalizing s with
  | done => cases h
  | op o rest ih =>
    obtain ⟨ho, hrest⟩ := hc
    rw [entries, List.map_append, map_fst_mark, List.mem_append] at h
    rcases h with h | h
    · exact ho.not_mem_placed hs h
    · exact fun hlab =>
        ih hrest (BodyOp.counted_after ho hs) h (List.mem_append_left _ hlab)
  | guarded body rest ihbody ihrest =>
    obtain ⟨-, hbody, hrest⟩ := hc
    intro hlab
    have hlt : lab.id < s.nextLabel := hs lab (.inl hlab)
    have hinner : lab ∈ (s.enter body).placed := List.mem_append_left _ hlab
    have hnot := ihbody hbody (Scope.counted_enter hs body)
    have hnot' := ihrest hrest (Scope.counted_leave
      (counted_after hbody (Scope.counted_enter hs body)) (nextLabel_le_after (s.enter body) body))
    simp only [entries, List.map_append, List.mem_append] at h
    rcases h with (((h | h) | h) | h) | h
    · obtain rfl : lab = ⟨s.nextLabel⟩ := by simpa [Scope.entering] using h
      exact Nat.lt_irrefl _ hlt
    · exact hnot h hinner
    · obtain rfl : lab = ⟨s.nextLabel + 1⟩ := by simpa [Scope.leaving] using h
      exact absurd hlt (by simp)
    · obtain rfl | rfl : lab = ⟨s.nextLabel + 2⟩ ∨ lab = ⟨s.nextLabel + 3⟩ := by
        simpa [Scope.handling] using h
      all_goals exact absurd hlt (by simp)
    · exact hnot' h (List.mem_append_left _ (mem_placed_after.mpr (.inl hinner)))

/-! ## Regions -/

theorem subset_region (s : Scope) (body : GuardedCode) (pre : List Node) :
    pre ++ s.entering.map Prod.fst ++ (body.entries (s.enter body)).map Prod.fst ⊆
      pre ++ (region s body).map Prod.fst := by
  simp only [region, List.map_append, ← List.append_assoc]
  exact List.Subset.trans (List.subset_append_left _ _) (List.subset_append_left _ _)

theorem mem_placed_leave {s : Scope} {body : GuardedCode} {lab : Label} :
    lab ∈ (s.leave (body.after (s.enter body))).placed ↔
      lab ∈ s.placed ∨ .label lab ∈ (region s body).map Prod.fst := by
  simpa [region, after, entries] using mem_placed_after (s := s) (c := guarded body done)

/-- The handler of a block is a place of the code around it, or all labels of the block have
entries. -/
def Contains (s : Scope) (c : GuardedCode) (own deep : List Label) (b : TryBlock) : Prop :=
  (b.handler ∈ own ∧ b.start ∈ deep ∧ b.stop ∈ deep) ∨
    ∀ lab ∈ b.labels, .label lab ∈ (c.entries s).map Prod.fst

/-- If the places of the code are all there are, then all labels of the block have entries. -/
theorem Contains.mem_entries {s : Scope} {c : GuardedCode} {b : TryBlock}
    (h : c.Contains s c.places c.deepPlaces b) {lab : Label} (hlab : lab ∈ b.labels) :
    .label lab ∈ (c.entries s).map Prod.fst := by
  rcases h with ⟨hhandler, hstart, hstop⟩ | h
  · simp only [TryBlock.labels, List.mem_cons, List.not_mem_nil, or_false] at hlab
    rcases hlab with rfl | rfl | rfl
    · exact mem_nodes_of_deepPlaces hstart
    · exact mem_nodes_of_deepPlaces hstop
    · exact List.mem_map_of_mem (f := Prod.fst) (mem_entries_of_places hhandler)
  · exact h lab hlab

/-- The labels of the blocks of a region have entries there. -/
theorem labels_mem_region {s : Scope} {body : GuardedCode} {b : TryBlock}
    (hbody : b ∈ body.blocks (s.enter body) →
      body.Contains (s.enter body) body.places body.deepPlaces b)
    (hb : b ∈ innerBlocks s body) {lab : Label} (hlab : lab ∈ b.labels) :
    .label lab ∈ (region s body).map Prod.fst := by
  rw [region]
  simp only [List.map_append, List.mem_append]
  rcases List.mem_append.mp hb with hb | hb
  · exact .inl (.inl (.inr ((hbody hb).mem_entries hlab)))
  · obtain rfl := List.mem_singleton.mp hb
    have hlab' : lab = ⟨s.nextLabel⟩ ∨ lab = ⟨s.nextLabel + 1⟩ ∨ lab = ⟨s.nextLabel + 2⟩ := by
      simpa [TryBlock.labels, Scope.block] using hlab
    rcases hlab' with rfl | rfl | rfl <;>
      simp [Scope.entering, Scope.leaving, Scope.handling]

theorem contains_of_mem_blocks {s : Scope} {c : GuardedCode} (hc : c.Fits s) {b : TryBlock}
    (hb : b ∈ c.blocks s) : c.Contains s s.own s.deep b := by
  induction c generalizing s with
  | done => cases hb
  | op o rest ih =>
    obtain ⟨ho, hrest⟩ := hc
    rcases List.mem_append.mp hb with hb | hb
    · cases o with
      | block b' =>
        obtain rfl := List.mem_singleton.mp hb
        exact .inl ho
      | _ => cases hb
    · refine (ih hrest hb).imp id fun h lab hlab => ?_
      rw [entries, List.map_append]
      exact List.mem_append_right _ (h lab hlab)
  | guarded body rest ihbody ihrest =>
    obtain ⟨-, hbody, hrest⟩ := hc
    rcases List.mem_append.mp hb with hb | hb
    · refine .inr fun lab hlab => ?_
      rw [entries, List.map_append]
      exact List.mem_append_left _ (labels_mem_region (ihbody hbody) hb hlab)
    · refine (ihrest hrest hb).imp id fun h lab hlab => ?_
      rw [entries, List.map_append]
      exact List.mem_append_right _ (h lab hlab)

/-- The labels of the blocks of code that is built first have entries. -/
theorem labels_mem_entries {s : Scope} {c : GuardedCode} (hc : c.Fits s) (hown : s.own = c.places)
    (hdeep : s.deep = c.deepPlaces) {b : TryBlock} (hb : b ∈ c.blocks s) {lab : Label}
    (hlab : lab ∈ b.labels) : .label lab ∈ (c.entries s).map Prod.fst := by
  have h := contains_of_mem_blocks hc hb
  rw [hown, hdeep] at h
  exact h.mem_entries hlab

theorem mem_entries_of_frontBlocks {s : Scope} {c : GuardedCode} (hc : c.Fits s) {b : TryBlock}
    (hb : b ∈ c.frontBlocks s) {lab : Label} (hlab : lab ∈ b.labels) :
    .label lab ∈ (c.entries s).map Prod.fst := by
  induction c generalizing s with
  | done => cases hb
  | op o rest ih =>
    obtain ⟨ho, hrest⟩ := hc
    rw [entries, List.map_append, map_fst_mark, List.mem_append]
    rcases List.mem_append.mp hb with hb | hb
    · exact .inr (ih hrest hb)
    · exact .inl (ho.mem_nodes_of_frontBlocks hb hlab)
  | guarded body rest ihbody ihrest =>
    obtain ⟨-, hbody, hrest⟩ := hc
    rw [entries, List.map_append, List.mem_append]
    rcases List.mem_append.mp hb with hb | hb
    · exact .inr (ihrest hrest hb)
    · left
      simp only [List.map_append, List.mem_append]
      exact .inl (.inl (.inr (ihbody hbody hb)))

end GuardedCode
end ClassWeave
