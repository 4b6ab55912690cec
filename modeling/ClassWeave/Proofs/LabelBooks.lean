import ClassWeave.Proofs.Blocks
import ClassWeave.Proofs.CodeErrors
import ClassWeave.Proofs.CodeReading
import ClassWeave.Proofs.Insertions
import ClassWeave.Proofs.SearchMoments

/-!
# What a list knows about its labels

A list says twice where its labels are: by flags, which are looked at while it is built, and by
markers, from which analysis and encoding find out anew. Whatever operations a list comes about by,
the two agree (`InstrList.Tracked`): splicing renumbers the labels of one list behind those of the
other, and decoding makes one label for every offset. So a list that was finished is not refused for
its labels later on.
-/

namespace ClassWeave

/-- Labels that are used have no place, or come from another list. -/
def ClassError.AboutLabels : ClassError → Prop
  | .unplacedLabels _ | .unknownLabel _ => True
  | _ => False

instance : ClassError.Apart ClassError.AboutLabels where
  not_of {e} h := by
    cases e with
    | unplacedLabels | unknownLabel => exact h.elim
    | _ => exact id

/-- The label of a marker. -/
def Node.mark? : Node → Option Label
  | label lab => some lab
  | _ => none

theorem Node.mark?_eq_some {n : Node} {lab : Label} : n.mark? = some lab ↔ n = .label lab := by
  cases n <;> simp [mark?]

theorem count_eq_marks (ns : List Node) (lab : Label) :
    ns.count (.label lab) = (ns.filterMap Node.mark?).count lab := by
  induction ns with
  | nil => rfl
  | cons n ns ih => cases n <;> simp [List.count_cons, List.filterMap_cons, Node.mark?, ih]

theorem Node.shift_eq_shift {n : Node} {lab : Label} (k : Nat) :
    n.shift k = .label (lab.shift k) ↔ n = .label lab := by
  rw [shift_eq_label]
  constructor
  · rintro ⟨lab', rfl, h⟩
    cases lab
    cases lab'
    simp only [Label.shift, Label.mk.injEq, Nat.add_right_cancel_iff] at h
    rw [h]
  · rintro rfl
    exact ⟨lab, rfl, rfl⟩

/-- A copy has the markers of its original. -/
theorem count_shift (ns : List Node) (k : Nat) (lab : Label) :
    (ns.map (Node.shift k)).count (.label (lab.shift k)) = ns.count (.label lab) := by
  rw [List.count, List.countP_map, List.count]
  refine List.countP_congr fun n _ => ?_
  simp [Node.shift_eq_shift]

theorem count_shift_of_lt (ns : List Node) {k : Nat} {lab : Label} (hid : lab.id < k) :
    (ns.map (Node.shift k)).count (.label lab) = 0 := by
  rw [List.count_eq_zero, List.mem_map]
  rintro ⟨n, -, hn⟩
  obtain ⟨lab', -, rfl⟩ := Node.shift_eq_label.mp hn
  exact absurd hid (Nat.not_lt.mpr (Nat.le_add_left _ _))

namespace InstrList

variable {l other : InstrList} {lab : Label} {n : Node} {i : Nat}

/-- A label that is flagged has one marker, any other none. -/
def Tracked (l : InstrList) : Prop :=
  ∀ lab, l.nodes.toList.count (.label lab) = if l.isPlaced lab then 1 else 0

namespace Tracked

theorem mem_iff (h : l.Tracked) : .label lab ∈ l.nodes.toList ↔ l.isPlaced lab := by
  rw [← List.count_pos_iff, h]
  split <;> simp_all

theorem marked (h : l.Tracked) : l.Marked := by
  intro lab
  refine ⟨?_, fun hmem => lt_of_isPlaced (h.mem_iff.mp hmem)⟩
  rw [h]
  split
  · exact Nat.le_refl 1
  · exact Nat.zero_le 1

/-! ## One operation -/

theorem empty : Tracked .empty := fun lab => by simp [InstrList.empty, isPlaced]

theorem freshLabel (h : l.Tracked) : l.freshLabel.2.Tracked := by
  intro lab
  simp only [isPlaced_freshLabel]
  exact h lab

theorem mark (h : l.Tracked) (hid : lab.id < l.labelCount) (hlab : ¬ l.isPlaced lab) :
    (l.mark lab).Tracked := by
  intro lab'
  have hnodes : (l.mark lab).nodes.toList = l.nodes.toList ++ [.label lab] := by
    simp [InstrList.mark]
  rw [hnodes, List.count_append, h lab']
  simp only [isPlaced_mark hid, List.count_singleton, beq_iff_eq, Node.label.injEq]
  by_cases heq : lab' = lab
  · subst heq
    simp [hlab]
  · simp [heq, Ne.symm heq]

theorem push (h : l.Tracked) (hn : ∀ lab, n ≠ .label lab) : (l.push n).Tracked := by
  intro lab
  have hnodes : (l.push n).nodes.toList = l.nodes.toList ++ [n] := by simp [InstrList.push]
  have hno : [n].count (.label lab) = 0 := List.count_eq_zero.mpr (by simpa using (hn lab).symm)
  rw [hnodes, List.count_append, hno, Nat.add_zero]
  exact h lab

theorem addBlock (h : l.Tracked) (b : TryBlock) : (l.addBlock b).Tracked := h

/-- The labels of the inserted list stand behind those of the list around it, so that no label has
markers in both. -/
theorem splice (h : l.Tracked) (hother : other.Tracked) (i : Nat) : (l.splice i other).Tracked := by
  intro lab
  have hcount : (l.splice i other).nodes.toList.count (.label lab) =
      l.nodes.toList.count (.label lab) +
        (other.nodes.toList.map (Node.shift l.labelCount)).count (.label lab) := by
    have hsplit := congrArg (List.count (.label lab)) (List.take_append_drop i l.nodes.toList)
    rw [List.count_append] at hsplit
    rw [toList_splice, List.count_append, List.count_append]
    omega
  rw [hcount, h lab]
  by_cases hid : lab.id < l.labelCount
  · rw [count_shift_of_lt _ hid, isPlaced_splice hid, Nat.add_zero]
  · obtain ⟨lab', rfl⟩ : ∃ lab' : Label, lab = lab'.shift l.labelCount :=
      ⟨⟨lab.id - l.labelCount⟩, by simp [Label.shift, Nat.sub_add_cancel (Nat.le_of_not_lt hid)]⟩
    rw [count_shift, hother lab', isPlaced_splice_copy, if_neg (fun h => hid (lt_of_isPlaced h)),
      Nat.zero_add]

end Tracked
end InstrList

/-! ## Decoding -/

namespace Code

section entries

variable {length o : Nat} {labels : Std.HashMap Nat Label}
  {lines : Std.HashMap Nat (List UInt16)} {instrs : List (Nat × Instr Nat)}

/-- The markers of entries stand at the offsets of instructions and at the end of the code. -/
theorem marks_entries : ((entries length labels lines instrs).map Prod.fst).filterMap Node.mark? =
    (instrs.map Prod.fst ++ [length]).filterMap fun o => labels[o]? := by
  induction instrs with
  | nil =>
    rw [entries_nil]
    cases hl : labels[length]? <;> simp [hl, Node.mark?]
  | cons p instrs ih =>
    rw [entries_cons, List.map_append, List.map_cons, List.filterMap_append,
      List.filterMap_cons_none rfl, ih, List.map_cons, List.cons_append]
    have hlines : (((lines.getD p.1 []).map fun n => (Node.line n, p.1)).map Prod.fst).filterMap
        Node.mark? = [] := by simp [List.filterMap_eq_nil_iff, Node.mark?]
    rw [marksAt, List.map_append, List.filterMap_append, hlines, List.append_nil]
    cases hl : labels[p.1]? with
    | none => simp [hl]
    | some lab => simp [hl, Node.mark?]

end entries

variable {ctx : Context} {code : List UInt8} {handlers : List HandlerEntry}
  {lines : List LineEntry} {l : InstrList} {offsets : List Nat}

/-- Every offset has a label of its own, and no two entries with a marker have the same offset. -/
theorem tracked_of_decode (h : decode ctx code handlers lines = .ok (l, offsets)) :
    l.Tracked := by
  obtain ⟨instrs, hread⟩ := disassembled_of_decode h
  have hmarks : l.nodes.toList.filterMap Node.mark? =
      (instrs.map Prod.fst ++ [code.length]).filterMap
        fun o => (labelTable (labelOffsets instrs handlers))[o]? := by
    rw [hread.nodes, List.toList_toArray]
    exact marks_entries
  have hoffsets : (instrs.map Prod.fst ++ [code.length]).Nodup := by
    refine List.nodup_append.mpr
      ⟨hread.wellRead.sorted.imp Nat.ne_of_lt, List.nodup_singleton _, ?_⟩
    rintro o ho _ hend rfl
    obtain ⟨p, hp, rfl⟩ := List.mem_map.mp ho
    have := hread.wellRead.inside p hp
    rw [List.mem_singleton.mp hend] at this
    exact absurd this (Nat.lt_irrefl _)
  have hlabels : ∀ (o : Nat) (lab : Label),
      lab ∈ (labelTable (labelOffsets instrs handlers))[o]? ↔
        (labelOffsets instrs handlers).idxOf? o = some lab.id := by
    intro o lab
    rw [getElem?_labelTable nodup_labelOffsets]
    cases lab
    simp
  have hnodup : (l.nodes.toList.filterMap Node.mark?).Nodup := by
    rw [hmarks]
    refine hoffsets.filterMap fun o o' lab hlab hlab' => ?_
    obtain ⟨_, ho, -⟩ := List.idxOf?_eq_some_iff.mp ((hlabels o lab).mp hlab)
    obtain ⟨_, ho', -⟩ := List.idxOf?_eq_some_iff.mp ((hlabels o' lab).mp hlab')
    exact ho.symm.trans ho'
  have hbound : ∀ lab, .label lab ∈ l.nodes.toList →
      lab.id < (labelOffsets instrs handlers).length := by
    intro lab hmem
    rw [← List.count_pos_iff, count_eq_marks, List.count_pos_iff, hmarks,
      List.mem_filterMap] at hmem
    obtain ⟨o, -, ho⟩ := hmem
    exact (List.idxOf?_eq_some_iff.mp ((hlabels o lab).mp ho)).1
  intro lab
  have hflag : l.isPlaced lab ↔ .label lab ∈ l.nodes.toList := by
    rw [InstrList.isPlaced, hread.placed, getD_markedLabels]
    exact and_iff_left_of_imp (hbound lab)
  by_cases hmem : .label lab ∈ l.nodes.toList
  · rw [if_pos (hflag.mpr hmem), count_eq_marks]
    refine Nat.le_antisymm (List.nodup_iff_count_le_one.mp hnodup lab) ?_
    rw [← count_eq_marks]
    exact List.count_pos_iff.mpr hmem
  · rw [if_neg (mt hflag.mp hmem), List.count_eq_zero.mpr hmem]

end Code

/-! ## Lists that are put together -/

namespace InstrList

/-- Lists that come about by handing out labels and placing them, by adding entries that are no
markers and exception handlers, by inserting such lists into one another, and by decoding. -/
inductive Assembled : InstrList → Prop
  | empty : Assembled .empty
  | freshLabel {l : InstrList} (h : Assembled l) : Assembled l.freshLabel.2
  | placeLabel {l l' : InstrList} {lab : Label} (h : Assembled l)
      (hl' : l.placeLabel lab = .ok l') :
    Assembled l'
  | push {l : InstrList} {n : Node} (h : Assembled l) (hn : ∀ lab, n ≠ .label lab) :
    Assembled (l.push n)
  | addBlock {l : InstrList} (h : Assembled l) (b : TryBlock) : Assembled (l.addBlock b)
  | append {l other : InstrList} (h : Assembled l) (hother : Assembled other) :
    Assembled (l.append other)
  | splice {l other : InstrList} {i : Nat} (h : Assembled l) (hother : Assembled other)
    (hi : i ≤ l.nodes.size) : Assembled (l.splice i other)
  | decode {ctx : Code.Context} {code : List UInt8} {handlers : List HandlerEntry}
    {lines : List LineEntry} {l : InstrList} {offsets : List Nat}
    (h : Code.decode ctx code handlers lines = .ok (l, offsets)) : Assembled l

theorem placeLabel_eq_ok {l l' : InstrList} {lab : Label} : l.placeLabel lab = .ok l' ↔
    lab.id < l.labelCount ∧ ¬ l.isPlaced lab ∧ l' = l.mark lab := by
  rw [← and_assoc, ← refusal?_eq_none, placeLabel]
  cases l.refusal? lab <;> simp [eq_comm]

theorem Assembled.tracked {l : InstrList} (h : l.Assembled) : l.Tracked := by
  induction h with
  | empty => exact .empty
  | freshLabel _ ih => exact ih.freshLabel
  | placeLabel _ hl' ih =>
    obtain ⟨hid, hlab, rfl⟩ := placeLabel_eq_ok.mp hl'
    exact ih.mark hid hlab
  | push _ hn ih => exact ih.push hn
  | addBlock _ b ih => exact ih.addBlock b
  | append _ _ ih ihother => exact ih.splice ihother _
  | splice _ _ _ ih ihother => exact ih.splice ihother _
  | decode h => exact Code.tracked_of_decode h

/-! ## Lists that are finished -/

section finish

variable {l l' : InstrList}

theorem sorted_unplacedLabels (l : InstrList) :
    l.unplacedLabels.Pairwise fun a b => a.id < b.id := by
  have hkey : Function.Injective Label.id := fun a b h => by
    cases a
    cases b
    exact congrArg Label.mk h
  refine sorted_eraseReps hkey ?_
  refine (List.pairwise_mergeSort ?_ ?_ _).imp fun h => of_decide_eq_true h
  · intro a b c hab hbc
    simp only [decide_eq_true_eq] at *
    omega
  · intro a b
    simp only [Bool.or_eq_true, decide_eq_true_eq]
    omega

theorem finish_eq_ok : l.finish = .ok l' ↔ l' = l ∧ ∀ lab ∈ l.usedLabels, l.isPlaced lab := by
  have hnil : l.unplacedLabels = [] ↔ ∀ lab ∈ l.usedLabels, l.isPlaced lab := by
    simp only [List.eq_nil_iff_forall_not_mem, mem_unplacedLabels, not_and, not_not]
  rw [← hnil, finish]
  cases l.unplacedLabels <;> simp [eq_comm]

namespace Tracked

variable (h : l.Tracked) (hused : ∀ lab ∈ l.usedLabels, l.isPlaced lab)

include h hused

theorem exists_position {lab : Label} (hlab : lab ∈ l.usedLabels) :
    ∃ j, lab.position? l.labelPositions = some j := by
  have hplaced := hused lab hlab
  obtain ⟨i, hi⟩ := List.mem_iff_getElem?.mp (h.mem_iff.mpr hplaced)
  rw [Array.getElem?_toList] at hi
  exact exists_position?_of_marker (lt_of_isPlaced hplaced) hi

/-- No list is refused for its labels when it is encoded, and its handlers can be looked up. -/
theorem encode (range : Code.JumpRange) :
    Growing.Fulfils
      (fun e : Code.Encoded => ∀ b ∈ l.blocks, ∀ lab ∈ b.labels, ∃ o, e.labelOffset lab = .ok o)
      ClassError.AboutLabels (Code.encodeWithin range l.nodes.toList l.labelCount) := by
  have hmarker : ∀ {lab}, lab ∈ l.usedLabels → .label lab ∈ l.nodes.toList :=
    fun hlab => h.mem_iff.mpr (hused _ hlab)
  refine (Code.fulfils_encodeWithin range ?_ ?_).imp fun e he b hb lab hlab => ?_
  · exact fun lab => (h.marked lab).2
  · exact fun lab hlab => hmarker (List.mem_append_left _ hlab)
  · exact he lab (hmarker (List.mem_append_right _ (List.mem_flatMap.mpr ⟨b, hb, hlab⟩)))

end Tracked
end finish
end InstrList

/-! ## Analysing a list that is finished -/

namespace FlowGraph

variable {g : FlowGraph}

theorem fulfils_position {positions : Array (Option Nat)} {lab : Label}
    (h : ∃ j, lab.position? positions = some j) :
    Fulfils Anything ClassError.AboutLabels (position positions lab) := by
  obtain ⟨j, hj⟩ := h
  rw [position, hj]
  trivial

theorem fulfils_failure {α : Type} (i : Nat) (x : Except VerifyError α) :
    Fulfils Anything ClassError.AboutLabels (failure i x) := by
  cases x with
  | ok => trivial
  | error => exact id

theorem fulfils_edges (hplaces : ∀ n ∈ g.program.nodes, ∀ lab ∈ n.targets,
    ∃ j, lab.position? g.positions = some j) {i : Nat} {n : Node}
    (hn : g.program.nodes[i]? = some n) (f : Frame) :
    Fulfils Anything ClassError.AboutLabels (g.edges i n f) := by
  cases n with
  | instr ins =>
    refine (fulfils_failure i _).bind fun _ _ => ?_
    refine (Fulfils.mapM (S := Anything) fun lab hlab => fulfils_position ?_).bind
      fun _ _ => trivial
    exact hplaces _ (Array.mem_of_getElem? hn) lab hlab
  | _ => trivial

end FlowGraph

namespace Work

variable {g : FlowGraph}

theorem fulfils_follow (i : Nat) (w : Work) (e : Nat × Frame) :
    Fulfils Anything ClassError.AboutLabels (Work.follow g i w e) := by
  unfold Work.follow
  split
  · exact id
  · trivial
  · split
    · exact id
    · trivial
    · trivial

theorem fulfils_visit (hplaces : ∀ n ∈ g.program.nodes, ∀ lab ∈ n.targets,
    ∃ j, lab.position? g.positions = some j) (w : Work) (i : Nat) :
    Fulfils Anything ClassError.AboutLabels (Work.visit g w i) := by
  unfold Work.visit
  simp only
  split
  · rename_i f n hf hn
    refine (FlowGraph.fulfils_edges hplaces hn f).bind fun _ _ => ?_
    exact Fulfils.foldlM (S := Anything) (fun _ _ e _ => fulfils_follow i _ e) trivial
  · trivial

end Work

/-- An analysis does not fail for want of a label if every label that is used has a place. -/
theorem fulfils_analyze {l : InstrList}
    (hplaces : ∀ lab ∈ l.usedLabels, ∃ j, lab.position? l.labelPositions = some j)
    (m : MethodContext) (pool : Pool) (h : Hierarchy) (mode : Mode) :
    Fulfils Anything ClassError.AboutLabels (analyze m l pool h mode) := by
  have htargets : ∀ n ∈ l.nodes, ∀ lab ∈ n.targets,
      ∃ j, lab.position? l.labelPositions = some j := fun n hn lab hlab =>
    hplaces lab (List.mem_append_left _ (List.mem_flatMap.mpr ⟨n, hn.val, hlab⟩))
  have hblocks : ∀ b ∈ l.blocks, ∀ lab ∈ b.labels,
      ∃ j, lab.position? l.labelPositions = some j := fun b hb lab hlab =>
    hplaces lab (List.mem_append_right _ (List.mem_flatMap.mpr ⟨b, hb, hlab⟩))
  have hdescriptor : Fulfils Anything ClassError.AboutLabels (MethodType.parse m.descriptor) := by
    unfold MethodType.parse
    cases MethodType.parse? m.descriptor with
    | some t => trivial
    | none => exact id
  refine hdescriptor.bind fun t _ => ?_
  refine (Fulfils.mapM (S := Anything) fun b hb => ?_).bind fun handlers _ => ?_
  · have hblock := hblocks b hb
    refine (FlowGraph.fulfils_position (hblock _ (by simp [TryBlock.labels]))).bind fun _ _ => ?_
    refine (FlowGraph.fulfils_position (hblock _ (by simp [TryBlock.labels]))).bind fun _ _ => ?_
    exact (FlowGraph.fulfils_position (hblock _ (by simp [TryBlock.labels]))).bind
      fun _ _ => trivial
  refine (FlowGraph.fulfils_failure 0 _).bind fun entry _ => .ite (fun _ => id) fun _ => ?_
  simp only
  split
  · exact id
  · rename_i result hrun
    refine Fulfils.bind (R := Anything) ?_ fun _ _ => trivial
    cases hresult : result with
    | ok => trivial
    | error e =>
      obtain ⟨w, i, -, hfail⟩ := Work.turns_of_run_error _ _ hrun e hresult
      exact (Work.fulfils_visit htargets _ i).error hfail

/-! ## Everything at once -/

namespace InstrList

/-- Flags, markers and the lists of labels tell the same, and what was finished is complete. -/
structure Exact (l : InstrList) : Prop where
  /-- A label is flagged if it has a marker. -/
  placed : ∀ lab, l.isPlaced lab ↔ l.nodes.toList.count (.label lab) = 1
  /-- No label has two markers, and those that have one were handed out. -/
  marked : l.Marked
  /-- A label can be placed if it was handed out and has no marker. -/
  place : ∀ lab, lab.id < l.labelCount → .label lab ∉ l.nodes.toList →
    l.extend [.place lab] = (.ok (), l.mark lab)
  placeTwice : ∀ lab, .label lab ∈ l.nodes.toList →
    l.extend [.place lab] = (.error (.labelPlacedTwice lab), l)
  placeUnknown : ∀ lab, l.labelCount ≤ lab.id →
    l.extend [.place lab] = (.error (.unknownLabel lab), l)
  /-- The labels that are missing are those that are used and have no marker, in order. -/
  unplaced : ∀ lab, lab ∈ l.unplacedLabels ↔ lab ∈ l.usedLabels ∧ .label lab ∉ l.nodes.toList
  sorted : (l.unplacedLabels.map Label.id).Pairwise (· < ·)
  /-- Neither analysis nor encoding is in want of a label in a list that was finished. -/
  finished : ∀ l', l.finish = .ok l' → l' = l ∧
    (∀ m pool h mode e, analyze m l pool h mode = .error e → ¬ e.AboutLabels) ∧
    ∀ range links,
      (∀ e, ((Code.encodeWithin range l.nodes.toList l.labelCount).on links).1 = .error e →
        ¬ e.AboutLabels) ∧
      ∀ c, ((Code.encodeWithin range l.nodes.toList l.labelCount).on links).1 = .ok c →
        ∀ b ∈ l.blocks, ∀ lab ∈ b.labels, ∃ o, c.labelOffset lab = .ok o

/-- **Label bookkeeping.** However a list was put together, what it knows about its labels is exact,
and if it was finished, no label is missing later on. -/
theorem Assembled.labels_exact {l : InstrList} (h : l.Assembled) : l.Exact := by
  have hl := h.tracked
  have hextend : ∀ lab, l.extend [.place lab] =
      (l.refusal? lab).elim (.ok (), l.mark lab) fun e => (.error e, l) := by
    intro lab
    cases hlab : l.refusal? lab <;> simp [extend, hlab]
  refine ⟨fun lab => ?_, hl.marked, fun lab hid hlab => ?_, fun lab hlab => ?_, fun lab hid => ?_,
    fun lab => ?_, ?_, fun l' hl' => ?_⟩
  · rw [hl lab]
    split <;> simp_all
  · rw [hextend, refusal?_eq_none.mpr ⟨hid, mt hl.mem_iff.mpr hlab⟩]
    rfl
  · have hplaced := hl.mem_iff.mp hlab
    rw [isPlaced, Array.getD_eq_getD_getElem?, Option.getD_eq_iff] at hplaced
    rw [hextend, refusal?, hplaced.resolve_right (by simp)]
    rfl
  · rw [hextend, refusal?, Array.getElem?_eq_none hid]
    rfl
  · rw [mem_unplacedLabels, hl.mem_iff]
  · exact List.pairwise_map.mpr l.sorted_unplacedLabels
  · obtain ⟨rfl, hused⟩ := finish_eq_ok.mp hl'
    refine ⟨rfl, fun m pool h mode e he => ?_, fun range links => ⟨fun e he => ?_, fun c hc => ?_⟩⟩
    · exact (fulfils_analyze (fun lab => hl.exists_position hused) m pool h mode).error he
    · exact (hl.encode hused range links).error he
    · exact (hl.encode hused range links).ok hc

/-- A jump to the place behind it. -/
def hop : InstrList := (InstrList.empty.freshLabel.2.pushInstr (.jump Opcode.goto ⟨0⟩)).mark ⟨0⟩

/-- A jump with another one inserted behind it, which has a label of its own. -/
theorem exact_hops : (hop.splice 1 hop).Assembled ∧ (hop.splice 1 hop).Exact ∧
    (hop.splice 1 hop).finish = .ok (hop.splice 1 hop) := by
  have hhop : hop.Assembled := by
    have hjump : (InstrList.empty.freshLabel.2.pushInstr (.jump Opcode.goto ⟨0⟩)).Assembled :=
      .push (.freshLabel .empty) fun _ h => by cases h
    have hplace : (InstrList.empty.freshLabel.2.pushInstr (.jump Opcode.goto ⟨0⟩)).placeLabel ⟨0⟩ =
        .ok hop := placeLabel_eq_ok.mpr ⟨by decide, by decide, rfl⟩
    exact hjump.placeLabel hplace
  have hhops : (hop.splice 1 hop).Assembled := hhop.splice hhop (by decide)
  exact ⟨hhops, hhops.labels_exact, finish_eq_ok.mpr ⟨rfl, by decide +kernel⟩⟩

end InstrList
end ClassWeave
