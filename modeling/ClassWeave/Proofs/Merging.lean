import ClassWeave.Proofs.LabelBooks

/-!
# Merging lists

Appending one list to another is associative, and the empty list changes nothing, down to the
numbers of labels, their flags and the order of handlers. Wherever a list is inserted into another
one, what either of them says keeps its meaning (`InstrList.IsSplice`): entries keep their order,
every label stands where it stood, in the one list or in the other, and the labels without a place
are those of both.
-/

namespace ClassWeave

/-! ## Behind several lists -/

theorem Label.shift_shift (j k : Nat) (lab : Label) : (lab.shift j).shift k = lab.shift (j + k) :=
  congrArg Label.mk (Nat.add_assoc lab.id j k)

theorem Instr.map_self {τ : Type} (i : Instr τ) : i.map (fun t => t) = i := by
  cases i <;> simp [map]

theorem Node.shift_zero (n : Node) : n.shift 0 = n := by
  cases n with
  | instr i => exact congrArg Node.instr i.map_self
  | label | line => rfl

theorem Node.shift_shift (j k : Nat) (n : Node) : (n.shift j).shift k = n.shift (j + k) := by
  cases n with
  | instr i =>
    refine congrArg Node.instr ((Instr.map_map _ _ i).trans ?_)
    exact Instr.map_congr fun lab _ => Label.shift_shift j k lab
  | label lab => exact congrArg Node.label (Label.shift_shift j k lab)
  | line => rfl

theorem Node.labels_shift (k : Nat) (n : Node) :
    (n.shift k).labels = n.labels.map (Label.shift k) := by
  cases n with
  | instr i => exact Node.targets_shift k (.instr i)
  | label | line => rfl

theorem TryBlock.shift_shift (j k : Nat) (b : TryBlock) :
    (b.shift j).shift k = b.shift (j + k) := by
  simp only [shift, Label.shift_shift]

namespace InstrList

theorem ext_lists {l l' : InstrList} (hnodes : l.nodes.toList = l'.nodes.toList)
    (hplaced : l.placed = l'.placed) (hblocks : l.blocks = l'.blocks) : l = l' := by
  cases l
  cases l'
  simp only [mk.injEq]
  exact ⟨Array.toList_inj.mp hnodes, hplaced, hblocks⟩

theorem toList_append (l other : InstrList) : (l.append other).nodes.toList =
    l.nodes.toList ++ other.nodes.toList.map (Node.shift l.labelCount) := by
  rw [append, toList_splice, ← Array.length_toList, List.take_length, List.drop_length,
    List.append_nil]

theorem blocks_append (l other : InstrList) : (l.append other).blocks =
    other.blocks.map (TryBlock.shift l.labelCount) ++ l.blocks := rfl

theorem labelCount_append (l other : InstrList) :
    (l.append other).labelCount = l.labelCount + other.labelCount := labelCount_splice l other _

/-- The last list ends up behind the labels of both others, whichever two are merged first. -/
theorem append_assoc (a b c : InstrList) : (a.append b).append c = a.append (b.append c) := by
  have hnode : Node.shift (a.labelCount + b.labelCount) =
      Node.shift a.labelCount ∘ Node.shift b.labelCount := by
    funext n
    rw [Function.comp_apply, Node.shift_shift, Nat.add_comm]
  have hblock : TryBlock.shift (a.labelCount + b.labelCount) =
      TryBlock.shift a.labelCount ∘ TryBlock.shift b.labelCount := by
    funext t
    rw [Function.comp_apply, TryBlock.shift_shift, Nat.add_comm]
  refine ext_lists ?_ Array.append_assoc ?_
  · rw [toList_append, toList_append, toList_append, toList_append, labelCount_append, hnode,
      List.map_append, List.map_map, List.append_assoc]
  · rw [blocks_append, blocks_append, blocks_append, blocks_append, labelCount_append, hblock,
      List.map_append, List.map_map, List.append_assoc]

theorem append_empty (l : InstrList) : l.append .empty = l := by
  refine ext_lists ?_ Array.append_empty rfl
  rw [toList_append]
  exact List.append_nil _

theorem empty_append (l : InstrList) : InstrList.empty.append l = l := by
  refine ext_lists ?_ Array.empty_append ?_
  · rw [toList_append]
    exact List.map_id'' Node.shift_zero _
  · rw [blocks_append]
    exact (List.append_nil _).trans (List.map_id _)

/-! ## Inside another list -/

/-- Where an entry is once `count` others stand in front of the place `i`. -/
def behindInserted (i count j : Nat) : Nat := if j < i then j else j + count

/-- In `both`, the list `other` stands in `l` in front of the entry at `i`, and whatever one of the
two says in terms of labels means what it meant. -/
structure IsSplice (l other : InstrList) (i : Nat) (both : InstrList) : Prop where
  size : both.nodes.size = l.nodes.size + other.nodes.size
  /-- Entries of the list keep their labels. -/
  kept : ∀ j < l.nodes.size,
    both.nodes[behindInserted i other.nodes.size j]? = l.nodes[j]?
  /-- Inserted entries have their labels behind those of the list. -/
  inserted : ∀ j < other.nodes.size,
    both.nodes[i + j]? = other.nodes[j]?.map (Node.shift l.labelCount)
  /-- Inserted handlers come first. -/
  blocks : both.blocks = other.blocks.map (TryBlock.shift l.labelCount) ++ l.blocks
  keptPlaces : ∀ lab ∈ l.labels, lab.position? both.labelPositions =
    (lab.position? l.labelPositions).map (behindInserted i other.nodes.size)
  insertedPlaces : ∀ lab ∈ other.labels, (lab.shift l.labelCount).position? both.labelPositions =
    (lab.position? other.labelPositions).map (i + ·)
  unplaced : both.unplacedLabels =
    l.unplacedLabels ++ other.unplacedLabels.map (Label.shift l.labelCount)
  /-- So it can be merged in turn. -/
  owns : both.OwnsLabels

section splice

variable {l other : InstrList} {i : Nat}

theorem movedTo_single (other : InstrList) (i : Nat) :
    other.movedTo [i] = behindInserted i other.nodes.size := by
  funext j
  unfold movedTo behindInserted
  by_cases hj : j < i
  · rw [if_pos hj, List.countP_cons_of_neg (by simpa using hj)]
    simp
  · rw [if_neg hj, List.countP_cons_of_pos (by simpa using hj)]
    simp

theorem copyStart_zero (other : InstrList) (i : Nat) : other.copyStart 0 i = i := by
  rw [copyStart, Nat.zero_mul, Nat.add_zero]

theorem copyShift_single (l other : InstrList) : l.copyShift other 1 0 = l.labelCount := by
  simp [copyShift]

/-- An insertion at one place is a case of insertions at several. -/
theorem hasCopies_splice (hi : i ≤ l.nodes.size) : HasCopies l other [i] (l.splice i other) :=
  hasCopies_foldr l other (List.pairwise_singleton _ i) (List.forall_mem_singleton.mpr hi)

/-- Both lists of labels ascend, and those of the inserted list come behind. -/
theorem unplacedLabels_splice (hl : l.OwnsLabels) (hother : other.OwnsLabels)
    (hi : i ≤ l.nodes.size) : (l.splice i other).unplacedLabels =
      l.unplacedLabels ++ other.unplacedLabels.map (Label.shift l.labelCount) := by
  have h : HasCopies l other [i] (l.splice i other) := hasCopies_splice hi
  refine eq_of_ascending Label.id (sorted_unplacedLabels _) ?_ fun lab => ?_
  · refine List.pairwise_append.mpr ⟨sorted_unplacedLabels l, ?_, fun a ha b hb => ?_⟩
    · refine List.pairwise_map.mpr ((sorted_unplacedLabels other).imp fun hab => ?_)
      exact Nat.add_lt_add_right hab _
    · obtain ⟨b', -, rfl⟩ := List.mem_map.mp hb
      have hown := hl a (mem_labels_of_used (mem_unplacedLabels.mp ha).1)
      exact Nat.lt_of_lt_of_le hown (Nat.le_add_left _ _)
  · rw [h.mem_unplaced_iff hl hother, List.mem_append, List.mem_map]
    simp [copyShift_single, eq_comm]

theorem mem_labels_splice {lab : Label} : lab ∈ (l.splice i other).labels ↔
    lab ∈ l.labels ∨ lab ∈ other.labels.map (Label.shift l.labelCount) := by
  have hnodes : (l.splice i other).nodes.toList.flatMap Node.labels =
      (l.nodes.toList.take i).flatMap Node.labels ++
        (other.nodes.toList.flatMap Node.labels).map (Label.shift l.labelCount) ++
          (l.nodes.toList.drop i).flatMap Node.labels := by
    rw [toList_splice, List.flatMap_append, List.flatMap_append, List.flatMap_map, List.map_flatMap]
    simp only [Node.labels_shift]
  have hblocks : (l.splice i other).blocks.flatMap TryBlock.labels =
      (other.blocks.flatMap TryBlock.labels).map (Label.shift l.labelCount) ++
        l.blocks.flatMap TryBlock.labels := by
    rw [splice, List.flatMap_append, List.flatMap_map, List.map_flatMap]
    rfl
  have hold : l.nodes.toList.flatMap Node.labels =
      (l.nodes.toList.take i).flatMap Node.labels ++
        (l.nodes.toList.drop i).flatMap Node.labels := by
    rw [← List.flatMap_append, List.take_append_drop]
  rw [labels, labels, labels, hnodes, hblocks, hold, List.map_append]
  simp only [List.mem_append]
  tauto

theorem ownsLabels_splice (hl : l.OwnsLabels) (hother : other.OwnsLabels) (i : Nat) :
    (l.splice i other).OwnsLabels := by
  intro lab hlab
  rw [labelCount_splice]
  rcases mem_labels_splice.mp hlab with hlab | hlab
  · exact Nat.lt_add_right _ (hl lab hlab)
  · obtain ⟨lab', hlab', rfl⟩ := List.mem_map.mp hlab
    have hlt := hother lab' hlab'
    simp only [Label.shift]
    omega

theorem isSplice_splice (hl : l.OwnsLabels) (hother : other.OwnsLabels) (hi : i ≤ l.nodes.size) :
    IsSplice l other i (l.splice i other) := by
  have h : HasCopies l other [i] (l.splice i other) := hasCopies_splice hi
  refine ⟨size_splice hi, fun j hj => ?_, fun j hj => splice_copy hi hj, rfl, fun lab hlab => ?_,
    fun lab hlab => ?_, unplacedLabels_splice hl hother hi, ownsLabels_splice hl hother i⟩
  · rw [← movedTo_single]
    exact h.kept j hj
  · rw [h.position?_kept (hl lab hlab), movedTo_single]
  · have hplace := h.position?_copied hl hother (j := 0) (p := i) rfl (hother lab hlab)
    rwa [List.length_singleton, copyShift_single, copyStart_zero] at hplace

end splice

/-- **Merging is associative and keeps meaning.** The empty list is neutral on both sides, and a
list can be inserted at any place. -/
theorem merging_keeps_meaning (a b c : InstrList) (ha : a.OwnsLabels) (hb : b.OwnsLabels) :
    (a.append b).append c = a.append (b.append c) ∧
    a.append .empty = a ∧ InstrList.empty.append a = a ∧
    ∀ i ≤ a.nodes.size, IsSplice a b i (a.splice i b) :=
  ⟨append_assoc a b c, append_empty a, empty_append a, fun _ hi => isSplice_splice ha hb hi⟩

/-- A loop. -/
def spin : InstrList := ⟨#[.label ⟨0⟩, .instr (.jump Opcode.goto ⟨0⟩)], #[true], []⟩

/-- A switch whose second target has no place yet, in a guarded range that ends there. -/
def fork : InstrList :=
  ⟨#[.instr (.tableSwitch 0 0 ⟨1⟩ [⟨0⟩]), .label ⟨0⟩, .instr (.plain 177)], #[true, false],
    [⟨⟨0⟩, ⟨1⟩, ⟨0⟩, none⟩]⟩

/-- The loop jumps over what stands in it, and the switch still lacks its second target. -/
theorem merging_spin_fork : spin.OwnsLabels ∧ fork.OwnsLabels ∧
    (spin.append fork).append spin = spin.append (fork.append spin) ∧
    IsSplice spin fork 1 (spin.splice 1 fork) ∧
    ⟨2⟩ ∈ (spin.splice 1 fork).unplacedLabels := by
  have hspin : spin.OwnsLabels := by decide
  have hfork : fork.OwnsLabels := by decide
  obtain ⟨hassoc, -, -, hsplice⟩ := merging_keeps_meaning spin fork spin hspin hfork
  exact ⟨hspin, hfork, hassoc, hsplice 1 (by decide), mem_unplacedLabels.mpr (by decide +kernel)⟩

end InstrList
end ClassWeave
