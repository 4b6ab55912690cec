import Mathlib.Order.Monotone.Basic
import ClassWeave.Proofs.Pruning

/-!
# Copies of a list inside another one

A list can be inserted at several places of another one, the last place first, so that the places in
front of it stay where they are. What comes out is the other list with one copy at every place: its
entries keep their order and their labels, every copy has labels of its own, and every label
is where it was, in the copy or in the old list.
-/

namespace ClassWeave

/-- The labels of an entry: that of a marker, or those that an instruction may go to. -/
def Node.labels : Node → List Label
  | .label lab => [lab]
  | n => n.targets

theorem Node.targets_shift (k : Nat) (n : Node) :
    (n.shift k).targets = n.targets.map (.shift k) := by
  cases n with
  | label | line => rfl
  | instr i => exact Instr.targets_map _ i

theorem Node.shift_eq_label {k : Nat} {n : Node} {lab : Label} :
    n.shift k = .label lab ↔ ∃ lab', n = .label lab' ∧ lab = lab'.shift k := by
  cases n with
  | instr | line => simp [Node.shift]
  | label lab' => simp [Node.shift, eq_comm]

theorem TryBlock.labels_shift (k : Nat) (b : TryBlock) :
    (b.shift k).labels = b.labels.map (.shift k) := rfl

namespace InstrList

/-- All labels that occur in a list. -/
def labels (l : InstrList) : List Label :=
  l.nodes.toList.flatMap Node.labels ++ l.blocks.flatMap TryBlock.labels

/-- A list uses only labels that it has handed out. -/
def OwnsLabels (l : InstrList) : Prop := ∀ lab ∈ l.labels, lab.id < l.labelCount

instance (l : InstrList) : Decidable l.OwnsLabels :=
  inferInstanceAs (Decidable (∀ lab ∈ l.labels, lab.id < l.labelCount))

section labels

variable {l : InstrList} {lab : Label} {i : Nat}

theorem mem_labels_of_marker (h : l.nodes[i]? = some (.label lab)) : lab ∈ l.labels := by
  rw [← Array.getElem?_toList] at h
  exact List.mem_append_left _ (List.mem_flatMap.mpr
    ⟨_, List.mem_of_getElem? h, List.mem_singleton_self lab⟩)

theorem mem_labels_of_used (h : lab ∈ l.usedLabels) : lab ∈ l.labels := by
  rcases List.mem_append.mp h with h | h
  · obtain ⟨n, hn, hlab⟩ := List.mem_flatMap.mp h
    refine List.mem_append_left _ (List.mem_flatMap.mpr ⟨n, hn, ?_⟩)
    cases n with
    | label | line => cases hlab
    | instr => exact hlab
  · exact List.mem_append_right _ h

theorem mem_usedLabels : lab ∈ l.usedLabels ↔
    (∃ (i : Nat) (n : Node), l.nodes[i]? = some n ∧ lab ∈ n.targets) ∨
      ∃ b ∈ l.blocks, lab ∈ b.labels := by
  rw [usedLabels, List.mem_append, List.mem_flatMap, List.mem_flatMap]
  refine or_congr_left ⟨?_, ?_⟩
  · rintro ⟨n, hn, hlab⟩
    obtain ⟨i, hi⟩ := List.mem_iff_getElem?.mp hn
    rw [Array.getElem?_toList] at hi
    exact ⟨i, n, hi, hlab⟩
  · rintro ⟨i, n, hi, hlab⟩
    rw [← Array.getElem?_toList] at hi
    exact ⟨n, List.mem_of_getElem? hi, hlab⟩

theorem mem_unplacedLabels : lab ∈ l.unplacedLabels ↔ lab ∈ l.usedLabels ∧ ¬ l.isPlaced lab := by
  rw [unplacedLabels, Code.Label.mem_sorted, List.mem_filter, Bool.not_eq_true', Bool.not_eq_true]

end labels

/-! ## Where labels are -/

section places

variable {l l' : InstrList} {lab lab' : Label} {i : Nat}

/-- A label is where it has a marker and none behind. -/
theorem position?_eq_some_iff (hid : lab.id < l.labelCount) :
    lab.position? l.labelPositions = some i ↔
      l.nodes[i]? = some (.label lab) ∧ ∀ j, i < j → l.nodes[j]? ≠ some (.label lab) := by
  simp only [← Array.getElem?_toList]
  constructor
  · intro h
    obtain ⟨as, bs, hnodes, rfl, hnot⟩ := position?_labelPositions h
    rw [hnodes]
    refine ⟨List.getElem?_append_right (Nat.le_refl _) |>.trans (by simp), fun j hj hget => ?_⟩
    rw [List.getElem?_append_right (Nat.le_of_lt hj)] at hget
    obtain ⟨k, hk⟩ : ∃ k, j - as.length = k + 1 := ⟨j - as.length - 1, by omega⟩
    rw [hk, List.getElem?_cons_succ] at hget
    exact hnot (List.mem_of_getElem? hget)
  · rintro ⟨hget, hlast⟩
    obtain ⟨hsplit, hlength⟩ := eq_take_cons_drop hget
    rw [position?_of_split hid hsplit ?_, hlength]
    intro hmem
    obtain ⟨k, hk⟩ := List.mem_iff_getElem?.mp hmem
    rw [List.getElem?_drop] at hk
    exact hlast _ (by omega) hk

theorem exists_position?_of_marker (hid : lab.id < l.labelCount)
    (h : l.nodes[i]? = some (.label lab)) : ∃ j, lab.position? l.labelPositions = some j := by
  rw [← Array.getElem?_toList] at h
  -- the last marker is the first one from behind
  have hmem : .label lab ∈ l.nodes.toList.reverse := List.mem_reverse.mpr (List.mem_of_getElem? h)
  obtain ⟨as, bs, hsplit, hnot⟩ := List.eq_append_cons_of_mem hmem
  have hnodes : l.nodes.toList = bs.reverse ++ .label lab :: as.reverse := by
    rw [← List.reverse_reverse l.nodes.toList, hsplit]
    simp
  exact ⟨bs.reverse.length, position?_of_split hid hnodes (by rwa [List.mem_reverse])⟩

/-- The markers of a label move along with the entries around them. -/
theorem position?_of_markers {f : Nat → Nat} (hf : StrictMono f) (hid : lab.id < l.labelCount)
    (hid' : lab'.id < l'.labelCount)
    (h : ∀ k, l'.nodes[k]? = some (.label lab') ↔ ∃ i, k = f i ∧ l.nodes[i]? = some (.label lab)) :
    lab'.position? l'.labelPositions = (lab.position? l.labelPositions).map f := by
  cases hpos : lab.position? l.labelPositions with
  | none =>
    rw [Option.map_none]
    cases hpos' : lab'.position? l'.labelPositions with
    | none => rfl
    | some k =>
      obtain ⟨i, -, hi⟩ := (h k).mp ((position?_eq_some_iff hid').mp hpos').1
      obtain ⟨j, hj⟩ := exists_position?_of_marker hid hi
      rw [hpos] at hj
      cases hj
  | some i =>
    obtain ⟨hi, hlast⟩ := (position?_eq_some_iff hid).mp hpos
    refine (position?_eq_some_iff hid').mpr ⟨(h (f i)).mpr ⟨i, rfl, hi⟩, fun k hk hget => ?_⟩
    obtain ⟨j, rfl, hj⟩ := (h k).mp hget
    exact hlast j (hf.lt_iff_lt.mp hk) hj

end places

/-! ## One copy -/

section splice

variable {l other : InstrList} {lab : Label} {p i : Nat}

theorem toList_splice (l other : InstrList) (p : Nat) : (l.splice p other).nodes.toList =
    l.nodes.toList.take p ++ other.nodes.toList.map (Node.shift l.labelCount) ++
      l.nodes.toList.drop p := by
  simp [splice, labelCount, List.take_of_length_le]

theorem size_splice (hp : p ≤ l.nodes.size) :
    (l.splice p other).nodes.size = l.nodes.size + other.nodes.size := by
  rw [← Array.length_toList, toList_splice]
  simp
  omega

theorem splice_in_front (hp : p ≤ l.nodes.size) (hi : i < p) :
    (l.splice p other).nodes[i]? = l.nodes[i]? := by
  have hlt : i < (l.nodes.toList.take p).length := by
    rw [List.length_take, Array.length_toList]
    omega
  rw [← Array.getElem?_toList, toList_splice, List.append_assoc, List.getElem?_append_left hlt,
    List.getElem?_take_of_lt hi, Array.getElem?_toList]

theorem splice_behind (hp : p ≤ l.nodes.size) (hi : p ≤ i) :
    (l.splice p other).nodes[i + other.nodes.size]? = l.nodes[i]? := by
  have hlength : (l.nodes.toList.take p ++
      other.nodes.toList.map (Node.shift l.labelCount)).length = p + other.nodes.size := by
    rw [List.length_append, List.length_take, List.length_map, Array.length_toList,
      Array.length_toList, Nat.min_eq_left hp]
  rw [← Array.getElem?_toList, toList_splice, List.getElem?_append_right (by omega), hlength,
    List.getElem?_drop, Array.getElem?_toList]
  congr 1
  omega

theorem splice_copy (hp : p ≤ l.nodes.size) (hi : i < other.nodes.size) :
    (l.splice p other).nodes[p + i]? = other.nodes[i]?.map (Node.shift l.labelCount) := by
  have hlength : (l.nodes.toList.take p).length = p := by
    rw [List.length_take, Array.length_toList, Nat.min_eq_left hp]
  rw [← Array.getElem?_toList, toList_splice, List.append_assoc,
    List.getElem?_append_right (by omega), hlength, Nat.add_sub_cancel_left,
    List.getElem?_append_left (by rwa [List.length_map, Array.length_toList]), List.getElem?_map,
    Array.getElem?_toList]

theorem labelCount_splice (l other : InstrList) (p : Nat) :
    (l.splice p other).labelCount = l.labelCount + other.labelCount := Array.size_append

theorem isPlaced_splice (h : lab.id < l.labelCount) :
    (l.splice p other).isPlaced lab = l.isPlaced lab := by
  simp only [isPlaced, splice, Array.getD_eq_getD_getElem?, Array.getElem?_append_left h]

theorem isPlaced_splice_copy (l other : InstrList) (p : Nat) (lab : Label) :
    (l.splice p other).isPlaced (lab.shift l.labelCount) = other.isPlaced lab := by
  simp only [isPlaced, splice, Array.getD_eq_getD_getElem?, Label.shift, labelCount,
    Array.getElem?_append_right (Nat.le_add_left _ _), Nat.add_sub_cancel]

end splice

/-! ## Several copies -/

section copies

variable (old other : InstrList) (ps : List Nat)

/-- Where the copy number `j` begins, if it is inserted in front of the entry at `p`. -/
def copyStart (j p : Nat) : Nat := p + j * other.nodes.size

/-- How far the labels of the copy number `j` out of `count` are shifted. The last copy is inserted
first, so its labels come right behind those of the list. -/
def copyShift (count j : Nat) : Nat := old.labelCount + (count - 1 - j) * other.labelCount

/-- Where an entry is behind the copies in front of it. -/
def movedTo (i : Nat) : Nat := i + ps.countP (· ≤ i) * other.nodes.size

/-- The entry belongs to a copy. -/
def inCopy (i : Nat) : Bool := ps.zipIdx.any fun (p, j) =>
  other.copyStart j p ≤ i && i < other.copyStart j p + other.nodes.size

/-- Copies of a list are inserted in front of the entries at some places, and nothing else is
changed. -/
structure HasCopies (l : InstrList) : Prop where
  size : l.nodes.size = old.nodes.size + ps.length * other.nodes.size
  /-- Every entry was there or belongs to a copy. -/
  covered : ∀ k < l.nodes.size, (∃ i < old.nodes.size, k = other.movedTo ps i) ∨
    ∃ j p, ps[j]? = some p ∧ ∃ q < other.nodes.size, k = other.copyStart j p + q
  kept : ∀ i < old.nodes.size, l.nodes[other.movedTo ps i]? = old.nodes[i]?
  copied : ∀ j p, ps[j]? = some p → ∀ q < other.nodes.size,
    l.nodes[other.copyStart j p + q]? =
      other.nodes[q]?.map (Node.shift (old.copyShift other ps.length j))
  removed : (l.filterIdx fun i _ => !other.inCopy ps i).nodes = old.nodes
  labelCount : l.labelCount = old.labelCount + ps.length * other.labelCount
  keptFlags : ∀ lab, lab.id < old.labelCount → l.isPlaced lab = old.isPlaced lab
  copiedFlags : ∀ j < ps.length, ∀ lab, lab.id < other.labelCount →
    l.isPlaced (lab.shift (old.copyShift other ps.length j)) = other.isPlaced lab
  /-- The handlers of the copies come in front of those that were there. -/
  blocks : l.blocks = ((List.range ps.length).flatMap fun j =>
    other.blocks.map (TryBlock.shift (old.copyShift other ps.length j))) ++ old.blocks

end copies

section copies

variable {old other l : InstrList} {ps : List Nat} {p i j : Nat}

theorem movedTo_cons_of_lt (h : i < p) (hps : ∀ q ∈ ps, p < q) :
    other.movedTo (p :: ps) i = i ∧ other.movedTo ps i = i := by
  have hnone : ps.countP (· ≤ i) = 0 := by
    rw [List.countP_eq_zero]
    intro q hq
    have := hps q hq
    simp only [decide_eq_true_eq]
    omega
  rw [movedTo, movedTo, List.countP_cons, hnone]
  simp
  omega

theorem movedTo_cons_of_le (h : p ≤ i) :
    other.movedTo (p :: ps) i = other.movedTo ps i + other.nodes.size := by
  rw [movedTo, movedTo, List.countP_cons_of_pos (by simpa using h), Nat.add_mul, Nat.one_mul,
    Nat.add_assoc]

theorem movedTo_strictMono (other : InstrList) (ps : List Nat) : StrictMono (other.movedTo ps) := by
  intro i j hij
  have hle : ps.countP (· ≤ i) ≤ ps.countP (· ≤ j) :=
    List.countP_mono_left fun q _ hq => by
      simp only [decide_eq_true_eq] at hq ⊢
      omega
  exact Nat.add_lt_add_of_lt_of_le hij (Nat.mul_le_mul_right _ hle)

theorem copyStart_succ (other : InstrList) (j p : Nat) :
    other.copyStart (j + 1) p = other.copyStart j p + other.nodes.size := by
  rw [copyStart, copyStart, Nat.add_mul, Nat.one_mul, Nat.add_assoc]

theorem copyShift_succ (old other : InstrList) (count j : Nat) :
    old.copyShift other (count + 1) (j + 1) = old.copyShift other count j := by
  rw [copyShift, copyShift]
  congr 2
  omega

theorem copyShift_zero (hcount : l.labelCount = old.labelCount + ps.length * other.labelCount) :
    old.copyShift other (ps.length + 1) 0 = l.labelCount := by
  rw [copyShift, hcount, Nat.add_sub_cancel, Nat.sub_zero]

theorem inCopy_iff {k : Nat} : other.inCopy ps k ↔ ∃ j p, ps[j]? = some p ∧
    other.copyStart j p ≤ k ∧ k < other.copyStart j p + other.nodes.size := by
  rw [inCopy, List.any_eq_true]
  constructor
  · rintro ⟨⟨p, j⟩, hmem, h⟩
    simp only [Bool.and_eq_true, decide_eq_true_eq] at h
    exact ⟨j, p, List.mem_zipIdx_iff_getElem?.mp hmem, h⟩
  · rintro ⟨j, p, hp, h⟩
    refine ⟨(p, j), List.mem_zipIdx_iff_getElem?.mpr hp, ?_⟩
    simpa using h

theorem le_movedTo (other : InstrList) (ps : List Nat) (i : Nat) : i ≤ other.movedTo ps i :=
  Nat.le_add_right _ _

theorem le_copyStart (other : InstrList) (j p : Nat) : p ≤ other.copyStart j p :=
  Nat.le_add_right _ _

/-- The labels of a copy are among those that all the copies bring along. -/
theorem copyShift_lt {count id : Nat} (hj : j < count) (hid : id < other.labelCount) :
    id + old.copyShift other count j < old.labelCount + count * other.labelCount := by
  have hle : (count - 1 - j + 1) * other.labelCount ≤ count * other.labelCount :=
    Nat.mul_le_mul_right _ (by omega)
  rw [Nat.add_mul, Nat.one_mul] at hle
  rw [copyShift]
  omega

/-- A label of a copy tells which copy it belongs to, and which label it comes from. -/
theorem shift_inj {count j j' : Nat} {a b : Label} (hj : j < count) (hj' : j' < count)
    (ha : a.id < other.labelCount) (hb : b.id < other.labelCount)
    (h : a.shift (old.copyShift other count j) = b.shift (old.copyShift other count j')) :
    j = j' ∧ a = b := by
  have hpos : 0 < other.labelCount := Nat.zero_lt_of_lt ha
  have hid : a.id + (count - 1 - j) * other.labelCount =
      b.id + (count - 1 - j') * other.labelCount := by
    have := congrArg Label.id h
    simp only [Label.shift, copyShift] at this
    omega
  have hdiv := congrArg (· / other.labelCount) hid
  simp only [Nat.add_mul_div_right _ _ hpos, Nat.div_eq_of_lt ha, Nat.div_eq_of_lt hb] at hdiv
  obtain rfl : j = j' := by omega
  refine ⟨rfl, congrArg Label.mk (?_ : a.id = b.id)⟩
  omega

/-- In front of all places there is no copy. -/
theorem not_inCopy {k : Nat} (h : ∀ q ∈ ps, k < q) : other.inCopy ps k = false := by
  rw [Bool.eq_false_iff, ne_eq, inCopy_iff]
  rintro ⟨j, q, hq, hle, -⟩
  have hlt := h q (List.mem_of_getElem? hq)
  have hstart := le_copyStart other j q
  omega

theorem inCopy_first {k : Nat} (hle : p ≤ k) (hlt : k < p + other.nodes.size) :
    other.inCopy (p :: ps) k := by
  refine inCopy_iff.mpr ⟨0, p, rfl, ?_⟩
  rw [copyStart, Nat.zero_mul, Nat.add_zero]
  exact ⟨hle, hlt⟩

/-- Behind the first copy, the copies are those of the other places. -/
theorem inCopy_behind {k : Nat} (h : p ≤ k) :
    other.inCopy (p :: ps) (k + other.nodes.size) = other.inCopy ps k := by
  rw [Bool.eq_iff_iff, inCopy_iff, inCopy_iff]
  constructor
  · rintro ⟨j, q, hq, hle, hlt⟩
    cases j with
    | zero =>
      obtain rfl := Option.some.inj hq
      rw [copyStart, Nat.zero_mul] at hlt
      omega
    | succ j =>
      rw [copyStart_succ] at hle hlt
      exact ⟨j, q, hq, by omega, by omega⟩
  · rintro ⟨j, q, hq, hle, hlt⟩
    refine ⟨j + 1, q, hq, ?_⟩
    rw [copyStart_succ]
    omega

theorem keptFrom_in_front {nodes : List Node} (h : ∀ q ∈ ps, nodes.length ≤ q) :
    keptFrom (fun i _ => !other.inCopy ps i) 0 nodes = nodes := by
  refine keptFrom_eq_self fun r hr => ?_
  have hlt := (List.mem_zipIdx hr).2.1
  rw [not_inCopy fun q hq => by have := h q hq; omega]
  rfl

theorem hasCopies_nil (old other : InstrList) : HasCopies old other [] old where
  size := by simp
  covered k hk := .inl ⟨k, hk, by simp [movedTo]⟩
  kept i _ := by simp [movedTo]
  copied j p hp := by simp at hp
  removed := by
    rw [← Array.toList_inj, toList_filterIdx, keptFrom_eq_self]
    intro q _
    rfl
  labelCount := by simp
  keptFlags _ _ := rfl
  copiedFlags j hj := by simp at hj
  blocks := rfl

namespace HasCopies

variable (h : HasCopies old other ps l)

include h

theorem covered_splice (hp : p ≤ old.nodes.size) (hps : ∀ q ∈ ps, p < q) {k : Nat}
    (hk : k < l.nodes.size + other.nodes.size) :
    (∃ i < old.nodes.size, k = other.movedTo (p :: ps) i) ∨
      ∃ j q, (p :: ps)[j]? = some q ∧ ∃ r < other.nodes.size, k = other.copyStart j q + r := by
  rcases Nat.lt_or_ge k p with hlt | hge
  · exact .inl ⟨k, by omega, (movedTo_cons_of_lt hlt hps).1.symm⟩
  -- in the new copy, or behind it, where everything comes one copy later
  rcases Nat.lt_or_ge k (p + other.nodes.size) with hlt | hge'
  · refine .inr ⟨0, p, rfl, k - p, by omega, ?_⟩
    rw [copyStart, Nat.zero_mul]
    omega
  obtain ⟨k, rfl⟩ := Nat.exists_eq_add_of_le' (Nat.le_trans (Nat.le_add_left _ p) hge')
  rcases h.covered k (by omega) with ⟨i, hi, rfl⟩ | ⟨j, q, hq, r, hr, rfl⟩
  · have hpi : p ≤ i := by
      apply Nat.le_of_not_lt
      intro hlt
      rw [(movedTo_cons_of_lt hlt hps).2] at hge'
      omega
    exact .inl ⟨i, hi, (movedTo_cons_of_le hpi).symm⟩
  · refine .inr ⟨j + 1, q, hq, r, hr, ?_⟩
    rw [copyStart_succ]
    omega

theorem kept_splice (hp : p ≤ old.nodes.size) (hps : ∀ q ∈ ps, p < q) {i : Nat}
    (hi : i < old.nodes.size) :
    (l.splice p other).nodes[other.movedTo (p :: ps) i]? = old.nodes[i]? := by
  have hpl : p ≤ l.nodes.size := by
    rw [h.size]
    omega
  have hkept := h.kept i hi
  rcases Nat.lt_or_ge i p with hlt | hge
  · obtain ⟨hcons, hmoved⟩ : other.movedTo (p :: ps) i = i ∧ other.movedTo ps i = i :=
      movedTo_cons_of_lt hlt hps
    rw [hmoved] at hkept
    rw [hcons, splice_in_front hpl hlt, hkept]
  · rw [movedTo_cons_of_le hge,
      splice_behind hpl (Nat.le_trans hge (le_movedTo other ps i)), hkept]

theorem copied_splice (hp : p ≤ old.nodes.size) (hps : ∀ q ∈ ps, p < q) {j q r : Nat}
    (hq : (p :: ps)[j]? = some q) (hr : r < other.nodes.size) :
    (l.splice p other).nodes[other.copyStart j q + r]? =
      other.nodes[r]?.map (Node.shift (old.copyShift other (p :: ps).length j)) := by
  have hpl : p ≤ l.nodes.size := by
    rw [h.size]
    omega
  rw [List.length_cons]
  cases j with
  | zero =>
    obtain rfl := Option.some.inj hq
    rw [copyStart, Nat.zero_mul, Nat.add_zero, splice_copy hpl hr, copyShift_zero h.labelCount]
  | succ j =>
    rw [List.getElem?_cons_succ] at hq
    have hlt := hps q (List.mem_of_getElem? hq)
    have hstart := le_copyStart other j q
    rw [copyStart_succ, Nat.add_right_comm, splice_behind hpl (by omega), h.copied j q hq r hr,
      copyShift_succ]

theorem removed_splice (hp : p ≤ old.nodes.size) (hps : ∀ q ∈ ps, p < q) :
    ((l.splice p other).filterIdx fun i _ => !other.inCopy (p :: ps) i).nodes = old.nodes := by
  have hpl : p ≤ l.nodes.toList.length := by
    rw [Array.length_toList, h.size]
    omega
  have hlength : (l.nodes.toList.take p).length = p := List.length_take_of_le hpl
  have hremoved := h.removed
  rw [← Array.toList_inj, toList_filterIdx] at hremoved ⊢
  have hbefore : ∀ q ∈ ps, p ≤ q := fun q hq => Nat.le_of_lt (hps q hq)
  have hfront : ∀ qs : List Nat, (∀ q ∈ qs, p ≤ q) →
      keptFrom (fun i _ => !other.inCopy qs i) 0 (l.nodes.toList.take p) =
        l.nodes.toList.take p := fun qs hqs => keptFrom_in_front (by rwa [hlength])
  have hcopy : keptFrom (fun i _ => !other.inCopy (p :: ps) i) p
      (other.nodes.toList.map (Node.shift l.labelCount)) = [] := by
    refine keptFrom_eq_nil fun q hq => ?_
    obtain ⟨hle, hlt, -⟩ := List.mem_zipIdx hq
    rw [List.length_map, Array.length_toList] at hlt
    simp [inCopy_first hle hlt]
  have hbehind : keptFrom (fun i _ => !other.inCopy (p :: ps) i) (p + other.nodes.size)
      (l.nodes.toList.drop p) =
        keptFrom (fun i _ => !other.inCopy ps i) p (l.nodes.toList.drop p) := by
    refine keptFrom_congr fun i n => ?_
    rw [Nat.add_right_comm, inCopy_behind (Nat.le_add_right p i)]
  rw [toList_splice, keptFrom_append, keptFrom_append, Nat.zero_add, Nat.zero_add,
    List.length_append, hlength, List.length_map, Array.length_toList, hcopy, hbehind,
    List.append_nil, hfront (p :: ps) (List.forall_mem_cons.mpr ⟨Nat.le_refl p, hbefore⟩)]
  rw [← List.take_append_drop p l.nodes.toList, keptFrom_append, hlength, Nat.zero_add,
    hfront ps hbefore] at hremoved
  exact hremoved

/-- One more copy in front of the others. -/
theorem splice (hp : p ≤ old.nodes.size) (hps : ∀ q ∈ ps, p < q) :
    HasCopies old other (p :: ps) (l.splice p other) where
  size := by
    rw [size_splice (by rw [h.size]; omega), h.size, List.length_cons, Nat.add_mul, Nat.one_mul,
      Nat.add_assoc]
  covered k hk := by
    rw [size_splice (by rw [h.size]; omega)] at hk
    exact h.covered_splice hp hps hk
  kept i hi := h.kept_splice hp hps hi
  copied j q hq r hr := h.copied_splice hp hps hq hr
  removed := h.removed_splice hp hps
  labelCount := by
    rw [labelCount_splice, h.labelCount, List.length_cons, Nat.add_mul, Nat.one_mul, Nat.add_assoc]
  keptFlags lab hlab := by
    rw [isPlaced_splice (by rw [h.labelCount]; omega), h.keptFlags lab hlab]
  copiedFlags j hj lab hlab := by
    rw [List.length_cons] at hj ⊢
    cases j with
    | zero => rw [copyShift_zero h.labelCount, isPlaced_splice_copy]
    | succ j =>
      have hlt : j < ps.length := Nat.lt_of_succ_lt_succ hj
      rw [copyShift_succ, isPlaced_splice, h.copiedFlags j hlt lab hlab]
      rw [h.labelCount]
      exact copyShift_lt hlt hlab
  blocks := by
    rw [List.length_cons, List.range_succ_eq_map, List.flatMap_cons, List.flatMap_map,
      copyShift_zero h.labelCount, List.append_assoc]
    simp only [copyShift_succ]
    rw [← h.blocks]
    rfl

/-! ## Labels of the copies -/

/-- A marker of an old label comes from the old list. -/
theorem marker_kept {lab : Label} (hid : lab.id < old.labelCount) (k : Nat) :
    l.nodes[k]? = some (.label lab) ↔
      ∃ i, k = other.movedTo ps i ∧ old.nodes[i]? = some (.label lab) := by
  constructor
  · intro hk
    obtain ⟨hlt, -⟩ := Array.getElem?_eq_some_iff.mp hk
    rcases h.covered k hlt with ⟨i, hi, rfl⟩ | ⟨j, p, hp, r, hr, rfl⟩
    · exact ⟨i, rfl, (h.kept i hi).symm.trans hk⟩
    · rw [h.copied j p hp r hr] at hk
      obtain ⟨n, -, hn⟩ := Option.map_eq_some_iff.mp hk
      obtain ⟨lab', -, rfl⟩ := Node.shift_eq_label.mp hn
      simp only [Label.shift, copyShift] at hid
      omega
  · rintro ⟨i, rfl, hi⟩
    obtain ⟨hlt, -⟩ := Array.getElem?_eq_some_iff.mp hi
    rw [h.kept i hlt, hi]

/-- A marker of a label of a copy belongs to that copy. -/
theorem marker_copied (hold : old.OwnsLabels) (hother : other.OwnsLabels) (hp : ps[j]? = some p)
    {lab : Label} (hid : lab.id < other.labelCount) (k : Nat) :
    l.nodes[k]? = some (.label (lab.shift (old.copyShift other ps.length j))) ↔
      ∃ i, k = other.copyStart j p + i ∧ other.nodes[i]? = some (.label lab) := by
  have hj : j < ps.length := (List.getElem?_eq_some_iff.mp hp).1
  constructor
  · intro hk
    obtain ⟨hlt, -⟩ := Array.getElem?_eq_some_iff.mp hk
    rcases h.covered k hlt with ⟨i, hi, rfl⟩ | ⟨j', p', hp', r, hr, rfl⟩
    · -- the old list has no marker with so high a number
      rw [h.kept i hi] at hk
      have hown := hold _ (mem_labels_of_marker hk)
      simp only [Label.shift, copyShift] at hown
      omega
    · -- and those of other copies have other numbers
      rw [h.copied j' p' hp' r hr] at hk
      obtain ⟨n, hn, heq⟩ := Option.map_eq_some_iff.mp hk
      obtain ⟨lab', rfl, hlab⟩ := Node.shift_eq_label.mp heq
      have hj' : j' < ps.length := (List.getElem?_eq_some_iff.mp hp').1
      obtain ⟨rfl, rfl⟩ := shift_inj hj hj' hid (hother _ (mem_labels_of_marker hn)) hlab
      obtain rfl := Option.some.inj (hp.symm.trans hp')
      exact ⟨r, rfl, hn⟩
  · rintro ⟨i, rfl, hi⟩
    obtain ⟨hlt, -⟩ := Array.getElem?_eq_some_iff.mp hi
    rw [h.copied j p hp i hlt, hi]
    rfl

/-- A label that is used was used before, or in a copy. -/
theorem used_cases {lab : Label} (hlab : lab ∈ l.usedLabels) : lab ∈ old.usedLabels ∨
    ∃ j < ps.length, ∃ lab' ∈ other.usedLabels,
      lab = lab'.shift (old.copyShift other ps.length j) := by
  rcases mem_usedLabels.mp hlab with ⟨k, n, hk, hn⟩ | ⟨b, hb, hlab⟩
  · obtain ⟨hlt, -⟩ := Array.getElem?_eq_some_iff.mp hk
    rcases h.covered k hlt with ⟨i, hi, rfl⟩ | ⟨j, p, hp, r, hr, rfl⟩
    · rw [h.kept i hi] at hk
      exact .inl (mem_usedLabels.mpr (.inl ⟨i, n, hk, hn⟩))
    · rw [h.copied j p hp r hr] at hk
      obtain ⟨m, hm, rfl⟩ := Option.map_eq_some_iff.mp hk
      rw [Node.targets_shift] at hn
      obtain ⟨lab', hlab', rfl⟩ := List.mem_map.mp hn
      exact .inr ⟨j, (List.getElem?_eq_some_iff.mp hp).1, lab',
        mem_usedLabels.mpr (.inl ⟨r, m, hm, hlab'⟩), rfl⟩
  · rw [h.blocks] at hb
    rcases List.mem_append.mp hb with hb | hb
    · obtain ⟨j, hj, hb⟩ := List.mem_flatMap.mp hb
      obtain ⟨b', hb', rfl⟩ := List.mem_map.mp hb
      rw [TryBlock.labels_shift] at hlab
      obtain ⟨lab', hlab', rfl⟩ := List.mem_map.mp hlab
      exact .inr ⟨j, List.mem_range.mp hj, lab', mem_usedLabels.mpr (.inr ⟨b', hb', hlab'⟩), rfl⟩
    · exact .inl (mem_usedLabels.mpr (.inr ⟨b, hb, hlab⟩))

theorem used_of_used {lab : Label} (hlab : lab ∈ old.usedLabels) : lab ∈ l.usedLabels := by
  rcases mem_usedLabels.mp hlab with ⟨i, n, hi, hn⟩ | ⟨b, hb, hlab⟩
  · obtain ⟨hlt, -⟩ := Array.getElem?_eq_some_iff.mp hi
    exact mem_usedLabels.mpr (.inl ⟨other.movedTo ps i, n, (h.kept i hlt).trans hi, hn⟩)
  · refine mem_usedLabels.mpr (.inr ⟨b, ?_, hlab⟩)
    rw [h.blocks]
    exact List.mem_append_right _ hb

theorem used_of_copied (hp : ps[j]? = some p) {lab : Label} (hlab : lab ∈ other.usedLabels) :
    lab.shift (old.copyShift other ps.length j) ∈ l.usedLabels := by
  rcases mem_usedLabels.mp hlab with ⟨i, n, hi, hn⟩ | ⟨b, hb, hlab⟩
  · obtain ⟨hlt, -⟩ := Array.getElem?_eq_some_iff.mp hi
    have hcopy := h.copied j p hp i hlt
    rw [hi, Option.map_some] at hcopy
    refine mem_usedLabels.mpr (.inl ⟨_, _, hcopy, ?_⟩)
    rw [Node.targets_shift]
    exact List.mem_map_of_mem hn
  · have hcopy : b.shift (old.copyShift other ps.length j) ∈ l.blocks := by
      rw [h.blocks]
      refine List.mem_append_left _ (List.mem_flatMap.mpr ⟨j, ?_, List.mem_map_of_mem hb⟩)
      exact List.mem_range.mpr (List.getElem?_eq_some_iff.mp hp).1
    refine mem_usedLabels.mpr (.inr ⟨_, hcopy, ?_⟩)
    rw [TryBlock.labels_shift]
    exact List.mem_map_of_mem hlab

/-- Without a place are the labels that had none before, and those of every copy. -/
theorem mem_unplaced_iff (hold : old.OwnsLabels) (hother : other.OwnsLabels) {lab : Label} :
    lab ∈ l.unplacedLabels ↔ lab ∈ old.unplacedLabels ∨ ∃ j < ps.length,
      ∃ lab' ∈ other.unplacedLabels, lab = lab'.shift (old.copyShift other ps.length j) := by
  simp only [mem_unplacedLabels]
  constructor
  · rintro ⟨hused, hplaced⟩
    rcases h.used_cases hused with hold' | ⟨j, hj, lab', hlab', rfl⟩
    · rw [h.keptFlags lab (hold lab (mem_labels_of_used hold'))] at hplaced
      exact .inl ⟨hold', hplaced⟩
    · rw [h.copiedFlags j hj lab' (hother lab' (mem_labels_of_used hlab'))] at hplaced
      exact .inr ⟨j, hj, lab', ⟨hlab', hplaced⟩, rfl⟩
  · rintro (⟨hused, hplaced⟩ | ⟨j, hj, lab', ⟨hused, hplaced⟩, rfl⟩)
    · rw [← h.keptFlags lab (hold lab (mem_labels_of_used hused))] at hplaced
      exact ⟨h.used_of_used hused, hplaced⟩
    · rw [← h.copiedFlags j hj lab' (hother lab' (mem_labels_of_used hused))] at hplaced
      exact ⟨h.used_of_copied (List.getElem?_eq_getElem hj) hused, hplaced⟩

/-- Copies of complete code leave no label without a place. -/
theorem mem_unplaced (hold : old.OwnsLabels) (hother : other.OwnsLabels)
    (hcomplete : other.unplacedLabels = []) (lab : Label) :
    lab ∈ l.unplacedLabels ↔ lab ∈ old.unplacedLabels := by
  simp [h.mem_unplaced_iff hold hother, hcomplete]

/-- Every old label is where it was, behind the copies in front of it. -/
theorem position?_kept {lab : Label} (hid : lab.id < old.labelCount) :
    lab.position? l.labelPositions = (lab.position? old.labelPositions).map (other.movedTo ps) := by
  refine position?_of_markers (movedTo_strictMono other ps) hid ?_ (h.marker_kept hid)
  rw [h.labelCount]
  exact Nat.lt_add_right _ hid

/-- Every label of a copy is where it was, counted from the start of the copy. -/
theorem position?_copied (hold : old.OwnsLabels) (hother : other.OwnsLabels) (hp : ps[j]? = some p)
    {lab : Label} (hid : lab.id < other.labelCount) :
    (lab.shift (old.copyShift other ps.length j)).position? l.labelPositions =
      (lab.position? other.labelPositions).map (other.copyStart j p + ·) := by
  refine position?_of_markers (fun _ _ hlt => Nat.add_lt_add_left hlt _) hid ?_
    (h.marker_copied hold hother hp hid)
  rw [h.labelCount]
  exact copyShift_lt (List.getElem?_eq_some_iff.mp hp).1 hid

end HasCopies

/-- The list with the copies is there. -/
theorem hasCopies_foldr (old other : InstrList) (hps : ps.Pairwise (· < ·))
    (hin : ∀ p ∈ ps, p ≤ old.nodes.size) :
    HasCopies old other ps (ps.foldr (fun p l => l.splice p other) old) := by
  induction ps with
  | nil => exact hasCopies_nil old other
  | cons p ps ih =>
    obtain ⟨hlt, hps⟩ := List.pairwise_cons.mp hps
    obtain ⟨hp, hin⟩ := List.forall_mem_cons.mp hin
    exact (ih hps hin).splice hp hlt

/-- The old list and the copies have no labels in common. -/
theorem apart_copies (hold : old.OwnsLabels) (hother : other.OwnsLabels) (count : Nat) :
    List.Pairwise List.Disjoint (old.labels :: (List.range count).map fun j =>
      other.labels.map (.shift (old.copyShift other count j))) := by
  refine List.pairwise_cons.mpr ⟨fun copy hcopy lab hlab hlab' => ?_, ?_⟩
  · obtain ⟨j, -, rfl⟩ := List.mem_map.mp hcopy
    obtain ⟨lab', -, rfl⟩ := List.mem_map.mp hlab'
    have hown := hold _ hlab
    simp only [Label.shift, copyShift] at hown
    omega
  · refine List.pairwise_map.mpr (List.nodup_range.imp_of_mem ?_)
    intro j j' hj hj' hne lab hlab hlab'
    obtain ⟨a, ha, rfl⟩ := List.mem_map.mp hlab
    obtain ⟨b, hb, heq⟩ := List.mem_map.mp hlab'
    exact hne (shift_inj (List.mem_range.mp hj) (List.mem_range.mp hj') (hother a ha) (hother b hb)
      heq.symm).1

end copies

/-- Copies of a list are inserted, and all labels keep their meaning. -/
structure IsInsertion (old other : InstrList) (ps : List Nat) (l : InstrList) : Prop extends
    HasCopies old other ps l where
  keptPlaces : ∀ lab : Label, lab.id < old.labelCount →
    lab.position? l.labelPositions = (lab.position? old.labelPositions).map (other.movedTo ps)
  copiedPlaces : ∀ j p, ps[j]? = some p → ∀ lab : Label, lab.id < other.labelCount →
    (lab.shift (old.copyShift other ps.length j)).position? l.labelPositions =
      (lab.position? other.labelPositions).map (other.copyStart j p + ·)
  /-- Neither the old list and a copy nor two copies have a label in common. -/
  apart : List.Pairwise List.Disjoint (old.labels :: (List.range ps.length).map fun j =>
    other.labels.map (.shift (old.copyShift other ps.length j)))
  unplaced : ∀ lab, lab ∈ l.unplacedLabels ↔ lab ∈ old.unplacedLabels

/-- Code that is complete can be inserted at several places. -/
theorem isInsertion_foldr {old other : InstrList} {ps : List Nat} (hold : old.OwnsLabels)
    (hother : other.OwnsLabels) (hcomplete : other.unplacedLabels = [])
    (hps : ps.Pairwise (· < ·)) (hin : ∀ p ∈ ps, p ≤ old.nodes.size) :
    IsInsertion old other ps (ps.foldr (fun p l => l.splice p other) old) := by
  have h := hasCopies_foldr old other hps hin
  exact ⟨h, fun _ => h.position?_kept, fun _ _ hp _ => h.position?_copied hold hother hp,
    apart_copies hold hother _, h.mem_unplaced hold hother hcomplete⟩

end InstrList
end ClassWeave
