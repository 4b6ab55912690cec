import ClassWeave.Build.Control
import ClassWeave.Proofs.IntMachine
import Mathlib.Tactic.SplitIfs

/-!
# Blocks of integer code

A computation implements a meaning if, whatever was built before, it succeeds and adds a block of
entries that performs the meaning wherever it comes to stand. A block keeps its labels to itself:
they are those that were handed out while it was built, it marks each of them once and jumps to no
others. This is what lets blocks stand inside one another.
-/

namespace ClassWeave

/-- What code makes of a state, unless it gets stuck. -/
abbrev Meaning := IntState → Option IntState

/-! ## What computations add -/

namespace Build

variable {α β : Type} {x : Build α} {f : α → Build β} {r : Renaming} {b b' b'' : Builder} {a : α}
  {c : β} {ns ms : List Node} {lab : Label}

/-- A computation succeeds and adds entries. The flags tell which labels have a marker. -/
structure Makes (x : Build α) (r : Renaming) (b : Builder) (a : α) (ns : List Node)
    (b' : Builder) : Prop where
  on : x.on r b = (.ok a, b')
  nodes : b'.list.nodes.toList = b.list.nodes.toList ++ ns
  count : b.list.labelCount ≤ b'.list.labelCount
  placed : ∀ lab, b'.list.isPlaced lab ↔ b.list.isPlaced lab ∨ .label lab ∈ ns
  blocks : b'.list.blocks = b.list.blocks

theorem Makes.pure (a : α) : Makes (Pure.pure a : Build α) r b a [] b :=
  ⟨rfl, by simp, Nat.le_refl _, by simp, rfl⟩

theorem Makes.bind (hx : Makes x r b a ns b') (hf : Makes (f a) r b' c ms b'') :
    Makes (x >>= f) r b c (ns ++ ms) b'' where
  on := by rw [on_bind hx.on, hf.on]
  nodes := by rw [hf.nodes, hx.nodes, List.append_assoc]
  count := Nat.le_trans hx.count hf.count
  placed lab := by rw [hf.placed, hx.placed, List.mem_append, or_assoc]
  blocks := hf.blocks.trans hx.blocks

/-- What is added does not place a label that it does not mark. -/
theorem Makes.unplaced (hx : Makes x r b a ns b') (hold : ¬b.list.isPlaced lab)
    (hns : .label lab ∉ ns) : ¬b'.list.isPlaced lab := by
  rw [hx.placed, not_or]
  exact ⟨hold, hns⟩

theorem exists_emit (i : Instr Label) (r : Renaming) (b : Builder) :
    ∃ b', Makes (emit i) r b () [.instr i] b' ∧ b'.list.labelCount = b.list.labelCount := by
  refine ⟨{ b with list := b.list.push (.instr i) }, ⟨rfl, ?_, Nat.le_refl _, ?_, rfl⟩, rfl⟩
  · simp [InstrList.push]
  · intro lab
    simp [InstrList.push, InstrList.isPlaced]

theorem exists_freshLabel (r : Renaming) (b : Builder) :
    ∃ lab b', Makes freshLabel r b lab [] b' ∧ lab.id = b.list.labelCount ∧
      b'.list.labelCount = lab.id + 1 ∧ ¬b'.list.isPlaced lab := by
  refine ⟨_, { b with list := b.list.freshLabel.2 }, ⟨rfl, ?_, ?_, ?_, rfl⟩, rfl, ?_, ?_⟩
  · simp [InstrList.freshLabel]
  · simp [InstrList.freshLabel, InstrList.labelCount]
  · intro lab
    rw [InstrList.isPlaced_freshLabel]
    simp
  · simp [InstrList.freshLabel, InstrList.labelCount]
  · rw [InstrList.isPlaced_freshLabel]
    exact fun h => absurd (InstrList.lt_of_isPlaced h) (Nat.lt_irrefl _)

/-- Labels that were not handed out yet are not placed. -/
theorem not_isPlaced (h : b.list.labelCount ≤ lab.id) : ¬b.list.isPlaced lab :=
  fun hlab => absurd (InstrList.lt_of_isPlaced hlab) (Nat.not_lt.mpr h)

theorem exists_placeLabel (r : Renaming) (hid : lab.id < b.list.labelCount)
    (hlab : ¬b.list.isPlaced lab) :
    ∃ b', Makes (placeLabel lab) r b () [.label lab] b' ∧
      b'.list.labelCount = b.list.labelCount := by
  have hcount := InstrList.labelCount_mark b.list lab
  refine ⟨{ b with list := b.list.mark lab }, ⟨?_, ?_, Nat.le_of_eq hcount.symm, ?_, rfl⟩, hcount⟩
  · have hrefusal := InstrList.refusal?_eq_none.mpr ⟨hid, hlab⟩
    simp [on, placeLabel, ExceptT.run, ExceptT.mk, ReaderT.run, StateT.run, hrefusal]
  · simp [InstrList.mark]
  · intro lab'
    rw [InstrList.isPlaced_mark hid]
    simp

end Build

/-! ## Blocks -/

variable {ns ms : List Node} {first mid next : Nat} {f g : Meaning} {x y : Build Unit}

/-- The labels from `first` to `next` are marked once each, others not at all, and no others are
jumped to. -/
structure Block (first next : Nat) (ns : List Node) : Prop where
  markers : ∀ lab, ns.count (.label lab) = if first ≤ lab.id ∧ lab.id < next then 1 else 0
  targets : ∀ n ∈ ns, ∀ lab ∈ n.targets, first ≤ lab.id ∧ lab.id < next

namespace Block

theorem nil (first : Nat) : Block first first [] where
  markers lab := by
    rw [if_neg (by omega)]
    rfl
  targets := by simp

theorem instr {i : Instr Label} (hi : i.targets = []) (first : Nat) :
    Block first first [.instr i] where
  markers lab := by
    rw [if_neg (by omega)]
    simp
  targets := by simp [Node.targets, hi]

theorem append (hn : Block first mid ns) (hm : Block mid next ms) (hfirst : first ≤ mid)
    (hnext : mid ≤ next) : Block first next (ns ++ ms) where
  markers lab := by
    rw [List.count_append, hn.markers, hm.markers]
    split_ifs <;> omega
  targets n hmem lab hlab := by
    rcases List.mem_append.mp hmem with hmem | hmem
    · have := hn.targets n hmem lab hlab
      omega
    · have := hm.targets n hmem lab hlab
      omega

/-- A block does not mark other labels. -/
theorem not_mem (h : Block first next ns) {lab : Label} (hlab : lab.id < first ∨ next ≤ lab.id) :
    .label lab ∉ ns := by
  rw [← List.count_eq_zero, h.markers, if_neg (by omega)]

end Block

/-- Whatever was built before, the computation adds a block that performs the meaning. -/
def Implements (x : Build Unit) (f : Meaning) : Prop :=
  ∀ r b, ∃ ns b', x.Makes r b () ns b' ∧ Block b.list.labelCount b'.list.labelCount ns ∧
    Performs ns f

namespace Implements

theorem skip : Implements (return) some := by
  intro r b
  exact ⟨[], b, .pure (), .nil _, .nil⟩

/-- A single instruction that does not jump. -/
theorem emit {i : Instr Label} (htargets : i.targets = [])
    (hi : ∀ s, i.act s = (f s).map (·, none)) : Implements (Build.emit i) f := by
  intro r b
  obtain ⟨b', hmakes, hcount⟩ := Build.exists_emit i r b
  refine ⟨_, b', hmakes, ?_, .instr hi⟩
  rw [hcount]
  exact .instr htargets _

theorem seq (hx : Implements x f) (hy : Implements y g) :
    Implements (do x; y) fun s => (f s).bind g := by
  intro r b
  obtain ⟨ns, b₁, hmakes₁, hblock₁, hf⟩ := hx r b
  obtain ⟨ms, b₂, hmakes₂, hblock₂, hg⟩ := hy r b₁
  exact ⟨ns ++ ms, b₂, hmakes₁.bind hmakes₂, hblock₁.append hblock₂ hmakes₁.count hmakes₂.count,
    hf.append hg⟩

/-! ### Single instructions -/

/-- The numbers from -1 to 5 have opcodes of their own. -/
theorem constant_facts : ∀ k : Fin 7, ∀ n : Int32, n = Int32.ofInt (k.val - 1) →
    let op := UInt8.ofNat (Opcode.iconst_0.toNat + n.toInt).toNat
    Opcode.within Opcode.iconst_m1 0x08 op ∧
      (op.toInt8 - Opcode.iconst_0.toInt8).toInt32 = n := by
  rintro k n rfl
  revert k
  decide

theorem int (n : Int32) : Implements (Build.int n) fun s => some (s.push n) := by
  unfold Build.int
  split
  -- a small number: one of seven opcodes
  · rename_i hn
    have hlow : (-2 ^ 31 : Int) ≤ -1 := by decide
    have hhigh : (5 : Int) < 2 ^ 31 := by decide
    have hn' : n = Int32.ofInt (((n.toInt + 1).toNat : Int) - 1) := by
      rw [← Int32.toInt_inj, Int32.toInt_ofInt_of_le (Int.le_trans hlow (by omega))
        (Int.lt_of_le_of_lt (by omega) hhigh)]
      omega
    obtain ⟨hop, hvalue⟩ := constant_facts ⟨(n.toInt + 1).toNat, by omega⟩ n hn'
    apply emit rfl
    intro s
    rw [Instr.act, if_pos hop, hvalue]
    rfl
  · split
    · exact emit rfl fun _ => rfl
    · split
      · exact emit rfl fun _ => rfl
      · exact emit rfl fun _ => rfl

theorem load (i : UInt16) :
    Implements (Build.loadSlot ⟨i, .int⟩) fun s => some (s.push (s.locals i)) :=
  emit rfl fun _ => rfl

theorem store (i : UInt16) :
    Implements (Build.storeSlot ⟨i, .int⟩) fun s => s.pop?.map fun (n, s) => s.set i n := by
  apply emit rfl
  intro s
  have hstore : Opcode.store .int = Opcode.istore := by decide
  have hload : Opcode.istore ≠ Opcode.iload := by decide
  cases hs : s.pop? with
  | none => simp [Instr.act, hstore, hload, hs]
  | some p => simp [Instr.act, hstore, hload, hs]

theorem increment (i : UInt16) (n : Int16) :
    Implements (Build.emit (.increment i n)) fun s => some (s.set i (s.locals i + n.toInt32)) :=
  emit rfl fun _ => rfl

theorem op (o : IntOp) :
    Implements (Build.plain o.opcode) fun s => (o.apply s.stack).map ({ s with stack := · }) := by
  apply emit rfl
  intro s
  have hconst : Opcode.within Opcode.iconst_m1 0x08 o.opcode = false := by cases o <;> rfl
  cases hs : o.apply s.stack with
  | none => simp [Instr.act, hconst, o.ofOpcode?_opcode, hs]
  | some st => simp [Instr.act, hconst, o.ofOpcode?_opcode, hs]

end Implements

/-! ## Whole lists -/

/-- Every label has one marker and is flagged as placed, and no others are used. -/
structure InstrList.Complete (l : InstrList) : Prop where
  markers : ∀ lab, l.nodes.toList.count (.label lab) = if lab.id < l.labelCount then 1 else 0
  placed : ∀ lab, l.isPlaced lab ↔ lab.id < l.labelCount
  used : ∀ lab ∈ l.usedLabels, lab.id < l.labelCount

namespace InstrList.Complete

variable {l : InstrList}

theorem marked (h : l.Complete) : l.Marked := by
  intro lab
  rw [← List.count_pos_iff, h.markers]
  split_ifs with hlab
  · exact ⟨Nat.le_refl _, fun _ => hlab⟩
  · exact ⟨Nat.zero_le _, fun h => absurd h (Nat.lt_irrefl _)⟩

theorem finish (h : l.Complete) : l.finish = .ok l := by
  have hused : l.usedLabels.filter (fun lab => !l.isPlaced lab) = [] := by
    rw [List.filter_eq_nil_iff]
    intro lab hlab
    simpa using (h.placed lab).mpr (h.used lab hlab)
  have hsorted : Label.sorted [] = [] := by
    rw [Label.sorted, List.mergeSort_nil]
    rfl
  rw [InstrList.finish, unplacedLabels, hused, hsorted]

end InstrList.Complete

/-- A block that was added to nothing is a complete list. -/
theorem Build.Makes.complete {names : Renaming} {firstLocal : UInt16} {b : Builder}
    (hx : x.Makes names (.startingAt firstLocal) () ns b)
    (hblock : Block 0 b.list.labelCount ns) : b.list.Complete := by
  have hnodes : b.list.nodes.toList = ns := hx.nodes
  have hblocks : b.list.blocks = [] := hx.blocks
  have hcount : ∀ lab, ns.count (.label lab) = if lab.id < b.list.labelCount then 1 else 0 := by
    intro lab
    rw [hblock.markers]
    simp only [Nat.zero_le, true_and]
  refine ⟨hnodes ▸ hcount, ?_, ?_⟩
  · intro lab
    have hfresh : ¬(Builder.startingAt firstLocal).list.isPlaced lab :=
      not_isPlaced (Nat.zero_le _)
    rw [hx.placed, or_iff_right hfresh, ← List.count_pos_iff, hcount]
    split_ifs with h <;> simp [h]
  · intro lab hlab
    rw [InstrList.usedLabels, hblocks, hnodes, List.flatMap_nil, List.append_nil] at hlab
    obtain ⟨n, hn, hlab⟩ := List.mem_flatMap.mp hlab
    exact (hblock.targets n hn lab hlab).2

/-- What implements a meaning gives a complete list, whose runs from the start halt with what is
meant. -/
theorem Implements.listOn (hx : Implements x f) (names : Renaming) (firstLocal : UInt16) :
    ∃ l, x.listOn names (.startingAt firstLocal) = .ok l ∧ l.Complete ∧
      ∀ s o, l.Halts s o ↔ o = f s := by
  obtain ⟨ns, b, hmakes, hblock, hf⟩ := hx names (.startingAt firstLocal)
  have hcomplete := hmakes.complete hblock
  refine ⟨b.list, ?_, hcomplete, ?_⟩
  · rw [Build.listOn, hmakes.on]
    simp only [hcomplete.finish]
    rfl
  · intro s o
    have hnodes : b.list.nodes.toList = ns := hmakes.nodes
    have hrun := hf b.list hcomplete.marked 0 (hnodes ▸ b.list.holds_all) s
    rw [Nat.zero_add, ← hnodes, Array.length_toList] at hrun
    constructor
    · intro h
      exact h.unique hrun.halts
    · rintro rfl
      exact hrun.halts

end ClassWeave
