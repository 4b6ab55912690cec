import ClassWeave.Build.Control
import ClassWeave.Proofs.LabelBooks
import ClassWeave.Proofs.MonitorMarks

/-!
# Guarded code and how it is built

Code of guarded regions that stand in one another, with anything in between that can be added to a
list. `GuardedCode.Fits` says what the parts of such code have to keep to: the code inside a
region does not touch monitors nor the variables of the objects that are locked around it, goes to
no place outside its region, and adds handlers of its own only behind the regions that they cover.

What is built is known entry by entry, together with the mark of every entry
(`GuardedCode.entries`), and so are the blocks.
-/

namespace ClassWeave

/-! ## Syntax -/

/-- What can be added to a list, one at a time. -/
inductive BodyOp where
  | instr (i : Instr Label)
  | line (number : UInt16)
  /-- The next label. -/
  | label
  | place (lab : Label)
  | block (b : TryBlock)
  /-- The next local variable. -/
  | slot (kind : ValueKind)
  /-- Finished code. -/
  | insert (l : InstrList)
deriving Repr, DecidableEq

namespace BodyOp

def build : BodyOp → Build Unit
  | instr i => Build.emit i
  | line number => Build.push (.line number)
  | label => do
    let _ ← Build.freshLabel
  | place lab => Build.placeLabel lab
  | block b => Build.addBlock b
  | slot kind => do
    let _ ← Build.allocate kind
  | insert l => Build.insert l

/-- The entries that are added if a label is the next one. -/
def nodes (next : Nat) : BodyOp → List Node
  | instr i => [.instr i]
  | line number => [.line number]
  | place lab => [.label lab]
  | insert l => l.nodes.toList.map (Node.shift next)
  | _ => []

/-- The blocks that are added. -/
def blocks : BodyOp → List TryBlock
  | block b => [b]
  | _ => []

/-- The blocks that come in front of all that were added before. -/
def frontBlocks (next : Nat) : BodyOp → List TryBlock
  | insert l => l.blocks.map (TryBlock.shift next)
  | _ => []

/-- The labels that are placed by name. -/
def places : BodyOp → List Label
  | place lab => [lab]
  | _ => []

/-- The labels that are handed out and can be placed. -/
def handsOut (next : Nat) : BodyOp → List Label
  | label => [⟨next⟩]
  | _ => []

/-- How many labels are handed out. -/
def labels : BodyOp → Nat
  | label => 1
  | insert l => l.labelCount
  | _ => 0

/-- How many local variables are handed out. -/
def slots : BodyOp → Nat
  | slot kind => kind.slots
  | _ => 0

end BodyOp

/-- Operations one after the other, and guarded regions between them. -/
inductive GuardedCode where
  | done
  | op (o : BodyOp) (rest : GuardedCode)
  | guarded (body rest : GuardedCode)
deriving Repr, DecidableEq

namespace GuardedCode

def build : GuardedCode → Build Unit
  | done => return
  | op o rest => do
    o.build
    rest.build
  | guarded body rest => do
    Build.synchronizedGuarded body.build
    rest.build

/-- The labels that the code places by name, but for those in the regions that stand in it. -/
def places : GuardedCode → List Label
  | done => []
  | op o rest => o.places ++ rest.places
  | guarded _ rest => rest.places

/-- All labels that the code places by name. -/
def deepPlaces : GuardedCode → List Label
  | done => []
  | op o rest => o.places ++ rest.deepPlaces
  | guarded body rest => body.deepPlaces ++ rest.deepPlaces

end GuardedCode

/-! ## Scopes -/

/-- What was handed out to code and what it has placed so far. -/
structure Stock where
  /-- The labels that the code can place. -/
  handedOut : List Label
  placed : List Label
  nextLabel : Nat
  nextLocal : Nat

/-- The variable that is handed out next. -/
def Stock.slot (s : Stock) : UInt16 := UInt16.ofNat s.nextLocal

/-- A label that the code was handed out or that has a place. -/
def Stock.Knows (s : Stock) (lab : Label) : Prop := lab ∈ s.placed ∨ lab ∈ s.handedOut

/-- Labels have numbers below the next one. -/
def Stock.Counted (s : Stock) : Prop := ∀ lab, s.Knows lab → lab.id < s.nextLabel

/-- What is known where code is added. -/
structure Scope extends Stock where
  /-- The variables of the objects that are locked, the innermost first. -/
  held : List Nat
  /-- The places of the region. -/
  own : List Label
  /-- The places of the region and of those that stand in it. -/
  deep : List Label
  /-- The blocks that were added in the region so far. -/
  blocks : List TryBlock

namespace Scope

/-- The scope of code that is built first. -/
def outermost (c : GuardedCode) (firstLocal : UInt16) : Scope where
  held := []
  own := c.places
  deep := c.deepPlaces
  handedOut := []
  placed := []
  blocks := []
  nextLabel := 0
  nextLocal := firstLocal.toNat

variable (s : Scope)

/-- A region is entered. -/
def enter (body : GuardedCode) : Scope where
  held := s.slot.toNat :: s.held
  own := body.places
  deep := body.deepPlaces
  handedOut := s.handedOut
  placed := s.placed ++ [⟨s.nextLabel⟩]
  blocks := []
  nextLabel := s.nextLabel + 4
  nextLocal := s.nextLocal + 1

/-- A region is left. -/
def leave (inner : Scope) : Scope where
  held := s.held
  own := s.own
  deep := s.deep
  handedOut := inner.handedOut
  placed := inner.placed ++ [⟨s.nextLabel + 1⟩, ⟨s.nextLabel + 2⟩, ⟨s.nextLabel + 3⟩]
  blocks := s.blocks
  nextLabel := inner.nextLabel
  nextLocal := inner.nextLocal + 1

end Scope

/-- What an instruction has to keep to where some variables are locked and some labels can be
reached. -/
@[mk_iff] structure Instr.KeepsTo (held : List Nat) (own : List Label) (i : Instr Label) :
    Prop where
  monitor : i.isMonitor = false
  stores : ∀ k ∈ held, ¬ i.StoresTo k
  targets : ∀ lab ∈ i.targets, lab ∈ own
  returns : Opcode.isReturn i.opcode → held = []

/-- The labels that have a marker. -/
def marks (ns : List Node) : List Label := ns.filterMap Node.mark?

@[simp] theorem mem_marks {ns : List Node} {lab : Label} : lab ∈ marks ns ↔ .label lab ∈ ns := by
  simp [marks, List.mem_filterMap, Node.mark?_eq_some]

namespace BodyOp

/-- The scope behind an operation. -/
def after (s : Scope) (o : BodyOp) : Scope :=
  { s with
    handedOut := s.handedOut ++ o.handsOut s.nextLabel
    placed := s.placed ++ marks (o.nodes s.nextLabel)
    blocks := s.blocks ++ o.blocks
    nextLabel := s.nextLabel + o.labels
    nextLocal := s.nextLocal + o.slots }

/-- What an operation has to keep to. Finished code goes to no places but its own. -/
def Fits (s : Scope) : BodyOp → Prop
  | instr i => i.KeepsTo s.held s.own
  | place lab => lab ∈ s.handedOut ∧ lab ∉ s.placed
  | block b => b.handler ∈ s.own ∧ b.start ∈ s.deep ∧ b.stop ∈ s.deep
  | insert l => l.Tracked ∧
      (∀ i ∈ l.nodes.toList.filterMap Node.instr?, i.KeepsTo s.held (marks l.nodes.toList)) ∧
      ∀ b ∈ l.blocks, ∀ lab ∈ b.labels, lab ∈ marks l.nodes.toList
  | _ => True

end BodyOp

namespace GuardedCode

/-- The scope behind some code. -/
def after (s : Scope) : GuardedCode → Scope
  | done => s
  | op o rest => rest.after (o.after s)
  | guarded body rest => rest.after (s.leave (body.after (s.enter body)))

/-- What code has to keep to. A block that was added before a region ends before the region, or it
begins behind it. -/
def Fits (s : Scope) : GuardedCode → Prop
  | done => True
  | op o rest => o.Fits s ∧ rest.Fits (o.after s)
  | guarded body rest =>
    let behind := s.leave (body.after (s.enter body))
    (∀ b ∈ s.blocks, b.start ∈ behind.placed → b.stop ∈ s.placed) ∧
      body.Fits (s.enter body) ∧ rest.Fits behind

end GuardedCode

/-! ## Whether code fits -/

instance (i : Instr Label) (k : Nat) : Decidable (i.StoresTo k) :=
  decidable_of_iff (i.stored?.any fun s => s.1.toNat ≤ k && k < s.1.toNat + s.2.slots)
    (by simp [Instr.StoresTo, Option.any_eq_true])

instance (held : List Nat) (own : List Label) (i : Instr Label) : Decidable (i.KeepsTo held own) :=
  decidable_of_iff _ (Instr.keepsTo_iff held own i).symm

/-- Only labels count that were handed out or that have a marker. -/
theorem InstrList.tracked_iff (l : InstrList) :
    l.Tracked ↔ ∀ lab ∈ marks l.nodes.toList ++ (List.range l.labelCount).map Label.mk,
      l.nodes.toList.count (.label lab) = if l.isPlaced lab then 1 else 0 := by
  refine ⟨fun h lab _ => h lab, fun h lab => ?_⟩
  by_cases hlab : lab ∈ marks l.nodes.toList ++ (List.range l.labelCount).map Label.mk
  · exact h lab hlab
  · simp only [List.mem_append, mem_marks, not_or] at hlab
    have hnot : ¬ l.isPlaced lab := fun hplaced =>
      hlab.2 (List.mem_map.mpr ⟨lab.id, List.mem_range.mpr (lt_of_isPlaced hplaced), rfl⟩)
    rw [if_neg hnot]
    exact List.count_eq_zero.mpr hlab.1

instance (l : InstrList) : Decidable l.Tracked := decidable_of_iff _ l.tracked_iff.symm

instance BodyOp.decidableFits (s : Scope) : (o : BodyOp) → Decidable (o.Fits s)
  | .instr i => inferInstanceAs (Decidable (i.KeepsTo s.held s.own))
  | .place lab => inferInstanceAs (Decidable (lab ∈ s.handedOut ∧ lab ∉ s.placed))
  | .block b => inferInstanceAs (Decidable (b.handler ∈ s.own ∧ b.start ∈ s.deep ∧ b.stop ∈ s.deep))
  | .insert l => inferInstanceAs (Decidable (l.Tracked ∧
      (∀ i ∈ l.nodes.toList.filterMap Node.instr?, i.KeepsTo s.held (marks l.nodes.toList)) ∧
      ∀ b ∈ l.blocks, ∀ lab ∈ b.labels, lab ∈ marks l.nodes.toList))
  | .line _ | .label | .slot _ => inferInstanceAs (Decidable True)

instance GuardedCode.decidableFits (s : Scope) : (c : GuardedCode) → Decidable (c.Fits s)
  | .done => inferInstanceAs (Decidable True)
  | .op o rest =>
    have := decidableFits (o.after s) rest
    inferInstanceAs (Decidable (o.Fits s ∧ rest.Fits (o.after s)))
  | .guarded body rest =>
    have := decidableFits (s.enter body) body
    have := decidableFits (s.leave (body.after (s.enter body))) rest
    inferInstanceAs (Decidable ((∀ b ∈ s.blocks,
      b.start ∈ (s.leave (body.after (s.enter body))).placed → b.stop ∈ s.placed) ∧
      body.Fits (s.enter body) ∧ rest.Fits (s.leave (body.after (s.enter body)))))

/-! ## What is built -/

namespace Scope

variable (s : Scope)

/-- How a region is entered. -/
def entering : List (Node × Mark) :=
  [(.instr (.plain Opcode.dup), ⟨s.held, .ordinary⟩),
    (.instr (.var Opcode.astore s.slot), ⟨s.held, .doubled⟩),
    (.instr (.plain Opcode.monitorenter), ⟨s.held, .holding s.slot.toNat⟩),
    (.label ⟨s.nextLabel⟩, ⟨s.slot.toNat :: s.held, .ordinary⟩)]

/-- How a region is left at its end. -/
def leaving : List (Node × Mark) :=
  [(.instr (.var Opcode.aload s.slot), ⟨s.slot.toNat :: s.held, .ordinary⟩),
    (.instr (.plain Opcode.monitorexit), ⟨s.slot.toNat :: s.held, .holding s.slot.toNat⟩),
    (.label ⟨s.nextLabel + 1⟩, ⟨s.held, .ordinary⟩),
    (.instr (.jump Opcode.goto ⟨s.nextLabel + 3⟩), ⟨s.held, .ordinary⟩)]

/-- How an exception leaves a region, which is kept in a variable. -/
def handling (thrown : UInt16) : List (Node × Mark) :=
  [(.label ⟨s.nextLabel + 2⟩, ⟨s.slot.toNat :: s.held, .caught⟩),
    (.instr (.var Opcode.astore thrown), ⟨s.slot.toNat :: s.held, .caught⟩),
    (.instr (.var Opcode.aload s.slot), ⟨s.slot.toNat :: s.held, .saved thrown.toNat⟩),
    (.instr (.plain Opcode.monitorexit),
      ⟨s.slot.toNat :: s.held, .savedHolding thrown.toNat s.slot.toNat⟩),
    (.instr (.var Opcode.aload thrown), ⟨s.held, .saved thrown.toNat⟩),
    (.instr (.plain Opcode.athrow), ⟨s.held, .rethrowing⟩),
    (.label ⟨s.nextLabel + 3⟩, ⟨s.held, .ordinary⟩)]

/-- The block of a region. -/
def block : TryBlock :=
  ⟨⟨s.nextLabel⟩, ⟨s.nextLabel + 1⟩, ⟨s.nextLabel + 2⟩, none⟩

end Scope

@[simp] theorem map_fst_mark (ns : List Node) (μ : Mark) : (ns.map (·, μ)).map Prod.fst = ns := by
  simp [Function.comp_def]

namespace GuardedCode

/-- The entries of the code and their marks. -/
def entries (s : Scope) : GuardedCode → List (Node × Mark)
  | done => []
  | op o rest => (o.nodes s.nextLabel).map (·, ⟨s.held, .ordinary⟩) ++ rest.entries (o.after s)
  | guarded body rest =>
    let inner := body.after (s.enter body)
    s.entering ++ body.entries (s.enter body) ++ s.leaving ++ s.handling inner.slot ++
      rest.entries (s.leave inner)

/-- The blocks that come in front of all others. -/
def frontBlocks (s : Scope) : GuardedCode → List TryBlock
  | done => []
  | op o rest => rest.frontBlocks (o.after s) ++ o.frontBlocks s.nextLabel
  | guarded body rest =>
    rest.frontBlocks (s.leave (body.after (s.enter body))) ++ body.frontBlocks (s.enter body)

/-- The other blocks of the code. -/
def blocks (s : Scope) : GuardedCode → List TryBlock
  | done => []
  | op o rest => o.blocks ++ rest.blocks (o.after s)
  | guarded body rest =>
    body.blocks (s.enter body) ++ [s.block] ++ rest.blocks (s.leave (body.after (s.enter body)))

/-- The entries of a region. -/
def region (s : Scope) (body : GuardedCode) : List (Node × Mark) :=
  s.entering ++ body.entries (s.enter body) ++ s.leaving ++
    s.handling (body.after (s.enter body)).slot

/-- The blocks of a region, its own behind those of the body. -/
def innerBlocks (s : Scope) (body : GuardedCode) : List TryBlock :=
  body.blocks (s.enter body) ++ [s.block]

end GuardedCode
end ClassWeave
