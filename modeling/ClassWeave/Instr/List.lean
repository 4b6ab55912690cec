import ClassWeave.Error

/-!
# Lists of instructions

A list owns its labels: it hands them out one after the other, and each can be placed once. A label
may be used before it has a place, which is what lets code jump forward. Lists are merged by
renumbering the labels of one behind those of the other.

The list keeps, besides the markers among its entries, a flag for every label that tells whether it
was placed; entries can be added without touching the flags.
-/

namespace ClassWeave

structure InstrList where
  nodes : Array Node
  /-- For every label that was handed out, whether it was placed. -/
  placed : Array Bool
  /-- The exception handlers, inner ones first. -/
  blocks : List TryBlock
deriving Repr, DecidableEq, Inhabited

/-- What can be added at the end of a list: an entry as it is, or the place of a label. -/
inductive Addition where
  | entry (n : Node)
  | place (lab : Label)
deriving Repr, DecidableEq, Inhabited

namespace InstrList

/-- No entries and no labels. -/
def empty : InstrList := ⟨#[], #[], []⟩

variable (l : InstrList)

/-- How many labels were handed out. -/
def labelCount : Nat := l.placed.size

/-- A label without a place. -/
def freshLabel : Label × InstrList :=
  (⟨l.placed.size⟩, { l with placed := l.placed.push false })

/-- Adds an entry at the end. -/
def push (n : Node) : InstrList := { l with nodes := l.nodes.push n }

/-- Adds an instruction at the end. -/
def pushInstr (i : Instr Label) : InstrList := l.push (.instr i)

/-- Why a label cannot be placed. -/
def refusal? (lab : Label) : Option ClassError :=
  match l.placed[lab.id]? with
  | none => some (.unknownLabel lab)
  | some true => some (.labelPlacedTwice lab)
  | some false => none

/-- Adds the marker of a label at the end and flags the label as placed. -/
def mark (lab : Label) : InstrList :=
  { l with nodes := l.nodes.push (.label lab), placed := l.placed.set! lab.id true }

/-- Places a label at the end. -/
def placeLabel (lab : Label) : ClassResult InstrList :=
  match l.refusal? lab with
  | some e => .error e
  | none => .ok (l.mark lab)

/-- Adds entries and places labels at the end, up to the first label that cannot be placed. What was
added before stays. -/
def extend (l : InstrList) : List Addition → ClassResult Unit × InstrList
  | [] => (.ok (), l)
  | .entry n :: rest => extend (l.push n) rest
  | .place lab :: rest =>
    match l.refusal? lab with
    | some e => (.error e, l)
    | none => extend (l.mark lab) rest

/-- Adds an exception handler inside those there are. -/
def addBlock (b : TryBlock) : InstrList := { l with blocks := l.blocks ++ [b] }

/-- Inserts a list in front of the entry at `i`. Its labels come behind those of this list, and
its handlers in front, since the inserted code lies inside the ranges around it. -/
def splice (i : Nat) (other : InstrList) : InstrList :=
  let n := l.placed.size
  { nodes := l.nodes.take i ++ other.nodes.map (Node.shift n) ++ l.nodes.drop i
    placed := l.placed ++ other.placed
    blocks := other.blocks.map (TryBlock.shift n) ++ l.blocks }

/-- Adds a list at the end. -/
def append (other : InstrList) : InstrList := l.splice l.nodes.size other

/-- The labels that jumps, switches and handlers use, in order. -/
def usedLabels : List Label :=
  l.nodes.toList.flatMap Node.targets ++ l.blocks.flatMap TryBlock.labels

/-- The label was placed. -/
def isPlaced (lab : Label) : Bool := l.placed.getD lab.id false

end InstrList

/-- Labels in ascending order, each once. -/
def Label.sorted (labels : List Label) : List Label :=
  (labels.mergeSort fun a b => a.id ≤ b.id).eraseReps

namespace InstrList

variable (l : InstrList)

/-- The labels that are used and were not placed, in ascending order. -/
def unplacedLabels : List Label := Label.sorted (l.usedLabels.filter fun lab => !l.isPlaced lab)

/-- The list, if it is complete. -/
def finish : ClassResult InstrList :=
  match l.unplacedLabels with
  | [] => .ok l
  | labels => .error (.unplacedLabels labels)

/-- The label of the marker with `n` markers in front of it. -/
def nthLabel? (n : Nat) : Option Label :=
  (l.nodes.toList.filterMap fun
    | .label lab => some lab
    | _ => none)[n]?

/-- Notes the place of an entry, if it is the marker of a label that was handed out. -/
def notePosition (positions : Array (Option Nat)) : Node × Nat → Array (Option Nat)
  | (.label lab, i) => positions.setIfInBounds lab.id (some i)
  | _ => positions

/-- For every label that was handed out, the place of its last marker. -/
def labelPositions : Array (Option Nat) :=
  l.nodes.toList.zipIdx.foldl notePosition (Array.replicate l.placed.size none)

/-- Keeps the entries at which a test holds. -/
def filterIdx (keep : Nat → Node → Bool) : InstrList :=
  { l with nodes := (l.nodes.toList.zipIdx.filter fun (n, i) => keep i n).map Prod.fst |>.toArray }

/-- Flags the label of a marker. -/
def flag (flags : Array Bool) : Node → Array Bool
  | .label lab => flags.setIfInBounds lab.id true
  | _ => flags

/-- The labels that have a marker, as flags. -/
def markedLabels (nodes : List Node) (count : Nat) : Array Bool :=
  nodes.foldl flag (Array.replicate count false)

/-- A list in which the labels with a marker are placed. -/
def ofNodes (nodes : List Node) (labelCount : Nat) (blocks : List TryBlock) : InstrList :=
  { nodes := nodes.toArray, placed := markedLabels nodes labelCount, blocks }

end InstrList

/-- The place of a label among the positions of a list. -/
def Label.position? (positions : Array (Option Nat)) (lab : Label) : Option Nat :=
  positions[lab.id]?.join

end ClassWeave
