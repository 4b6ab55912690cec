import ClassWeave.Code.Decode
import ClassWeave.Code.Piece

/-!
# The layout of code

Where every piece of some code starts. All jumps begin short; one whose target is too far away
becomes wide, which moves what comes behind it, and the layout is computed anew until no
more jumps have to become wide. A wide jump stays wide, so this ends after at most as many rounds as
there are jumps.

A wide conditional jump has no form of its own: the opposite condition jumps over a wide
unconditional jump.
-/

namespace ClassWeave.Code

/-- The distances that a short jump reaches, the upper end excluded. -/
structure JumpRange where
  low : Int
  high : Int
deriving Repr, DecidableEq

/-- The distances that fit into the two bytes of a short jump. -/
def JumpRange.short : JumpRange := ⟨-32768, 32768⟩

def JumpRange.contains (r : JumpRange) (distance : Int) : Bool :=
  r.low ≤ distance && distance < r.high

/-- A piece, and whether it is a jump in its wide form. -/
structure Slot where
  piece : Piece
  wide : Bool
deriving Repr, DecidableEq

namespace Slot

/-- How many bytes a piece takes up at an offset. -/
def width (offset : Nat) (s : Slot) : Nat :=
  match s.piece with
  | .bytes bs => bs.length
  | .jump op _ =>
    if s.wide then if op = Opcode.goto ∨ op = Opcode.jsr then 5 else 8
    else 3
  | .tableSwitch _ _ _ ts => 1 + switchPadding offset + 12 + 4 * ts.length
  | .lookupSwitch _ ps => 1 + switchPadding offset + 8 + 8 * ps.length
  | .label _ | .line _ => 0

/-- The piece is a jump that is not wide. -/
def isNarrowJump (s : Slot) : Bool :=
  match s.piece with
  | .jump .. => !s.wide
  | _ => false

end Slot

/-- Where the pieces of some code start. -/
structure Layout where
  /-- The offset of every piece. -/
  offsets : Array Nat
  /-- For every label, the offset of its last marker. -/
  labels : Array (Option Nat)
  /-- The length of the code. -/
  length : Nat
deriving Repr, DecidableEq, Inhabited

namespace Layout

/-- No pieces. -/
def start (labelCount : Nat) : Layout := ⟨#[], Array.replicate labelCount none, 0⟩

/-- Puts a piece behind those placed so far. -/
def place (lay : Layout) (s : Slot) : Layout :=
  { offsets := lay.offsets.push lay.length
    labels :=
      match s.piece with
      | .label l => lay.labels.setIfInBounds l.id (some lay.length)
      | _ => lay.labels
    length := lay.length + s.width lay.length }

/-- Places all pieces of some code. -/
def ofSlots (labelCount : Nat) (slots : List Slot) : Layout := slots.foldl place (start labelCount)

variable (lay : Layout)

/-- The offset of a label. -/
def offset? (l : Label) : Option Nat := lay.labels[l.id]?.join

/-- The offset that a jump goes to. -/
def target (l : Label) : Nat := (lay.offset? l).getD 0

/-- Makes a jump at an offset wide if its target is too far away. -/
def widen (range : JumpRange) (s : Slot) (offset : Nat) : Slot :=
  match s.piece with
  | .jump _ l =>
    if range.contains ((lay.target l : Int) - offset) then s else { s with wide := true }
  | _ => s

/-- Makes all jumps wide whose target is too far away. -/
def widenAll (range : JumpRange) (slots : List Slot) : List Slot :=
  slots.zipWith (lay.widen range) lay.offsets.toList

end Layout

/-- How many jumps are not wide. -/
def narrowJumps (slots : List Slot) : Nat := slots.countP Slot.isNarrowJump

/-- Makes jumps wide until all others reach their targets, and gives the layout. -/
def settle (range : JumpRange) (labelCount : Nat) (slots : List Slot) : List Slot × Layout :=
  let lay := Layout.ofSlots labelCount slots
  let next := lay.widenAll range slots
  if narrowJumps next < narrowJumps slots then settle range labelCount next else (slots, lay)
termination_by narrowJumps slots

end ClassWeave.Code
