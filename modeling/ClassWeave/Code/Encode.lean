import ClassWeave.Code.Layout

/-!
# From instructions to bytecode

Encoding settles the entries of a list one by one, which adds their constants to the pool, checks
that every label that is jumped to has a place, lays the code out, and writes it down.
-/

namespace ClassWeave.Code

/-- Some code, and where everything in it ended up. -/
structure Encoded where
  bytes : List UInt8
  /-- The offset of every entry; labels and lines have that of what comes behind them. -/
  offsets : Array Nat
  /-- The offset of every label that has a place. -/
  labels : Array (Option Nat)
  lines : List LineEntry
  /-- The entries behind the conditional jumps that became wide. Control comes there by a jump even
  if no label is there. -/
  wideFallthroughs : List Nat
deriving Repr, DecidableEq, Inhabited

/-- The offset of a label. -/
def Encoded.labelOffset (e : Encoded) (l : Label) : ClassResult Nat :=
  match e.labels[l.id]?.join with
  | some offset => .ok offset
  | none => .error (.unplacedLabels [l])

/-- The distance of an offset from another one, in four bytes. -/
def distance (target offset : Nat) : List UInt8 :=
  Bytes.i32 (Int32.ofInt ((target : Int) - offset))

/-- Zero bytes up to the operands of a switch. -/
def paddingBytes (offset : Nat) : List UInt8 := List.replicate (switchPadding offset) 0

/-- The bytes of a piece at an offset. -/
def emit (lay : Layout) (s : Slot) (offset : Nat) : ClassResult (List UInt8) :=
  match s.piece with
  | .bytes bs => .ok bs
  | .jump op l =>
    if s.wide then
      if op = Opcode.goto then .ok (Opcode.goto_w :: distance (lay.target l) offset)
      else if op = Opcode.jsr then .ok (Opcode.jsr_w :: distance (lay.target l) offset)
      else
        match Opcode.invertJump? op with
        | some inverse =>
          .ok ([inverse, 0, 8, Opcode.goto_w] ++ distance (lay.target l) (offset + 3))
        | none => .error (.unknownOpcode offset op)
    else .ok (op :: Bytes.i16 (Int16.ofInt ((lay.target l : Int) - offset)))
  | .tableSwitch low high d ts =>
    .ok (Opcode.tableswitch :: (paddingBytes offset ++ distance (lay.target d) offset ++
      Bytes.i32 low ++ Bytes.i32 high ++ ts.flatMap fun t => distance (lay.target t) offset))
  | .lookupSwitch d ps =>
    .ok (Opcode.lookupswitch :: (paddingBytes offset ++ distance (lay.target d) offset ++
      Bytes.u32 (UInt32.ofNat ps.length) ++
      ps.flatMap fun (key, t) => Bytes.i32 key ++ distance (lay.target t) offset))
  | .label _ | .line _ => .ok []

/-- The line entry of a piece at an offset, if it marks a line. -/
def lineAt (s : Slot) (offset : Nat) : Option LineEntry :=
  match s.piece with
  | .line n => some ⟨UInt16.ofNat offset, n⟩
  | _ => none

/-- The piece is a conditional jump in its wide form. -/
def isWideCondition (s : Slot) : Bool :=
  match s.piece with
  | .jump op _ => s.wide && op != Opcode.goto && op != Opcode.jsr
  | _ => false

/-- A label with a marker that was not handed out. -/
def strangeLabel? (labelCount : Nat) (pieces : List Piece) : Option Label :=
  pieces.findSome? fun
    | .label l => if l.id < labelCount then none else some l
    | _ => none

/-- The labels without a marker that are jumped to, in ascending order. -/
def missingLabels (labelCount : Nat) (nodes : List Node) : List Label :=
  let marked := InstrList.markedLabels nodes labelCount
  Label.sorted ((nodes.flatMap Node.targets).filter fun l => !marked.getD l.id false)

/-- Writes settled pieces down. -/
def assemble (range : JumpRange) (labelCount : Nat) (pieces : List Piece) :
    ClassResult Encoded := do
  let (slots, lay) := settle range labelCount (pieces.map (⟨·, false⟩))
  if 65535 < lay.length then throw (.codeTooLong lay.length)
  let placed := slots.zip lay.offsets.toList
  let bytes ← placed.mapM fun (s, offset) => emit lay s offset
  return {
    bytes := bytes.flatten
    offsets := lay.offsets
    labels := lay.labels
    lines := placed.filterMap fun (s, offset) => lineAt s offset
    wideFallthroughs := slots.zipIdx.filterMap fun (s, i) =>
      if isWideCondition s then some (i + 1) else none }

/-- The bytecode of a list of entries with short jumps for the distances in a range. -/
def encodeWithin (range : JumpRange) (nodes : List Node) (labelCount : Nat) : Linking Encoded := do
  let pieces ← nodes.mapM Piece.ofNode
  match strangeLabel? labelCount pieces with
  | some l => throw (.unknownLabel l)
  | none =>
    match missingLabels labelCount nodes with
    | [] => Linking.ofResult (assemble range labelCount pieces)
    | labels => throw (.unplacedLabels labels)

/-- The bytecode of a list of entries. -/
def encode (nodes : List Node) (labelCount : Nat) : Linking Encoded :=
  encodeWithin .short nodes labelCount

end ClassWeave.Code
