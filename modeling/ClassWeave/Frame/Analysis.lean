import ClassWeave.Frame.Step
import ClassWeave.Instr.List

/-!
# Frames of a whole method

The analysis finds a frame for every entry of a list that can be reached. It starts with the frame
at entry and follows the edges of the code: what an entry hands on to another one is merged into the
frame of that one, and an entry whose frame changed is looked at again. The state of this search is
a `Work`; `Work.visit` looks at one entry, and the order in which entries are looked at is left to
the loop around it.
-/

namespace ClassWeave

/-- An exception handler in terms of places in the list. -/
structure Handler where
  start : Nat
  stop : Nat
  target : Nat
  catchType : NamedType
deriving Repr, DecidableEq, Inhabited

/-- The frames of some code. -/
structure Analysis where
  /-- The frame before every entry, if the entry can be reached. -/
  frames : Array (Option Frame)
  /-- How many slots the stack takes up at most. -/
  maxStack : Nat
  /-- How many slots the local variables take up at most. -/
  maxLocals : Nat
deriving Repr, DecidableEq, Inhabited

/-- The place of the first instruction from an entry on. -/
def nextReal? (nodes : Array Node) (i : Nat) : Option Nat :=
  if h : i < nodes.size then
    if nodes[i].isReal then some i else nextReal? nodes (i + 1)
  else none
termination_by nodes.size - i

/-- The frame at an entry is that of the first instruction from there on. -/
def Analysis.frameAt? (a : Analysis) (nodes : Array Node) (i : Nat) : Option Frame :=
  (nextReal? nodes i).bind fun j => a.frames[j]?.join

/-- Some code together with where its labels are. -/
structure FlowGraph where
  program : Program
  positions : Array (Option Nat)
  handlers : List Handler

namespace FlowGraph

/-- The place of a label. -/
def position (positions : Array (Option Nat)) (l : Label) : ClassResult Nat :=
  match l.position? positions with
  | some i => .ok i
  | none => .error (.unplacedLabels [l])

/-- A handler in terms of places. -/
def handler (positions : Array (Option Nat)) (b : TryBlock) : ClassResult Handler := do
  let start ← position positions b.start
  let stop ← position positions b.stop
  let target ← position positions b.handler
  return ⟨start, stop, target, .object (b.catchType.getD "java/lang/Throwable")⟩

variable (g : FlowGraph)

/-- An error at an entry. -/
def failure {α : Type} (i : Nat) (x : Except VerifyError α) : ClassResult α :=
  x.mapError (.verify i)

/-- The edges to the handlers around an entry. An exception may come before or after the instruction
changes the local variables. -/
def exceptionEdges (i : Nat) (before after : Frame) : List (Nat × Frame) :=
  (g.handlers.filter fun h => h.start ≤ i && i < h.stop).flatMap fun h =>
    [(h.target, ⟨before.locals, [h.catchType]⟩), (h.target, ⟨after.locals, [h.catchType]⟩)]

/-- The frame behind an entry, and what the entry hands on to others, in order. -/
def edges (i : Nat) (n : Node) (before : Frame) : ClassResult (Frame × List (Nat × Frame)) :=
  match n with
  | .instr instr => do
    let after ← failure i (g.program.step i instr before)
    let targets ← instr.targets.mapM (position g.positions)
    let next := if instr.fallsThrough then [(i + 1, after)] else []
    return (after, g.exceptionEdges i before after ++ targets.map (·, after) ++ next)
  | _ => .ok (before, [(i + 1, before)])

end FlowGraph

/-- What is known so far, and which entries have to be looked at. -/
structure Work where
  frames : Array (Option Frame)
  /-- Whether an entry is among those to be looked at. -/
  queued : Array Bool
  /-- The entries to be looked at, the latest one first. -/
  pending : List Nat
  maxStack : Nat
  maxLocals : Nat
deriving Repr, DecidableEq, Inhabited

namespace Work

/-- Only the first entry is reached so far. -/
def start (count : Nat) (entry : Frame) : Work where
  frames := (Array.replicate count none).setIfInBounds 0 (some entry)
  queued := (Array.replicate count false).setIfInBounds 0 true
  pending := [0]
  maxStack := 0
  maxLocals := entry.locals.length

/-- Makes room for a frame. -/
def cover (w : Work) (f : Frame) : Work :=
  { w with maxStack := max w.maxStack f.depth, maxLocals := max w.maxLocals f.locals.length }

/-- Gives an entry a new frame, so that it has to be looked at. -/
def update (w : Work) (i : Nat) (f : Frame) : Work :=
  let w := { w with frames := w.frames.setIfInBounds i (some f) }
  if w.queued.getD i false then w
  else { w with queued := w.queued.setIfInBounds i true, pending := i :: w.pending }

variable (g : FlowGraph)

/-- Hands a frame on from an entry to another one. -/
def follow (source : Nat) (w : Work) (edge : Nat × Frame) : ClassResult Work :=
  match w.frames[edge.1]? with
  | none => .error (.verify source .fallsOffEnd)
  | some none => .ok (w.update edge.1 edge.2)
  | some (some f) =>
    match f.merge g.program.hierarchy g.program.mode edge.2 with
    | .error e => .error (.verify edge.1 e)
    | .ok none => .ok w
    | .ok (some merged) => .ok (w.update edge.1 merged)

/-- Looks at an entry. -/
def visit (w : Work) (i : Nat) : ClassResult Work :=
  let w := { w with queued := w.queued.setIfInBounds i false }
  match w.frames[i]?.join, g.program.nodes[i]? with
  | some f, some n => do
    let w := w.cover f
    let (after, edges) ← g.edges i n f
    edges.foldlM (follow g i) (w.cover after)
  | _, _ => .ok w

/-- Looks at the latest entry first, until none is left. A search that never comes to an end has no
result. -/
def run (w : Work) : Option (ClassResult Work) :=
  match w.pending with
  | [] => some (.ok w)
  | i :: rest =>
    match visit g { w with pending := rest } i with
    | .error e => some (.error e)
    | .ok w => by
      -- a term would keep its place in this file as a part of the definition
      apply run
      exact w
partial_fixpoint

end Work

/-- Why a search came to no end: two classes of the hierarchy each take the place of the other. -/
def Analysis.unsettled : ClassError := .verify 0 .unsettled

/-- The frames of a list of instructions. -/
def analyze (m : MethodContext) (l : InstrList) (pool : Pool) (hierarchy : Hierarchy)
    (mode : Mode) : ClassResult Analysis := do
  let type ← MethodType.parse m.descriptor
  let positions := l.labelPositions
  let handlers ← l.blocks.mapM (FlowGraph.handler positions)
  let entry ← FlowGraph.failure 0 (Frame.entry m)
  if l.nodes.isEmpty then throw (.verify 0 .fallsOffEnd)
  let program : Program := ⟨m, l.nodes, pool, hierarchy, mode, type.result⟩
  let g : FlowGraph := ⟨program, positions, handlers⟩
  match Work.run g (.start l.nodes.size entry) with
  | none => throw Analysis.unsettled
  | some result => do
    let w ← result
    return ⟨w.frames, w.maxStack, w.maxLocals⟩

end ClassWeave
