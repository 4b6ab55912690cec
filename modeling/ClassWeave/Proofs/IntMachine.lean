import ClassWeave.Build.Condition
import ClassWeave.Proofs.LabelPlaces
import Mathlib.Computability.StateTransition

/-!
# Integer code, step by step

A machine that runs lists of instructions which only work on integers: it has a place in the list,
local variables and a stack. It knows instructions by their opcodes. Where an operand is missing,
where a number is divided by zero, and at every instruction that is not about integers, it is stuck.

`InstrList.Ends l stop c o` says how a run ends: with a state at the place `stop`, or stuck before.
-/

namespace ClassWeave

/-- The local variables and the stack, its top first. -/
@[ext] structure IntState where
  locals : UInt16 → Int32
  stack : List Int32

namespace IntState

def push (s : IntState) (n : Int32) : IntState := { s with stack := n :: s.stack }

/-- Takes the top off the stack. -/
def pop? (s : IntState) : Option (Int32 × IntState) :=
  match s.stack with
  | [] => none
  | n :: stack => some (n, { s with stack })

def set (s : IntState) (i : UInt16) (n : Int32) : IntState :=
  { s with locals := fun j => if j = i then n else s.locals j }

end IntState

/-! ## Operations on the stack -/

/-- Operations that only work on the stack. -/
inductive IntOp where
  | add
  | sub
  | mul
  | div
  | rem
  | neg
  | shl
  | shr
  | ushr
  | and
  | or
  | xor
  | pop
  | dup
deriving Repr, DecidableEq

namespace IntOp

def all : List IntOp :=
  [add, sub, mul, div, rem, neg, shl, shr, ushr, and, or, xor, pop, dup]

def opcode : IntOp → UInt8
  | add => 0x60
  | sub => 0x64
  | mul => 0x68
  | div => 0x6c
  | rem => 0x70
  | neg => 0x74
  | shl => 0x78
  | shr => 0x7a
  | ushr => 0x7c
  | and => 0x7e
  | or => 0x80
  | xor => 0x82
  | pop => Opcode.pop
  | dup => Opcode.dup

/-- What is on the stack afterwards. Numbers wrap around, quotients are rounded towards zero, and
shifts go by the five lowest bits of the second operand. -/
def apply : IntOp → List Int32 → Option (List Int32)
  | add, b :: a :: st => some ((a + b) :: st)
  | sub, b :: a :: st => some ((a - b) :: st)
  | mul, b :: a :: st => some ((a * b) :: st)
  | div, b :: a :: st => if b = 0 then none else some ((a / b) :: st)
  | rem, b :: a :: st => if b = 0 then none else some ((a % b) :: st)
  | neg, a :: st => some (-a :: st)
  | shl, b :: a :: st => some ((a <<< b) :: st)
  | shr, b :: a :: st => some ((a >>> b) :: st)
  | ushr, b :: a :: st => some ((a.toUInt32 >>> b.toUInt32).toInt32 :: st)
  | and, b :: a :: st => some ((a &&& b) :: st)
  | or, b :: a :: st => some ((a ||| b) :: st)
  | xor, b :: a :: st => some ((a ^^^ b) :: st)
  | pop, _ :: st => some st
  | dup, a :: st => some (a :: a :: st)
  | _, _ => none

/-- The operation with an opcode. -/
def ofOpcode? (op : UInt8) : Option IntOp := all.find? (·.opcode = op)

theorem ofOpcode?_opcode (o : IntOp) : ofOpcode? o.opcode = some o := by
  cases o <;> decide

end IntOp

/-! ## Tests -/

/-- Tests a condition on integers: whether it holds, and the stack without its operands. -/
def Condition.test : Condition → List Int32 → Option (Bool × List Int32)
  | eq, a :: st => some (a = 0, st)
  | ne, a :: st => some (a ≠ 0, st)
  | lt, a :: st => some (a < 0, st)
  | ge, a :: st => some (0 ≤ a, st)
  | gt, a :: st => some (0 < a, st)
  | le, a :: st => some (a ≤ 0, st)
  | intEq, b :: a :: st => some (a = b, st)
  | intNe, b :: a :: st => some (a ≠ b, st)
  | intLt, b :: a :: st => some (a < b, st)
  | intGe, b :: a :: st => some (b ≤ a, st)
  | intGt, b :: a :: st => some (b < a, st)
  | intLe, b :: a :: st => some (a ≤ b, st)
  | _, _ => none

/-- The comparisons, in the order of the opcodes in a family. -/
def Opcode.compares (rank : UInt8) (a b : Int32) : Bool :=
  match rank.toNat with
  | 0 => a = b
  | 1 => a ≠ b
  | 2 => a < b
  | 3 => b ≤ a
  | 4 => b < a
  | _ => a ≤ b

/-- What a conditional jump tests: whether it is taken, and the stack without its operands. -/
def Opcode.test (op : UInt8) (st : List Int32) : Option (Bool × List Int32) :=
  match st with
  | [] => none
  | b :: st =>
    if isZeroTest op then some (compares (op - 0x99) b 0, st)
    else if isIntTest op then
      match st with
      | [] => none
      | a :: st => some (compares (op - 0x9f) a b, st)
    else none

/-- Jumps test what their conditions say. -/
theorem Condition.test_opcode (c : Condition) (st : List Int32) :
    Opcode.test c.opcode st = c.test st := by
  rcases st with - | ⟨b, - | ⟨a, st⟩⟩ <;> cases c <;> rfl

/-! ## Steps -/

/-- What an instruction does to the state, and the label that it jumps to, if it jumps. -/
def Instr.act (s : IntState) : Instr Label → Option (IntState × Option Label)
  | .plain op =>
    if Opcode.within Opcode.iconst_m1 0x08 op then
      some (s.push (op.toInt8 - Opcode.iconst_0.toInt8).toInt32, none)
    else do
      let stack ← (← IntOp.ofOpcode? op).apply s.stack
      return ({ s with stack }, none)
  | .int op n => if op = Opcode.bipush ∨ op = Opcode.sipush then some (s.push n, none) else none
  | .load (.int n) => some (s.push n, none)
  | .var op i =>
    if op = Opcode.iload then some (s.push (s.locals i), none)
    else if op = Opcode.istore then do
      let (n, s) ← s.pop?
      return (s.set i n, none)
    else none
  | .increment i n => some (s.set i (s.locals i + n.toInt32), none)
  | .jump op t =>
    if op = Opcode.goto then some (s, some t)
    else do
      let (taken, stack) ← Opcode.test op s.stack
      return ({ s with stack }, if taken then some t else none)
  | .tableSwitch low high otherwise targets => do
    let (n, s) ← s.pop?
    if n < low ∨ high < n then return (s, some otherwise)
    return (s, some (← targets[(n.toInt - low.toInt).toNat]?))
  | .lookupSwitch otherwise pairs => do
    let (n, s) ← s.pop?
    return (s, some ((pairs.lookup n).getD otherwise))
  | _ => none

namespace InstrList

variable {l : InstrList} {stop mid pc : Nat} {c c' : Nat × IntState} {s s' : IntState}
  {o : Option IntState} {f : IntState → Option IntState}

/-- One step from a place in the list. Markers do nothing. -/
def step (l : InstrList) (c : Nat × IntState) : Option (Nat × IntState) :=
  match l.nodes[c.1]? with
  | none => none
  | some (.instr i) =>
    match i.act c.2 with
    | none => none
    | some (s, none) => some (c.1 + 1, s)
    | some (s, some t) => (t.position? l.labelPositions).map (·, s)
  | some _ => some (c.1 + 1, c.2)

/-- One step after the other leads from here to there. -/
def Reaches (l : InstrList) : Nat × IntState → Nat × IntState → Prop :=
  StateTransition.Reaches l.step

/-- A run ends at a place with a state, or it gets stuck inside the list. -/
def Ends (l : InstrList) (stop : Nat) (c : Nat × IntState) : Option IntState → Prop
  | some s => l.Reaches c (stop, s)
  | none => ∃ c', l.Reaches c c' ∧ c'.1 < l.nodes.size ∧ l.step c' = none

theorem Ends.of_reaches (hc : l.Reaches c c') (h : l.Ends stop c' o) : l.Ends stop c o := by
  cases o with
  | some s => exact hc.trans h
  | none =>
    obtain ⟨d, hd, hstuck⟩ := h
    exact ⟨d, hc.trans hd, hstuck⟩

/-- What comes behind a part of the run goes on from where that part ends. -/
theorem Ends.bind (h : l.Ends mid (pc, s) o) (hf : ∀ s', l.Ends stop (mid, s') (f s')) :
    l.Ends stop (pc, s) (o.bind f) := by
  cases o with
  | some s' => exact (hf s').of_reaches h
  | none => exact h

/-! ## How runs come to a halt -/

/-- A run from the start of the list comes to where no step is left: to the end of the list, with a
state, or it is stuck in front of it. -/
def Halts (l : InstrList) (s : IntState) (o : Option IntState) : Prop :=
  ∃ c ∈ StateTransition.eval l.step (0, s), o = if c.1 < l.nodes.size then none else some c.2

theorem Ends.halts (h : l.Ends l.nodes.size (0, s) o) : l.Halts s o := by
  cases o with
  | some s' =>
    have hend : l.step (l.nodes.size, s') = none := by simp [step]
    exact ⟨_, StateTransition.mem_eval.mpr ⟨h, hend⟩, (if_neg (Nat.lt_irrefl _)).symm⟩
  | none =>
    obtain ⟨c, hreach, hlt, hstuck⟩ := h
    exact ⟨c, StateTransition.mem_eval.mpr ⟨hreach, hstuck⟩, (if_pos hlt).symm⟩

/-- There is only one way for a run to go. -/
theorem Halts.unique {o' : Option IntState} (h : l.Halts s o) (h' : l.Halts s o') : o = o' := by
  obtain ⟨c, hc, rfl⟩ := h
  obtain ⟨c', hc', rfl⟩ := h'
  rw [Part.mem_unique hc hc']

/-! ## Where code stands -/

/-- The entries stand in the list from a place on. -/
def Holds (l : InstrList) (pc : Nat) (ns : List Node) : Prop :=
  ∃ as bs, l.nodes.toList = as ++ ns ++ bs ∧ as.length = pc

variable {ns ms : List Node} {n : Node} {i : Instr Label} {lab : Label}

theorem Holds.left (h : l.Holds pc (ns ++ ms)) : l.Holds pc ns := by
  obtain ⟨as, bs, heq, hpc⟩ := h
  exact ⟨as, ms ++ bs, by simpa using heq, hpc⟩

theorem Holds.right (h : l.Holds pc (ns ++ ms)) : l.Holds (pc + ns.length) ms := by
  obtain ⟨as, bs, heq, rfl⟩ := h
  exact ⟨as ++ ns, bs, by simpa using heq, List.length_append⟩

theorem Holds.head (h : l.Holds pc (n :: ns)) : l.nodes[pc]? = some n := by
  obtain ⟨as, bs, heq, rfl⟩ := h
  rw [← Array.getElem?_toList, heq]
  simp

theorem Holds.tail (h : l.Holds pc (n :: ns)) : l.Holds (pc + 1) ns := by
  rw [← List.singleton_append] at h
  exact h.right

theorem holds_all (l : InstrList) : l.Holds 0 l.nodes.toList := ⟨[], [], by simp, rfl⟩

/-- Every label has at most one marker, and it was handed out. -/
def Marked (l : InstrList) : Prop :=
  ∀ lab, l.nodes.toList.count (.label lab) ≤ 1 ∧
    (.label lab ∈ l.nodes.toList → lab.id < l.labelCount)

/-- A label is where its marker stands. -/
theorem Marked.position?_eq (hl : l.Marked) (h : l.Holds pc (.label lab :: ns)) :
    lab.position? l.labelPositions = some pc := by
  obtain ⟨as, bs, heq, rfl⟩ := h
  rw [List.append_assoc, List.cons_append] at heq
  obtain ⟨hone, hid⟩ := hl lab
  have hmem : .label lab ∈ l.nodes.toList := by
    rw [heq]
    exact List.mem_append_right as List.mem_cons_self
  refine position?_of_split (hid hmem) heq ?_
  intro hagain
  rw [heq, List.count_append, List.count_cons_self] at hone
  have := List.count_pos_iff.mpr hagain
  omega

/-! ## Single steps at a place -/

theorem reaches_label (h : l.Holds pc (.label lab :: ns)) : l.Reaches (pc, s) (pc + 1, s) := by
  apply Relation.ReflTransGen.single
  simp only [Option.mem_def, step, h.head]

theorem reaches_next (h : l.Holds pc (.instr i :: ns)) (hi : i.act s = some (s', none)) :
    l.Reaches (pc, s) (pc + 1, s') := by
  apply Relation.ReflTransGen.single
  simp only [Option.mem_def, step, h.head, hi]

theorem reaches_jump (h : l.Holds pc (.instr i :: ns)) (hi : i.act s = some (s', some lab))
    (hlab : lab.position? l.labelPositions = some mid) : l.Reaches (pc, s) (mid, s') := by
  apply Relation.ReflTransGen.single
  simp only [Option.mem_def, step, h.head, hi, hlab, Option.map_some]

theorem ends_stuck (h : l.Holds pc (.instr i :: ns)) (hi : i.act s = none) :
    l.Ends stop (pc, s) none := by
  have hlt := (Array.getElem?_eq_some_iff.mp h.head).1
  refine ⟨(pc, s), .refl, hlt, ?_⟩
  simp only [step, h.head, hi]

end InstrList

/-! ## Code that performs something -/

/-- Wherever the entries stand, a run from their start comes to their end, with what a function
makes of the state, or gets stuck where the function has no value. -/
def Performs (ns : List Node) (f : IntState → Option IntState) : Prop :=
  ∀ l : InstrList, l.Marked → ∀ pc, l.Holds pc ns → ∀ s, l.Ends (pc + ns.length) (pc, s) (f s)

namespace Performs

variable {ns ms : List Node} {f g : IntState → Option IntState} {i : Instr Label}

theorem nil : Performs [] some := by
  intro l hl pc hpc s
  exact .refl

/-- An instruction that does not jump. -/
theorem instr (hi : ∀ s, i.act s = (f s).map (·, none)) : Performs [.instr i] f := by
  intro l hl pc hpc s
  have hact := hi s
  cases hf : f s with
  | some s' =>
    rw [hf] at hact
    exact InstrList.reaches_next hpc hact
  | none =>
    rw [hf] at hact
    exact InstrList.ends_stuck hpc hact

theorem append (hf : Performs ns f) (hg : Performs ms g) :
    Performs (ns ++ ms) fun s => (f s).bind g := by
  intro l hl pc hpc s
  rw [List.length_append, ← Nat.add_assoc]
  exact (hf l hl pc hpc.left s).bind fun s' => hg l hl _ hpc.right s'

end Performs

end ClassWeave
