import ClassWeave.Frame.Effect
import ClassWeave.Instr.List
import Mathlib.Logic.Function.Basic

/-!
# Code with monitors and exceptions

A machine that runs lists of instructions of which little is known. The ones that enter and leave
monitors, move objects between the stack and the local variables, or throw, do what they are for;
all others do anything to the stack and to the variables that they store to. Any instruction may
throw instead of completing, and then it has no other effect, unless the machine is sure that
nothing fails at its place. An exception goes to the first handler of the list that covers the place
and catches it. If there is none, the exception leaves the code.

What is seen of a run are the monitors that are entered and exited and the exceptions. `Watch` looks
on: it follows a run only as long as every monitor is exited inside those that were entered before
it, and as long as nothing but the latest exception is thrown again.
-/

namespace ClassWeave

variable {V τ : Type}

/-! ## Instructions -/

/-- The local variables and the stack, its top first. -/
structure Memory (V : Type) where
  locals : Nat → V
  stack : List V

/-- What is seen of a run. -/
inductive Event (V : Type) where
  | entered (object : V)
  | exited (object : V)
  | thrown (exception : V)
  /-- An exception that goes on: it is thrown where nothing fails. -/
  | rethrown (exception : V)
deriving DecidableEq

namespace Instr

/-- The local variable that the instruction stores to. -/
def stored? : Instr τ → Option (UInt16 × ValueKind)
  | .plain op =>
    match Effect.ofOpcode? op with
    | some (.store kind slot) => some (slot, kind)
    | _ => none
  | .var op i => if Opcode.isStore op then some (i, .ofRank (op - Opcode.istore).toNat) else none
  | .increment i _ => some (i, .int)
  | _ => none

/-- The instruction stores to a slot. -/
def StoresTo (i : Instr τ) (k : Nat) : Prop :=
  ∃ s ∈ i.stored?, s.1.toNat ≤ k ∧ k < s.1.toNat + s.2.slots

/-- The instruction enters or exits a monitor. -/
def isMonitor : Instr τ → Bool
  | .plain op => op == Opcode.monitorenter || op == Opcode.monitorexit
  | _ => false

/-- The machine knows what the instruction does. -/
def isKnown : Instr τ → Bool
  | .plain op => op == Opcode.dup || op == Opcode.athrow || (plain op : Instr τ).isMonitor
  | .var op _ => op == Opcode.aload || op == Opcode.astore
  | _ => false

/-- What an instruction does if it completes. -/
inductive Completes : Instr τ → Memory V → List (Event V) → Memory V → Prop
  | dup {locals : Nat → V} {x : V} {stack : List V} :
      Completes (.plain Opcode.dup) ⟨locals, x :: stack⟩ [] ⟨locals, x :: x :: stack⟩
  | load {locals : Nat → V} {stack : List V} (i : UInt16) :
      Completes (.var Opcode.aload i) ⟨locals, stack⟩ [] ⟨locals, locals i.toNat :: stack⟩
  | store {locals : Nat → V} {x : V} {stack : List V} (i : UInt16) :
      Completes (.var Opcode.astore i) ⟨locals, x :: stack⟩ []
        ⟨Function.update locals i.toNat x, stack⟩
  | enter {locals : Nat → V} {x : V} {stack : List V} :
      Completes (.plain Opcode.monitorenter) ⟨locals, x :: stack⟩ [.entered x] ⟨locals, stack⟩
  | exit {locals : Nat → V} {x : V} {stack : List V} :
      Completes (.plain Opcode.monitorexit) ⟨locals, x :: stack⟩ [.exited x] ⟨locals, stack⟩
  | other {i : Instr τ} {m m' : Memory V} (hi : i.isKnown = false)
      (hlocals : ∀ k, ¬ i.StoresTo k → m'.locals k = m.locals k) : Completes i m [] m'

/-- Nothing is seen of an instruction that is not about monitors, and it leaves all variables alone
that it does not store to. -/
theorem Completes.ordinary {i : Instr τ} {m m' : Memory V} {es : List (Event V)}
    (h : i.Completes m es m') (hi : i.isMonitor = false) :
    es = [] ∧ ∀ k, ¬ i.StoresTo k → m'.locals k = m.locals k := by
  cases h with
  | dup | load => exact ⟨rfl, fun _ _ => rfl⟩
  | store j =>
    refine ⟨rfl, fun k hk => Function.update_of_ne ?_ _ _⟩
    rintro rfl
    exact hk ⟨(j, .reference), rfl, Nat.le_refl _, Nat.lt_succ_self _⟩
  | enter | exit => cases hi
  | other _ hlocals => exact ⟨rfl, hlocals⟩

end Instr

/-! ## Exceptions -/

namespace TryBlock

/-- The block covers a place. -/
def covers (positions : Array (Option Nat)) (pc : Nat) (b : TryBlock) : Bool :=
  (b.start.position? positions).any (· ≤ pc) && (b.stop.position? positions).any (pc < ·)

/-- The block catches an exception, where it is known of which classes the exception is. -/
def catches (isOf : String → V → Bool) (v : V) (b : TryBlock) : Bool :=
  b.catchType.all (isOf · v)

end TryBlock

/-- Code that runs, and what it cannot tell by itself. -/
structure Machine (V : Type) where
  list : InstrList
  /-- The exception is of a class. -/
  isOf : String → V → Bool
  /-- Nothing fails at the place. -/
  sure : Nat → Bool
  /-- Where the end of a subroutine leads. -/
  back : Nat → Nat → Prop

/-- How far a run has come. -/
inductive Config (V : Type) where
  | running (pc : Nat) (m : Memory V)
  /-- An exception has left the code. -/
  | left (exception : V)
  | returned

namespace Machine

variable (M : Machine V)

/-- The place of a label. -/
def position? (lab : Label) : Option Nat := lab.position? M.list.labelPositions

/-- The first block that covers a place and catches an exception. -/
def block? (pc : Nat) (v : V) : Option TryBlock :=
  M.list.blocks.find? fun b => b.covers M.list.labelPositions pc && b.catches M.isOf v

/-- Where an exception leads. A handler finds the local variables as they were, and nothing but the
exception on the stack. -/
inductive Raises (pc : Nat) (locals : Nat → V) (v : V) : Config V → Prop
  | caught {b : TryBlock} {h : Nat} (hb : M.block? pc v = some b)
      (hh : M.position? b.handler = some h) : Raises pc locals v (.running h ⟨locals, [v]⟩)
  | left (hnone : M.block? pc v = none) : Raises pc locals v (.left v)

/-- One step, and what is seen of it. -/
inductive Step : Config V → List (Event V) → Config V → Prop
  | marker {pc : Nat} {n : Node} {m : Memory V} (hn : M.list.nodes[pc]? = some n)
      (hreal : n.isReal = false) : Step (.running pc m) [] (.running (pc + 1) m)
  | next {pc : Nat} {i : Instr Label} {m m' : Memory V} {es : List (Event V)}
      (hn : M.list.nodes[pc]? = some (.instr i)) (hfall : i.fallsThrough)
      (hi : i.Completes m es m') : Step (.running pc m) es (.running (pc + 1) m')
  | jump {pc pc' : Nat} {i : Instr Label} {m m' : Memory V} {es : List (Event V)} {lab : Label}
      (hn : M.list.nodes[pc]? = some (.instr i)) (hlab : lab ∈ i.targets)
      (hpc : M.position? lab = some pc') (hi : i.Completes m es m') :
      Step (.running pc m) es (.running pc' m')
  | back {pc pc' : Nat} {k : UInt16} {m : Memory V}
      (hn : M.list.nodes[pc]? = some (.instr (.var Opcode.ret k))) (hback : M.back pc pc') :
      Step (.running pc m) [] (.running pc' m)
  | returns {pc : Nat} {op : UInt8} {m : Memory V}
      (hn : M.list.nodes[pc]? = some (.instr (.plain op))) (hop : Opcode.isReturn op) :
      Step (.running pc m) [] .returned
  | fails {pc : Nat} {i : Instr Label} {m : Memory V} {v : V} {c : Config V}
      (hn : M.list.nodes[pc]? = some (.instr i)) (hsure : M.sure pc = false)
      (hc : M.Raises pc m.locals v c) : Step (.running pc m) [.thrown v] c
  | throws {pc : Nat} {locals : Nat → V} {v : V} {stack : List V} {c : Config V}
      (hn : M.list.nodes[pc]? = some (.instr (.plain Opcode.athrow)))
      (hc : M.Raises pc locals v c) :
      Step (.running pc ⟨locals, v :: stack⟩) [if M.sure pc then .rethrown v else .thrown v] c

/-- One step after the other, and all that is seen of them. -/
inductive Runs (c : Config V) : List (Event V) → Config V → Prop
  | refl : Runs c [] c
  | snoc {es es' : List (Event V)} {c' c'' : Config V} (h : Runs c es c') (hs : M.Step c' es' c'') :
      Runs c (es ++ es') c''

end Machine

/-! ## Looking on -/

/-- What is known of a run from what is seen of it. -/
structure Watch (V : Type) where
  /-- The monitors that were entered and not exited, the latest first. -/
  opened : List V
  /-- The latest exception that was thrown. -/
  latest : Option V

namespace Watch

/-- What can be seen next: the latest monitor is exited before the others, by the object that it was
entered with, and nothing but the latest exception goes on. -/
inductive Sees : Watch V → Event V → Watch V → Prop
  | entered {opened : List V} {latest : Option V} {x : V} :
      Sees ⟨opened, latest⟩ (.entered x) ⟨x :: opened, latest⟩
  | exited {opened : List V} {latest : Option V} {x : V} :
      Sees ⟨x :: opened, latest⟩ (.exited x) ⟨opened, latest⟩
  | thrown {opened : List V} {latest : Option V} {x : V} :
      Sees ⟨opened, latest⟩ (.thrown x) ⟨opened, some x⟩
  | rethrown {opened : List V} {x : V} :
      Sees ⟨opened, some x⟩ (.rethrown x) ⟨opened, some x⟩

/-- What can be seen one after the other. -/
def SeesAll (w : Watch V) : List (Event V) → Watch V → Prop
  | [], w' => w = w'
  | e :: es, w' => ∃ u, w.Sees e u ∧ u.SeesAll es w'

/-- Nothing was seen yet. -/
def start : Watch V := ⟨[], none⟩

variable {w w' w'' : Watch V} {e : Event V} {es es' : List (Event V)}

theorem Sees.all (h : w.Sees e w') : w.SeesAll [e] w' := ⟨w', h, rfl⟩

theorem SeesAll.append (h : w.SeesAll es w') (h' : w'.SeesAll es' w'') :
    w.SeesAll (es ++ es') w'' := by
  induction es generalizing w with
  | nil =>
    obtain rfl := h
    exact h'
  | cons e es ih =>
    obtain ⟨u, hu, hes⟩ := h
    exact ⟨u, hu, ih hes⟩

section count

variable [DecidableEq V]

theorem Sees.count (h : w.Sees e w') (x : V) :
    w.opened.count x + [e].count (.entered x) = w'.opened.count x + [e].count (.exited x) := by
  cases h with
  | entered | exited => simp [List.count_cons]
  | thrown | rethrown => simp

/-- **Every monitor that was entered is open or was exited once.** -/
theorem SeesAll.count (h : w.SeesAll es w') (x : V) :
    w.opened.count x + es.count (.entered x) = w'.opened.count x + es.count (.exited x) := by
  induction es generalizing w with
  | nil =>
    obtain rfl := h
    rfl
  | cons e es ih =>
    obtain ⟨u, hu, hes⟩ := h
    have hfirst := hu.count x
    have hrest := ih hes
    rw [← List.singleton_append, List.count_append, List.count_append]
    omega

end count

end Watch
end ClassWeave
