import ClassWeave.Build.Basic

/-!
# Structured control

Branches and locked regions around bodies, which are computations of their own. The conditions of a
branch are tested one after the other, and each takes its operands off the stack.
-/

namespace ClassWeave.Build

/-- Jumps to a label if one of the conditions holds. -/
def jumpIfAny (conditions : List Condition) (target : Label) : Build Unit :=
  conditions.forM fun c => jump c target

/-- Runs the body unless one of the conditions holds. -/
def ifClause (skipIf : List Condition) (body : Build Unit) : Build Unit := do
  let stop ← freshLabel
  jumpIfAny skipIf stop
  body
  placeLabel stop

/-- Runs the first body if one of the conditions holds, otherwise the second, which comes first in
the code. -/
def ifElse (conditions : List Condition) (body otherwise : Build Unit) : Build Unit := do
  let taken ← freshLabel
  let stop ← freshLabel
  jumpIfAny conditions taken
  otherwise
  goto stop
  placeLabel taken
  body
  placeLabel stop

/-- Keeps the object on top of the stack in a fresh local and enters its monitor. -/
def enterMonitor : Build Slot := do
  plain Opcode.dup
  let lock ← storeNew .reference
  plain Opcode.monitorenter
  return lock

/-- Leaves the monitor of the object in a local. -/
def exitMonitor (lock : Slot) : Build Unit := do
  loadSlot lock
  plain Opcode.monitorexit

/-- Runs the body inside the monitor of the object on top of the stack. An exception in the body
leaves the monitor entered. -/
def synchronized (body : Build Unit) : Build Unit := do
  let lock ← enterMonitor
  body
  exitMonitor lock

/-- Runs the body inside the monitor of the object on top of the stack. An exception in the body
leaves the monitor and goes on. The body must leave the stack as it found it. -/
def synchronizedGuarded (body : Build Unit) : Build Unit := do
  let start ← freshLabel
  let stop ← freshLabel
  let handler ← freshLabel
  let done ← freshLabel
  let lock ← enterMonitor
  placeLabel start
  body
  exitMonitor lock
  placeLabel stop
  goto done
  placeLabel handler
  let thrown ← storeNew .reference
  exitMonitor lock
  loadSlot thrown
  plain Opcode.athrow
  placeLabel done
  addBlock ⟨start, stop, handler, none⟩

end ClassWeave.Build
