import Mathlib.Algebra.GroupWithZero.Nat
import ClassWeave.Proofs.FreshObjects
import ClassWeave.Proofs.SearchMoments

/-!
# Wide local variables stay whole

Every frame that an analysis records, at whatever moment, keeps the second half of every wide local
variable in place. That is why a frame can be stored with one entry for every value: filled in
again, the entries give every slot its type.
-/

namespace ClassWeave

/-- Every wide local variable is followed by its second half. -/
def Frame.Whole (f : Frame) : Prop :=
  ∀ s t, f.locals[s]? = some t → t.isWide → f.locals[s + 1]? = some .top

theorem Frame.Closed.whole {f : Frame} (hc : Closed f.locals) : f.Whole := by
  intro s t ht hw
  obtain ⟨hlt, htop⟩ := hc s (slot_eq_of_getElem? ht ▸ hw)
  rw [getElem?_of_slot hlt, htop]

/-- The type with an offset in place of the instruction that made a fresh object. -/
def VType.located (offset? : Nat → Option Nat) : NamedType → NamedType :=
  VType.map id fun i => (offset? i).getD 0

namespace Analysis

variable {m : MethodContext} {l : InstrList} {pool : Pool} {h : Hierarchy} {mode : Mode} {i : Nat}
  {f : Frame}

end Analysis
end ClassWeave
