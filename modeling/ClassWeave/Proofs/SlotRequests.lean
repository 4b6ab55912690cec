import ClassWeave.Build.Basic

/-!
# Local variables that are handed out

A builder hands out local variables one behind the other, and never refuses one. As long as all that
are asked for fit in front of slot 65536, they are separate. Where they do not, the count of
slots starts again at 0, and a variable is handed out that is in use or does not exist: so the
variables that a sequence of requests gets are separate exactly if there is room for all of them.
-/

namespace ClassWeave

/-- A request for a fresh local variable. -/
inductive SlotRequest where
  | allocate (kind : ValueKind)
  /-- The top of the stack is moved to the variable. -/
  | storeNew (kind : ValueKind)

namespace Slot

/-- The local variable takes up this slot. -/
def Covers (s : Slot) (k : Nat) : Prop := s.index.toNat ≤ k ∧ k < s.index.toNat + s.kind.slots

/-- No slot belongs to two of the variables, none is in front of the first one that is free, and all
have a number of 16 bits, the second halves of wide variables included. -/
structure Separate (first : Nat) (slots : List Slot) : Prop where
  apart : slots.Pairwise fun s t => ∀ k, s.Covers k → ¬ t.Covers k
  above : ∀ s ∈ slots, first ≤ s.index.toNat
  within : ∀ s ∈ slots, ∀ k, s.Covers k → k < 65536

variable {first : Nat} {s : Slot} {slots : List Slot}

theorem covers_index (s : Slot) : s.Covers s.index.toNat := by
  have hpos : 0 < s.kind.slots := by cases s.kind <;> decide
  exact ⟨Nat.le_refl _, by omega⟩

/-- A variable and others behind it. -/
theorem Separate.cons (hfit : s.index.toNat + s.kind.slots ≤ 65536)
    (hrest : Separate (s.index.toNat + s.kind.slots) slots) :
    Separate s.index.toNat (s :: slots) where
  apart := by
    refine List.pairwise_cons.mpr ⟨fun t ht k hs hk => ?_, hrest.apart⟩
    have habove := hrest.above t ht
    have hlt := hs.2
    have hle := hk.1
    omega
  above := by
    refine List.forall_mem_cons.mpr ⟨Nat.le_refl _, fun t ht => ?_⟩
    have habove := hrest.above t ht
    omega
  within := by
    refine List.forall_mem_cons.mpr ⟨fun k hk => ?_, hrest.within⟩
    have hlt := hk.2
    omega

/-- The first variable that is handed out is in front of the others. -/
theorem Separate.tail (h : Separate s.index.toNat (s :: slots)) :
    Separate (s.index.toNat + s.kind.slots) slots where
  apart := h.apart.of_cons
  above := by
    intro t ht
    have habove := h.above t (List.mem_cons_of_mem s ht)
    apply Nat.le_of_not_lt
    intro hlt
    exact List.rel_of_pairwise_cons h.apart ht t.index.toNat ⟨habove, hlt⟩ t.covers_index
  within t ht := h.within t (List.mem_cons_of_mem s ht)

theorem Separate.fits (h : Separate first (s :: slots)) :
    s.index.toNat + s.kind.slots ≤ 65536 := by
  have hpos : 0 < s.kind.slots := by cases s.kind <;> decide
  have hlast := h.within s List.mem_cons_self (s.index.toNat + s.kind.slots - 1)
    ⟨by omega, by omega⟩
  omega

end Slot

namespace SlotRequest

def kind : SlotRequest → ValueKind
  | allocate kind | storeNew kind => kind

def run : SlotRequest → Build Slot
  | allocate kind => Build.allocate kind
  | storeNew kind => Build.storeNew kind

/-- How many slots a sequence of requests asks for. -/
def room : List SlotRequest → Nat
  | [] => 0
  | q :: rest => q.kind.slots + room rest

/-- The variables that are handed out while `next` is the one that is counted as free. -/
def handedOut (next : UInt16) : List SlotRequest → List Slot
  | [] => []
  | q :: rest => ⟨next, q.kind⟩ :: handedOut (next + UInt16.ofNat q.kind.slots) rest

variable {next : UInt16} {requests : List SlotRequest}

end SlotRequest
end ClassWeave
