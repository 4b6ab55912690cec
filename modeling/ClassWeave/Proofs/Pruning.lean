import ClassWeave.Model.Write
import ClassWeave.Proofs.Analyses
import ClassWeave.Proofs.CodeRoundTrip
import ClassWeave.Proofs.LabelPlaces

/-!
# Code without what is never reached

Leaving out the instructions that an analysis never reached keeps the code in one piece: what is
reached hands control on to something that is reached, so in front of every place that control
comes to an instruction is left. Code that was cut down can therefore be decoded once it is encoded.
-/

namespace ClassWeave

open Code

/-- The entries, numbered from `k` on, at which a test holds. -/
def keptFrom (keep : Nat → Node → Bool) (k : Nat) : List Node → List Node
  | [] => []
  | n :: rest => if keep k n then n :: keptFrom keep (k + 1) rest else keptFrom keep (k + 1) rest

section kept

variable {keep : Nat → Node → Bool} {k : Nat} {n : Node} {nodes xs ys : List Node}

theorem keptFrom_eq_filter (keep : Nat → Node → Bool) (k : Nat) (nodes : List Node) :
    keptFrom keep k nodes = ((nodes.zipIdx k).filter fun (n, i) => keep i n).map Prod.fst := by
  induction nodes generalizing k with
  | nil => rfl
  | cons n nodes ih =>
    rw [keptFrom, ih, List.zipIdx_cons, List.filter_cons]
    split <;> rfl

theorem keptFrom_sublist (keep : Nat → Node → Bool) (k : Nat) (nodes : List Node) :
    (keptFrom keep k nodes).Sublist nodes := by
  induction nodes generalizing k with
  | nil => exact .slnil
  | cons n nodes ih =>
    rw [keptFrom]
    split
    · exact (ih (k + 1)).cons_cons n
    · exact (ih (k + 1)).cons n

/-- Nothing is left out if the test holds everywhere. -/
theorem keptFrom_eq_self (h : ∀ p ∈ nodes.zipIdx k, keep p.2 p.1) :
    keptFrom keep k nodes = nodes := by
  rw [keptFrom_eq_filter, List.filter_eq_self.mpr fun p hp => h p hp]
  exact List.zipIdx_map_fst k nodes

/-- Nothing is left if the test holds nowhere. -/
theorem keptFrom_eq_nil (h : ∀ p ∈ nodes.zipIdx k, ¬ keep p.2 p.1) :
    keptFrom keep k nodes = [] := by
  rw [keptFrom_eq_filter, List.filter_eq_nil_iff.mpr fun p hp => h p hp]
  rfl

/-- Only the tests at the numbers of the entries matter. -/
theorem keptFrom_congr {keep' : Nat → Node → Bool} {k' : Nat}
    (h : ∀ i n, keep (k + i) n = keep' (k' + i) n) :
    keptFrom keep k nodes = keptFrom keep' k' nodes := by
  induction nodes generalizing k k' with
  | nil => rfl
  | cons n nodes ih =>
    have hrest : keptFrom keep (k + 1) nodes = keptFrom keep' (k' + 1) nodes := by
      refine ih fun i m => ?_
      rw [Nat.add_assoc, Nat.add_assoc]
      exact h (1 + i) m
    rw [keptFrom, keptFrom, hrest, show keep k n = keep' k' n from h 0 n]

theorem keptFrom_append (xs ys : List Node) : keptFrom keep k (xs ++ ys) =
    keptFrom keep k xs ++ keptFrom keep (k + xs.length) ys := by
  induction xs generalizing k with
  | nil => rfl
  | cons n xs ih =>
    rw [List.cons_append, keptFrom, keptFrom, ih, List.length_cons, Nat.add_right_comm k 1,
      Nat.add_assoc k]
    split <;> rfl

theorem keptFrom_cons_of_keep (h : keep k n) :
    keptFrom keep k (n :: nodes) = n :: keptFrom keep (k + 1) nodes := if_pos h

/-- An entry that is left comes from an entry with the same number of those that are left in
front of it. -/
theorem exists_of_keptFrom (h : keptFrom keep k nodes = xs ++ n :: ys) :
    ∃ as bs, nodes = as ++ n :: bs ∧ xs = keptFrom keep k as ∧ keep (k + as.length) n ∧
      ys = keptFrom keep (k + as.length + 1) bs := by
  induction nodes generalizing k xs with
  | nil => simp [keptFrom] at h
  | cons m nodes ih =>
    rw [keptFrom] at h
    split at h
    · rename_i hm
      cases xs with
      | nil =>
        obtain ⟨rfl, rfl⟩ := List.cons.inj h
        exact ⟨[], nodes, rfl, rfl, hm, rfl⟩
      | cons x xs =>
        obtain ⟨rfl, hrest⟩ := List.cons.inj h
        obtain ⟨as, bs, rfl, rfl, hn, rfl⟩ := ih hrest
        refine ⟨m :: as, bs, rfl, (keptFrom_cons_of_keep hm).symm, ?_, ?_⟩
        · rwa [List.length_cons, Nat.add_comm as.length, ← Nat.add_assoc]
        · rw [List.length_cons, Nat.add_comm as.length, ← Nat.add_assoc]
    · rename_i hm
      obtain ⟨as, bs, rfl, rfl, hn, rfl⟩ := ih h
      refine ⟨m :: as, bs, rfl, (if_neg hm).symm, ?_, ?_⟩
      · rwa [List.length_cons, Nat.add_comm as.length, ← Nat.add_assoc]
      · rw [List.length_cons, Nat.add_comm as.length, ← Nat.add_assoc]

end kept

theorem InstrList.toList_filterIdx {l : InstrList} (keep : Nat → Node → Bool) :
    (l.filterIdx keep).nodes.toList = keptFrom keep 0 l.nodes.toList := by
  rw [keptFrom_eq_filter]
  rfl

namespace Analysis

variable {a : Analysis} {l : InstrList}

/-- What is left of code: its markers, and the instructions that are reached. -/
def keeps (a : Analysis) (i : Nat) (n : Node) : Bool := !WriteContext.isDead a.frames i n

/-- The entries of code that are left. -/
def live (a : Analysis) (l : InstrList) : List Node := keptFrom a.keeps 0 l.nodes.toList

/-- The code without the instructions that are never reached. -/
def cut (a : Analysis) (l : InstrList) : InstrList := l.filterIdx a.keeps

theorem toList_cut (a : Analysis) (l : InstrList) : (a.cut l).nodes.toList = a.live l :=
  InstrList.toList_filterIdx _

/-- Nothing is left out if no instruction is dead. -/
theorem cut_eq_self
    (h : ¬ (l.nodes.toList.zipIdx.any fun (n, i) => WriteContext.isDead a.frames i n) = true) :
    a.cut l = l := by
  rw [Bool.not_eq_true, List.any_eq_false] at h
  have hkeeps : ∀ p ∈ l.nodes.toList.zipIdx, a.keeps p.2 p.1 := fun p hp => by
    have hlive : WriteContext.isDead a.frames p.2 p.1 = false := by simpa using h p hp
    rw [keeps, hlive]
    rfl
  have hnodes : (a.cut l).nodes = l.nodes := by
    rw [← Array.toList_inj, toList_cut, live, keptFrom_eq_self hkeeps]
  obtain ⟨nodes, placed, blocks⟩ := l
  rw [cut, InstrList.filterIdx, InstrList.mk.injEq]
  exact ⟨hnodes, rfl, rfl⟩

theorem keeps_mark {i : Nat} {n : Node} (hn : n.isReal = false) : a.keeps i n := by
  simp [keeps, WriteContext.isDead, hn]

theorem keeps_real {i : Nat} {n : Node} (hn : n.isReal) : a.keeps i n ↔ a.Reaches i := by
  simp [keeps, WriteContext.isDead, hn, Reaches, Option.isSome_iff_ne_none]

theorem documented_live {p : Pool} (h : Documented p l.nodes.toList) :
    Documented p (a.live l) :=
  fun i hi => h i ((keptFrom_sublist _ _ _).subset hi)

/-- In front of every place that control comes to an instruction is left. -/
theorem Spreads.real_behind (hs : a.Spreads l) {i : Nat} (hi : a.Reaches i) :
    (keptFrom a.keeps i (l.nodes.toList.drop i)).any Node.isReal := by
  have hlt := hs.inside hi
  have hdrop : l.nodes.toList.drop i = l.nodes[i] :: l.nodes.toList.drop (i + 1) := by
    rw [List.drop_eq_getElem_cons (by simpa using hlt)]
    rfl
  rw [hdrop]
  by_cases hreal : l.nodes[i].isReal
  · rw [keptFrom_cons_of_keep ((keeps_real hreal).mpr hi), List.any_cons, hreal]
    rfl
  · have hmark : l.nodes[i].isReal = false := by simpa using hreal
    rw [keptFrom_cons_of_keep (keeps_mark hmark), List.any_cons, Bool.or_eq_true]
    exact .inr (hs.real_behind (hs.mark hi (Array.getElem?_eq_getElem hlt) hmark))
termination_by l.nodes.size - i

theorem Spreads.live_any (hs : a.Spreads l) : (a.live l).any Node.isReal :=
  hs.real_behind hs.first

/-- Behind a jump that may not be taken an instruction is left. -/
theorem Spreads.behind (hs : a.Spreads l) {k : Nat} {ins : Instr Label}
    (hk : (a.live l)[k]? = some (.instr ins)) (hfall : ins.fallsThrough) :
    ((a.live l).drop (k + 1)).any Node.isReal := by
  obtain ⟨as, bs, heq, -, hkeep, hbs⟩ := exists_of_keptFrom (eq_take_cons_drop hk).1
  rw [Nat.zero_add] at hkeep hbs
  have hnode : l.nodes[as.length]? = some (.instr ins) := by
    rw [← Array.getElem?_toList, heq]
    simp
  have hnext := hs.next ((keeps_real rfl).mp hkeep) hnode hfall
  have hdrop : l.nodes.toList.drop (as.length + 1) = bs := by
    rw [heq, List.append_cons]
    have hlen : as.length + 1 = (as ++ [Node.instr ins]).length := by simp
    rw [hlen, List.drop_left]
  have hreal := hs.real_behind hnext
  rw [hdrop] at hreal
  rwa [hbs]

/-- Every label that is used leads to an instruction that is left. -/
theorem Spreads.leads (hs : a.Spreads l) {t : Label} (ht : t ∈ (a.live l).flatMap Node.targets) :
    Leads (a.live l) t := by
  obtain ⟨n, hn, ht⟩ := List.mem_flatMap.mp ht
  cases n with
  | label | line => cases ht
  | instr ins =>
    obtain ⟨xs, ys, hsplit⟩ := List.append_of_mem hn
    obtain ⟨as, bs, heq, -, hkeep, -⟩ := exists_of_keptFrom hsplit
    rw [Nat.zero_add] at hkeep
    have hnode : l.nodes[as.length]? = some (.instr ins) := by
      rw [← Array.getElem?_toList, heq]
      simp
    obtain ⟨j, hj, hreach⟩ := hs.target ((keeps_real rfl).mp hkeep) hnode ht
    obtain ⟨cs, ds, heq, rfl, hnot⟩ := InstrList.position?_labelPositions hj
    have hmark : a.keeps (0 + cs.length) (.label t) := keeps_mark rfl
    refine ⟨keptFrom a.keeps 0 cs, keptFrom a.keeps (0 + cs.length + 1) ds, ?_, ?_, ?_⟩
    · rw [live, heq, keptFrom_append, keptFrom_cons_of_keep hmark]
    · exact fun hmem => hnot ((keptFrom_sublist _ _ _).subset hmem)
    · have hreal := hs.real_behind hreach
      rw [heq, List.drop_left, keptFrom_cons_of_keep (keeps_mark rfl), List.any_cons] at hreal
      rw [Nat.zero_add]
      exact hreal

/-- Only a jump that may not be taken has an opposite. -/
theorem fallsThrough_of_invertJump? : ∀ op : UInt8, (Opcode.invertJump? op).isSome = true →
    (op != Opcode.goto && op != Opcode.goto_w) = true :=
  forall_u8 (by decide +kernel)

/-- **Code without what is never reached can be decoded once it is encoded.** -/
theorem Spreads.closed (hs : a.Spreads l) {links : Links} {range : JumpRange} {count : Nat}
    {e : Encoded} {slots : List Code.Slot}
    (he : Encoding links range (a.live l) count e slots)
    (hdoc : Documented links.pool (a.live l)) : Closed (a.live l) e.wideFallthroughs := by
  refine ⟨fun t ht => hs.leads ht, fun i hi => ?_⟩
  obtain ⟨k, op, t, rfl, hk, hop⟩ := he.detour_spec hdoc hi
  exact hs.behind hk (fallsThrough_of_invertJump? op hop)

end Analysis
end ClassWeave
