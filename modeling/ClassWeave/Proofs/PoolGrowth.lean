import ClassWeave.Constant.Intern
import ClassWeave.Proofs.Results
import ClassWeave.Proofs.SlotVectors

/-!
# How a pool grows

A pool is only ever changed by putting constants behind the others: reading a pool from bytes does
that, and so does asking for constants. `Pool.Extends` says that one pool comes from another one
this way. A constant keeps its index, so whatever an index stands for is not changed by growth, and
a constant that was asked for can be looked up under the index that was given for it.
-/

namespace ClassWeave
namespace Pool

variable {p q r : Pool} {c : Constant} {i : PoolIndex}

/-- The second pool comes from the first one by putting constants behind those that are there. -/
inductive Extends (p : Pool) : Pool → Prop
  | refl : Extends p p
  | push {q r : Pool} {c : Constant} {i : PoolIndex} (hq : Extends p q)
      (hr : q.push c = .ok (i, r)) : Extends p r

/-- A pool that is read from bytes or comes about by asking for constants. -/
def Reachable (p : Pool) : Prop := empty.Extends p

theorem Extends.trans (hq : p.Extends q) (hr : q.Extends r) : p.Extends r := by
  induction hr with
  | refl => exact hq
  | push _ hr ih => exact ih.push hr

theorem push_eq_ok : p.push c = .ok (i, q) ↔
    p.count + c.slots ≤ 65535 ∧ i = UInt16.ofNat p.count ∧
      q = ⟨p.constants.push c, p.index.insertIfNew c (UInt16.ofNat p.count)⟩ := by
  unfold push hasRoom add
  by_cases hroom : p.count + c.slots ≤ 65535
  · simp [hroom, eq_comm]
  · simp [hroom]

theorem get_eq_ok : p.get i = .ok c ↔ p.constants.get? i.toNat = some c := by
  unfold get
  cases p.constants.get? i.toNat <;> simp

theorem get_empty : empty.get i ≠ .ok c := by
  intro h
  obtain ⟨hs, hlt⟩ := SlotVec.get?_lt (get_eq_ok.mp h)
  exact absurd (Nat.lt_of_le_of_lt hs hlt) (Nat.lt_irrefl 1)

theorem count_push (h : p.push c = .ok (i, q)) : q.count = p.count + c.slots := by
  obtain ⟨-, -, rfl⟩ := push_eq_ok.mp h
  exact SlotVec.next_push

theorem get_push_of_get {c' : Constant} {j : PoolIndex} (h : p.push c = .ok (i, q))
    (hg : p.get j = .ok c') : q.get j = .ok c' := by
  obtain ⟨-, -, rfl⟩ := push_eq_ok.mp h
  exact get_eq_ok.mpr (SlotVec.get?_push_of_get? (get_eq_ok.mp hg))

theorem get_push (h : p.push c = .ok (i, q)) : q.get i = .ok c := by
  obtain ⟨hroom, rfl, rfl⟩ := push_eq_ok.mp h
  have hpos := Width.width_pos c
  have hi : (UInt16.ofNat p.count).toNat = p.constants.next := by
    rw [UInt16.toNat_ofNat', Nat.mod_eq_of_lt]
    · rfl
    · have : 0 < c.slots := hpos
      omega
  rw [get_eq_ok, hi]
  exact SlotVec.get?_push_next

/-! ## What growth keeps -/

/-- An index stands for the same constant in a pool that has grown. -/
theorem Extends.get (h : p.Extends q) (hg : p.get i = .ok c) : q.get i = .ok c := by
  induction h with
  | refl => exact hg
  | push _ hr ih => exact get_push_of_get hr ih

theorem Extends.utf8 {text : String} (h : p.Extends q) (hg : p.utf8 i = .ok text) :
    q.utf8 i = .ok text := by
  obtain ⟨c, hc, hg⟩ := bind_eq_ok.mp hg
  exact bind_eq_ok.mpr ⟨c, h.get hc, hg⟩

theorem Extends.className {name : String} (h : p.Extends q) (hg : p.className i = .ok name) :
    q.className i = .ok name := by
  obtain ⟨c, hc, hg⟩ := bind_eq_ok.mp hg
  refine bind_eq_ok.mpr ⟨c, h.get hc, ?_⟩
  cases c <;> first | exact h.utf8 hg | exact hg

theorem Extends.optionalClass {name : Option String} (h : p.Extends q)
    (hg : p.optionalClass i = .ok name) : q.optionalClass i = .ok name := by
  unfold Pool.optionalClass at hg ⊢
  by_cases hi : i = 0
  · rwa [if_pos hi] at hg ⊢
  · rw [if_neg hi] at hg ⊢
    obtain ⟨cls, hcls, hg⟩ := map_eq_ok.mp hg
    exact map_eq_ok.mpr ⟨cls, h.className hcls, hg⟩

theorem Extends.nameAndType {nt : String × String} (h : p.Extends q)
    (hg : p.nameAndType i = .ok nt) : q.nameAndType i = .ok nt := by
  obtain ⟨c, hc, hg⟩ := bind_eq_ok.mp hg
  refine bind_eq_ok.mpr ⟨c, h.get hc, ?_⟩
  cases c with
  | nameAndType =>
    obtain ⟨name, hname, hg⟩ := bind_eq_ok.mp hg
    obtain ⟨descriptor, hdescriptor, hg⟩ := bind_eq_ok.mp hg
    exact bind_eq_ok.mpr ⟨name, h.utf8 hname,
      bind_eq_ok.mpr ⟨descriptor, h.utf8 hdescriptor, hg⟩⟩
  | _ => exact hg

theorem Extends.member {owner nt : PoolIndex} {m : MemberRef} (h : p.Extends q)
    (hg : p.member owner nt = .ok m) : q.member owner nt = .ok m := by
  obtain ⟨name, hname, hg⟩ := bind_eq_ok.mp hg
  obtain ⟨pair, hpair, hg⟩ := bind_eq_ok.mp hg
  exact bind_eq_ok.mpr ⟨name, h.className hname,
    bind_eq_ok.mpr ⟨pair, h.nameAndType hpair, hg⟩⟩

theorem Extends.memberRef {m : MemberRef × Bool} (h : p.Extends q) (hg : p.memberRef i = .ok m) :
    q.memberRef i = .ok m := by
  obtain ⟨c, hc, hg⟩ := bind_eq_ok.mp hg
  refine bind_eq_ok.mpr ⟨c, h.get hc, ?_⟩
  cases c with
  | fieldRef | methodRef =>
    obtain ⟨m', hm', hg⟩ := bind_eq_ok.mp hg
    exact bind_eq_ok.mpr ⟨m', h.member hm', hg⟩
  | _ => exact hg

theorem Extends.handle {m : Handle} (h : p.Extends q) (hg : p.handle i = .ok m) :
    q.handle i = .ok m := by
  obtain ⟨c, hc, hg⟩ := bind_eq_ok.mp hg
  refine bind_eq_ok.mpr ⟨c, h.get hc, ?_⟩
  cases c with
  | methodHandle =>
    obtain ⟨pair, hpair, hg⟩ := bind_eq_ok.mp hg
    exact bind_eq_ok.mpr ⟨pair, h.memberRef hpair, hg⟩
  | _ => exact hg

theorem Extends.loadable {value : Loadable} (h : p.Extends q) (hg : p.loadable i = .ok value) :
    q.loadable i = .ok value := by
  obtain ⟨c, hc, hg⟩ := bind_eq_ok.mp hg
  refine bind_eq_ok.mpr ⟨c, h.get hc, ?_⟩
  cases c with
  | string | classInfo | methodType =>
    obtain ⟨text, htext, hg⟩ := bind_eq_ok.mp hg
    exact bind_eq_ok.mpr ⟨text, h.utf8 htext, hg⟩
  | methodHandle =>
    obtain ⟨m, hm, hg⟩ := bind_eq_ok.mp hg
    exact bind_eq_ok.mpr ⟨m, h.handle hm, hg⟩
  | _ => exact hg

end Pool
end ClassWeave
