import ClassWeave.Proofs.Growth
import ClassWeave.Proofs.PoolGrowth

/-!
# Constants that were asked for

In a reachable pool the table of first occurrences tells the truth, so asking for a constant gives
an index that stands for it, in the pool behind the request and in every pool that comes from it.
-/

namespace ClassWeave
namespace Pool

variable {p q : Pool} {c : Constant} {i : PoolIndex}

/-- What holds in every reachable pool. -/
structure Sound (p : Pool) : Prop where
  start : p.constants.start = 1
  index : ∀ {c i}, p.index[c]? = some i → p.get i = .ok c
  room : p.count ≤ 65535

theorem sound_empty : Sound empty where
  start := rfl
  index := by simp [empty]
  room := by decide

theorem Sound.push (hp : p.Sound) (h : p.push c = .ok (i, q)) : q.Sound := by
  have hget := get_push h
  have hcount := count_push h
  obtain ⟨hroom, hi, hq⟩ := push_eq_ok.mp h
  refine ⟨?_, ?_, by omega⟩
  · rw [hq]
    exact hp.start
  · intro c' j hj
    rw [hq, Std.HashMap.getElem?_insertIfNew] at hj
    split at hj
    · rename_i hnew
      obtain rfl := eq_of_beq hnew.1
      obtain rfl := Option.some.inj hj
      exact hi ▸ hget
    · exact get_push_of_get h (hp.index hj)

theorem Extends.sound (h : p.Extends q) (hp : p.Sound) : q.Sound := by
  induction h with
  | refl => exact hp
  | push _ hr ih => exact ih.push hr

theorem Reachable.sound (hp : p.Reachable) : p.Sound := Extends.sound hp sound_empty

theorem Reachable.extends (hp : p.Reachable) (h : p.Extends q) : q.Reachable := Extends.trans hp h

/-- The first index is never used. -/
theorem Sound.ne_zero (hp : p.Sound) (h : p.get i = .ok c) : i ≠ 0 := by
  rintro rfl
  have := (SlotVec.get?_lt (get_eq_ok.mp h)).1
  rw [hp.start] at this
  exact absurd this (by decide)

end Pool

instance : Growth Pool where
  Reached := Pool.Reachable
  Extends := Pool.Extends
  refl _ := .refl
  trans := Pool.Extends.trans
  reached := Pool.Reachable.extends

namespace Interning

/-- A constant that was asked for is found under its index. -/
theorem gives_intern (c : Constant) : Gives (intern c) fun q i => q.get i = .ok c := by
  intro p i q hp h
  simp only [intern, ExceptT.run, ExceptT.mk, StateT.run] at h
  cases hindex : p.index[c]? with
  | some j =>
    rw [hindex] at h
    obtain ⟨hi, rfl⟩ := Prod.mk.inj h
    obtain rfl := Except.ok.inj hi
    exact ⟨.refl, hp.sound.index hindex⟩
  | none =>
    rw [hindex] at h
    by_cases hroom : p.hasRoom c
    · rw [if_pos hroom] at h
      have hpush : p.push c = .ok (i, q) := by
        rw [Pool.push, if_pos hroom]
        obtain ⟨hi, hq⟩ := Prod.mk.inj h
        rw [← Except.ok.inj hi, ← hq]
      exact ⟨Pool.Extends.refl.push hpush, Pool.get_push hpush⟩
    · rw [if_neg hroom] at h
      cases (Prod.mk.inj h).1

/-- Looking at the pool adds nothing. -/
theorem gives_ofPool {α : Type} (f : Pool → ClassResult α) :
    Gives (ofPool f) fun q a => f q = .ok a := by
  intro p a q _ h
  obtain ⟨ha, rfl⟩ := Prod.mk.inj h
  exact ⟨.refl, ha⟩

theorem gives_utf8 (text : String) : Gives (utf8 text) fun q i => q.utf8 i = .ok text :=
  (gives_intern _).imp fun _ hi => bind_eq_ok.mpr ⟨_, hi, rfl⟩

theorem gives_cls (name : String) : Gives (cls name) fun q i => q.className i = .ok name :=
  (gives_utf8 name).bind Pool.Extends.utf8 fun _ =>
    (gives_intern _).imp fun _ hi hname => bind_eq_ok.mpr ⟨_, hi, hname⟩

/-- The constant of a class is not at index 0, which stands for none. -/
theorem gives_optional_cls (name : String) :
    Gives (cls name) fun q i => q.optionalClass i = .ok (some name) := by
  refine (gives_cls name).imp fun {q i} hq hi => ?_
  obtain ⟨c, hc, -⟩ := bind_eq_ok.mp hi
  rw [Pool.optionalClass, if_neg (hq.sound.ne_zero hc)]
  exact map_eq_ok.mpr ⟨name, hi, rfl⟩

theorem gives_nameAndType (name descriptor : String) :
    Gives (nameAndType name descriptor) fun q i => q.nameAndType i = .ok (name, descriptor) :=
  (gives_utf8 name).bind Pool.Extends.utf8 fun _ =>
    (gives_utf8 descriptor).bind Pool.Extends.utf8 fun _ =>
      (gives_intern _).imp fun _ hi hdescriptor hname =>
        bind_eq_ok.mpr ⟨_, hi, bind_eq_ok.mpr ⟨_, hname, bind_eq_ok.mpr ⟨_, hdescriptor, rfl⟩⟩⟩

theorem gives_invokeDynamic (bootstrap : UInt16) (name descriptor : String) :
    Gives (invokeDynamic bootstrap name descriptor) fun q i =>
      ∃ nt, q.get i = .ok (.invokeDynamic bootstrap nt) ∧
        q.nameAndType nt = .ok (name, descriptor) :=
  (gives_nameAndType name descriptor).bind Pool.Extends.nameAndType fun nt =>
    (gives_intern _).imp fun _ hi hnt => ⟨nt, hi, hnt⟩

theorem gives_member {m : MemberRef} {f : PoolIndex → PoolIndex → Constant} :
    Gives (do
      let owner ← cls m.owner
      let nt ← nameAndType m.name m.descriptor
      intern (f owner nt)) fun q i =>
        ∃ owner nt, q.get i = .ok (f owner nt) ∧ q.member owner nt = .ok m :=
  (gives_cls m.owner).bind Pool.Extends.className fun _ =>
    (gives_nameAndType m.name m.descriptor).bind Pool.Extends.nameAndType fun _ =>
      (gives_intern _).imp fun _ hi hnt howner =>
        ⟨_, _, hi, bind_eq_ok.mpr ⟨_, howner, bind_eq_ok.mpr ⟨_, hnt, rfl⟩⟩⟩

theorem gives_fieldRef (m : MemberRef) :
    Gives (fieldRef m) fun q i => q.memberRef i = .ok (m, false) :=
  gives_member.imp fun _ ⟨_, _, hi, hm⟩ => bind_eq_ok.mpr ⟨_, hi, bind_eq_ok.mpr ⟨_, hm, rfl⟩⟩

theorem gives_methodRef (m : MemberRef) (isInterface : Bool) :
    Gives (methodRef m isInterface) fun q i => q.memberRef i = .ok (m, isInterface) :=
  gives_member.imp fun _ ⟨_, _, hi, hm⟩ => bind_eq_ok.mpr ⟨_, hi, bind_eq_ok.mpr ⟨_, hm, rfl⟩⟩

end Interning

/-- A handle that can be told from its constant: fields have no mark for interfaces. -/
def Handle.Plain (h : Handle) : Prop := h.kind.isField → h.isInterface = false

/-- A constant that can be told from its entry in a pool. -/
def Loadable.Plain (p : Pool) : Loadable → Prop
  | .handle h => h.Plain
  | .pooled i => ∃ bootstrap nt, p.get i = .ok (.dynamic bootstrap nt)
  | _ => True

theorem Loadable.Plain.extends {p q : Pool} {c : Loadable} (h : p.Extends q) (hc : c.Plain p) :
    c.Plain q := by
  cases c with
  | pooled i =>
    obtain ⟨bootstrap, nt, hi⟩ := hc
    exact ⟨bootstrap, nt, h.get hi⟩
  | handle => exact hc
  | _ => trivial

/-- A method handle can be loaded. -/
theorem Pool.loadable_of_handle {p : Pool} {i : PoolIndex} {h : Handle}
    (hh : p.handle i = .ok h) : p.loadable i = .ok (.handle h) := by
  obtain ⟨c, hc, hrest⟩ := bind_eq_ok.mp hh
  refine bind_eq_ok.mpr ⟨c, hc, ?_⟩
  cases c with
  | methodHandle => exact bind_eq_ok.mpr ⟨h, hh, rfl⟩
  | _ => cases hrest

/-- The index was given for the constant. What it stands for is known if the constant is plain. -/
def Loadable.At (p : Pool) (i : PoolIndex) : Loadable → Prop
  | .handle h => h.Plain → p.handle i = .ok h
  | .pooled j => j = i
  | c => p.loadable i = .ok c

namespace Loadable

variable {p q : Pool} {i : PoolIndex} {c : Loadable}

theorem At.extends (h : p.Extends q) (hc : c.At p i) : c.At q i := by
  cases c with
  | handle => exact fun hplain => h.handle (hc hplain)
  | pooled => exact hc
  | _ => exact h.loadable hc

theorem At.loadable (hc : c.At p i) (hplain : c.Plain p) : p.loadable i = .ok c := by
  cases c with
  | handle => exact Pool.loadable_of_handle (hc hplain)
  | pooled j =>
    obtain ⟨_, _, hget⟩ := hplain
    obtain rfl : j = i := hc
    exact bind_eq_ok.mpr ⟨_, hget, rfl⟩
  | _ => exact hc

end Loadable

namespace Interning

theorem gives_handle (h : Handle) :
    Gives (handle h) fun q i => h.Plain → q.handle i = .ok h := by
  have hhandle : ∀ member, Gives (methodHandle h.kind member) fun q i =>
      (h.Plain → q.memberRef member = .ok (h.member, h.isInterface)) →
        h.Plain → q.handle i = .ok h := fun member =>
    (gives_intern _).imp fun _ hi hm hplain =>
      bind_eq_ok.mpr ⟨_, hi, bind_eq_ok.mpr ⟨_, hm hplain, rfl⟩⟩
  unfold handle
  by_cases hf : h.kind.isField
  · rw [if_pos hf]
    have hmember := (gives_fieldRef h.member).imp
      fun {p i} _ (hm : p.memberRef i = .ok (h.member, false)) (hplain : h.Plain) => hplain hf ▸ hm
    exact hmember.bind (fun hpq hm hplain => hpq.memberRef (hm hplain)) hhandle
  · rw [if_neg hf]
    have hmember := (gives_methodRef h.member h.isInterface).imp
      fun {p i} _ (hm : p.memberRef i = .ok (h.member, h.isInterface)) (_ : h.Plain) => hm
    exact hmember.bind (fun hpq hm hplain => hpq.memberRef (hm hplain)) hhandle

theorem gives_loadable (c : Loadable) : Gives (loadable c) fun q i => c.At q i := by
  cases c with
  | int | float | long | double =>
    exact (gives_intern _).imp fun _ hi => bind_eq_ok.mpr ⟨_, hi, rfl⟩
  | string text =>
    exact (gives_utf8 text).bind Pool.Extends.utf8 fun _ =>
      (gives_intern _).imp fun _ hi htext =>
        bind_eq_ok.mpr ⟨_, hi, bind_eq_ok.mpr ⟨_, htext, rfl⟩⟩
  | cls name =>
    exact (gives_utf8 name).bind Pool.Extends.utf8 fun _ =>
      (gives_intern _).imp fun _ hi hname =>
        bind_eq_ok.mpr ⟨_, hi, bind_eq_ok.mpr ⟨_, hname, rfl⟩⟩
  | methodType descriptor =>
    exact (gives_utf8 descriptor).bind Pool.Extends.utf8 fun _ =>
      (gives_intern _).imp fun _ hi hdescriptor =>
        bind_eq_ok.mpr ⟨_, hi, bind_eq_ok.mpr ⟨_, hdescriptor, rfl⟩⟩
  | handle h => exact gives_handle h
  | pooled i =>
    exact (gives_ofPool (·.get i)).bind Pool.Extends.get fun _ => .pure fun _ _ _ => rfl

end Interning
end ClassWeave
