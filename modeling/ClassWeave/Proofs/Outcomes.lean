import ClassWeave.Proofs.Growth

/-!
# Errors that do not come up

A computation that may fail is described by what holds of its result and by the errors that it never
fails with. `Fulfils` says both of a plain computation, `Growing.Fulfils` of one that adds to a
state. Both are closed under the ways to put computations together, so that an error is
ruled out where it would arise, with what is known about the results so far.
-/

namespace ClassWeave

/-- Nothing is said about what a computation gives. -/
abbrev Anything {α : Type} : α → Prop := fun _ => True

/-- The computation gives a result with a property, or fails with none of these errors. -/
def Fulfils {ε α : Type} (R : α → Prop) (E : ε → Prop) : Except ε α → Prop
  | .ok a => R a
  | .error e => ¬ E e

namespace Fulfils

variable {ε ε' α β : Type} {R R' : α → Prop} {S : β → Prop} {E : ε → Prop} {E' : ε' → Prop}
  {x y : Except ε α}

theorem imp (hx : Fulfils R E x) (h : ∀ a, x = .ok a → R a → R' a) : Fulfils R' E x := by
  cases x with
  | error e => exact hx
  | ok a => exact h a rfl hx

theorem error (hx : Fulfils R E x) {e : ε} (he : x = .error e) : ¬ E e := by
  subst he
  exact hx

theorem ok (hx : Fulfils R E x) {a : α} (ha : x = .ok a) : R a := by
  subst ha
  exact hx

theorem bind {k : α → Except ε β} (hx : Fulfils R E x) (hk : ∀ a, R a → Fulfils S E (k a)) :
    Fulfils S E (x >>= k) := by
  cases x with
  | error e => exact hx
  | ok a => exact hk a hx

theorem map {f : α → β} (hx : Fulfils R E x) (hf : ∀ a, R a → S (f a)) :
    Fulfils S E (f <$> x) := by
  cases x with
  | error e => exact hx
  | ok a => exact hf a hx

theorem mapError {f : ε → ε'} (hx : Fulfils R E x) (hf : ∀ e, E' (f e) → E e) :
    Fulfils R E' (x.mapError f) := by
  cases x with
  | error e => exact fun he => hx (hf e he)
  | ok a => exact hx

theorem ite {c : Prop} [Decidable c] (hx : c → Fulfils R E x) (hy : ¬ c → Fulfils R E y) :
    Fulfils R E (if c then x else y) := by
  split
  · exact hx ‹_›
  · exact hy ‹_›

/-- One computation for every element. -/
theorem mapM {f : α → Except ε β} {l : List α} (hf : ∀ a ∈ l, Fulfils S E (f a)) :
    Fulfils (fun bs => ∀ b ∈ bs, S b) E (l.mapM f) := by
  induction l with
  | nil => exact fun _ hb => nomatch hb
  | cons a l ih =>
    rw [List.mapM_cons]
    refine (hf a List.mem_cons_self).bind fun b hb => ?_
    refine (ih fun a' ha' => hf a' (List.mem_cons_of_mem _ ha')).bind fun bs hbs => ?_
    exact List.forall_mem_cons.mpr ⟨hb, hbs⟩

/-- One computation after the other. -/
theorem foldlM {f : β → α → Except ε β} {l : List α}
    (hf : ∀ b, S b → ∀ a ∈ l, Fulfils S E (f b a)) {b : β} (hb : S b) :
    Fulfils S E (l.foldlM f b) := by
  induction l generalizing b with
  | nil => exact hb
  | cons a l ih =>
    rw [List.foldlM_cons]
    refine (hf b hb a List.mem_cons_self).bind fun b' hb' => ?_
    exact ih (fun b hb a' ha' => hf b hb a' (List.mem_cons_of_mem _ ha')) hb'

end Fulfils

/-- The same of a computation that adds to a state, whatever that is. -/
def Growing.Fulfils {σ α : Type} (R : α → Prop) (E : ClassError → Prop) (x : Growing σ α) : Prop :=
  ∀ s, ClassWeave.Fulfils R E (x.run.run s).1

namespace Growing.Fulfils

variable {σ α β : Type} {R R' : α → Prop} {S : β → Prop} {E : ClassError → Prop}
  {x y : Growing σ α}

theorem pure {a : α} (ha : R a) : Fulfils R E (Pure.pure a : Growing σ α) := fun _ => ha

theorem throw {e : ClassError} (he : ¬ E e) :
    Fulfils R E (MonadExcept.throw e : Growing σ α) := fun _ => he

theorem imp (hx : Fulfils R E x) (h : ∀ a, R a → R' a) : Fulfils R' E x :=
  fun s => (hx s).imp fun a _ => h a

theorem bind {k : α → Growing σ β} (hx : Fulfils R E x) (hk : ∀ a, R a → Fulfils S E (k a)) :
    Fulfils S E (x >>= k) := by
  intro s
  have hfirst := hx s
  rw [ExceptT.run_bind, StateT.run_bind]
  generalize x.run.run s = ran at hfirst ⊢
  obtain ⟨result, t⟩ := ran
  cases result with
  | error e => exact hfirst
  | ok a => exact hk a hfirst t

theorem ite {c : Prop} [Decidable c] (hx : c → Fulfils R E x) (hy : ¬ c → Fulfils R E y) :
    Fulfils R E (if c then x else y) := by
  split
  · exact hx ‹_›
  · exact hy ‹_›

/-- One computation for every element, with a property of its own. -/
theorem mapM_forall₂ {T : α → β → Prop} {f : α → Growing σ β} {l : List α}
    (hf : ∀ a ∈ l, Fulfils (T a) E (f a)) : Fulfils (List.Forall₂ T l) E (l.mapM f) := by
  induction l with
  | nil => exact .pure .nil
  | cons a l ih =>
    rw [List.mapM_cons]
    refine (hf a List.mem_cons_self).bind fun b hb => ?_
    refine (ih fun a' ha' => hf a' (List.mem_cons_of_mem _ ha')).bind fun bs hbs => ?_
    exact .pure (.cons hb hbs)

/-- One computation for every element. -/
theorem mapM {f : α → Growing σ β} {l : List α} (hf : ∀ a ∈ l, Fulfils S E (f a)) :
    Fulfils (fun bs => bs.length = l.length ∧ ∀ b ∈ bs, S b) E (l.mapM f) := by
  refine (mapM_forall₂ (T := fun _ => S) hf).imp fun bs hbs => ⟨hbs.length_eq.symm, fun b hb => ?_⟩
  obtain ⟨a, -, hb⟩ := exists_of_forall₂ hbs.flip hb
  exact hb

/-- One computation after the other. -/
theorem foldlM {f : β → α → Growing σ β} {l : List α}
    (hf : ∀ b, S b → ∀ a ∈ l, Fulfils S E (f b a)) {b : β} (hb : S b) :
    Fulfils S E (l.foldlM f b) := by
  induction l generalizing b with
  | nil => exact .pure hb
  | cons a l ih =>
    rw [List.foldlM_cons]
    refine (hf b hb a List.mem_cons_self).bind fun b' hb' => ?_
    exact ih (fun b hb a' ha' => hf b hb a' (List.mem_cons_of_mem _ ha')) hb'

end Growing.Fulfils
end ClassWeave
