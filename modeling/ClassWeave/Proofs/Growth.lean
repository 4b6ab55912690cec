import ClassWeave.Error
import ClassWeave.Proofs.Results

/-!
# States that only grow

Writing a class adds constants and bootstrap methods to what is there and never takes anything away.
`Growth` says what it means for a state to grow, and `Gives` carries facts about results through
computations that may fail: what a computation gives holds in the state behind it, and facts that
growth keeps go on to hold behind later computations.
-/

namespace ClassWeave

/-- States that can come about, and how they grow. -/
class Growth (σ : Type) where
  Reached : σ → Prop
  Extends : σ → σ → Prop
  refl : ∀ s, Extends s s
  trans : ∀ {s t u}, Extends s t → Extends t u → Extends s u
  reached : ∀ {s t}, Reached s → Extends s t → Reached t

/-- A computation that may fail and keeps what it added. -/
abbrev Growing (σ α : Type) := ExceptT ClassError (StateM σ) α

namespace Growing

variable {σ α β : Type} {s t u : σ}

theorem run_pure {a b : α} : (pure a : Growing σ α).run.run s = (.ok b, t) ↔ a = b ∧ s = t := by
  show (Except.ok a, s) = (Except.ok b, t) ↔ _
  simp

theorem run_throw {e : ClassError} {b : α} :
    ¬ (throw e : Growing σ α).run.run s = (.ok b, t) := by
  show ¬ (Except.error e, s) = (Except.ok b, t)
  simp

theorem run_bind {x : Growing σ α} {f : α → Growing σ β} {b : β} :
    (x >>= f).run.run s = (.ok b, u) ↔
      ∃ a t, x.run.run s = (.ok a, t) ∧ (f a).run.run t = (.ok b, u) := by
  have hrun : (x >>= f).run.run s = match x.run.run s with
      | (.ok a, t) => (f a).run.run t
      | (.error e, t) => (.error e, t) := by
    simp only [ExceptT.run_bind, StateT.run_bind]
    rcases x.run.run s with ⟨_ | _, _⟩ <;> rfl
  rw [hrun]
  rcases x.run.run s with ⟨e | a, t⟩
  · constructor
    · intro h
      cases h
    · rintro ⟨_, _, h, _⟩
      cases h
  · refine ⟨fun h => ⟨a, t, rfl, h⟩, ?_⟩
    rintro ⟨_, _, h, hf⟩
    cases h
    exact hf

end Growing

/-- The computation only makes the state grow, and what it gives has a property in the state
behind it. -/
def Gives {σ α : Type} [Growth σ] (x : Growing σ α) (P : σ → α → Prop) : Prop :=
  ∀ s a t, Growth.Reached s → x.run.run s = (.ok a, t) → Growth.Extends s t ∧ P t a

namespace Gives

variable {σ α β : Type} [Growth σ] {P : σ → α → Prop} {Q : σ → β → Prop}

theorem pure {a : α} (h : ∀ s, Growth.Reached s → P s a) :
    Gives (Pure.pure a : Growing σ α) P := by
  intro s b t hs hrun
  obtain ⟨rfl, rfl⟩ := Growing.run_pure.mp hrun
  exact ⟨Growth.refl s, h s hs⟩

theorem throw {e : ClassError} : Gives (MonadExcept.throw e : Growing σ α) P :=
  fun _ _ _ _ hrun => absurd hrun Growing.run_throw

theorem imp {P' : σ → α → Prop} {x : Growing σ α} (hx : Gives x P)
    (h : ∀ {s a}, Growth.Reached s → P s a → P' s a) : Gives x P' := by
  intro s a t hs hrun
  obtain ⟨hst, ha⟩ := hx s a t hs hrun
  exact ⟨hst, h (Growth.reached hs hst) ha⟩

theorem bind {x : Growing σ α} {f : α → Growing σ β} (hx : Gives x P)
    (hkeep : ∀ {s t a}, Growth.Extends s t → P s a → P t a)
    (hf : ∀ a, Gives (f a) fun t b => P t a → Q t b) : Gives (x >>= f) Q := by
  intro s b u hs hrun
  obtain ⟨a, t, hx', hf'⟩ := Growing.run_bind.mp hrun
  obtain ⟨hst, ha⟩ := hx s a t hs hx'
  obtain ⟨htu, hb⟩ := hf a t b u (Growth.reached hs hst) hf'
  exact ⟨Growth.trans hst htu, hb (hkeep htu ha)⟩

/-- What is made of a result at once may hold in that very state only. -/
theorem map {x : Growing σ α} {f : α → β} (hx : Gives x P)
    (h : ∀ {s a}, Growth.Reached s → P s a → Q s (f a)) :
    Gives (x >>= fun a => Pure.pure (f a)) Q := by
  intro s b u hs hrun
  obtain ⟨a, t, hx', hpure⟩ := Growing.run_bind.mp hrun
  obtain ⟨rfl, rfl⟩ := Growing.run_pure.mp hpure
  obtain ⟨hst, ha⟩ := hx s a t hs hx'
  exact ⟨hst, h (Growth.reached hs hst) ha⟩

/-- One computation for every element. -/
theorem mapM {f : α → Growing σ β} {R : σ → α → β → Prop} {l : List α}
    (hkeep : ∀ {s t a b}, Growth.Extends s t → R s a b → R t a b)
    (hf : ∀ a ∈ l, Gives (f a) fun t b => R t a b) :
    Gives (l.mapM f) fun t bs => List.Forall₂ (R t) l bs := by
  induction l with
  | nil =>
    rw [List.mapM_nil]
    exact .pure fun _ _ => .nil
  | cons a l ih =>
    rw [List.mapM_cons]
    refine (hf a List.mem_cons_self).bind hkeep fun b => ?_
    refine (ih fun a' ha' => hf a' (List.mem_cons_of_mem _ ha')).bind
      (fun hst hbs => hbs.imp fun _ _ => hkeep hst) fun bs => ?_
    exact .pure fun _ _ hbs hb => .cons hb hbs

/-- One computation after the other, where `I` is what holds of the elements looked at so far and
the value that they lead to. -/
theorem foldlM {f : β → α → Growing σ β} {I : σ → List α → β → Prop}
    (hkeep : ∀ {s t as b}, Growth.Extends s t → I s as b → I t as b)
    (hf : ∀ as a b, Gives (f b a) fun t b' => I t as b → I t (as ++ [a]) b') {b : β}
    (hb : ∀ s, I s [] b) (l : List α) : Gives (l.foldlM f b) fun t b' => I t l b' := by
  have general : ∀ (rest as : List α) (b : β) (s : σ) (b' : β) (t : σ), Growth.Reached s →
      I s as b → (rest.foldlM f b).run.run s = (.ok b', t) →
        Growth.Extends s t ∧ I t (as ++ rest) b' := by
    intro rest
    induction rest with
    | nil =>
      intro as b s b' t hs hI hrun
      rw [List.foldlM_nil] at hrun
      obtain ⟨rfl, rfl⟩ := Growing.run_pure.mp hrun
      rw [List.append_nil]
      exact ⟨Growth.refl s, hI⟩
    | cons a rest ih =>
      intro as b s b' u hs hI hrun
      rw [List.foldlM_cons] at hrun
      obtain ⟨b1, t, hstep, hrest⟩ := Growing.run_bind.mp hrun
      obtain ⟨hst, h1⟩ := hf as a b s b1 t hs hstep
      obtain ⟨htu, h2⟩ := ih _ b1 t b' u (Growth.reached hs hst) (h1 (hkeep hst hI)) hrest
      rw [List.append_assoc] at h2
      exact ⟨Growth.trans hst htu, h2⟩
  exact fun s b' t hs hrun => general l [] b s b' t hs (hb s) hrun

end Gives
end ClassWeave
