import Mathlib.Data.Set.Finite.Basic
import Mathlib.Order.Interval.Finset.Nat
import Mathlib.Order.OrderIsoNat
import ClassWeave.Proofs.ClassOrder
import ClassWeave.Proofs.SearchOrder

/-!
# Frames that meet are joined

Two types meet at the least type above both, and two frames at the least frame above both. The
order of types is that of meeting itself, so the laws of a join are what makes it an order: it does
not matter which type comes first, or which two of three meet first.

Merging one frame into another keeps to that. A frame that another one is merged into is replaced by
the join, or stays as it is, and it is told apart which; nothing happens to it where the two cannot
meet. It cannot be replaced over and over again, since each time it gives something up.
-/

namespace ClassWeave

/-! ## The order of classes -/

theorem arrayOf_inj {a b : String} : arrayOf a = arrayOf b ↔ a = b := by
  constructor
  · intro heq
    obtain ⟨as, ha, hela⟩ := toList_arrayOf a
    obtain ⟨bs, hb, helb⟩ := toList_arrayOf b
    rw [heq, hb, List.cons.injEq] at ha
    rw [← ha.2, helb, Option.some.injEq] at hela
    exact (String.toList_inj.mp hela).symm
  · exact congrArg arrayOf

namespace Hierarchy

variable {h : Hierarchy} {a b m : String}

/-- The second class is the first one or above it, as far as the hierarchy tells. -/
def Below : Hierarchy → String → String → Prop
  | known table, a, b => table.Below a b
  | _, a, b => b = rootClass ∨ a = b

/-- Arrays meet where their elements do. -/
theorem mergeClasses_arrayOf (a b : String) :
    h.mergeClasses (arrayOf a) (arrayOf b) = arrayOf (h.mergeClasses a b) := by
  obtain ⟨as, ha, hela⟩ := toList_arrayOf a
  obtain ⟨bs, hb, helb⟩ := toList_arrayOf b
  rw [mergeClasses, ha, hb, mergeChars_array hela helb, mergeClasses]

/-- Arrays are in the order of their elements. -/
theorem coversClass_arrayOf : h.CoversClass (arrayOf m) (arrayOf a) ↔ h.CoversClass m a := by
  rw [CoversClass, CoversClass, mergeClasses_arrayOf, arrayOf_inj, arrayOf_inj]

/-- Classes that are no arrays are in the order that the hierarchy tells. -/
theorem Sound.coversClass_plain (hh : h.Sound) (hm : ¬ m.startsWith "[") (ha : ¬ a.startsWith "[") :
    h.CoversClass m a ↔ h.Below a m := by
  rw [CoversClass, mergeClasses, mergeChars_plain (isPlain_iff.mpr hm) (isPlain_iff.mpr ha),
    String.ofList_toList, String.ofList_toList]
  cases h with
  | unknown =>
    rw [or_comm]
    exact or_congr_left eq_comm
  | other => exact hh.elim
  | known t =>
    have ht : t.Sound := hh
    show a = m ∨ t.commonSuper m a = m ↔ t.Below a m
    rw [SuperTable.commonSuper_eq_left_iff ht.forest]
    constructor
    · rintro (rfl | hup)
      · exact SuperTable.below_refl a
      · exact hup
    · exact .inr

end Hierarchy

/-! ## The join of types -/

namespace VType

variable {h : Hierarchy} {a b c m n : NamedType}

/-- The type is above two others, and below every type above both. -/
structure IsJoin (h : Hierarchy) (a b m : NamedType) : Prop where
  left : Covers h (· = ·) m a
  right : Covers h (· = ·) m b
  least : ∀ n, Covers h (· = ·) n a → Covers h (· = ·) n b → Covers h (· = ·) n m

theorem isJoin_mergeTypes (hl : h.Lawful) (a b : NamedType) : IsJoin h a b (h.mergeTypes a b) where
  left := covers_merge_left hl a b
  right := covers_merge_right hl a b
  least _ ha hb := ha.merge hl siteMap_eq hb

theorem IsJoin.symm (hm : IsJoin h a b m) : IsJoin h b a m where
  left := hm.right
  right := hm.left
  least n hb ha := hm.least n ha hb

theorem IsJoin.unique (hh : h.Sound) (hm : IsJoin h a b m) (hn : IsJoin h a b n) : m = n :=
  Covers.antisymm hh (hn.least m hm.left hm.right) (hm.least n hn.left hn.right)

/-- The join of three types, whichever two are joined first. -/
theorem IsJoin.assoc (hl : h.Lawful) {ab bc : NamedType} (hab : IsJoin h a b ab)
    (hbc : IsJoin h b c bc) (hm : IsJoin h ab c m) : IsJoin h a bc m where
  left := hm.left.trans hl hab.left
  right := hbc.least m (hm.left.trans hl hab.right) hm.right
  least n ha hn := by
    have hb : Covers h (· = ·) n b := hn.trans hl hbc.left
    have hc : Covers h (· = ·) n c := hn.trans hl hbc.right
    exact hm.least n (hab.least n ha hb) hc

theorem mergeTypes_comm (hh : h.Sound) (a b : NamedType) : h.mergeTypes a b = h.mergeTypes b a :=
  (isJoin_mergeTypes hh.lawful a b).unique hh (isJoin_mergeTypes hh.lawful b a).symm

theorem mergeTypes_assoc (hh : h.Sound) (a b c : NamedType) :
    h.mergeTypes (h.mergeTypes a b) c = h.mergeTypes a (h.mergeTypes b c) := by
  have hjoin := isJoin_mergeTypes hh.lawful
  exact ((hjoin a b).assoc hh.lawful (hjoin b c) (hjoin _ c)).unique hh (hjoin a _)

/-- Types that may meet on the stack. A value that cannot be used may only come out of it if the code
is trusted and both values are equally wide, or if there is no other one. -/
def MayMeet (h : Hierarchy) (mode : Mode) (a b : NamedType) : Prop :=
  h.mergeTypes a b = .top → a = b ∨ mode = .lenient ∧ a.slots = b.slots

theorem exists_mergeEntries {mode : Mode} :
    (∃ t, h.mergeEntries mode a b = .ok t) ↔ MayMeet h mode a b := by
  unfold Hierarchy.mergeEntries MayMeet
  simp only
  split
  · rename_i hbad
    refine ⟨fun ⟨_, ht⟩ => (nomatch ht), fun hmeet => ?_⟩
    obtain ⟨htop, hab, hbad⟩ := hbad
    rcases hmeet htop with heq | ⟨rfl, hslots⟩
    · exact absurd heq hab
    · exact hbad.elim (fun hmode => nomatch hmode) fun hne => absurd hslots hne
  · rename_i hok
    refine ⟨fun _ htop => ?_, fun _ => ⟨_, rfl⟩⟩
    by_cases hab : a = b
    · exact .inl hab
    · rw [not_and, not_and, not_or, not_not] at hok
      obtain ⟨hmode, hslots⟩ := hok htop hab
      cases mode with
      | strict => exact absurd rfl hmode
      | lenient => exact .inr ⟨rfl, hslots⟩

end VType

/-! ## The join of frames -/

namespace Frame

variable {h : Hierarchy} {mode : Mode} {f incoming after : Frame}

/-- The frame is above two others, and below every frame above both. -/
structure IsJoin (h : Hierarchy) (f f' m : Frame) : Prop where
  left : Covers h (· = ·) m f
  right : Covers h (· = ·) m f'
  least : ∀ g, Covers h (· = ·) g f → Covers h (· = ·) g f' → Covers h (· = ·) g m

theorem Merged.isJoin (hl : h.Lawful) {f' m : Frame} (hm : Merged h f f' m) : IsJoin h f f' m where
  left := hm.covers_left hl
  right := hm.covers_right hl
  least _ hf hf' := hm.covered hl VType.siteMap_eq hf hf'

/-- Frames that may meet: there are as many values on the stack, and they may meet pair by pair. -/
def MayMeet (h : Hierarchy) (mode : Mode) (f f' : Frame) : Prop :=
  List.Forall₂ (VType.MayMeet h mode) f.stack f'.stack

theorem exists_mergeStacks {a b : List NamedType} (hlen : a.length = b.length) :
    (∃ s, mergeStacks h mode a b = .ok s) ↔ List.Forall₂ (VType.MayMeet h mode) a b := by
  simp only [mergeStacks_eq_ok]
  induction a generalizing b with
  | nil =>
    obtain rfl : b = [] := List.length_eq_zero_iff.mp hlen.symm
    exact ⟨fun _ => .nil, fun _ => ⟨[], .nil⟩⟩
  | cons x a ih =>
    cases b with
    | nil => cases hlen
    | cons y b =>
      rw [List.forall₂_cons, ← VType.exists_mergeEntries, ← ih (Nat.succ.inj hlen)]
      constructor
      · rintro ⟨_, _ | ⟨ht, hs⟩⟩
        exact ⟨⟨_, ht⟩, _, hs⟩
      · rintro ⟨⟨t, ht⟩, s, hs⟩
        exact ⟨t :: s, .cons ht hs⟩

theorem exists_merge : (∃ r, f.merge h mode incoming = .ok r) ↔ f.MayMeet h mode incoming := by
  constructor
  · rintro ⟨r, hr⟩
    obtain ⟨hlen, stack, hstack, -⟩ := merge_eq_ok hr
    exact (exists_mergeStacks hlen).mp ⟨stack, hstack⟩
  · intro hm
    obtain ⟨stack, hstack⟩ := (exists_mergeStacks hm.length_eq).mpr hm
    rw [merge_eq, if_neg (by simpa using hm.length_eq)]
    exact ⟨_, bind_eq_ok.mpr ⟨stack, hstack, rfl⟩⟩

/-- The frame that is kept is replaced only where the merge gives another one. -/
theorem mergeInto_eq {result : Except VerifyError Bool}
    (hrun : (mergeInto h mode incoming).run f = (result, after)) :
    (∃ e, f.merge h mode incoming = .error e ∧ result = .error e ∧ after = f) ∨
      (f.merge h mode incoming = .ok none ∧ result = .ok false ∧ after = f) ∨
      (f.merge h mode incoming = .ok (some after) ∧ result = .ok true) := by
  have hmerge : f.merge h mode incoming =
      result.map fun changed => if changed then some after else none := by
    rw [merge, hrun]
  -- the only way to another frame is the one that answers that it changed
  have hkept : (∀ changed, result = .ok changed → changed = false) → after = f := by
    intro hkept
    rw [run_mergeInto] at hrun
    split at hrun
    · exact (congrArg Prod.snd hrun).symm
    · split at hrun
      · exact (congrArg Prod.snd hrun).symm
      · split at hrun
        · exact (congrArg Prod.snd hrun).symm
        · exact absurd (hkept true (congrArg Prod.fst hrun).symm) (by decide)
  cases result with
  | error e => exact .inl ⟨e, hmerge, rfl, hkept fun _ h => nomatch h⟩
  | ok changed =>
    cases changed with
    | false => exact .inr (.inl ⟨hmerge, rfl, hkept fun _ h => (Except.ok.inj h).symm⟩)
    | true => exact .inr (.inr ⟨hmerge, rfl⟩)

/-- What a merge comes to: what it answers, and the frame that is there afterwards. -/
structure MergedInto (h : Hierarchy) (mode : Mode) (f incoming : Frame)
    (result : Except VerifyError Bool) (after : Frame) : Prop where
  /-- Frames that may meet do, and no others. -/
  succeeds : (∃ changed, result = .ok changed) ↔ f.MayMeet h mode incoming
  /-- Nothing happens to the frame if they do not. -/
  failed : ∀ e, result = .error e → after = f
  /-- If they do, the join takes its place. -/
  joined : ∀ changed, result = .ok changed → IsJoin h f incoming after
  /-- Wide locals are whole as before. -/
  closed : ∀ changed, result = .ok changed → Closed after.locals
  /-- That nothing changed is what is answered where the frame covered the other one already. -/
  changed_iff : ∀ changed, result = .ok changed →
    (changed = false ↔ Covers h (· = ·) f incoming)
  /-- Then the frame is the same as before. -/
  kept : result = .ok false → after = f

theorem mergedInto (hl : h.Lawful) (hf : Closed f.locals) (hin : Closed incoming.locals)
    {result : Except VerifyError Bool}
    (hrun : (mergeInto h mode incoming).run f = (result, after)) :
    MergedInto h mode f incoming result after := by
  rcases mergeInto_eq hrun with ⟨e, hm, rfl, rfl⟩ | ⟨hm, rfl, rfl⟩ | ⟨hm, rfl⟩
  · have hmeet : ¬ after.MayMeet h mode incoming := by
      rw [← exists_merge, hm]
      rintro ⟨_, hr⟩
      cases hr
    exact
      { succeeds := ⟨fun ⟨_, hc⟩ => (nomatch hc), fun hc => absurd hc hmeet⟩
        failed := fun _ _ => rfl
        joined := fun _ hc => nomatch hc
        closed := fun _ hc => nomatch hc
        changed_iff := fun _ hc => nomatch hc
        kept := fun hc => nomatch hc }
  · exact
      { succeeds := ⟨fun _ => exists_merge.mp ⟨_, hm⟩, fun _ => ⟨_, rfl⟩⟩
        failed := fun _ _ => rfl
        joined := fun _ _ => (merge_merged hf hin hm).isJoin hl
        closed := fun _ _ => hf
        changed_iff := fun changed hc => by
          rw [← merge_eq_none_iff hl hf hin hm]
          exact ⟨fun _ => rfl, fun _ => (Except.ok.inj hc).symm⟩
        kept := fun _ => rfl }
  · have hmerged : Merged h f incoming after := merge_merged hf hin hm
    exact
      { succeeds := ⟨fun _ => exists_merge.mp ⟨_, hm⟩, fun _ => ⟨_, rfl⟩⟩
        failed := fun _ hc => nomatch hc
        joined := fun _ _ => hmerged.isJoin hl
        closed := fun _ _ => hmerged.closed
        changed_iff := fun changed hc => by
          rw [← merge_eq_none_iff hl hf hin hm, ← Except.ok.inj hc]
          exact iff_of_false (by decide) nofun
        kept := fun hc => nomatch hc }

/-! ## Merging again and again -/

/-- Frames that are merged into one after the other, in any mode: `f n` is what is kept before the
merge with number `n`. -/
structure MergeChain (h : Hierarchy) (f : ℕ → Frame) (result : ℕ → Except VerifyError Bool) :
    Prop where
  step : ∀ n, ∃ mode incoming, (mergeInto h mode incoming).run (f n) = (result n, f (n + 1))

variable {f : ℕ → Frame} {result : ℕ → Except VerifyError Bool}

/-- A merge leaves the frame as it is, or the frame gives something up. -/
theorem MergeChain.cost_step (hh : h.Sound) (hc : MergeChain h f result) (n : ℕ) :
    result n ≠ .ok true ∧ f (n + 1) = f n ∨ cost h (f (n + 1)) < cost h (f n) := by
  obtain ⟨mode, incoming, hrun⟩ := hc.step n
  rcases mergeInto_eq hrun with ⟨e, -, hr, hsame⟩ | ⟨-, hr, hsame⟩ | ⟨hm, -⟩
  · exact .inl ⟨by rw [hr]; exact nofun, hsame⟩
  · exact .inl ⟨by rw [hr]; exact nofun, hsame⟩
  · exact .inr (merge_cost_lt hh hm)

/-- **A frame changes only finitely often**, whatever is merged into it. -/
theorem MergeChain.finite (hh : h.Sound) (hc : MergeChain h f result) :
    {n | result n = .ok true}.Finite := by
  have hstep : ∀ n, cost h (f (n + 1)) ≤ cost h (f n) := fun n => by
    rcases hc.cost_step hh n with ⟨-, hsame⟩ | hlt
    · rw [hsame]
    · exact le_of_lt hlt
  -- what the frame can still give up does not fall for ever
  obtain ⟨last, hlast⟩ := WellFoundedGT.monotone_chain_condition
    (⟨fun n => OrderDual.toDual (cost h (f n)), monotone_nat_of_le_succ hstep⟩ : ℕ →o Costᵒᵈ)
  refine (Set.finite_lt_nat last).subset fun n hn => ?_
  by_contra hle
  have hn' : last ≤ n := Nat.le_of_not_lt hle
  have heq : cost h (f n) = cost h (f (n + 1)) :=
    (hlast n hn').symm.trans (hlast (n + 1) (by omega))
  rcases hc.cost_step hh n with ⟨hne, -⟩ | hlt
  · exact hne hn
  · exact absurd heq (ne_of_gt hlt)

end Frame

/-! ## Merging is a join -/

namespace Hierarchy

variable {h : Hierarchy}

/-- Meeting is the join of an order of types, in which classes are as the hierarchy tells. -/
structure JoinsTypes (h : Hierarchy) : Prop where
  comm : ∀ a b, h.mergeTypes a b = h.mergeTypes b a
  assoc : ∀ a b c, h.mergeTypes (h.mergeTypes a b) c = h.mergeTypes a (h.mergeTypes b c)
  idem : ∀ a, h.mergeTypes a a = a
  /-- The null reference is below every class and every array. -/
  null : ∀ cls, h.mergeTypes (.object cls) .null = .object cls
  /-- What cannot be used is above everything. -/
  top : ∀ a, h.mergeTypes .top a = .top
  order : ∀ a b, VType.Covers h (· = ·) b a ↔ h.mergeTypes b a = b
  classes : ∀ a b, ¬ a.startsWith "[" → ¬ b.startsWith "[" →
    (VType.Covers h (· = ·) (.object b) (.object a) ↔ h.Below a b)
  arrays : ∀ a b, VType.Covers h (· = ·) (.object (arrayOf b)) (.object (arrayOf a)) ↔
    VType.Covers h (· = ·) (.object b) (.object a)

theorem Sound.joinsTypes (hh : h.Sound) : h.JoinsTypes := by
  have hobject : ∀ a b, VType.Covers h (· = ·) (.object b) (.object a) ↔ h.CoversClass b a :=
    fun a b => ⟨fun | .object hc => hc, .object⟩
  exact
    { comm := VType.mergeTypes_comm hh
      assoc := VType.mergeTypes_assoc hh
      idem := VType.mergeTypes_self
      null := fun cls => VType.covers_iff.mp (.nullObject cls)
      top := VType.mergeTypes_top_left
      order := fun _ _ => VType.covers_iff
      classes := fun a b ha hb => by rw [hobject, hh.coversClass_plain hb ha]
      arrays := fun a b => by rw [hobject, hobject, coversClass_arrayOf] }

/-- **Merging is a join**, of types and of frames whose wide locals are whole: in any mode, a frame
that another one is merged into is replaced by the least frame above both, or is left alone, and no
frame can be replaced for ever. -/
theorem Sound.merging_joins (hh : h.Sound) :
    h.JoinsTypes ∧
      (∀ mode f incoming result after, Frame.Closed f.locals → Frame.Closed incoming.locals →
        (Frame.mergeInto h mode incoming).run f = (result, after) →
          Frame.MergedInto h mode f incoming result after) ∧
      ∀ f result, Frame.MergeChain h f result → {n | result n = .ok true}.Finite :=
  ⟨hh.joinsTypes, fun _ _ _ _ _ hf hin hrun => Frame.mergedInto hh.lawful hf hin hrun,
    fun _ _ hc => hc.finite hh⟩

/-- A wide local variable, and an array. -/
def arrayHeld (cls : String) : Frame := ⟨[.long, .top, .object (arrayOf cls)], []⟩

theorem closed_arrayHeld (cls : String) : Frame.Closed (arrayHeld cls).locals := by
  intro k hw
  match k with
  | 0 => exact ⟨Nat.lt_add_left 1 Nat.one_lt_two, rfl⟩
  | 1 | 2 | _ + 3 => cases hw

/-- An array of the super class takes the place of one of the other class. -/
theorem arrayHeld_joined :
    (known Analysis.oneAbove).Sound ∧
      Frame.MergedInto (known Analysis.oneAbove) .strict (arrayHeld "x/A") (arrayHeld "x/B") (.ok true)
        (arrayHeld "x/B") := by
  have hh := Analysis.oneAbove_sound
  have habove : VType.Covers (known Analysis.oneAbove) (· = ·) (.object (arrayOf "x/B"))
      (.object (arrayOf "x/A")) := by
    refine .object (coversClass_arrayOf.mpr ((hh.coversClass_plain ?_ ?_).mpr ?_))
    · decide +kernel
    · decide +kernel
    · exact .inr (.single (Analysis.parent_oneAbove.mpr ⟨rfl, rfl⟩))
  have hmerge := (VType.mergeTypes_comm hh _ _).trans (VType.covers_iff.mp habove)
  have hlocals : Frame.mergeLocals (known Analysis.oneAbove) (arrayHeld "x/A").locals
      (arrayHeld "x/B").locals = (arrayHeld "x/B").locals := by
    simp [arrayHeld, Frame.mergeLocals, hmerge, VType.mergeTypes_self, Frame.repairWide, VType.isWide,
      Frame.trim, Frame.trimReversed]
  have hne : (arrayHeld "x/B").locals ≠ Frame.trim (arrayHeld "x/A").locals := by
    simp [arrayHeld, arrayOf_inj, Frame.trim, Frame.trimReversed]
  have hrun : (Frame.mergeInto (known Analysis.oneAbove) .strict (arrayHeld "x/B")).run
      (arrayHeld "x/A") = (.ok true, arrayHeld "x/B") := by
    have hstack : Frame.mergeStacks (known Analysis.oneAbove) .strict (arrayHeld "x/A").stack
        (arrayHeld "x/B").stack = .ok [] := rfl
    rw [Frame.run_mergeInto, hlocals, hstack, if_neg (by simp [arrayHeld])]
    exact if_neg fun hsame => hne hsame.2
  exact ⟨hh, hh.merging_joins.2.1 _ _ _ _ _ (closed_arrayHeld _) (closed_arrayHeld _) hrun⟩

end Hierarchy
end ClassWeave
