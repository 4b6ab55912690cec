import Mathlib.Data.List.TakeWhile
import ClassWeave.Frame.Verify
import ClassWeave.Proofs.FrameOrder
import ClassWeave.Proofs.StoredFrames

/-!
# What a stored frame accepts

A class file stores the local variables with one entry for every value, and fresh objects by the
offsets of the instructions that made them. Nothing is lost by that as long as wide values are
whole, so a stored frame accepts every frame that it covers.
-/

namespace ClassWeave

namespace Hierarchy

variable {h : Hierarchy}

/-- A class that takes the place of another one does so, too, when the two meet the other way
round, unless both meet at the root class then. -/
theorem commonSuper_of_left (hh : h.Sound) {m a : String} (ht : h.commonSuper m a = m) :
    h.commonSuper a m = m ∨ h.commonSuper a m = rootClass := by
  match h, hh with
  | unknown, _ => exact .inr rfl
  | known t, hs =>
    rcases SuperTable.commonSuper_cases hs.forest a m with ⟨-, hm, least⟩ | ⟨hroot, -⟩
    · rcases (SuperTable.commonSuper_eq_left_iff hs.forest).mp ht with rfl | ham
      · exact .inr (hs.forest.eq_of_root_extends hm)
      · exact .inl (hs.forest.extends_antisymm (least m ham Relation.ReflTransGen.refl) hm)
    · exact .inr hroot

end Hierarchy

namespace Verify

variable {h : Hierarchy}

theorem mayBeSubclass_array {as bs x y : List Char} (hx : elementClass? as = some x)
    (hy : elementClass? bs = some y) (hxy : mayBeSubclass h x y) :
    mayBeSubclass h ('[' :: as) ('[' :: bs) := by
  unfold mayBeSubclass
  split
  · rfl
  · split
    · rename_i has hbs
      obtain rfl := (List.cons.inj has).2
      obtain rfl := (List.cons.inj hbs).2
      split
      · rename_i hx' hy'
        rw [hx, Option.some.injEq] at hx'
        rw [hy, Option.some.injEq] at hy'
        rwa [← hx', ← hy']
      · rename_i hnone
        exact absurd hy (hnone x y hx)
    · rename_i hnot
      exact absurd rfl (hnot bs)
    · rename_i hnot
      exact absurd rfl (hnot as)
    · rename_i hnot _ _
      exact absurd rfl (hnot as)

theorem mayBeSubclass_plain {cls super : List Char} (hcls : Hierarchy.IsPlain cls)
    (hsuper : Hierarchy.IsPlain super)
    (hcommon : h.commonSuper (String.ofList cls) (String.ofList super) = String.ofList super ∨
      h.commonSuper (String.ofList cls) (String.ofList super) = rootClass) :
    mayBeSubclass h cls super := by
  unfold mayBeSubclass
  split
  · rfl
  · split
    · exact absurd rfl (hcls _)
    · exact absurd rfl (hcls _)
    · exact absurd rfl (hsuper _)
    · simpa using hcommon

/-- What a class takes the place of may be a subclass of it. -/
theorem mayBeSubclass_of_takes (hh : h.Sound) {super cls : List Char} (ht : h.Takes super cls) :
    mayBeSubclass h cls super := by
  by_cases hsuper : Hierarchy.IsPlain super
  · rcases (Hierarchy.takes_plain_iff hh.lawful hsuper).mp ht with hroot | ⟨hcls, hcommon⟩
    · unfold mayBeSubclass
      rw [if_pos (.inr hroot)]
    · exact mayBeSubclass_plain hcls hsuper (Hierarchy.commonSuper_of_left hh hcommon)
  · obtain ⟨ms, rfl⟩ : ∃ ms, super = '[' :: ms := by
      simpa only [Hierarchy.IsPlain, not_forall, not_not] using hsuper
    obtain ⟨as, x, y, rfl, hx, hy, hxy, -⟩ := Hierarchy.takes_array_iff.mp ht
    have hlt := length_elementClass? hx
    exact mayBeSubclass_array hy hx (mayBeSubclass_of_takes hh hxy)
termination_by super.length
decreasing_by subst_vars; simp; omega

end Verify

/-! ## Offsets in place of instructions -/

/-- The type with the offset of the instruction that made a fresh object. -/
def VType.PlacedAs (offset? : Nat → Option Nat) (t u : NamedType) : Prop :=
  VType.mapM pure (CompactFrame.freshOffset offset?) t = .ok u

namespace CompactFrame

variable {offset? : Nat → Option Nat} {t u : NamedType} {c c' : NamedFrame}

theorem relocate_eq_ok : c.relocate offset? = .ok c' ↔
    List.Forall₂ (VType.PlacedAs offset?) c.locals c'.locals ∧
      List.Forall₂ (VType.PlacedAs offset?) c.stack c'.stack := by
  constructor
  · intro h
    obtain ⟨locals, hlocals, h⟩ := bind_eq_ok.mp h
    obtain ⟨stack, hstack, h⟩ := bind_eq_ok.mp h
    obtain rfl := pure_eq_ok.mp h
    exact ⟨mapM_eq_ok.mp hlocals, mapM_eq_ok.mp hstack⟩
  · rintro ⟨hlocals, hstack⟩
    exact bind_eq_ok.mpr ⟨c'.locals, mapM_eq_ok.mpr hlocals,
      bind_eq_ok.mpr ⟨c'.stack, mapM_eq_ok.mpr hstack, rfl⟩⟩

theorem placedAs_fresh {i : Nat} :
    VType.PlacedAs offset? (.fresh i) u ↔ ∃ o, offset? i = some o ∧ u = .fresh o := by
  unfold VType.PlacedAs
  rw [VType.mapM, bind_eq_ok]
  simp only [freshOffset_eq_ok, pure_eq_ok, eq_comm (a := u)]

theorem placedAs_object {cls : String} : VType.PlacedAs offset? (.object cls) u ↔ u = .object cls := by
  unfold VType.PlacedAs
  rw [VType.mapM, bind_eq_ok]
  simp only [pure_eq_ok, exists_eq_left', eq_comm (a := u)]

/-- Types without an instruction stay as they are. -/
theorem PlacedAs.eq (h : VType.PlacedAs offset? t u) (ht : ∀ i, t ≠ .fresh i) : u = t := by
  cases t with
  | object cls => exact placedAs_object.mp h
  | fresh i => exact absurd rfl (ht i)
  | _ => exact (Except.ok.inj h).symm

theorem PlacedAs.isWide_eq (h : VType.PlacedAs offset? t u) : u.isWide = t.isWide := by
  cases t with
  | fresh i =>
    obtain ⟨o, -, rfl⟩ := placedAs_fresh.mp h
    rfl
  | _ => rw [PlacedAs.eq h (by simp)]

/-- Slot by slot, related types give related types. -/
theorem slot_slots {R : NamedType → NamedType → Prop} (hwide : ∀ {t u}, R t u → u.isWide = t.isWide)
    (htop : R .top .top) {ts us : List NamedType} (h : List.Forall₂ R ts us) (k : Nat) :
    R (Frame.slot (slots ts) k) (Frame.slot (slots us) k) := by
  induction h generalizing k with
  | nil => exact htop
  | @cons t u ts us htu _ ih =>
    have hcons : ∀ (v : NamedType) (vs : List NamedType),
        slots (v :: vs) = Frame.slotsOf v ++ slots vs := fun _ _ => rfl
    rw [hcons, hcons, Frame.slotsOf, Frame.slotsOf, hwide htu]
    split
    · match k with
      | 0 => exact htu
      | 1 => exact htop
      | k + 2 => exact ih k
    · match k with
      | 0 => exact htu
      | k + 1 => exact ih k

end CompactFrame

/-! ## One entry for every value -/

namespace Frame

variable {t : NamedType} {rest locals : List NamedType}

theorem Closed.of_narrow (hc : Closed (t :: rest)) : Closed rest := by
  intro k hk
  obtain ⟨hlength, htop⟩ := hc (k + 1) hk
  exact ⟨Nat.lt_of_succ_lt_succ hlength, htop⟩

/-- Behind a wide value stands its second half. -/
theorem Closed.of_wide (hc : Closed (t :: rest)) (ht : t.isWide) :
    ∃ others, rest = .top :: others ∧ Closed others := by
  obtain ⟨hlength, htop⟩ := hc 0 ht
  cases rest with
  | nil => exact absurd hlength (by simp)
  | cons u others =>
    obtain rfl : u = .top := htop
    exact ⟨others, rfl, hc.of_narrow.of_narrow⟩

/-- Leaving out second halves loses nothing if all wide values are whole. -/
theorem slots_wholeOnto (found : List NamedType) (hc : Closed locals) :
    CompactFrame.slots (wholeOnto found locals).reverse =
      CompactFrame.slots found.reverse ++ locals := by
  have hsnoc : ∀ (found : List NamedType) (t : NamedType), CompactFrame.slots (t :: found).reverse =
      CompactFrame.slots found.reverse ++ slotsOf t := by
    intro found t
    simp [CompactFrame.slots]
  fun_induction wholeOnto found locals with
  | case1 found => rw [List.append_nil]
  | case2 found t ht =>
    obtain ⟨others, hrest, -⟩ := hc.of_wide ht
    cases hrest
  | case3 found t ht u rest ih =>
    obtain ⟨others, hrest, hothers⟩ := hc.of_wide ht
    obtain ⟨rfl, rfl⟩ := List.cons.inj hrest
    rw [ih hothers, hsnoc, slotsOf, if_pos ht, List.append_assoc]
    rfl
  | case4 found t rest ht ih =>
    rw [ih hc.of_narrow, hsnoc, slotsOf, if_neg ht, List.append_assoc]
    rfl

theorem slots_append (ts us : List NamedType) :
    CompactFrame.slots (ts ++ us) = CompactFrame.slots ts ++ CompactFrame.slots us :=
  List.flatMap_append

/-- **What is left out of local variables can be filled in again.** -/
theorem exists_slots_compactLocals (hc : Closed locals) :
    ∃ n, locals = CompactFrame.slots (compactLocals locals) ++ List.replicate n .top := by
  have hwhole := slots_wholeOnto [] hc
  have htake : (wholeOnto [] locals).takeWhile (· == .top) =
      List.replicate ((wholeOnto [] locals).takeWhile (· == .top)).length .top :=
    List.eq_replicate_iff.mpr ⟨rfl, fun u hu =>
      eq_of_beq (List.mem_takeWhile_imp (p := (· == VType.top)) hu)⟩
  rw [← List.takeWhile_append_dropWhile (p := (· == .top)) (l := wholeOnto [] locals), htake,
    List.reverse_append, List.reverse_replicate, slots_append] at hwhole
  have htops : ∀ n, CompactFrame.slots (List.replicate n .top) = List.replicate n .top := by
    intro n
    induction n with
    | zero => rfl
    | succ n ih => exact congrArg (.top :: ·) ih
  rw [htops] at hwhole
  exact ⟨_, hwhole.symm⟩

theorem slot_compactLocals (hc : Closed locals) (k : Nat) :
    slot (CompactFrame.slots (compactLocals locals)) k = slot locals k := by
  obtain ⟨n, hn⟩ := exists_slots_compactLocals hc
  conv => rhs; rw [hn]
  exact (slot_append_top _ n k).symm

end Frame

/-! ## Frames -/

namespace Verify

open CompactFrame

variable {h : Hierarchy} {site : Nat → Nat → Prop} {found? stored? : Nat → Option Nat}

/-- Instructions that stand for each other have the same offset. -/
def SameOffsets (site : Nat → Nat → Prop) (found? stored? : Nat → Option Nat) : Prop :=
  ∀ i j o o', site i j → found? i = some o → stored? j = some o' → o = o'

/-- A type accepts what it covers. -/
theorem accepts_of_covers (hh : h.Sound) (hsite : SameOffsets site found? stored?)
    {above below recorded found : NamedType} (hc : VType.Covers h site above below)
    (hrecorded : VType.PlacedAs stored? above recorded)
    (hfound : VType.PlacedAs found? below found) : accepts h recorded found := by
  have hsame : found = recorded → accepts h recorded found := fun heq => by
    unfold accepts
    rw [if_pos (.inr heq)]
  cases hc with
  | top =>
    obtain rfl := PlacedAs.eq hrecorded (by simp)
    unfold accepts
    rw [if_pos (.inl rfl)]
  | nullObject c =>
    obtain rfl := PlacedAs.eq hrecorded (by simp)
    obtain rfl := PlacedAs.eq hfound (by simp)
    rfl
  | @object m a hma =>
    obtain rfl := PlacedAs.eq hrecorded (by simp)
    obtain rfl := PlacedAs.eq hfound (by simp)
    rcases hma with rfl | hma
    · exact hsame rfl
    · rw [accepts]
      split
      · rfl
      · exact mayBeSubclass_of_takes hh (Hierarchy.takes_of_mergeClasses hma)
  | fresh hs =>
    obtain ⟨o', ho', rfl⟩ := placedAs_fresh.mp hrecorded
    obtain ⟨o, ho, rfl⟩ := placedAs_fresh.mp hfound
    exact hsame (congrArg _ (hsite _ _ _ _ hs ho ho'))
  | _ =>
    obtain rfl := PlacedAs.eq hrecorded (by simp)
    obtain rfl := PlacedAs.eq hfound (by simp)
    exact hsame rfl

theorem getElem?_pad {count : Nat} {locals : List NamedType} {k : Nat} {t : NamedType}
    (h : (pad count locals)[k]? = some t) : t = Frame.slot locals k := by
  rw [← Frame.slot_eq_of_getElem? h]
  exact Frame.slot_append_top locals (count - locals.length) k

/-- **A stored frame accepts every frame that it covers.** -/
theorem checkFrame_of_covers (hh : h.Sound) (hsite : SameOffsets site found? stored?)
    {f above : Frame} (hc : Frame.Covers h site above f) (hf : Frame.Closed f.locals)
    (habove : Frame.Closed above.locals) {found recorded : NamedFrame}
    (hfound : f.compact.relocate found? = .ok found)
    (hrecorded : above.compact.relocate stored? = .ok recorded) (offset : Nat) :
    checkFrame h offset found recorded = .ok () := by
  obtain ⟨hlocals, hstack⟩ := relocate_eq_ok.mp hfound
  obtain ⟨hlocals', hstack'⟩ := relocate_eq_ok.mp hrecorded
  -- the types on the stack, one by one
  have hvalues : List.Forall₂ (fun u v => accepts h v u = true) found.stack recorded.stack := by
    have hcovers : List.Forall₂ (VType.Covers h site) above.compact.stack f.compact.stack :=
      List.rel_reverse hc.stack
    revert hcovers
    generalize above.compact.stack = gs at hstack'
    generalize f.compact.stack = fs at hstack
    generalize found.stack = us at hstack
    generalize recorded.stack = vs at hstack'
    intro hcovers
    induction hcovers generalizing us vs with
    | nil =>
      cases hstack
      cases hstack'
      exact .nil
    | cons hcv _ ih =>
      cases hstack with
      | cons hu hus =>
        cases hstack' with
        | cons hv hvs =>
          exact .cons (accepts_of_covers hh hsite hcv hv hu) (ih _ hus _ hvs)
  have hslot : ∀ k, accepts h (Frame.slot (slots recorded.locals) k)
      (Frame.slot (slots found.locals) k) = true := by
    intro k
    have hu := slot_slots PlacedAs.isWide_eq rfl hlocals k
    have hv := slot_slots PlacedAs.isWide_eq rfl hlocals' k
    have hcompact : ∀ {g : Frame}, Frame.Closed g.locals →
        Frame.slot (slots g.compact.locals) k = Frame.slot g.locals k :=
      fun hg => Frame.slot_compactLocals hg k
    rw [hcompact hf] at hu
    rw [hcompact habove] at hv
    exact accepts_of_covers hh hsite (hc.locals k) hv hu
  unfold checkFrame
  rw [if_neg (not_not_intro hvalues.length_eq)]
  simp only
  split
  · rename_i p hfind
    exfalso
    have hrefused := List.find?_some hfind
    rw [Bool.not_eq_true'] at hrefused
    rcases List.mem_append.mp (List.mem_of_find?_eq_some hfind) with hp | hp
    · obtain ⟨k, hk⟩ := List.mem_iff_getElem?.mp hp
      obtain ⟨hu, hv⟩ := List.getElem?_zip_eq_some.mp hk
      rw [getElem?_pad hu, getElem?_pad hv, hslot k] at hrefused
      cases hrefused
    · rw [(List.forall₂_iff_zip.mp hvalues).2 hp] at hrefused
      cases hrefused
  · rfl

end Verify
end ClassWeave
