import Mathlib.Logic.Basic
import ClassWeave.Frame.Merge
import ClassWeave.Proofs.Hierarchies

/-!
# The order of types

A type covers another one when it stays as it is where both meet. Everything that is proved
about meeting types goes through this order: what covers a type covers all that it covers, and
meeting gives the least type that covers both.
-/

namespace ClassWeave

/-! ## Names of arrays -/

theorem startsWith_bracket {s : String} : s.startsWith "[" ↔ ∃ cs, s.toList = '[' :: cs := by
  rw [String.startsWith_string_iff]
  constructor
  · rintro ⟨cs, h⟩
    exact ⟨cs, h.symm⟩
  · rintro ⟨cs, h⟩
    exact ⟨cs, h.symm⟩

/-- An array class is known by the class of its elements. -/
theorem toList_arrayOf (s : String) :
    ∃ cs, (arrayOf s).toList = '[' :: cs ∧ elementClass? cs = some s.toList := by
  unfold arrayOf
  split
  · rename_i h
    obtain ⟨cs, hcs⟩ := startsWith_bracket.mp h
    refine ⟨s.toList, by simp, ?_⟩
    rw [hcs]
    rfl
  · refine ⟨'L' :: (s.toList ++ [';']), by simp, ?_⟩
    simp [elementClass?]

namespace Hierarchy

variable {h : Hierarchy}

/-- No array: the name does not begin like that of one. -/
def IsPlain (cs : List Char) : Prop := ∀ rest, cs ≠ '[' :: rest

theorem isPlain_iff {s : String} : IsPlain s.toList ↔ ¬ s.startsWith "[" := by
  rw [startsWith_bracket]
  constructor
  · rintro hp ⟨cs, hcs⟩
    exact hp cs hcs
  · intro hs cs hcs
    exact hs ⟨cs, hcs⟩

theorem mergeChars_plain {a b : List Char} (ha : IsPlain a) (hb : IsPlain b) :
    h.mergeChars a b = h.commonSuper (String.ofList a) (String.ofList b) := by
  unfold mergeChars
  split
  · exact absurd rfl (ha _)
  · exact absurd rfl (ha _)
  · exact absurd rfl (hb _)
  · rfl

theorem mergeChars_array {as bs x y : List Char} (hx : elementClass? as = some x)
    (hy : elementClass? bs = some y) :
    h.mergeChars ('[' :: as) ('[' :: bs) = arrayOf (h.mergeChars x y) := by
  rw [mergeChars]
  split
  · rename_i hx' hy'
    rw [hx, Option.some.injEq] at hx'
    rw [hy, Option.some.injEq] at hy'
    rw [hx', hy']
  · rename_i none
    exact absurd hy (none x y hx)

/-- Arrays meet other classes, and arrays of other elements, at the root class. -/
theorem mergeChars_root {a b : List Char} (hab : ¬ (IsPlain a ∧ IsPlain b))
    (hel : ∀ as bs x y, a = '[' :: as → b = '[' :: bs → elementClass? as = some x →
      elementClass? bs ≠ some y) : h.mergeChars a b = rootClass := by
  unfold mergeChars
  split
  · split
    · rename_i hx hy
      exact absurd hy (hel _ _ _ _ rfl rfl hx)
    · rfl
  · rfl
  · rfl
  · exact absurd ⟨‹∀ as, a = '[' :: as → False›, ‹∀ bs, b = '[' :: bs → False›⟩ hab

theorem rootClass_isPlain : IsPlain rootClass.toList := isPlain_iff.mpr rootClass_plain

/-! ## Classes -/

/-- The first class takes the place of the second. -/
def Takes (h : Hierarchy) (m a : List Char) : Prop := h.mergeChars m a = String.ofList m

theorem takes_array_iff {ms a : List Char} :
    h.Takes ('[' :: ms) a ↔ ∃ as x y, a = '[' :: as ∧ elementClass? ms = some x ∧
      elementClass? as = some y ∧ h.Takes x y ∧
      arrayOf (String.ofList x) = String.ofList ('[' :: ms) := by
  constructor
  · intro ht
    have notRoot : h.mergeChars ('[' :: ms) a ≠ rootClass := by
      intro hroot
      have := congrArg String.toList (ht.symm.trans hroot)
      rw [String.toList_ofList] at this
      exact rootClass_isPlain ms this.symm
    by_cases hel : ∃ as x y, a = '[' :: as ∧ elementClass? ms = some x ∧ elementClass? as = some y
    · obtain ⟨as, x, y, rfl, hx, hy⟩ := hel
      have harr := ht
      rw [Takes, mergeChars_array hx hy] at harr
      obtain ⟨cs, hcs, hel⟩ := toList_arrayOf (h.mergeChars x y)
      rw [harr, String.toList_ofList, List.cons.injEq] at hcs
      rw [← hcs.2, hx, Option.some.injEq] at hel
      have hxy : h.mergeChars x y = String.ofList x :=
        ((congrArg String.ofList hel).trans String.ofList_toList).symm
      exact ⟨as, x, y, rfl, hx, hy, hxy, hxy ▸ harr⟩
    · refine absurd (mergeChars_root (fun hp => hp.1 ms rfl) ?_) notRoot
      rintro as bs x y has rfl hx hy
      rw [List.cons.injEq] at has
      exact hel ⟨bs, x, y, rfl, has.2 ▸ hx, hy⟩
  · rintro ⟨as, x, y, rfl, hx, hy, hxy, harr⟩
    rw [Takes, mergeChars_array hx hy, hxy, harr]

theorem takes_plain_iff (hl : h.Lawful) {m a : List Char} (hm : IsPlain m) :
    h.Takes m a ↔ String.ofList m = rootClass ∨
      (IsPlain a ∧ h.commonSuper (String.ofList m) (String.ofList a) = String.ofList m) := by
  by_cases ha : IsPlain a
  · rw [Takes, mergeChars_plain hm ha]
    constructor
    · exact fun ht => .inr ⟨ha, ht⟩
    · rintro (hroot | ⟨_, ht⟩)
      · rw [hroot, hl.root]
      · exact ht
  · rw [Takes, mergeChars_root (fun hp => ha hp.2) (fun as _ _ _ has => absurd has (hm as))]
    constructor
    · exact fun ht => .inl ht.symm
    · rintro (hroot | ⟨hp, _⟩)
      · exact hroot.symm
      · exact absurd hp ha

theorem takes_root (hl : h.Lawful) (a : List Char) : h.Takes rootClass.toList a :=
  (takes_plain_iff hl rootClass_isPlain).mpr (.inl String.ofList_toList)

/-- What can take the place of something can take its own. -/
theorem Takes.self (hl : h.Lawful) {m a : List Char} (ht : h.Takes m a) : h.Takes m m := by
  by_cases hm : IsPlain m
  · rcases (takes_plain_iff hl hm).mp ht with hroot | ⟨_, hma⟩
    · exact (takes_plain_iff hl hm).mpr (.inl hroot)
    · exact (takes_plain_iff hl hm).mpr (.inr ⟨hm, hl.self _ _ hma⟩)
  · simp only [IsPlain, not_forall, not_not] at hm
    obtain ⟨ms, rfl⟩ := hm
    obtain ⟨as, x, y, _, hx, _, hxy, harr⟩ := takes_array_iff.mp ht
    have := length_elementClass? hx
    exact takes_array_iff.mpr ⟨ms, x, x, rfl, hx, hx, Takes.self hl hxy, harr⟩
termination_by m.length
decreasing_by subst_vars; simp; omega

theorem Takes.trans (hl : h.Lawful) {m n a : List Char} (hmn : h.Takes m n) (hna : h.Takes n a) :
    h.Takes m a := by
  by_cases hm : IsPlain m
  · refine (takes_plain_iff hl hm).mpr ?_
    rcases (takes_plain_iff hl hm).mp hmn with hroot | ⟨hn, hmn⟩
    · exact .inl hroot
    · rcases (takes_plain_iff hl hn).mp hna with hroot | ⟨ha, hna⟩
      · exact .inl (hl.top _ (hroot ▸ hmn))
      · exact .inr ⟨ha, hl.trans _ _ _ hmn hna⟩
  · simp only [IsPlain, not_forall, not_not] at hm
    obtain ⟨ms, rfl⟩ := hm
    obtain ⟨ns, x, y, rfl, hx, hy, hxy, harr⟩ := takes_array_iff.mp hmn
    obtain ⟨as, y', z, rfl, hy', hz, hyz, _⟩ := takes_array_iff.mp hna
    obtain rfl : y = y' := Option.some.inj (hy.symm.trans hy')
    have := length_elementClass? hx
    exact takes_array_iff.mpr ⟨as, x, z, rfl, hx, hz, Takes.trans hl hxy hyz, harr⟩
termination_by m.length
decreasing_by subst_vars; simp; omega

/-- Where two classes meet, the result takes the place of both. -/
theorem takes_mergeChars (hl : h.Lawful) (a b : List Char) :
    h.Takes (h.mergeChars a b).toList a ∧ h.Takes (h.mergeChars a b).toList b := by
  by_cases hp : IsPlain a ∧ IsPlain b
  · obtain ⟨ha, hb⟩ := hp
    have hm : IsPlain (h.mergeChars a b).toList := by
      rw [mergeChars_plain ha hb, isPlain_iff]
      refine hl.plain _ _ ?_ ?_ <;> rw [← isPlain_iff, String.toList_ofList] <;> assumption
    refine ⟨(takes_plain_iff hl hm).mpr (.inr ⟨ha, ?_⟩), (takes_plain_iff hl hm).mpr (.inr ⟨hb, ?_⟩)⟩
    · rw [String.ofList_toList, mergeChars_plain ha hb]
      exact hl.left _ _
    · rw [String.ofList_toList, mergeChars_plain ha hb]
      exact hl.right _ _
  · by_cases hel : ∃ as bs x y, a = '[' :: as ∧ b = '[' :: bs ∧ elementClass? as = some x ∧
        elementClass? bs = some y
    · obtain ⟨as, bs, x, y, rfl, rfl, hx, hy⟩ := hel
      have := length_elementClass? hx
      have ih := takes_mergeChars hl x y
      rw [mergeChars_array hx hy]
      obtain ⟨cs, hcs, hel⟩ := toList_arrayOf (h.mergeChars x y)
      have harr : arrayOf (String.ofList (h.mergeChars x y).toList) = String.ofList ('[' :: cs) := by
        rw [String.ofList_toList, ← hcs, String.ofList_toList]
      rw [hcs]
      exact ⟨takes_array_iff.mpr ⟨as, _, x, rfl, hel, hx, ih.1, harr⟩,
        takes_array_iff.mpr ⟨bs, _, y, rfl, hel, hy, ih.2, harr⟩⟩
    · rw [mergeChars_root hp fun as bs x y ha hb hx hy => hel ⟨as, bs, x, y, ha, hb, hx, hy⟩]
      exact ⟨takes_root hl a, takes_root hl b⟩
termination_by a.length
decreasing_by subst_vars; simp; omega

/-- What takes the place of two classes takes the place of the class where they meet. -/
theorem Takes.merge (hl : h.Lawful) {m a b : List Char} (ha : h.Takes m a) (hb : h.Takes m b) :
    h.Takes m (h.mergeChars a b).toList := by
  by_cases hm : IsPlain m
  · rcases (takes_plain_iff hl hm).mp ha with hroot | ⟨hpa, hma⟩
    · exact (takes_plain_iff hl hm).mpr (.inl hroot)
    · rcases (takes_plain_iff hl hm).mp hb with hroot | ⟨hpb, hmb⟩
      · exact (takes_plain_iff hl hm).mpr (.inl hroot)
      · refine (takes_plain_iff hl hm).mpr (.inr ⟨?_, ?_⟩)
        · rw [mergeChars_plain hpa hpb, isPlain_iff]
          refine hl.plain _ _ ?_ ?_ <;> rw [← isPlain_iff, String.toList_ofList] <;> assumption
        · rw [mergeChars_plain hpa hpb, String.ofList_toList]
          exact hl.least _ _ _ hma hmb
  · simp only [IsPlain, not_forall, not_not] at hm
    obtain ⟨ms, rfl⟩ := hm
    obtain ⟨as, x, y, rfl, hx, hy, hxy, harr⟩ := takes_array_iff.mp ha
    obtain ⟨bs, x', z, rfl, hx', hz, hxz, _⟩ := takes_array_iff.mp hb
    obtain rfl : x = x' := Option.some.inj (hx.symm.trans hx')
    have := length_elementClass? hx
    rw [mergeChars_array hy hz]
    obtain ⟨cs, hcs, hel⟩ := toList_arrayOf (h.mergeChars y z)
    rw [hcs]
    exact takes_array_iff.mpr ⟨cs, x, _, rfl, hx, hel, Takes.merge hl hxy hxz, harr⟩
termination_by m.length
decreasing_by subst_vars; simp; omega

/-- Classes that take the place of each other are the same. -/
theorem Takes.antisymm (hh : h.Sound) {m a : List Char} (hma : h.Takes m a) (ham : h.Takes a m) :
    m = a := by
  by_cases hm : IsPlain m
  · by_cases ha : IsPlain a
    · rw [Takes, mergeChars_plain hm ha] at hma
      rw [Takes, mergeChars_plain ha hm] at ham
      exact String.ofList_inj.mp (hh.commonSuper_antisymm hma ham)
    · simp only [IsPlain, not_forall, not_not] at ha
      obtain ⟨as, rfl⟩ := ha
      obtain ⟨ms, x, y, rfl, -⟩ := takes_array_iff.mp ham
      exact absurd rfl (hm ms)
  · simp only [IsPlain, not_forall, not_not] at hm
    obtain ⟨ms, rfl⟩ := hm
    obtain ⟨as, x, y, rfl, hx, hy, hxy, harr⟩ := takes_array_iff.mp hma
    obtain ⟨ms', y', x', hms, hy', hx', hyx, harr'⟩ := takes_array_iff.mp ham
    obtain rfl := (List.cons.inj hms).2
    obtain rfl : y = y' := Option.some.inj (hy.symm.trans hy')
    obtain rfl : x = x' := Option.some.inj (hx.symm.trans hx')
    have := length_elementClass? hx
    obtain rfl := Takes.antisymm hh hxy hyx
    exact String.ofList_inj.mp (harr.symm.trans harr')
termination_by m.length
decreasing_by subst_vars; simp; omega

/-- The class stays as it is where it meets the other one. -/
def CoversClass (h : Hierarchy) (m a : String) : Prop := a = m ∨ h.mergeClasses m a = m

theorem coversClass_refl (m : String) : h.CoversClass m m := .inl rfl

theorem takes_of_mergeClasses {m a : String} (ht : h.mergeClasses m a = m) :
    h.Takes m.toList a.toList := by
  rw [Takes, String.ofList_toList]
  exact ht

theorem mergeClasses_of_takes {m a : String} (ht : h.Takes m.toList a.toList) :
    h.mergeClasses m a = m := by
  rw [Takes, String.ofList_toList] at ht
  exact ht

theorem CoversClass.trans (hl : h.Lawful) {m n a : String} (hmn : h.CoversClass m n)
    (hna : h.CoversClass n a) : h.CoversClass m a := by
  rcases hmn with rfl | hmn
  · exact hna
  · rcases hna with rfl | hna
    · exact .inr hmn
    · exact .inr (mergeClasses_of_takes
        (Takes.trans hl (takes_of_mergeClasses hmn) (takes_of_mergeClasses hna)))

theorem coversClass_merge_left (hl : h.Lawful) (a b : String) :
    h.CoversClass (h.mergeClasses a b) a :=
  .inr (mergeClasses_of_takes (takes_mergeChars hl a.toList b.toList).1)

theorem coversClass_merge_right (hl : h.Lawful) (a b : String) :
    h.CoversClass (h.mergeClasses a b) b :=
  .inr (mergeClasses_of_takes (takes_mergeChars hl a.toList b.toList).2)

theorem CoversClass.merge (hl : h.Lawful) {m a b : String} (ha : h.CoversClass m a)
    (hb : h.CoversClass m b) (hab : a ≠ b) : h.CoversClass m (h.mergeClasses a b) := by
  rcases ha with rfl | ha
  · rcases hb with rfl | hb
    · exact absurd rfl hab
    · exact .inl hb
  · have hself := Takes.self hl (takes_of_mergeClasses ha)
    rcases hb with rfl | hb
    · exact .inr (mergeClasses_of_takes (Takes.merge hl (takes_of_mergeClasses ha) hself))
    · exact .inr (mergeClasses_of_takes
        (Takes.merge hl (takes_of_mergeClasses ha) (takes_of_mergeClasses hb)))

theorem CoversClass.antisymm (hh : h.Sound) {m a : String} (hma : h.CoversClass m a)
    (ham : h.CoversClass a m) : m = a := by
  rcases hma with rfl | hma
  · rfl
  · rcases ham with rfl | ham
    · rfl
    · exact String.toList_inj.mp
        (Takes.antisymm hh (takes_of_mergeClasses hma) (takes_of_mergeClasses ham))

end Hierarchy

/-! ## Types -/

namespace VType

/-- The first type covers the second. Fresh objects of two analyses are compared as well:
`site i j` says that the place `i` of one stands for the place `j` of the other. -/
inductive Covers (h : Hierarchy) (site : Nat → Nat → Prop) : NamedType → NamedType → Prop
  | top (a : NamedType) : Covers h site .top a
  | int : Covers h site .int .int
  | float : Covers h site .float .float
  | long : Covers h site .long .long
  | double : Covers h site .double .double
  | null : Covers h site .null .null
  | freshThis : Covers h site .freshThis .freshThis
  | nullObject (c : String) : Covers h site (.object c) .null
  | object {m a : String} (hc : h.CoversClass m a) : Covers h site (.object m) (.object a)
  | fresh {i j : Nat} (hs : site i j) : Covers h site (.fresh j) (.fresh i)

/-- Every place stands for at most one place, and no two stand for the same one. -/
structure SiteMap (site : Nat → Nat → Prop) : Prop where
  unique : ∀ {i j j'}, site i j → site i j' → j = j'
  inj : ∀ {i i' j}, site i j → site i' j → i = i'

theorem siteMap_eq : SiteMap (· = ·) where
  unique h h' := h.symm.trans h'
  inj h h' := h.trans h'.symm

variable {h : Hierarchy} {site : Nat → Nat → Prop} {a b c : NamedType}

theorem covers_refl (a : NamedType) : Covers h (· = ·) a a := by
  cases a with
  | object c => exact .object (h.coversClass_refl c)
  | fresh i => exact .fresh rfl
  | _ => constructor

theorem Covers.eq_top (hc : Covers h site b .top) : b = .top := by
  cases hc
  rfl

theorem Covers.ne_top (hc : Covers h site b a) (hb : b ≠ .top) : a ≠ .top := by
  rintro rfl
  exact hb hc.eq_top

theorem Covers.trans (hl : h.Lawful) (hcb : Covers h (· = ·) c b) (hba : Covers h site b a) :
    Covers h site c a := by
  cases hcb with
  | top => exact .top a
  | nullObject => cases hba; exact .nullObject _
  | object hc =>
    cases hba with
    | nullObject => exact .nullObject _
    | object hc' => exact .object (hc.trans hl hc')
  | fresh hs => exact hs ▸ hba
  | _ => exact hba

/-- Types that cover each other are the same. -/
theorem Covers.antisymm (hh : h.Sound) (hba : Covers h (· = ·) b a) (hab : Covers h (· = ·) a b) :
    b = a := by
  cases hba with
  | top => exact hab.eq_top.symm
  | nullObject => cases hab
  | object hc =>
    cases hab with
    | object hc' => rw [hc.antisymm hh hc']
  | fresh hs => rw [hs]
  | _ => rfl

theorem Covers.slots_eq (hc : Covers h site b a) (hb : b ≠ .top) : a.slots = b.slots := by
  cases hc <;> first | rfl | exact absurd rfl hb

theorem Covers.isWide_eq (hc : Covers h site b a) (hb : b ≠ .top) : a.isWide = b.isWide := by
  cases hc <;> first | rfl | exact absurd rfl hb

theorem Covers.isReference_eq (hc : Covers h site b a) (hb : b ≠ .top) :
    a.isReference = b.isReference := by
  cases hc <;> first | rfl | exact absurd rfl hb

theorem hasKind_ne_top {kind : ValueKind} (hk : VType.hasKind kind b) : b ≠ .top := by
  rintro rfl
  cases kind <;> cases hk

theorem Covers.hasKind (hc : Covers h site b a) {kind : ValueKind} (hk : VType.hasKind kind b) :
    VType.hasKind kind a := by
  cases hc <;> cases kind <;> first | rfl | cases hk

theorem ofKind_ne_top (kind : ValueKind) : (ofKind kind : NamedType) ≠ .top := by
  cases kind <;> simp [ofKind]

theorem ofField_ne_top (t : FieldType) : (ofField t : NamedType) ≠ .top := by
  cases t with
  | base b => cases b <;> simp [ofField]
  | _ => simp [ofField]

/-- Types that come from descriptors and constants hold no fresh object. -/
def IsSettled : NamedType → Prop
  | .fresh _ => False
  | _ => True

theorem covers_settled {a : NamedType} (ha : IsSettled a) : Covers h site a a := by
  cases a with
  | object c => exact .object (h.coversClass_refl c)
  | fresh i => exact absurd ha id
  | _ => constructor

theorem isSettled_ofKind (kind : ValueKind) : IsSettled (ofKind kind) := by
  cases kind <;> trivial

theorem isSettled_ofField (t : FieldType) : IsSettled (ofField t) := by
  cases t with
  | base b => cases b <;> trivial
  | _ => trivial

/-! ### Where types meet -/

theorem mergeTypes_self (a : NamedType) : h.mergeTypes a a = a := by
  simp [Hierarchy.mergeTypes]

theorem mergeTypes_top_left (a : NamedType) : h.mergeTypes .top a = .top := by
  unfold Hierarchy.mergeTypes
  split
  · rfl
  · cases a <;> rfl

theorem mergeTypes_top_right (a : NamedType) : h.mergeTypes a .top = .top := by
  unfold Hierarchy.mergeTypes
  split
  · assumption
  · cases a <;> rfl

/-- The order is that of meeting: what covers a type is not changed by it. -/
theorem covers_iff : Covers h (· = ·) b a ↔ h.mergeTypes b a = b := by
  constructor
  · intro hc
    cases hc with
    | top => exact mergeTypes_top_left a
    | nullObject => rfl
    | @object m c hc =>
      rcases hc with rfl | hc
      · exact mergeTypes_self _
      · unfold Hierarchy.mergeTypes
        split
        · rfl
        · simp only [hc]
    | fresh hs => exact hs ▸ mergeTypes_self _
    | _ => exact mergeTypes_self _
  · intro hm
    by_cases hba : b = a
    · subst hba
      exact covers_refl b
    · unfold Hierarchy.mergeTypes at hm
      rw [if_neg hba] at hm
      split at hm
      · cases hm
      · exact .nullObject _
      · rw [VType.object.injEq] at hm
        exact .object (.inr hm)
      · exact hm ▸ .top a

theorem covers_merge_left (hl : h.Lawful) (a b : NamedType) :
    Covers h (· = ·) (h.mergeTypes a b) a := by
  unfold Hierarchy.mergeTypes
  split
  · exact covers_refl a
  · split
    · exact .nullObject _
    · exact covers_refl _
    · exact .object (h.coversClass_merge_left hl _ _)
    · exact .top a

theorem covers_merge_right (hl : h.Lawful) (a b : NamedType) :
    Covers h (· = ·) (h.mergeTypes a b) b := by
  unfold Hierarchy.mergeTypes
  split
  · rename_i hab
    subst hab
    exact covers_refl a
  · split
    · exact covers_refl _
    · exact .nullObject _
    · exact .object (h.coversClass_merge_right hl _ _)
    · exact .top b

/-- What covers two types covers what they give where they meet. -/
theorem Covers.merge (hl : h.Lawful) (hs : SiteMap site) (ha : Covers h site c a)
    (hb : Covers h site c b) : Covers h site c (h.mergeTypes a b) := by
  by_cases hab : a = b
  · rw [← hab, mergeTypes_self]
    exact ha
  · unfold Hierarchy.mergeTypes
    rw [if_neg hab]
    cases ha with
    | top => exact .top _
    | nullObject =>
      cases hb with
      | nullObject => exact absurd rfl hab
      | object hb => exact .object hb
    | object ha =>
      cases hb with
      | nullObject => exact .object ha
      | object hb =>
        exact .object (ha.merge hl hb fun h => hab (h ▸ rfl))
    | fresh ha =>
      cases hb with
      | fresh hb => exact absurd (hs.inj ha hb ▸ rfl) hab
    | _ => cases hb; exact absurd rfl hab

/-- Types give a wide one where they meet only if they are the same. -/
theorem eq_of_isWide_merge (hw : (h.mergeTypes a b).isWide) : a = b := by
  by_cases hab : a = b
  · exact hab
  · unfold Hierarchy.mergeTypes at hw
    rw [if_neg hab] at hw
    split at hw <;> cases hw

end VType
end ClassWeave
