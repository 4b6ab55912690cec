import ClassWeave.Proofs.Results
import ClassWeave.Proofs.TypeOrder

/-!
# The order of frames

A frame covers another one when its types do, entry by entry on the stack and slot by slot among
the locals, where a slot that is missing cannot be used. Merging gives a frame that covers both
sides, and changes nothing exactly when the frame covers the other one already.
-/

namespace ClassWeave

namespace Frame

/-- The type of a local variable; a slot that is missing cannot be used. -/
def slot (locals : List NamedType) (k : Nat) : NamedType := locals.getD k .top

theorem slot_eq_of_getElem? {locals : List NamedType} {k : Nat} {t : NamedType}
    (h : locals[k]? = some t) : slot locals k = t := by
  rw [slot, List.getD_eq_getElem?_getD, h, Option.getD_some]

theorem lt_length_of_slot {locals : List NamedType} {k : Nat} (h : slot locals k ≠ .top) :
    k < locals.length := by
  rw [slot, List.getD_eq_getElem?_getD] at h
  by_contra hk
  rw [List.getElem?_eq_none (by omega)] at h
  exact h rfl

theorem getElem?_of_slot {locals : List NamedType} {k : Nat} (h : k < locals.length) :
    locals[k]? = some (slot locals k) := by
  rw [slot, List.getD_eq_getElem?_getD, List.getElem?_eq_getElem h]
  rfl

theorem slot_of_length_le {locals : List NamedType} {k : Nat} (h : locals.length ≤ k) :
    slot locals k = .top := by
  rw [slot, List.getD_eq_getElem?_getD, List.getElem?_eq_none h]
  rfl

/-- Every wide value has its second half behind it. -/
def Closed (locals : List NamedType) : Prop :=
  ∀ k, (slot locals k).isWide → k + 1 < locals.length ∧ slot locals (k + 1) = .top

/-! ## Leaving out slots that cannot be used -/

/-- What is left out are slots that cannot be used. -/
theorem trimReversed_eq (r : List NamedType) :
    ∃ n, r = List.replicate n .top ++ trimReversed r := by
  fun_induction trimReversed r with
  | case1 t rest hw => exact ⟨0, rfl⟩
  | case2 t rest hw ih =>
    obtain ⟨n, hn⟩ := ih
    refine ⟨n + 1, ?_⟩
    rw [List.replicate_succ, List.cons_append, ← hn]
  | case3 => exact ⟨1, rfl⟩
  | case4 r => exact ⟨0, rfl⟩

/-- The second half of a wide value is never left out. -/
theorem trimReversed_of_isWide {r rest : List NamedType} {t : NamedType}
    (h : trimReversed r = t :: rest) (hw : t.isWide) : trimReversed r = r := by
  fun_induction trimReversed r with
  | case1 => rfl
  | case2 u rest' hu ih =>
    have := ih h
    rw [h, List.cons.injEq] at this
    exact absurd (this.1 ▸ hw) hu
  | case3 => cases h
  | case4 => rfl

theorem trim_eq (locals : List NamedType) :
    ∃ n, locals = trim locals ++ List.replicate n .top := by
  obtain ⟨n, hn⟩ := trimReversed_eq locals.reverse
  refine ⟨n, ?_⟩
  have := congrArg List.reverse hn
  rwa [List.reverse_reverse, List.reverse_append, List.reverse_replicate] at this

@[simp] theorem slot_trim (locals : List NamedType) (k : Nat) :
    slot (trim locals) k = slot locals k := by
  obtain ⟨n, hn⟩ := trim_eq locals
  conv => rhs; rw [hn]
  by_cases hk : k < (trim locals).length
  · simp [slot, List.getElem?_append_left hk]
  · rw [slot_of_length_le (Nat.le_of_not_lt hk)]
    simp only [slot, List.getD_eq_getElem?_getD]
    rw [List.getElem?_append_right (Nat.le_of_not_lt hk), List.getElem?_replicate]
    split <;> rfl

theorem length_trim_le (locals : List NamedType) : (trim locals).length ≤ locals.length := by
  obtain ⟨n, hn⟩ := trim_eq locals
  have := congrArg List.length hn
  simp only [List.length_append] at this
  omega

theorem Closed.trim {locals : List NamedType} (hc : Closed locals) : Closed (trim locals) := by
  intro k hw
  rw [slot_trim] at hw
  obtain ⟨hlen, htop⟩ := hc k hw
  refine ⟨?_, by rw [slot_trim, htop]⟩
  by_contra hk
  have hlt : k < (Frame.trim locals).length := lt_length_of_slot (by
    rw [slot_trim]
    rintro h
    rw [h] at hw
    cases hw)
  -- the wide value would be the last one that is left
  have hlast : (trimReversed locals.reverse).head? = some (slot locals k) := by
    have hk' : k = (Frame.trim locals).length - 1 := by omega
    have : (Frame.trim locals).getLast? = some (slot locals k) := by
      rw [List.getLast?_eq_getElem?, ← hk', getElem?_of_slot hlt, slot_trim]
    rwa [Frame.trim, List.getLast?_reverse] at this
  obtain ⟨t, rest, hr⟩ : ∃ t rest, trimReversed locals.reverse = t :: rest := by
    cases h : trimReversed locals.reverse with
    | nil => rw [h] at hlast; cases hlast
    | cons t rest => exact ⟨t, rest, rfl⟩
  rw [hr, List.head?_cons, Option.some.injEq] at hlast
  have hall := trimReversed_of_isWide hr (hlast ▸ hw)
  have : (Frame.trim locals).length = locals.length := by
    rw [Frame.trim, hall, List.reverse_reverse]
  omega

/-! ## Locals that meet -/

variable {h : Hierarchy}

theorem slot_zipWith_mergeTypes (a b : List NamedType) (k : Nat) :
    slot (List.zipWith h.mergeTypes a b) k = h.mergeTypes (slot a k) (slot b k) := by
  by_cases ha : k < a.length
  · by_cases hb : k < b.length
    · simp [slot, List.getElem?_zipWith, List.getElem?_eq_getElem ha, List.getElem?_eq_getElem hb]
    · rw [slot_of_length_le (Nat.le_of_not_lt hb), VType.mergeTypes_top_right,
        slot_of_length_le (by simp; omega)]
  · rw [slot_of_length_le (Nat.le_of_not_lt ha), VType.mergeTypes_top_left,
      slot_of_length_le (by simp; omega)]

theorem closed_zipWith_mergeTypes {a b : List NamedType} (ha : Closed a) (hb : Closed b) :
    Closed (List.zipWith h.mergeTypes a b) := by
  intro k hw
  rw [slot_zipWith_mergeTypes] at hw
  have heq := VType.eq_of_isWide_merge hw
  rw [heq, VType.mergeTypes_self] at hw
  obtain ⟨hla, hta⟩ := ha k (heq ▸ hw)
  obtain ⟨hlb, htb⟩ := hb k hw
  refine ⟨by simp; omega, ?_⟩
  rw [slot_zipWith_mergeTypes, hta, VType.mergeTypes_top_left]

/-- A wide value stays as it is if the slot behind it is there and cannot be used. -/
theorem getElem?_repairWide (locals : List NamedType) (k : Nat) :
    (repairWide locals)[k]? = locals[k]?.map fun t =>
      if t.isWide ∧ locals[k + 1]? ≠ some .top then .top else t := by
  unfold repairWide
  rw [List.getElem?_zipWith]
  by_cases hk : k < locals.length
  · have hnext : (locals.tail.map some ++ [none])[k]? = some locals[k + 1]? := by
      by_cases hk' : k + 1 < locals.length
      · rw [List.getElem?_append_left (by simp; omega), List.getElem?_map, List.getElem?_tail,
          List.getElem?_eq_getElem hk']
        rfl
      · rw [List.getElem?_append_right (by simp; omega), List.getElem?_eq_none (l := locals) (by omega)]
        have : k - (locals.tail.map some).length = 0 := by simp; omega
        rw [this]
        rfl
    rw [hnext, List.getElem?_eq_getElem hk]
    rfl
  · rw [List.getElem?_eq_none (l := locals) (by omega)]
    rfl

/-- Wide values whose second halves are in place need no repair. -/
theorem repairWide_of_closed {locals : List NamedType} (hc : Closed locals) :
    repairWide locals = locals := by
  apply List.ext_getElem?
  intro k
  rw [getElem?_repairWide]
  cases ht : locals[k]? with
  | none => rfl
  | some t =>
    rw [Option.map_some, if_neg]
    rintro ⟨hw, hbad⟩
    obtain ⟨hlen, htop⟩ := hc k (slot_eq_of_getElem? ht ▸ hw)
    exact hbad (by rw [getElem?_of_slot hlen, htop])

theorem mergeLocals_eq {a b : List NamedType} (ha : Closed a) (hb : Closed b) :
    mergeLocals h a b = trim (List.zipWith h.mergeTypes a b) := by
  rw [mergeLocals, repairWide_of_closed (closed_zipWith_mergeTypes ha hb)]

theorem slot_mergeLocals {a b : List NamedType} (ha : Closed a) (hb : Closed b) (k : Nat) :
    slot (mergeLocals h a b) k = h.mergeTypes (slot a k) (slot b k) := by
  rw [mergeLocals_eq ha hb, slot_trim, slot_zipWith_mergeTypes]

theorem closed_mergeLocals {a b : List NamedType} (ha : Closed a) (hb : Closed b) :
    Closed (mergeLocals h a b) := by
  rw [mergeLocals_eq ha hb]
  exact (closed_zipWith_mergeTypes ha hb).trim

theorem length_mergeLocals_le {a b : List NamedType} (ha : Closed a) (hb : Closed b) :
    (mergeLocals h a b).length ≤ b.length := by
  rw [mergeLocals_eq ha hb]
  refine Nat.le_trans (length_trim_le _) ?_
  rw [List.length_zipWith]
  omega

/-! ## Stores -/

theorem length_store (locals : List NamedType) (k : Nat) (t : NamedType) :
    (store locals k t).length = max locals.length (k + t.slots) := by
  have hb : ∀ l : List NamedType, (breakWide l k).length = l.length := by
    intro l
    unfold breakWide
    split
    · rfl
    · split <;> simp
  unfold store
  split <;> simp [hb] <;> omega

theorem slots_of_isWide {t : NamedType} : t.slots = if t.isWide then 2 else 1 := by
  cases t <;> rfl

theorem slot_append_top (locals : List NamedType) (n j : Nat) :
    slot (locals ++ List.replicate n .top) j = slot locals j := by
  by_cases hj : j < locals.length
  · simp [slot, List.getElem?_append_left hj]
  · rw [slot_of_length_le (Nat.le_of_not_lt hj)]
    simp only [slot, List.getD_eq_getElem?_getD]
    rw [List.getElem?_append_right (Nat.le_of_not_lt hj), List.getElem?_replicate]
    split <;> rfl

theorem slot_set {locals : List NamedType} {k : Nat} {t : NamedType} (hk : k < locals.length)
    (j : Nat) : slot (locals.set k t) j = if j = k then t else slot locals j := by
  simp only [slot, List.getD_eq_getElem?_getD, List.getElem?_set]
  by_cases hjk : j = k
  · subst hjk
    simp [hk]
  · rw [if_neg (fun h => hjk h.symm), if_neg hjk]

theorem slot_breakWide (locals : List NamedType) (k j : Nat) :
    slot (breakWide locals k) j =
      if j + 1 = k ∧ (slot locals j).isWide then .top else slot locals j := by
  unfold breakWide
  cases k with
  | zero => simp
  | succ k =>
    simp only [Nat.add_right_cancel_iff]
    by_cases hw : (slot locals k).isWide
    · have hk : k < locals.length := lt_length_of_slot (by rintro h; rw [h] at hw; cases hw)
      rw [if_pos (by simpa [slot] using hw), slot_set hk]
      by_cases hj : j = k
      · subst hj
        rw [if_pos rfl, if_pos ⟨rfl, hw⟩]
      · rw [if_neg hj, if_neg (fun hc => hj hc.1)]
    · rw [if_neg (by simpa [slot] using hw)]
      split
      · rename_i hc
        exact absurd (hc.1 ▸ hc.2) hw
      · rfl

/-- What a store does to each slot. -/
theorem slot_store (locals : List NamedType) (k : Nat) (t : NamedType) (j : Nat) :
    slot (store locals k t) j =
      if j = k then t
      else if t.isWide ∧ j = k + 1 then .top
      else if j + 1 = k ∧ (slot locals j).isWide then .top
      else slot locals j := by
  have hlen : ∀ l : List NamedType, (breakWide l k).length = l.length := by
    intro l
    unfold breakWide
    split
    · rfl
    · split <;> simp
  have hslots := slots_of_isWide (t := t)
  unfold store
  simp only
  by_cases hw : t.isWide
  · rw [if_pos hw] at hslots ⊢
    rw [slot_set (by simp [hlen]; omega), slot_set (by simp [hlen]; omega), slot_breakWide,
      slot_append_top]
    by_cases hjk : j = k
    · subst hjk
      simp
    · simp [hjk, hw]
  · rw [if_neg hw] at hslots ⊢
    rw [slot_set (by simp [hlen]; omega), slot_breakWide, slot_append_top]
    simp [hw]

theorem Closed.store {locals : List NamedType} (hc : Closed locals) (k : Nat) (t : NamedType) :
    Closed (store locals k t) := by
  intro j hw
  have hslots := slots_of_isWide (t := t)
  have htop : ∀ {P : Prop}, (VType.top : NamedType).isWide → P := fun h => by cases h
  rw [slot_store] at hw
  rw [length_store, slot_store]
  split at hw
  · subst_vars
    rw [if_pos hw] at hslots
    refine ⟨by omega, ?_⟩
    rw [if_neg (by omega), if_pos ⟨hw, rfl⟩]
  · split at hw
    · exact htop hw
    · split at hw
      · exact htop hw
      · rename_i hjk hj hbroken
        obtain ⟨hlen, hnext⟩ := hc j hw
        have hne : j + 1 ≠ k := fun h => hbroken ⟨h, hw⟩
        refine ⟨by omega, ?_⟩
        rw [if_neg hne]
        split
        · rfl
        · split
          · rfl
          · exact hnext

/-! ## Frames -/

/-- The first frame covers the second. -/
structure Covers (h : Hierarchy) (site : Nat → Nat → Prop) (g f : Frame) : Prop where
  stack : List.Forall₂ (VType.Covers h site) g.stack f.stack
  locals : ∀ k, VType.Covers h site (slot g.locals k) (slot f.locals k)

/-- Wide locals are whole, and every value on the stack can be used. -/
structure Sound (f : Frame) : Prop where
  closed : Closed f.locals
  usable : .top ∉ f.stack

variable {site : Nat → Nat → Prop} {f f' g m : Frame} {mode : Mode}

theorem covers_refl (f : Frame) : Covers h (· = ·) f f where
  stack := List.forall₂_same.mpr fun _ _ => VType.covers_refl _
  locals _ := VType.covers_refl _

theorem Covers.trans (hl : h.Lawful) {e f g : Frame} (hgf : Covers h (· = ·) g f)
    (hfe : Covers h site f e) : Covers h site g e where
  stack := by
    have hfe := hfe.stack
    have hgf := hgf.stack
    revert hfe hgf
    generalize g.stack = gs
    generalize f.stack = fs
    generalize e.stack = es
    intro hfe hgf
    induction hgf generalizing es with
    | nil => cases hfe; exact .nil
    | cons hd _ ih =>
      cases hfe with
      | cons hd' tl' => exact .cons (hd.trans hl hd') (ih _ tl')
  locals k := (hgf.locals k).trans hl (hfe.locals k)

/-- Below a stack whose values can be used there are only values that can be used. -/
theorem Covers.usable (hc : Covers h site g f) (hg : .top ∉ g.stack) : .top ∉ f.stack := by
  have hs := hc.stack
  revert hs hg
  generalize g.stack = gs
  generalize f.stack = fs
  intro hg hs
  induction hs with
  | nil => simp
  | cons hd _ ih =>
    rw [List.mem_cons, not_or] at hg ⊢
    exact ⟨fun hf => hg.1 ((hf ▸ hd).eq_top).symm, ih hg.2⟩

/-- Frames that are comparable take up the same room on the stack. -/
theorem Covers.depth_eq (hc : Covers h site g f) (hg : .top ∉ g.stack) : f.depth = g.depth := by
  have hs := hc.stack
  unfold depth
  generalize 0 = n
  revert hs hg
  generalize g.stack = gs
  generalize f.stack = fs
  intro hg hs
  induction hs generalizing n with
  | nil => rfl
  | cons hd _ ih =>
    rw [List.mem_cons, not_or] at hg
    rw [List.foldl_cons, List.foldl_cons, hd.slots_eq (Ne.symm hg.1)]
    exact ih _ hg.2

/-! ## Frames that meet -/

theorem mergeStacks_eq_ok {a b s : List NamedType} :
    mergeStacks h mode a b = .ok s ↔
      List.Forall₂ (fun (p : NamedType × NamedType) t => h.mergeEntries mode p.1 p.2 = .ok t)
        (a.zip b) s := by
  unfold mergeStacks
  rw [bind_eq_ok]
  constructor
  · rintro ⟨r, hr, hs⟩
    rw [← pure_eq_ok.mp hs, ← List.forall₂_reverse_iff, List.reverse_reverse]
    exact mapM_eq_ok.mp hr
  · intro hs
    refine ⟨s.reverse, mapM_eq_ok.mpr ?_, by rw [List.reverse_reverse]; rfl⟩
    exact List.forall₂_reverse_iff.mpr hs

theorem mergeEntries_eq_ok {a b t : NamedType} (ht : h.mergeEntries mode a b = .ok t) :
    t = h.mergeTypes a b ∧ (mode = .strict → t = .top → a = .top) := by
  unfold Hierarchy.mergeEntries at ht
  simp only at ht
  split at ht
  · cases ht
  · rename_i hok
    rw [Except.ok.injEq] at ht
    refine ⟨ht.symm, fun hmode htop => ?_⟩
    by_cases hab : a = b
    · rw [← hab, VType.mergeTypes_self] at ht
      rw [ht, htop]
    · exact absurd ⟨ht.trans htop, hab, .inl hmode⟩ hok

/-- Where values below one that can be used meet on the stack, the result is below it, too. -/
theorem mergeEntries_of_covers (hl : h.Lawful) (hs : VType.SiteMap site) {a b c : NamedType}
    (ha : VType.Covers h site c a) (hb : VType.Covers h site c b) (hc : c ≠ .top) :
    h.mergeEntries mode a b = .ok (h.mergeTypes a b) := by
  unfold Hierarchy.mergeEntries
  have := (VType.Covers.merge hl hs ha hb).ne_top hc
  simp [this]

theorem merge_eq_ok {r : Option Frame} (hm : f.merge h mode f' = .ok r) :
    f.stack.length = f'.stack.length ∧ ∃ stack, mergeStacks h mode f.stack f'.stack = .ok stack ∧
      r = if stack = f.stack ∧ mergeLocals h f.locals f'.locals = trim f.locals then none
        else some ⟨mergeLocals h f.locals f'.locals, stack⟩ := by
  rw [merge_eq] at hm
  split at hm
  · exact absurd hm throw_ne_ok
  · rename_i hlen
    obtain ⟨stack, hstack, hm⟩ := bind_eq_ok.mp hm
    exact ⟨by simpa using hlen, stack, hstack, (pure_eq_ok.mp hm).symm⟩

theorem zipWith_eq_map_zip {α β γ : Type} (f : α → β → γ) (as : List α) (bs : List β) :
    List.zipWith f as bs = (as.zip bs).map fun p => f p.1 p.2 :=
  (List.map_zip_eq_zipWith (f := fun p : α × β => f p.1 p.2)).symm

/-- The types of stacks that meet are those of their entries. -/
theorem mergeStacks_eq_zipWith {a b s : List NamedType} (hs : mergeStacks h mode a b = .ok s) :
    s = List.zipWith h.mergeTypes a b := by
  rw [zipWith_eq_map_zip, ← List.forall₂_eq_eq_eq, List.forall₂_map_right_iff]
  refine (List.Forall₂.imp ?_ (mergeStacks_eq_ok.mp hs)).flip
  exact fun p t ht => (mergeEntries_eq_ok ht).1

/-- What a frame is after another one has met it. -/
structure Merged (h : Hierarchy) (f f' m : Frame) : Prop where
  stack : m.stack = List.zipWith h.mergeTypes f.stack f'.stack
  locals : ∀ k, slot m.locals k = h.mergeTypes (slot f.locals k) (slot f'.locals k)
  closed : Closed m.locals
  length : f.stack.length = f'.stack.length

theorem merge_merged (hf : Closed f.locals) (hf' : Closed f'.locals) {r : Option Frame}
    (hm : f.merge h mode f' = .ok r) : Merged h f f' (r.getD f) := by
  obtain ⟨hlen, stack, hstack, rfl⟩ := merge_eq_ok hm
  have hzip := mergeStacks_eq_zipWith hstack
  split
  · rename_i hsame
    refine ⟨hsame.1 ▸ hzip, fun k => ?_, hf, hlen⟩
    rw [Option.getD_none, ← slot_mergeLocals hf hf', hsame.2, slot_trim]
  · exact ⟨hzip, slot_mergeLocals hf hf', closed_mergeLocals hf hf', hlen⟩

theorem Merged.covers_left (hl : h.Lawful) (hm : Merged h f f' m) : Covers h (· = ·) m f where
  stack := by
    rw [hm.stack, List.forall₂_iff_get]
    have := hm.length
    refine ⟨by simp; omega, fun i _ _ => ?_⟩
    simp only [List.get_eq_getElem, List.getElem_zipWith]
    exact VType.covers_merge_left hl _ _
  locals k := hm.locals k ▸ VType.covers_merge_left hl _ _

theorem Merged.covers_right (hl : h.Lawful) (hm : Merged h f f' m) : Covers h (· = ·) m f' where
  stack := by
    rw [hm.stack, List.forall₂_iff_get]
    have := hm.length
    refine ⟨by simp; omega, fun i _ _ => ?_⟩
    simp only [List.get_eq_getElem, List.getElem_zipWith]
    exact VType.covers_merge_right hl _ _
  locals k := hm.locals k ▸ VType.covers_merge_right hl _ _

/-- What covers both sides covers the frame where they meet. -/
theorem Merged.covered (hl : h.Lawful) (hs : VType.SiteMap site) (hm : Merged h f f' m)
    (hf : Covers h site g f) (hf' : Covers h site g f') : Covers h site g m where
  stack := by
    have h1 := List.forall₂_iff_get.mp hf.stack
    have h2 := List.forall₂_iff_get.mp hf'.stack
    rw [hm.stack, List.forall₂_iff_get]
    refine ⟨by simp; omega, fun i hi hi' => ?_⟩
    simp only [List.get_eq_getElem, List.getElem_zipWith]
    exact VType.Covers.merge hl hs (h1.2 i hi (by omega)) (h2.2 i hi (by omega))
  locals k := hm.locals k ▸ VType.Covers.merge hl hs (hf.locals k) (hf'.locals k)

/-- If the code is not trusted, values that cannot be used never come out of a merge. -/
theorem merge_usable {r : Option Frame} (hf : .top ∉ f.stack)
    (hm : f.merge h .strict f' = .ok r) : .top ∉ (r.getD f).stack := by
  obtain ⟨hlen, stack, hstack, rfl⟩ := merge_eq_ok hm
  have hall := mergeStacks_eq_ok.mp hstack
  split
  · exact hf
  · intro htop
    obtain ⟨i, hi, htop⟩ := List.getElem_of_mem (show _ ∈ stack from htop)
    obtain ⟨hsize, hget⟩ := List.forall₂_iff_get.mp hall
    have := (mergeEntries_eq_ok (hget i (by omega) hi)).2 rfl htop
    simp only [List.get_eq_getElem, List.getElem_zip] at this
    exact hf (this ▸ List.getElem_mem _)

/-- Frames below one whose stack can be used always merge. -/
theorem merge_of_covers (hl : h.Lawful) (hs : VType.SiteMap site) (hg : .top ∉ g.stack)
    (hf : Covers h site g f) (hf' : Covers h site g f') : ∃ r, f.merge h mode f' = .ok r := by
  have hlen : f.stack.length = f'.stack.length :=
    hf.stack.length_eq.symm.trans hf'.stack.length_eq
  have hstack : mergeStacks h mode f.stack f'.stack =
      .ok (List.zipWith h.mergeTypes f.stack f'.stack) := by
    rw [mergeStacks_eq_ok, zipWith_eq_map_zip, List.forall₂_map_right_iff,
      List.forall₂_same]
    rintro ⟨a, b⟩ hab
    obtain ⟨i, hi, hab⟩ := List.getElem_of_mem hab
    rw [List.getElem_zip, Prod.mk.injEq] at hab
    have h1 := List.forall₂_iff_get.mp hf.stack
    have h2 := List.forall₂_iff_get.mp hf'.stack
    simp only [List.length_zip] at hi
    have hi' : i < g.stack.length := by omega
    refine mergeEntries_of_covers hl hs (c := g.stack[i]) ?_ ?_ ?_
    · exact hab.1 ▸ h1.2 i hi' (by omega)
    · exact hab.2 ▸ h2.2 i hi' (by omega)
    · exact fun htop => hg (htop ▸ List.getElem_mem _)
  rw [merge_eq]
  rw [if_neg (by simpa using hlen)]
  exact ⟨_, bind_eq_ok.mpr ⟨_, hstack, rfl⟩⟩

end Frame
end ClassWeave
